import ChibiScheme.SyntaxRules.Instance
import ChibiScheme.SyntaxRules.Matching

/-!
# Instantiation

The code of `expand-template` for a whole template.  A template whose subtemplates with several
ellipses are plain variables is instantiated as it is written; the code for any other subtemplate
with several ellipses runs over one level of the variables only.
-/

namespace ChibiScheme.SyntaxRules

open List Option

variable {ι : Type} [DecidableEq ι] {s : Rules ι} {er : Renaming ι} {vars : List (ι × ℕ)}

namespace Template

/-! ## The code of a plain template -/

variable {head : Template ι} {x : ι} {esc : Bool} {dim d : ℕ}

theorem freeVars_of_plain (hplain : head.plain = some x) (hmarked : head.Marked s esc)
    (hnoVar : ∀ m, s.ellipsisMark (.ident m) = true → depthOf vars m = none)
    (hdepth : depthOf vars x = some d) (hdeep : dim ≤ d) :
    Rules.freeVars head.form vars dim [] = [x] := by
  obtain ⟨hmem, hnodup⟩ := freeVars_form hmarked hnoVar dim []
  have hself : x ∈ Rules.freeVars head.form vars dim [] :=
    (hmem x).mpr (.inr ⟨by simp [names_of_plain hplain], d, hdepth, hdeep⟩)
  have honly : ∀ y ∈ Rules.freeVars head.form vars dim [], y = x := by
    intro y hy
    have hname := (hmem y).mp hy
    rw [names_of_plain hplain] at hname
    simpa using (hname.resolve_left (by simp)).1
  have hnodup := hnodup nodup_nil
  cases hlist : Rules.freeVars head.form vars dim [] with
  | nil => simp [hlist] at hself
  | cons y ys =>
    rw [hlist] at honly hnodup
    obtain rfl : y = x := honly y (by simp)
    cases ys with
    | nil => rfl
    | cons z ys =>
      obtain rfl : z = y := honly z (by simp)
      simp at hnodup

theorem runs_plain (hplain : head.plain = some x) (hmarked : head.Marked s esc)
    (hnoVar : ∀ m, s.ellipsisMark (.ident m) = true → depthOf vars m = none)
    (htyped : head.Typed vars dim) (hdepth : depthOf vars x = some d) (hdeep : dim ≤ d) :
    ∃ once, s.templateLp vars head.form dim esc = .ok once ∧
      ∀ ρ v, lookup ρ (.user x) = some v → Nested head.layers v → Runs er ρ once v := by
  have hvariable : ∀ (dim : ℕ) (esc : Bool), d ≤ dim →
      s.templateLp vars (.ident x) dim esc = .ok (.var (.user x)) := by
    intro dim esc hmost
    rw [templateLp_name, hdepth]
    simp [hmost]
  induction head generalizing esc dim with
  | name y =>
    obtain rfl : y = x := by simpa [plain] using hplain
    exact ⟨_, hvariable dim esc (htyped d hdepth), fun ρ v hlookup _ => runs_var hlookup⟩
  | ellipsis head mark more tail ih_head ih_tail =>
    cases more with
    | cons m more => simp [plain] at hplain
    | nil =>
      cases tail with
      | nil =>
        have hinner : head.plain = some x := by simpa [plain] using hplain
        obtain ⟨rfl, hmarks, hheadMarked, _⟩ := id hmarked
        obtain ⟨⟨y, hy, d', hdepth', hmore⟩, hheadTyped, _⟩ := htyped
        rw [names_of_plain hinner, mem_singleton] at hy
        rw [hy, hdepth] at hdepth'
        obtain rfl := some.inj hdepth'
        obtain ⟨once, honce, hruns⟩ := ih_head hinner hheadMarked hheadTyped hmore
        have hfree := freeVars_of_plain hinner hheadMarked hnoVar hdepth hmore
        have hnil : s.templateLp vars Template.nil.form dim false = .ok (.quote .nil) := by
          rw [form, Rules.templateLp]
          rfl
        rw [templateLp_ellipsis hmarked (by rw [hfree]; simp) honce hnil, hfree]
        by_cases hident : head.form.isIdent = true
        · refine ⟨once, by simp [form, Form.isNull, hident], fun ρ v hlookup hnested => ?_⟩
          exact hruns ρ v hlookup hnested.of_succ
        · refine ⟨manyCode [x] 0 once, by simp [form, Form.isNull, hident],
            fun ρ v hlookup hnested => ?_⟩
          exact runs_mapVariable hlookup hnested.1 fun a ha =>
            hruns _ a (lookup_bind_self _ _ _) (hnested.2 a ha)
      | _ => simp [plain] at hplain
  | escape mark body ih =>
    cases body with
    | name y =>
      obtain rfl : y = x := by simpa [plain] using hplain
      obtain ⟨rfl, hmark, _⟩ := hmarked
      rw [templateLp_escape hmark]
      exact ⟨_, hvariable dim true (htyped d hdepth), fun ρ v hlookup _ => runs_var hlookup⟩
    | _ => simp [plain] at hplain
  | _ => simp [plain] at hplain

omit [DecidableEq ι] in
theorem flatLevels_one (v : Form ι) : flatLevels 1 v = v.cars := by
  simp only [flatLevels]
  exact flatMap_singleton' v.cars

variable {ρ : Env ι} {v : Form ι} {k : ℕ}

theorem runs_manyAppend {c : Code ι} (hv : Runs er ρ c v) (hnested : Nested (k + 1) v) :
    Runs er ρ ((Code.prim₁ .applyAppend)^[k] c) (.ofList (flatLevels (k + 1) v)) := by
  induction k generalizing c v with
  | zero =>
    rw [flatLevels_one, ← (Form.isList_iff v).mp hnested.1]
    exact hv
  | succ k ih =>
    have hlists : v.cars = (v.cars.map Form.cars).map Form.ofList := by
      rw [List.map_map]
      refine (List.map_id _).symm.trans (map_congr_left fun a ha => ?_)
      exact (Form.isList_iff a).mp (hnested.2 a ha).1
    have happend : Prim₁.apply .applyAppend v = some (.ofList (v.cars.map Form.cars).flatten) := by
      rw [Prim₁.apply, if_pos hnested.1]
      conv_lhs => rw [hlists]
      rw [Form.appendAll_ofList]
    have hlevels : flatLevels (k + 2) v
        = flatLevels (k + 1) (.ofList (v.cars.map Form.cars).flatten) := by
      show v.cars.flatMap (flatLevels (k + 1)) = List.flatMap (flatLevels k) (Form.cars _)
      rw [Form.cars_ofList, ← flatMap_def, flatMap_assoc]
      rfl
    rw [Function.iterate_succ_apply, hlevels]
    refine ih (runs_prim₁ hv happend) ⟨Form.isList_ofList _, fun a ha => ?_⟩
    rw [Form.cars_ofList, mem_flatten] at ha
    obtain ⟨l, hl, ha⟩ := ha
    obtain ⟨b, hb, rfl⟩ := List.mem_map.mp hl
    exact (hnested.2 b hb).2 a ha

/-! ## The instances of a plain template -/

variable {β : Binding ι} {bs : List (Binding ι)}

theorem allRows_variable {e : ℕ} (h_β : β x = some (k + e, v)) (h : allRows [x] k β = some bs) :
    Nested k v ∧ bs.map (fun β => β x) = (flatLevels k v).map fun a => some (e, a) := by
  induction k generalizing β v bs with
  | zero =>
    obtain rfl : bs = [β] := by simpa [allRows] using h.symm
    refine ⟨trivial, ?_⟩
    rw [Nat.zero_add] at h_β
    simp [flatLevels, h_β]
  | succ k ih =>
    simp only [allRows, Option.pure_def, bind_eq_bind, bind_eq_some_iff] at h
    obtain ⟨outer, houter, inner, hinner, heq⟩ := h
    obtain rfl := some.inj heq
    rw [Nat.add_right_comm] at h_β
    obtain ⟨count, rfl, hlists⟩ := rows_eq_some houter
    obtain ⟨hlist, hcount⟩ := hlists x (by simp) (k + e) v h_β
    -- the rows have the elements of the outermost level, in their order
    have hrows : ((List.range count).map (row [x] β)).map (fun β => β x)
        = v.cars.map fun a => some (k + e, a) := by
      refine ext_getElem (by simp [hcount]) fun i hi hi' => ?_
      have hindex : i < v.cars.length := by simpa using hi'
      simp [row, h_β, hindex]
    have hall : ∀ (βs : List (Binding ι)) (items : List (Form ι)) (bss : List (List (Binding ι))),
        βs.map (fun β => β x) = (items.map fun a => some (k + e, a)) →
        List.Forall₂ (fun β bs => allRows [x] k β = some bs) βs bss →
        (∀ a ∈ items, Nested k a) ∧ bss.flatten.map (fun β => β x) =
          (items.flatMap (flatLevels k)).map fun a => some (e, a) := by
      intro βs
      induction βs with
      | nil =>
        intro items bss hitems hbss
        obtain rfl : items = [] := by simpa using hitems.symm
        obtain rfl := List.forall₂_nil_left_iff.mp hbss
        simp
      | cons β' βs ih_list =>
        intro items bss hitems hbss
        cases items with
        | nil => simp at hitems
        | cons a items =>
          cases hbss with
          | cons hfirst hrest =>
            rw [map_cons, map_cons, List.cons.injEq] at hitems
            obtain ⟨hnested, hmap⟩ := ih hitems.1 hfirst
            obtain ⟨hnestedAll, hmapAll⟩ := ih_list items _ hitems.2 hrest
            refine ⟨?_, by simp [hmap, hmapAll]⟩
            intro b hb
            rcases mem_cons.mp hb with rfl | hb
            · exact hnested
            · exact hnestedAll b hb
    obtain ⟨hnested, hmap⟩ := hall _ _ _ hrows (forall₂_of_mapM hinner)
    exact ⟨⟨hlist, hnested⟩, hmap⟩

variable {items : List (Form ι)}

theorem instances_variable {e : ℕ}
    (hhead : ∀ (β : Binding ι) v r, β x = some (e, v) → head.inst er β = some r →
      r = v ∧ Nested e v) {vs : List (Form ι)}
    (hbs : bs.map (fun β => β x) = vs.map fun a => some (e, a))
    (hitems : bs.mapM (head.inst er) = some items) : items = vs ∧ ∀ a ∈ vs, Nested e a := by
  have heach := forall₂_of_mapM hitems
  clear hitems
  induction heach generalizing vs with
  | nil =>
    obtain rfl : vs = [] := by simpa using hbs.symm
    simp
  | @cons β r bs items hr _ ih =>
    cases vs with
    | nil => simp at hbs
    | cons v vs =>
      rw [map_cons, map_cons, List.cons.injEq] at hbs
      obtain ⟨rfl, hnested⟩ := hhead β v r hbs.1 hr
      obtain ⟨rfl, hnestedAll⟩ := ih hbs.2
      exact ⟨rfl, by simpa using ⟨hnested, hnestedAll⟩⟩

theorem inst_of_plain (hplain : head.plain = some x) {r : Form ι}
    (h_β : β x = some (head.layers, v)) (hr : head.inst er β = some r) :
    r = v ∧ Nested head.layers v := by
  induction head generalizing β v r with
  | name y =>
    obtain rfl : y = x := by simpa [plain] using hplain
    have hlevel : β y = some (0, v) := h_β
    simp only [inst, hlevel] at hr
    exact ⟨(some.inj hr).symm, trivial⟩
  | ellipsis head mark more tail ih_head ih_tail =>
    cases more with
    | cons m more => simp [plain] at hplain
    | nil =>
      cases tail with
      | nil =>
        have hinner : head.plain = some x := by simpa [plain] using hplain
        simp only [inst, Option.pure_def, bind_eq_bind, bind_eq_some_iff,
          names_of_plain hinner] at hr
        obtain ⟨bs, hbs, items, hitems, rest, hrest, heq⟩ := hr
        obtain rfl := some.inj hrest
        obtain rfl := some.inj heq
        rw [layers, Nat.add_comm] at h_β
        obtain ⟨hlist, hmap⟩ := allRows_variable h_β hbs
        obtain ⟨rfl, hnested⟩ := instances_variable
          (fun β v r h_β hr => ih_head hinner h_β hr) hmap hitems
        rw [length_nil, Nat.zero_add, flatLevels_one] at *
        exact ⟨((Form.isList_iff v).mp hlist.1).symm, hlist.1, hnested⟩
      | _ => simp [plain] at hplain
  | escape mark body ih =>
    cases body with
    | name y =>
      obtain rfl : y = x := by simpa [plain] using hplain
      have hlevel : β y = some (0, v) := h_β
      simp only [inst, hlevel] at hr
      exact ⟨(some.inj hr).symm, trivial⟩
    | _ => simp [plain] at hplain
  | _ => simp [plain] at hplain

/-! ## Whole templates -/

theorem isList_inst {body : Template ι} (hproper : body.proper = true)
    (hv : body.inst er β = some v) : v.isList = true := by
  induction body generalizing v with
  | nil =>
    obtain rfl := some.inj hv
    rfl
  | cons head rest ih_head ih_rest =>
    simp only [inst, Option.pure_def, bind_eq_bind, bind_eq_some_iff] at hv
    obtain ⟨a, _, d, hd, heq⟩ := hv
    obtain rfl := some.inj heq
    have hlist : d.isList = true := ih_rest hproper hd
    exact hlist
  | ellipsis head mark more tail ih_head ih_tail =>
    simp only [inst, Option.pure_def, bind_eq_bind, bind_eq_some_iff] at hv
    obtain ⟨_, _, items, _, rest, hrest, heq⟩ := hv
    obtain rfl := some.inj heq
    have hlist := ih_tail hproper hrest
    simpa [Form.isList] using hlist
  | _ => simp [proper] at hproper

theorem freeVars_ne_nil (hmarked : head.Marked s esc)
    (hnoVar : ∀ m, s.ellipsisMark (.ident m) = true → depthOf vars m = none)
    (hdeep : ∃ x ∈ head.names, ∃ d, depthOf vars x = some d ∧ dim ≤ d) :
    Rules.freeVars head.form vars dim [] ≠ [] := by
  obtain ⟨x, hx, hdepth⟩ := hdeep
  exact ne_nil_of_mem (((freeVars_form hmarked hnoVar dim []).1 x).mpr (.inr ⟨hx, hdepth⟩))

theorem runs_single {once : Code ι}
    (hmarked : head.Marked s false)
    (hnoVar : ∀ m, s.ellipsisMark (.ident m) = true → depthOf vars m = none)
    (hdeep : ∃ x ∈ head.names, ∃ d, depthOf vars x = some d ∧ dim + 1 ≤ d)
    (honce : ∀ ρ β r, Agrees vars (dim + 1) head.names ρ β → head.inst er β = some r →
      Runs er ρ once r) (hagrees : Agrees vars dim head.names ρ β)
    (hbs : allRows head.names 1 β = some bs)
    (hitems : bs.mapM (head.inst er) = some items) :
    Runs er ρ (manyCode (Rules.freeVars head.form vars (dim + 1) []) 0 once) (.ofList items) := by
  obtain ⟨hmem, hnodup⟩ := freeVars_form hmarked hnoVar (dim + 1) []
  have hrows : rows head.names β = some bs := by
    simp only [allRows, Option.pure_def, bind_eq_bind, bind_eq_some_iff] at hbs
    obtain ⟨outer, houter, inner, hinner, heq⟩ := hbs
    obtain rfl := some.inj heq
    have hsingle : inner.flatten = outer := by
      have heach := forall₂_of_mapM hinner
      clear hinner houter hitems
      induction heach with
      | nil => rfl
      | cons hfirst _ ih =>
        obtain rfl := some.inj hfirst
        simp [ih]
    rw [houter, hsingle]
  exact runs_instances honce (fun x => by simpa using hmem x) (hnodup nodup_nil)
    (freeVars_ne_nil hmarked hnoVar hdeep) hagrees hrows hitems

theorem runs_several (hplain : head.plain = some x) (htyped : head.Typed vars (dim + (k + 1)))
    (hdepth : depthOf vars x = some d) (hdeep : dim + (k + 1) ≤ d) {once : Code ι}
    (honce : ∀ ρ v, lookup ρ (.user x) = some v → Nested head.layers v → Runs er ρ once v)
    (hagrees : Agrees vars dim head.names ρ β) (hbs : allRows head.names (k + 1) β = some bs)
    (hitems : bs.mapM (head.inst er) = some items) :
    ∃ v, lookup ρ (.user x) = some v ∧ Nested (k + 1 + head.layers) v ∧
      items = flatLevels (k + 1) v ∧ Runs er ρ (manyCode [x] k once) (.ofList items) := by
  rw [names_of_plain hplain] at hagrees hbs
  obtain ⟨v, h_β, hlookup⟩ := hagrees.some (by simp) hdepth
  have hlevel : d - dim = k + 1 + head.layers := by
    have heq := depth_of_plain hplain htyped hdepth hdeep
    omega
  rw [hlevel] at h_β
  obtain ⟨hnested, hmap⟩ := allRows_variable h_β hbs
  obtain ⟨rfl, hinner⟩ := instances_variable (fun β v r => inst_of_plain hplain) hmap hitems
  have hall := hnested.add hinner
  refine ⟨v, hlookup, hall, rfl, runs_manyAppend ?_ hnested⟩
  refine runs_mapVariable hlookup hnested.1 fun a ha => ?_
  have ha : Nested (k + head.layers) a := by
    rw [Nat.add_right_comm] at hall
    exact hall.2 a ha
  exact honce _ a (lookup_bind_self _ _ _) ha.of_add

theorem runs_repeated (hmarked : head.Marked s false)
    (hnoVar : ∀ m, s.ellipsisMark (.ident m) = true → depthOf vars m = none)
    (hdeep : ∃ x ∈ head.names, ∃ d, depthOf vars x = some d ∧ dim + (k + 1) ≤ d)
    (htyped : head.Typed vars (dim + (k + 1))) (hplain : k = 0 ∨ head.plain.isSome = true)
    (hhead : ∃ once, s.templateLp vars head.form (dim + (k + 1)) false = .ok once ∧
      ∀ ρ β r, Agrees vars (dim + (k + 1)) head.names ρ β → head.inst er β = some r →
        Runs er ρ once r) :
    ∃ once, s.templateLp vars head.form (dim + (k + 1)) false = .ok once ∧
      ∀ ρ β bs items, Agrees vars dim head.names ρ β → allRows head.names (k + 1) β = some bs →
        bs.mapM (head.inst er) = some items →
        Runs er ρ (manyCode (Rules.freeVars head.form vars (dim + (k + 1)) []) k once)
          (.ofList items) ∧
        (k = 0 → head.form.isIdent = true → Runs er ρ once (.ofList items)) := by
  cases hvariable : head.plain with
  | some x =>
    obtain ⟨y, hy, d, hdepth, hle⟩ := hdeep
    rw [names_of_plain hvariable, mem_singleton] at hy
    subst hy
    obtain ⟨once, hcode, honce⟩ :=
      runs_plain hvariable hmarked hnoVar htyped hdepth hle
    refine ⟨once, hcode, fun ρ β bs items hagrees hbs hitems => ?_⟩
    obtain ⟨v, hlookup, hnested, rfl, hruns⟩ := runs_several hvariable htyped hdepth hle
      honce hagrees hbs hitems
    rw [freeVars_of_plain hvariable hmarked hnoVar hdepth hle]
    refine ⟨hruns, fun hzero _ => ?_⟩
    subst hzero
    have hlist : v.isList = true := by
      rw [Nat.add_right_comm] at hnested
      exact hnested.1
    rw [flatLevels_one, ← (Form.isList_iff v).mp hlist]
    exact honce ρ v hlookup hnested.of_add
  | none =>
    have hzero : k = 0 := hplain.resolve_right (by simp [hvariable])
    subst hzero
    obtain ⟨once, hcode, honce⟩ := hhead
    refine ⟨once, hcode, fun ρ β bs items hagrees hbs hitems => ⟨?_, fun _ hident => ?_⟩⟩
    · exact runs_single hmarked hnoVar hdeep honce hagrees hbs hitems
    · cases head with
      | name y => simp [plain] at hvariable
      | _ => simp [form, Form.isIdent] at hident

theorem runs_inst {t : Template ι} (hmarked : t.Marked s esc)
    (hnoVar : ∀ m, s.ellipsisMark (.ident m) = true → depthOf vars m = none)
    (htyped : t.Typed vars dim) (hplain : t.plainRepeats = true) :
    ∃ code, s.templateLp vars t.form dim esc = .ok code ∧
      ∀ ρ β r, Agrees vars dim t.names ρ β → t.inst er β = some r → Runs er ρ code r := by
  induction t generalizing esc dim with
  | name x =>
    rw [form, templateLp_name]
    cases hdepth : depthOf vars x with
    | none =>
      refine ⟨_, rfl, fun ρ β r hagrees hr => ?_⟩
      simp only [inst, hagrees.none (by simp [names]) hdepth] at hr
      obtain rfl := some.inj hr
      exact runs_rename x
    | some d =>
      have hmost : d ≤ dim := htyped d hdepth
      refine ⟨_, if_pos hmost, fun ρ β r hagrees hr => ?_⟩
      obtain ⟨v, h_β, hlookup⟩ := hagrees.some (by simp [names]) hdepth
      rw [Nat.sub_eq_zero_of_le hmost] at h_β
      simp only [inst, h_β] at hr
      obtain rfl := some.inj hr
      exact runs_var hlookup
  | datum a =>
    refine ⟨.datum a, by rw [form, Rules.templateLp]; rfl, fun ρ β r _ hr => ?_⟩
    obtain rfl := some.inj hr
    exact runs_datum a
  | nil =>
    refine ⟨.quote .nil, by rw [form, Rules.templateLp]; rfl, fun ρ β r _ hr => ?_⟩
    obtain rfl := some.inj hr
    exact runs_quote .nil
  | cons head rest ih_head ih_rest =>
    have hboth : head.plainRepeats = true ∧ rest.plainRepeats = true := by
      simpa [plainRepeats] using hplain
    obtain ⟨car, hcar, hrunsCar⟩ := ih_head hmarked.1 htyped.1 hboth.1
    obtain ⟨cdr, hcdr, hrunsCdr⟩ := ih_rest hmarked.2.1 htyped.2 hboth.2
    refine ⟨_, templateLp_cons hmarked hcar hcdr, fun ρ β r hagrees hr => ?_⟩
    simp only [inst, Option.pure_def, bind_eq_bind, bind_eq_some_iff] at hr
    obtain ⟨a, ha, d, hd, heq⟩ := hr
    obtain rfl := some.inj heq
    refine runs_consSource (hrunsCar ρ β a ?_ ha) (hrunsCdr ρ β d ?_ hd) (runs_quote _)
    · exact hagrees.mono fun x hx => by simp [names, hx]
    · exact hagrees.mono fun x hx => by simp [names, hx]
  | vec body ih =>
    obtain ⟨all, hall, hruns⟩ := ih hmarked.1 htyped hplain
    refine ⟨.prim₁ .listToVector all, ?_, fun ρ β r hagrees hr => ?_⟩
    · rw [form, Rules.templateLp, ofList_cars_form hmarked.2, hall]
      rfl
    · simp only [inst, Option.pure_def, bind_eq_bind, bind_eq_some_iff] at hr
      obtain ⟨v, hv, heq⟩ := hr
      obtain rfl := some.inj heq
      refine runs_prim₁ (hruns ρ β v hagrees hv) ?_
      rw [Prim₁.apply, if_pos (isList_inst hmarked.2 hv)]
  | escape mark body ih =>
    obtain ⟨rfl, hmark, hbody⟩ := hmarked
    obtain ⟨code, hcode, hruns⟩ := ih hbody htyped hplain
    exact ⟨code, by rw [templateLp_escape hmark, hcode], hruns⟩
  | ellipsis head mark more tail ih_head ih_tail =>
    obtain ⟨rfl, hmarks, hheadMarked, htailMarked, hescape⟩ := id hmarked
    obtain ⟨hdeep, hheadTyped, htailTyped⟩ := htyped
    have hparts : (more.isEmpty = true ∨ head.plain.isSome = true) ∧
        head.plainRepeats = true ∧ tail.plainRepeats = true := by
      simpa [plainRepeats, and_assoc] using hplain
    obtain ⟨hmany, hheadPlain, htailPlain⟩ := hparts
    obtain ⟨rest, hrest, hrunsRest⟩ := ih_tail htailMarked htailTyped htailPlain
    have hev := freeVars_ne_nil hheadMarked hnoVar hdeep
    have hzero : more.length = 0 ∨ head.plain.isSome = true := by simpa using hmany
    obtain ⟨once, honce, hrepeated⟩ := runs_repeated hheadMarked hnoVar hdeep hheadTyped
      hzero (ih_head hheadMarked hheadTyped hheadPlain)
    have hcode := templateLp_ellipsis hmarked hev honce hrest
    rw [hcode]
    -- what the pieces of an instance are
    have hpieces : ∀ ρ β r, Agrees vars dim (Template.ellipsis head mark more tail).names ρ β →
        (Template.ellipsis head mark more tail).inst er β = some r →
        ∃ items v, r = .listTail items v ∧ Runs er ρ rest v ∧ tail.inst er β = some v ∧
          Runs er ρ (manyCode (Rules.freeVars head.form vars (dim + (more.length + 1)) [])
            more.length once) (.ofList items) ∧
          (more.length = 0 → head.form.isIdent = true → Runs er ρ once (.ofList items)) := by
      intro ρ β r hagrees hr
      simp only [inst, Option.pure_def, bind_eq_bind, bind_eq_some_iff] at hr
      obtain ⟨bs, hbs, items, hitems, v, hv, heq⟩ := hr
      have hheadAgrees : Agrees vars dim head.names ρ β :=
        hagrees.mono fun x hx => by simp [names, hx]
      have htailAgrees : Agrees vars dim tail.names ρ β :=
        hagrees.mono fun x hx => by simp [names, hx]
      exact ⟨items, v, (some.inj heq).symm, hrunsRest ρ β v htailAgrees hv, hv,
        hrepeated ρ β bs items hheadAgrees hbs hitems⟩
    have hend : tail.form.isNull = true → ∀ β v, tail.inst er β = some v → v = .nil := by
      intro hnull β v hv
      cases tail with
      | nil => exact (some.inj hv).symm
      | _ => simp [form, Form.isNull] at hnull
    split
    · rename_i hshort
      simp only [Bool.and_eq_true, List.isEmpty_iff] at hshort
      refine ⟨once, rfl, fun ρ β r hagrees hr => ?_⟩
      obtain ⟨items, v, rfl, _, hv, _, hruns⟩ := hpieces ρ β r hagrees hr
      rw [hend hshort.1.2 β v hv]
      exact hruns (by simp [hshort.1.1]) hshort.2
    · split
      · rename_i hnull
        refine ⟨_, rfl, fun ρ β r hagrees hr => ?_⟩
        obtain ⟨items, v, rfl, _, hv, hruns, _⟩ := hpieces ρ β r hagrees hr
        rw [hend hnull β v hv]
        exact hruns
      · refine ⟨_, rfl, fun ρ β r hagrees hr => ?_⟩
        obtain ⟨items, v, rfl, hv, _, hruns, _⟩ := hpieces ρ β r hagrees hr
        exact runs_prim₂ hruns hv (congrArg some (Form.append2_ofList items v))

end Template

/-! ## `expand-template` -/

/-- The template is one of the pattern variables `vars` with their depths: ellipses are no
variables, and the depths fit. -/
structure Template.Valid (s : Rules ι) (vars : List (ι × ℕ)) (t : Template ι) : Prop where
  marked : t.Marked s false
  typed : t.Typed vars 0
  noVar : ∀ m, s.ellipsisMark (.ident m) = true → depthOf vars m = none

/-- There is code for a template, and where the variables have values as deep as they are, it
builds the instance. -/
def InstantiatesAsWritten (s : Rules ι) (er : Renaming ι) (vars : List (ι × ℕ))
    (t : Template ι) : Prop :=
  ∃ code, s.expandTemplate t.form vars = .ok code ∧
    ∀ ρ β r, Template.Agrees vars 0 t.names ρ β → t.inst er β = some r → Runs er ρ code r

/-- A template in which only plain variables are followed by several ellipses is instantiated as
it is written. -/
theorem expandTemplate_instantiates (s : Rules ι) (er : Renaming ι) (vars : List (ι × ℕ))
    (t : Template ι) (hvalid : t.Valid s vars) (hplain : t.plainRepeats = true) :
    InstantiatesAsWritten s er vars t :=
  Template.runs_inst hvalid.marked hvalid.noVar hvalid.typed hplain

/-! ## `((x) ... ...)` -/

/-- `(syntax-rules () ...)` -/
def plainRules : Rules String := { elseRules with lits := [] }

theorem plainRules_noVar {vars : List (String × ℕ)} (hvars : "..." ∉ vars.map Prod.fst)
    (m : String) (hmark : plainRules.ellipsisMark (.ident m) = true) : depthOf vars m = none := by
  obtain rfl : "..." = m := by
    simpa [Rules.ellipsisMark, plainRules, elseRules, sameSymbol] using hmark
  rw [depthOf, map_eq_none_iff, find?_eq_none]
  intro cell hcell
  have hne : "..." ≠ cell.1 := fun heq => hvars (heq ▸ List.mem_map_of_mem hcell)
  simpa using hne

/-- The numbers `ns` as a list. -/
def numbers (ns : List Int) : Form String :=
  .ofList (ns.map fun n => .atom (.num n))

/-- `((x) ... ...)` -/
def listedTwice : Template String :=
  .ellipsis (.cons (.name "x") .nil) "..." ["..."] .nil

/-- The code takes `((1 2) (3))` for `x` to `((1 2) (3))`; the instance is `((1) (2) (3))`. -/
theorem listedTwice_not_instance :
    ¬ InstantiatesAsWritten plainRules plainRenaming [("x", 2)] listedTwice := by
  rintro ⟨code, hcode, hruns⟩
  have hmarked : listedTwice.Marked plainRules false :=
    ⟨rfl, by decide, ⟨.inr (by decide), trivial, rfl⟩, trivial, rfl⟩
  have hfree : Rules.freeVars (Template.cons (.name "x") .nil).form [("x", 2)] 2 [] = ["x"] := by
    rw [Template.form, Template.freeVars_pair, Template.form, Template.form, Template.freeVars_nil,
      Template.freeVars_ident]
    decide
  have honce : plainRules.templateLp [("x", 2)] (Template.cons (.name "x") .nil).form 2 false =
      .ok (.consSource (.var (.user "x")) (.quote .nil) (.quote (.pair (.ident "x") .nil))) := by
    refine Template.templateLp_cons hmarked.2.2.1 ?_ ?_
    · exact Template.templateLp_name [("x", 2)] "x" 2 false
    · rw [Template.form, Rules.templateLp]
      rfl
  have hrest : plainRules.templateLp [("x", 2)] Template.nil.form 0 false = .ok (.quote .nil) := by
    rw [Template.form, Rules.templateLp]
    rfl
  have hev : Rules.freeVars (Template.cons (.name "x") .nil).form [("x", 2)]
      (0 + (["..."].length + 1)) [] ≠ [] := by
    rw [show 0 + (["..."].length + 1) = 2 from rfl, hfree]
    simp
  have hbuilt := Template.templateLp_ellipsis hmarked hev honce hrest
  rw [show 0 + (["..."].length + 1) = 2 from rfl, hfree] at hbuilt
  have heq := Except.ok.inj (hcode.symm.trans hbuilt)
  let value : Form String := .ofList [numbers [1, 2], numbers [3]]
  have hinst := hruns [.bind (.user "x") value] (fun y => if y = "x" then some (2, value) else none)
    (.ofList [numbers [1], numbers [2], numbers [3]]) ?_ rfl
  · have hvalue : Runs plainRenaming [.bind (.user "x") value] code value := by
      rw [heq]
      exact ⟨5, rfl⟩
    have hsame := congrArg (fun v => v.cars.length) (hinst.unique hvalue)
    exact absurd hsame (by decide)
  · intro y hy
    obtain rfl : y = "x" := by simpa [listedTwice, Template.names] using hy
    exact ⟨value, rfl, rfl⟩

/-- `((x y ...) ... z ... ...)` -/
def rowsThenAll : Template String :=
  .ellipsis (.cons (.name "x") (.ellipsis (.name "y") "..." [] .nil)) "..." []
    (.ellipsis (.name "z") "..." ["..."] .nil)

/-- The template `((x y ...) ... z ... ...)` is instantiated as it is written. -/
theorem rowsThenAll_instantiates :
    InstantiatesAsWritten plainRules plainRenaming [("x", 1), ("y", 2), ("z", 2)] rowsThenAll := by
  refine expandTemplate_instantiates plainRules plainRenaming _ _ ⟨?_, ?_, ?_⟩ (by decide)
  · exact ⟨rfl, by decide, ⟨.inr (by decide), ⟨rfl, by decide, .inr (by decide), trivial, rfl⟩, rfl⟩,
      ⟨rfl, by decide, .inr (by decide), trivial, rfl⟩, rfl⟩
  · refine ⟨⟨"x", by decide, 1, by decide, by decide⟩, ⟨?_, ⟨"y", by decide, 2, by decide, by decide⟩,
      ?_, trivial⟩, ⟨"z", by decide, 2, by decide, by decide⟩, ?_, trivial⟩
    all_goals
      intro d hd
      obtain rfl := some.inj hd
      decide
  · exact plainRules_noVar (by decide)

end ChibiScheme.SyntaxRules
