import ChibiScheme.SyntaxRules.Matcher
import ChibiScheme.SyntaxRules.Template

/-!
# The generated constructors

The code of `expand-template` evaluates to the instance of the template.  One `map` runs over the
outermost level of the variables, however many ellipses there are, so a subtemplate with several
of them has to be a variable with nothing but escapes and single ellipses around it.
-/

namespace ChibiScheme.SyntaxRules

open List

variable {ι : Type} [DecidableEq ι] {s : Rules ι} {er : Renaming ι} {vars : List (ι × ℕ)}

namespace Template

/-- The depths fit: a variable is below at least as many ellipses as it has levels, and every
subtemplate with ellipses has a variable with a level for each of them. -/
def Typed (vars : List (ι × ℕ)) : Template ι → ℕ → Prop
  | name x, dim => ∀ d, depthOf vars x = some d → d ≤ dim
  | cons head rest, dim => head.Typed vars dim ∧ rest.Typed vars dim
  | ellipsis head _ more tail, dim =>
    (∃ x ∈ head.names, ∃ d, depthOf vars x = some d ∧ dim + (more.length + 1) ≤ d) ∧
    head.Typed vars (dim + (more.length + 1)) ∧ tail.Typed vars dim
  | vec body, dim => body.Typed vars dim
  | escape _ body, dim => body.Typed vars dim
  | _, _ => True

/-- The environment below `dim` ellipses has the values of the bindings, for the identifiers
`xs`. -/
def Agrees (vars : List (ι × ℕ)) (dim : ℕ) (xs : List ι) (ρ : Env ι) (β : Binding ι) : Prop :=
  ∀ x ∈ xs, match depthOf vars x with
    | none => β x = none
    | some d => ∃ v, β x = some (d - dim, v) ∧ lookup ρ (.user x) = some v

variable {dim : ℕ} {xs : List ι} {ρ : Env ι} {β : Binding ι} {x : ι}

theorem Agrees.none (h : Agrees vars dim xs ρ β) (hx : x ∈ xs) (hdepth : depthOf vars x = .none) :
    β x = .none := by
  have hagrees := h x hx
  rw [hdepth] at hagrees
  exact hagrees

theorem Agrees.some (h : Agrees vars dim xs ρ β) (hx : x ∈ xs) {d : ℕ}
    (hdepth : depthOf vars x = .some d) :
    ∃ v, β x = .some (d - dim, v) ∧ lookup ρ (.user x) = .some v := by
  have hagrees := h x hx
  rw [hdepth] at hagrees
  exact hagrees

theorem Agrees.mono {ys : List ι} (h : Agrees vars dim xs ρ β) (hsub : ∀ x ∈ ys, x ∈ xs) :
    Agrees vars dim ys ρ β :=
  fun x hx => h x (hsub x hx)

/-! ## Marks -/

theorem not_mark_form {t : Template ι} (hmarked : t.Marked s false) :
    s.ellipsisMark t.form = false := by
  cases t with
  | name x => exact hmarked.resolve_left (by decide)
  | _ =>
    by_contra hnot
    have hident := s.ident_of_ellipsisMark (by simpa using hnot)
    simp [form, Form.isIdent] at hident

theorem not_isEllipsis_pair {rest : Template ι} (hmarked : rest.Marked s false)
    (hescape : rest.isEscape = false) (a : Form ι) :
    s.isEllipsis (.pair a rest.form) = false := by
  cases rest with
  | cons head rest =>
    simp [Rules.isEllipsis, form, Form.cdr, Form.car, not_mark_form hmarked.1]
  | ellipsis head mark more tail =>
    simp [Rules.isEllipsis, form, Form.cdr, Form.car, not_mark_form hmarked.2.2.1]
  | escape mark body => simp [isEscape] at hescape
  | _ => simp [Rules.isEllipsis, form, Form.cdr, Form.isPair]

theorem ellipsisDepth_listTail {marks : List ι}
    (hmarks : ∀ m ∈ marks, s.ellipsisMark (.ident m) = true) {tail : Template ι}
    (htail : tail.Marked s false) (hescape : tail.isEscape = false) (a : Form ι) :
    s.ellipsisDepth (.pair a (.listTail (marks.map .ident) tail.form)) = marks.length ∧
      s.ellipsisTail (.pair a (.listTail (marks.map .ident) tail.form)) = tail.form := by
  induction marks generalizing a with
  | nil =>
    have hnot := not_isEllipsis_pair htail hescape a
    simp [Rules.ellipsisDepth, Rules.ellipsisTail, hnot]
  | cons m marks ih =>
    have hmark : s.ellipsisMark (.ident m) = true := hmarks m (by simp)
    obtain ⟨hdepth, hrest⟩ := ih (fun n hn => hmarks n (mem_cons_of_mem m hn)) (.ident m)
    have hellipsis : s.isEllipsis
        (.pair a (.pair (.ident m) (.listTail (marks.map .ident) tail.form))) = true := by
      simp [Rules.isEllipsis, Form.isPair, Form.cdr, Form.car, hmark]
    simp only [map_cons, Form.listTail_cons, length_cons]
    rw [Rules.ellipsisDepth, if_pos hellipsis, hdepth, Rules.ellipsisTail, if_pos hellipsis,
      hrest]
    exact ⟨Nat.add_comm _ _, rfl⟩

omit [DecidableEq ι] in
theorem ofList_cars_form {body : Template ι} (hproper : body.proper = true) :
    Form.ofList body.form.cars = body.form := by
  have htail : ∀ (items : List (Form ι)) (v : Form ι), Form.ofList v.cars = v →
      Form.ofList (Form.listTail items v).cars = Form.listTail items v := by
    intro items v hv
    rw [Form.cars_listTail]
    induction items with
    | nil => exact hv
    | cons item items ih => simp [ih]
  induction body with
  | nil => rfl
  | cons head rest ih_head ih_rest => simp [form, Form.cars, ih_rest hproper]
  | ellipsis head mark more tail ih_head ih_tail =>
    have hmore := htail (more.map .ident) _ (ih_tail hproper)
    simp only [form, Form.cars, Form.ofList_cons, hmore]
  | _ => simp [proper] at hproper

/-! ## `free-vars` -/

theorem find_eq_depthOf (vars : List (ι × ℕ)) (y : ι) :
    (vars.find? fun cell => cell.1 = y).map Prod.snd = depthOf vars y := by
  simp [depthOf, eq_comm]

theorem freeVars_ident (dim : ℕ) (free : List ι) (y : ι) :
    Rules.freeVars (.ident y) vars dim free =
      if y ∉ free ∧ ∃ d, depthOf vars y = some d ∧ dim ≤ d then y :: free else free := by
  rw [Rules.freeVars]
  have hfind := find_eq_depthOf vars y
  cases hcell : vars.find? fun cell => cell.1 = y with
  | none =>
    have hnone : depthOf vars y = none := by rw [← hfind, hcell]; rfl
    simp [hnone]
  | some cell =>
    have hsome : depthOf vars y = some cell.2 := by rw [← hfind, hcell]; rfl
    simp [hsome]

theorem freeVars_pair (dim : ℕ) (free : List ι) (a d : Form ι) :
    Rules.freeVars (.pair a d) vars dim free =
      Rules.freeVars a vars dim (Rules.freeVars d vars dim free) := by
  rw [Rules.freeVars]

theorem freeVars_nil (dim : ℕ) (free : List ι) : Rules.freeVars .nil vars dim free = free := by
  simp [Rules.freeVars]

theorem freeVars_marks {marks : List ι} (hmarks : ∀ m ∈ marks, depthOf vars m = none) (dim : ℕ)
    (free : List ι) (v : Form ι) :
    Rules.freeVars (.listTail (marks.map .ident) v) vars dim free = Rules.freeVars v vars dim free := by
  induction marks generalizing free with
  | nil => rfl
  | cons m marks ih =>
    have hm : depthOf vars m = none := hmarks m (by simp)
    rw [map_cons, Form.listTail_cons, freeVars_pair, freeVars_ident,
      ih fun n hn => hmarks n (mem_cons_of_mem m hn)]
    simp [hm]

theorem freeVars_form {t : Template ι} {esc : Bool} (hmarked : t.Marked s esc)
    (hnoVar : ∀ m, s.ellipsisMark (.ident m) = true → depthOf vars m = none) (dim : ℕ)
    (free : List ι) :
    (∀ x, x ∈ Rules.freeVars t.form vars dim free ↔
      x ∈ free ∨ (x ∈ t.names ∧ ∃ d, depthOf vars x = some d ∧ dim ≤ d)) ∧
    (free.Nodup → (Rules.freeVars t.form vars dim free).Nodup) := by
  induction t generalizing esc free with
  | name y =>
    rw [form, freeVars_ident]
    by_cases hnew : y ∉ free ∧ ∃ d, depthOf vars y = some d ∧ dim ≤ d
    · rw [if_pos hnew]
      refine ⟨fun x => ?_, fun hnodup => nodup_cons.mpr ⟨hnew.1, hnodup⟩⟩
      rw [mem_cons, names, mem_singleton]
      constructor
      · rintro (rfl | hin)
        · exact .inr ⟨rfl, hnew.2⟩
        · exact .inl hin
      · rintro (hin | ⟨rfl, _⟩)
        · exact .inr hin
        · exact .inl rfl
    · rw [if_neg hnew]
      refine ⟨fun x => ⟨.inl, ?_⟩, id⟩
      rintro (hin | ⟨hname, hdepth⟩)
      · exact hin
      · obtain rfl : x = y := by simpa [names] using hname
        by_contra hnotMem
        exact hnew ⟨hnotMem, hdepth⟩
  | cons head rest ih_head ih_rest =>
    have hrest := ih_rest hmarked.2.1 free
    have hhead := ih_head hmarked.1 (Rules.freeVars rest.form vars dim free)
    rw [form, Rules.freeVars]
    refine ⟨fun x => ?_, fun hnodup => hhead.2 (hrest.2 hnodup)⟩
    rw [hhead.1, hrest.1, names, mem_append, or_assoc, ← or_and_right,
      or_comm (a := x ∈ rest.names)]
  | ellipsis head mark more tail ih_head ih_tail =>
    obtain ⟨rfl, hmarks, hheadMarked, htailMarked, _⟩ := hmarked
    have htail := ih_tail htailMarked free
    have hhead := ih_head hheadMarked (Rules.freeVars tail.form vars dim free)
    have hmark : depthOf vars mark = none := hnoVar mark (hmarks mark (by simp))
    have hmore : ∀ m ∈ more, depthOf vars m = none :=
      fun m hm => hnoVar m (hmarks m (mem_cons_of_mem mark hm))
    rw [form, freeVars_pair, freeVars_pair, freeVars_ident, if_neg (by simp [hmark]),
      freeVars_marks hmore]
    refine ⟨fun x => ?_, fun hnodup => hhead.2 (htail.2 hnodup)⟩
    rw [hhead.1, htail.1, names, mem_append, or_assoc, ← or_and_right,
      or_comm (a := x ∈ tail.names)]
  | vec body ih =>
    rw [form, Rules.freeVars, ofList_cars_form hmarked.2]
    exact ih hmarked.1 free
  | escape mark body ih =>
    obtain ⟨rfl, hmark, hbody⟩ := hmarked
    rw [form, freeVars_pair, freeVars_pair, freeVars_nil, freeVars_ident,
      if_neg (by simp [hnoVar mark hmark])]
    exact ih hbody free
  | datum a => simp [form, Rules.freeVars, names]
  | nil => simp [form, Rules.freeVars, names]

/-! ## Running over the lists of the variables -/

omit [DecidableEq ι] in
theorem mapRows_ofList (first : List (Form ι)) (others : List (List (Form ι)))
    (hlen : ∀ l ∈ others, l.length = first.length) :
    mapRows (.ofList first) (others.map .ofList) =
      some ((List.range first.length).map fun i =>
        (first :: others).map fun l => l.getD i .nil) := by
  induction first generalizing others with
  | nil =>
    have hnil : ∀ l ∈ others, l = [] := fun l hl => length_eq_zero_iff.mp (hlen l hl)
    have hall : ((others.map .ofList).all fun v => Form.isPair v || Form.isNull v) = true := by
      simp only [all_map, all_eq_true]
      intro l hl
      rw [hnil l hl]
      rfl
    rw [Form.ofList_nil, mapRows, if_pos hall]
    rfl
  | cons a first ih =>
    have hcons : ∀ l ∈ others, l = l.getD 0 .nil :: l.tail := by
      intro l hl
      have hl := hlen l hl
      cases l with
      | nil => simp at hl
      | cons b l => rfl
    have hpairs : (others.map .ofList).all Form.isPair = true := by
      simp only [all_map, all_eq_true]
      intro l hl
      rw [hcons l hl]
      rfl
    have hcdrs : (others.map Form.ofList).map Form.cdr
        = (others.map List.tail).map .ofList := by
      rw [map_map, map_map]
      refine map_congr_left fun l hl => ?_
      rw [hcons l hl]
      rfl
    have hcars : (others.map Form.ofList).map Form.car
        = others.map fun l => l.getD 0 .nil := by
      rw [map_map]
      refine map_congr_left fun l hl => ?_
      rw [hcons l hl]
      rfl
    have hrest := ih (others.map List.tail) (by
      intro l hl
      obtain ⟨m, hm, rfl⟩ := mem_map.mp hl
      rw [length_tail, hlen m hm]
      rfl)
    rw [Form.ofList_cons, mapRows, if_pos hpairs, hcdrs, hrest, hcars, length_cons,
      range_succ_eq_map, map_cons, map_map]
    refine congrArg some (congrArg₂ List.cons rfl (map_congr_left fun i _ => ?_))
    simp only [Function.comp_apply, map_cons, map_map]
    refine congrArg₂ List.cons rfl (map_congr_left fun l hl => ?_)
    rw [hcons l hl]
    rfl

theorem forall₂_imp_of_mem {α β : Type} {R S : α → β → Prop} {as : List α} {bs : List β}
    (h : List.Forall₂ R as bs) (himp : ∀ a ∈ as, ∀ b, R a b → S a b) : List.Forall₂ S as bs := by
  induction h with
  | nil => exact .nil
  | cons hhead _ ih =>
    exact .cons (himp _ (by simp) _ hhead)
      (ih fun a ha => himp a (mem_cons_of_mem _ ha))

theorem forall₂_of_mapM {α β : Type} {f : α → Option β} :
    ∀ {as : List α} {bs : List β}, as.mapM f = some bs →
      List.Forall₂ (fun a b => f a = some b) as bs
  | [], bs, h => by
    obtain rfl : bs = [] := by simpa using h.symm
    exact .nil
  | a :: as, bs, h => by
    simp only [mapM_cons, Option.pure_def, Option.bind_eq_bind, Option.bind_eq_some_iff] at h
    obtain ⟨b, hb, bs', hbs, heq⟩ := h
    obtain rfl : bs = b :: bs' := by simpa using heq.symm
    exact .cons hb (forall₂_of_mapM hbs)

theorem rows_eq_some {bs : List (Binding ι)} (h : rows xs β = some bs) :
    ∃ count, bs = (List.range count).map (row xs β) ∧
      ∀ x ∈ xs, ∀ d v, β x = some (d + 1, v) → v.isList = true ∧ v.cars.length = count := by
  unfold rows at h
  split at h
  · exact absurd h (by simp)
  rename_i y ys hfilter
  dsimp only at h
  split at h
  · rename_i hlists
    refine ⟨_, (Option.some.inj h).symm, fun x hx d v h_β => ?_⟩
    have hmem : x ∈ y :: ys := by
      rw [← hfilter, mem_filter]
      exact ⟨hx, by simp [runsOver, h_β]⟩
    have hlist := all_eq_true.mp hlists _ (mem_map_of_mem hmem)
    simpa [h_β] using hlist
  · exact absurd h (by simp)

theorem Agrees.row {ev : List ι}
    (h : Agrees vars dim xs ρ β) (hev : ∀ x, x ∈ ev ↔ x ∈ xs ∧ ∃ d, depthOf vars x = .some d ∧
      dim + 1 ≤ d) (hnodup : ev.Nodup) {count i : ℕ} (hi : i < count)
    (hlists : ∀ x ∈ xs, ∀ d v, β x = .some (d + 1, v) →
      v.isList = true ∧ v.cars.length = count) :
    Agrees vars (dim + 1) xs (bindAll (ev.map .user)
      (ev.map fun x => (((β x).map Prod.snd).getD .nil).cars.getD i .nil) ρ)
      (Template.row xs β i) := by
  intro x hx
  cases hdepth : depthOf vars x with
  | none => simp [Template.row, h.none hx hdepth]
  | some d =>
    obtain ⟨v, h_β, hlookup⟩ := h.some hx hdepth
    simp only
    by_cases hdeep : dim + 1 ≤ d
    · have hmem : x ∈ ev := (hev x).mpr ⟨hx, d, hdepth, hdeep⟩
      have hlevel : d - dim = (d - (dim + 1)) + 1 := by omega
      rw [hlevel] at h_β
      have hindex : i < v.cars.length := by rw [(hlists x hx _ v h_β).2]; exact hi
      refine ⟨v.cars.getD i .nil, ?_, ?_⟩
      · simp [Template.row, h_β, hx, hindex]
      · refine lookup_bindAll (hnodup.map fun _ _ heq => Var.user.inj heq) _ ?_
        rw [zip_map', mem_map]
        exact ⟨x, hmem, by simp [h_β]⟩
    · have hnotMem : x ∉ ev := by
        rintro hin
        obtain ⟨_, d', hdepth', hle⟩ := (hev x).mp hin
        rw [hdepth] at hdepth'
        have heq := Option.some.inj hdepth'
        omega
      refine ⟨v, ?_, ?_⟩
      · have hlevel : d - dim = 0 := by omega
        have hlevel' : d - (dim + 1) = 0 := by omega
        rw [hlevel] at h_β
        simp [Template.row, h_β, hlevel']
      · rw [lookup_bindAll_of_notMem]
        · exact hlookup
        · simpa using hnotMem

variable {head : Template ι} {once : Code ι}

theorem runs_instances {ev : List ι}
    {bs : List (Binding ι)} {items : List (Form ι)}
    (honce : ∀ ρ β r, Agrees vars (dim + 1) head.names ρ β → head.inst er β = some r →
      Runs er ρ once r)
    (hev : ∀ x, x ∈ ev ↔ x ∈ head.names ∧ ∃ d, depthOf vars x = some d ∧ dim + 1 ≤ d)
    (hnodup : ev.Nodup) (hne : ev ≠ []) (hagrees : Agrees vars dim head.names ρ β)
    (hrows : rows head.names β = some bs) (hitems : bs.mapM (head.inst er) = some items) :
    Runs er ρ (.map (ev.map .user) once (ev.map fun x => .var (.user x))) (.ofList items) := by
  obtain ⟨count, rfl, hlists⟩ := rows_eq_some hrows
  -- every variable that is run over has a list of the same length
  have hvalue : ∀ x ∈ ev, ∃ v, lookup ρ (.user x) = some v ∧
      ((β x).map Prod.snd).getD .nil = v ∧ v.isList = true ∧ v.cars.length = count := by
    intro x hx
    obtain ⟨hname, d, hdepth, hdeep⟩ := (hev x).mp hx
    obtain ⟨v, h_β, hlookup⟩ := hagrees.some hname hdepth
    rw [show d - dim = (d - (dim + 1)) + 1 by omega] at h_β
    exact ⟨v, hlookup, by simp [h_β], hlists x hname _ v h_β⟩
  have hruns : ∀ ys : List ι, (∀ x ∈ ys, x ∈ ev) →
      RunsAll er ρ (ys.map fun x => .var (.user x))
        ((ys.map fun x => (((β x).map Prod.snd).getD .nil).cars).map .ofList) := by
    intro ys
    induction ys with
    | nil => exact fun _ => .nil
    | cons y ys ih =>
      intro hsub
      obtain ⟨v, hlookup, hv, hlist, _⟩ := hvalue y (hsub y (by simp))
      refine .cons (runs_var ?_) (ih fun x hx => hsub x (mem_cons_of_mem y hx))
      show lookup ρ (.user y) = some (.ofList (((β y).map Prod.snd).getD .nil).cars)
      rw [hv, ← (Form.isList_iff v).mp hlist, hlookup]
  obtain ⟨y, ys, rfl⟩ := exists_cons_of_ne_nil hne
  have hcount : (((β y).map Prod.snd).getD .nil).cars.length = count := by
    obtain ⟨v, _, hv, _, hlen⟩ := hvalue y (by simp)
    rw [hv, hlen]
  have hmapRows := mapRows_ofList (((β y).map Prod.snd).getD .nil).cars
    (ys.map fun x => (((β x).map Prod.snd).getD .nil).cars) (by
      intro l hl
      obtain ⟨x, hx, rfl⟩ := mem_map.mp hl
      obtain ⟨v, _, hv, _, hlen⟩ := hvalue x (mem_cons_of_mem y hx)
      rw [hv, hlen, hcount])
  refine runs_map (hruns (y :: ys) fun x hx => hx) hmapRows ?_
  rw [hcount, List.forall₂_map_left_iff]
  have heach := forall₂_of_mapM hitems
  rw [List.forall₂_map_left_iff] at heach
  refine forall₂_imp_of_mem heach fun i hi r hr => ?_
  have hrow := honce _ _ r
    (hagrees.row hev hnodup (mem_range.mp hi) hlists) hr
  simpa [map_map, Function.comp_def] using hrow

/-! ## The steps of `expand-template` -/

/-- The code in front of several ellipses. -/
def manyCode (ev : List ι) (more : ℕ) (once : Code ι) : Code ι :=
  (Code.prim₁ .applyAppend)^[more] (.map (ev.map .user) once (ev.map fun x => .var (.user x)))

theorem templateLp_name (vars : List (ι × ℕ)) (x : ι) (dim : ℕ) (esc : Bool) :
    s.templateLp vars (.ident x) dim esc =
      match depthOf vars x with
      | some d => if d ≤ dim then .ok (.var (.user x)) else .error "too few ...'s"
      | none => .ok (.rename x) := by
  rw [Rules.templateLp]
  unfold depthOf
  cases vars.find? fun cell => x = cell.1 with
  | none => rfl
  | some cell => rfl

theorem templateLp_cons {rest : Template ι} {esc : Bool}
    (hmarked : (Template.cons head rest).Marked s esc) {car cdr : Code ι}
    (hcar : s.templateLp vars head.form dim esc = .ok car)
    (hcdr : s.templateLp vars rest.form dim esc = .ok cdr) :
    s.templateLp vars (Template.cons head rest).form dim esc =
      .ok (.consSource car cdr (.quote (Template.cons head rest).form)) := by
  obtain ⟨hhead, hrest, hescape⟩ := hmarked
  have hplain : (s.isEscape (.pair head.form rest.form) && !esc) = false ∧
      (s.isEllipsis (.pair head.form rest.form) && !esc) = false := by
    cases esc with
    | true => simp
    | false =>
      rw [not_isEllipsis_pair hrest hescape]
      simp [Rules.isEscape, Form.car, not_mark_form hhead]
  rw [form, Rules.templateLp, hplain.1, hplain.2, hcar, hcdr]
  rfl

theorem templateLp_escape {mark : ι} {body : Template ι}
    (hmark : s.ellipsisMark (.ident mark) = true) (dim : ℕ) :
    s.templateLp vars (Template.escape mark body).form dim false =
      s.templateLp vars body.form dim true := by
  rw [form, Rules.templateLp]
  simp [Rules.isEscape, Form.isPair, Form.isNull, Form.car, Form.cdr, hmark]

theorem templateLp_ellipsis {tail : Template ι} {mark : ι} {more : List ι}
    (hmarked : (Template.ellipsis head mark more tail).Marked s false) {rest : Code ι}
    (hev : Rules.freeVars head.form vars (dim + (more.length + 1)) [] ≠ [])
    (honce : s.templateLp vars head.form (dim + (more.length + 1)) false = .ok once)
    (hrest : s.templateLp vars tail.form dim false = .ok rest) :
    s.templateLp vars (Template.ellipsis head mark more tail).form dim false =
      if more.isEmpty && tail.form.isNull && head.form.isIdent then .ok once
      else if tail.form.isNull then
        .ok (manyCode (Rules.freeVars head.form vars (dim + (more.length + 1)) []) more.length once)
      else .ok (.prim₂ .append
        (manyCode (Rules.freeVars head.form vars (dim + (more.length + 1)) []) more.length once)
        rest) := by
  obtain ⟨_, hmarks, hhead, htail, hescape⟩ := hmarked
  have hmark : s.ellipsisMark (.ident mark) = true := hmarks mark (by simp)
  have hdepth := ellipsisDepth_listTail hmarks htail hescape head.form
  rw [map_cons, Form.listTail_cons, length_cons] at hdepth
  have hfirst : s.isEscape
      (.pair head.form (.pair (.ident mark) (.listTail (more.map .ident) tail.form))) = false := by
    simp [Rules.isEscape, Form.car, not_mark_form hhead]
  have hellipsis : s.isEllipsis
      (.pair head.form (.pair (.ident mark) (.listTail (more.map .ident) tail.form))) = true := by
    simp [Rules.isEllipsis, Form.isPair, Form.cdr, Form.car, hmark]
  have hnull : (Form.listTail (more.map .ident) tail.form).isNull
      = (more.isEmpty && tail.form.isNull) := by
    cases more with
    | nil => rfl
    | cons m more => rfl
  have hempty : (Rules.freeVars head.form vars (dim + (more.length + 1)) []).isEmpty = false := by
    simpa using hev
  rw [form, Rules.templateLp]
  simp only [hfirst, hellipsis, hdepth.1, hdepth.2, hempty, honce, hrest, Form.cdr, hnull,
    Bool.not_false, Bool.and_true, Bool.false_eq_true, if_false, if_true, Nat.add_sub_cancel]
  split
  · rfl
  · split
    · rfl
    · rfl

/-! ## A variable with several ellipses -/

/-- The number of single ellipses around the variable of a plain template. -/
def layers : Template ι → ℕ
  | ellipsis head _ _ _ => head.layers + 1
  | _ => 0

/-- A list of lists and so on, for `k` levels. -/
def Nested : ℕ → Form ι → Prop
  | 0, _ => True
  | k + 1, v => v.isList = true ∧ ∀ a ∈ v.cars, Nested k a

/-- What is left of a nested list without its `k` outermost levels. -/
def flatLevels : ℕ → Form ι → List (Form ι)
  | 0, v => [v]
  | k + 1, v => v.cars.flatMap (flatLevels k)

omit [DecidableEq ι] in
variable {k : ℕ} {v : Form ι}

theorem Nested.of_succ (h : Nested (k + 1) v) : Nested k v := by
  induction k generalizing v with
  | zero => trivial
  | succ k ih => exact ⟨h.1, fun a ha => ih (h.2 a ha)⟩

omit [DecidableEq ι] in
theorem Nested.of_add {e : ℕ} (h : Nested (k + e) v) : Nested e v := by
  induction k with
  | zero => rwa [Nat.zero_add] at h
  | succ k ih =>
    refine ih ?_
    rw [Nat.add_right_comm] at h
    exact h.of_succ

omit [DecidableEq ι] in
theorem Nested.add {e : ℕ} (h : Nested k v) (hinner : ∀ a ∈ flatLevels k v, Nested e a) :
    Nested (k + e) v := by
  induction k generalizing v with
  | zero =>
    rw [Nat.zero_add]
    exact hinner v (by simp [flatLevels])
  | succ k ih =>
    rw [Nat.add_right_comm]
    refine ⟨h.1, fun a ha => ih (h.2 a ha) fun b hb => hinner b ?_⟩
    exact List.mem_flatMap.mpr ⟨a, ha, hb⟩

omit [DecidableEq ι] in
theorem names_of_plain (hplain : head.plain = some x) : head.names = [x] := by
  induction head with
  | name y => simpa [plain, names] using hplain
  | ellipsis head mark more tail ih_head ih_tail =>
    cases more with
    | cons m more => simp [plain] at hplain
    | nil =>
      cases tail with
      | nil => simp [names, ih_head (by simpa [plain] using hplain)]
      | _ => simp [plain] at hplain
  | escape mark body ih =>
    cases body with
    | name y => simpa [plain, names] using hplain
    | _ => simp [plain] at hplain
  | _ => simp [plain] at hplain

theorem depth_of_plain (hplain : head.plain = some x) {d : ℕ} (htyped : head.Typed vars dim)
    (hdepth : depthOf vars x = some d) (hle : dim ≤ d) :
    d = dim + head.layers := by
  induction head generalizing dim with
  | name y =>
    obtain rfl : y = x := by simpa [plain] using hplain
    have hmost := htyped d hdepth
    simp only [layers]
    omega
  | ellipsis head mark more tail ih_head ih_tail =>
    cases more with
    | cons m more => simp [plain] at hplain
    | nil =>
      cases tail with
      | nil =>
        have hinner : head.plain = some x := by simpa [plain] using hplain
        obtain ⟨⟨y, hy, d', hdepth', hdeep⟩, hhead, _⟩ := htyped
        rw [names_of_plain hinner, mem_singleton] at hy
        rw [hy, hdepth] at hdepth'
        obtain rfl := Option.some.inj hdepth'
        have heq := ih_head hinner hhead hdeep
        simp only [layers, length_nil] at heq ⊢
        omega
      | _ => simp [plain] at hplain
  | escape mark body ih =>
    cases body with
    | name y =>
      obtain rfl : y = x := by simpa [plain] using hplain
      have hmost := htyped d hdepth
      simp only [layers]
      omega
    | _ => simp [plain] at hplain
  | _ => simp [plain] at hplain

theorem runs_mapVariable (hlookup : lookup ρ (.user x) = some v) (hlist : v.isList = true)
    (honce : ∀ a ∈ v.cars, Runs er (.bind (.user x) a :: ρ) once a) :
    Runs er ρ (.map [.user x] once [.var (.user x)]) v := by
  have hv := (Form.isList_iff v).mp hlist
  have hrows := mapRows_ofList v.cars [] (by simp)
  have hvalue : RunsAll er ρ [.var (.user x)] [.ofList v.cars] := by
    rw [← hv]
    exact .cons (runs_var hlookup) .nil
  have hbody : ∀ l : List (Form ι), (∀ a ∈ l, Runs er (.bind (.user x) a :: ρ) once a) →
      List.Forall₂ (fun row r => Runs er (bindAll [.user x] row ρ) once r)
        ((List.range l.length).map fun i => [l.getD i .nil]) l := by
    intro l hl
    rw [List.forall₂_map_left_iff, List.forall₂_iff_get]
    refine ⟨by simp, fun i hi hi' => ?_⟩
    have hget : l.getD i .nil = l.get ⟨i, hi'⟩ := by simp [hi']
    simp only [get_eq_getElem, getElem_range, bindAll_cons, bindAll_nil] at hget ⊢
    rw [hget]
    exact hl _ (getElem_mem hi')
  rw [hv]
  exact runs_map hvalue hrows (hbody v.cars honce)

end Template

end ChibiScheme.SyntaxRules
