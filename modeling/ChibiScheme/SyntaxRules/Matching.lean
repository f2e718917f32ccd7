import ChibiScheme.SyntaxRules.Matcher

/-!
# Matching as the language has it

The generated matchers take a form exactly when it matches the pattern, with the same bindings,
unless the pattern has a literal in front of an ellipsis: the shortcut for `(identifier ...)`
binds the literal to any list.
-/

namespace ChibiScheme.SyntaxRules

variable {ι : Type} [DecidableEq ι] {s : Rules ι} {er : Renaming ι}

namespace Pattern

/-! ## Patterns without a literal in front of an ellipsis -/

theorem takenAll_name {x : ι} (hlit : x ∉ s.lits) {items : List (Form ι)} {β : ι → Form ι} :
    TakenAll s (name x) ((name x).Taken s er) items β ↔
      ∃ βs : List (ι → Form ι), List.Forall₂ ((name x).Matches s er) items βs ∧
        ∀ y ∈ (name x).vars s, β y = .ofList (βs.map fun γ => γ y) := by
  have heach : ∀ items : List (Form ι),
      List.Forall₂ ((name x).Matches s er) items (items.map fun v _ => v) := by
    intro items
    induction items with
    | nil => exact .nil
    | cons v items ih => exact .cons (by simp [Matches, hlit]) ih
  constructor
  · intro hall
    refine ⟨items.map fun v _ => v, heach items, fun y hy => ?_⟩
    have hvar : s.isVariable x = true ∧ y = x := by
      cases hcase : s.isVariable x with
      | true => exact ⟨rfl, by simpa [vars, hcase] using hy⟩
      | false => simp [vars, hcase] at hy
    rw [hvar.2, hall hvar.1]
    simp [Function.comp_def]
  · rintro ⟨βs, hitems, hlists⟩ hvar
    have hunder : s.isUnderscore x = false := (isVariable_iff.mp hvar).2
    have hvalues : ∀ items βs, List.Forall₂ ((name x).Matches s er) items βs →
        βs.map (fun γ => γ x) = items := by
      intro items βs h
      induction h with
      | nil => rfl
      | @cons v γ _ _ hhead _ ih =>
        have heq : γ x = v := by simpa [Matches, hlit, hunder] using hhead
        rw [List.map_cons, ih, heq]
    rw [hlists x (mem_vars_name hvar), hvalues items βs hitems]

theorem forall₂_congr_taken {p : Pattern ι}
    (hiff : ∀ v β, p.Taken s er v β ↔ p.Matches s er v β) {items : List (Form ι)}
    {βs : List (ι → Form ι)} :
    List.Forall₂ (p.Taken s er) items βs ↔ List.Forall₂ (p.Matches s er) items βs :=
  ⟨fun h => h.imp fun v β => (hiff v β).mp, fun h => h.imp fun v β => (hiff v β).mpr⟩

theorem taken_iff_matches {p : Pattern ι} (hlit : p.noLiteralEllipsis s = true) (v : Form ι)
    (β : ι → Form ι) : p.Taken s er v β ↔ p.Matches s er v β := by
  induction p generalizing v β with
  | name x => rfl
  | datum a => rfl
  | nil => rfl
  | cons head rest ih_head ih_rest =>
    rw [noLiteralEllipsis, Bool.and_eq_true] at hlit
    simp only [Taken, Matches, ih_head hlit.1, ih_rest hlit.2]
  | ellipsis head mark tail ih_head ih_tail =>
    rw [noLiteralEllipsis, Bool.and_eq_true, Bool.and_eq_true] at hlit
    have hall : ∀ items, TakenAll s head (head.Taken s er) items β ↔
        ∃ βs : List (ι → Form ι), List.Forall₂ (head.Matches s er) items βs ∧
          ∀ x ∈ head.vars s, β x = .ofList (βs.map fun γ => γ x) := by
      intro items
      cases head with
      | name x => exact takenAll_name (by simpa [isLiteral] using hlit.1.1)
      | _ =>
        refine exists_congr fun βs => and_congr_left fun _ => ?_
        exact forall₂_congr_taken (ih_head hlit.1.2)
    simp only [Taken, Matches, ih_tail hlit.2, hall]
  | vec body ih =>
    rw [noLiteralEllipsis] at hlit
    simp only [Taken, Matches, ih hlit]

/-! ## A literal in front of an ellipsis -/

/-- The item that is given to an ellipsis: nothing in particular for an identifier. -/
def sampleItem (v : Form ι) : Pattern ι → Form ι
  | name _ => .nil
  | _ => v

/-- A form that the code for a pattern takes, with one item for every ellipsis; an identifier in
front of an ellipsis gets the empty list for its item. -/
def sample (s : Rules ι) (er : Renaming ι) : Pattern ι → Form ι
  | name x => if x ∈ s.lits then .ident (er.rename x) else .nil
  | datum a => .atom a
  | nil => .nil
  | cons head rest => .pair (head.sample s er) (rest.sample s er)
  | ellipsis head _ tail =>
    .pair (sampleItem (head.sample s er) head) (tail.sample s er)
  | vec body => .vec (body.sample s er).cars

theorem sample_name_cars (x : ι) : ((name x).sample s er).cars = [] := by
  rw [sample]
  split <;> rfl

theorem length_cars_sample {tail : Pattern ι} (hflat : tail.flat = true) :
    (tail.sample s er).cars.length = tail.elements := by
  induction tail with
  | name x => rw [sample_name_cars]; rfl
  | cons head rest ih_head ih_rest => simp [sample, Form.cars, elements, ih_rest hflat]
  | ellipsis head mark rest => simp [flat] at hflat
  | _ => rfl

theorem ofList_cars_sample {body : Pattern ι} (hproper : body.proper = true) :
    Form.ofList (body.sample s er).cars = body.sample s er := by
  induction body with
  | nil => rfl
  | cons head rest ih_head ih_rest => simp [sample, Form.cars, ih_rest hproper]
  | ellipsis head mark tail ih_head ih_tail => simp [sample, Form.cars, ih_tail hproper]
  | _ => simp [proper] at hproper

theorem taken_sample {p : Pattern ι} (hmarked : p.Marked s) (hnodup : (p.vars s).Nodup) :
    ∃ β, p.Taken s er (p.sample s er) β := by
  induction p with
  | name x =>
    refine ⟨fun _ => .nil, ?_⟩
    by_cases hlit : x ∈ s.lits
    · simp [Taken, sample, hlit, er.compare.same_self]
    · simp [Taken, sample, hlit]
  | datum a => exact ⟨fun _ => .nil, rfl⟩
  | nil => exact ⟨fun _ => .nil, rfl⟩
  | cons head rest ih_head ih_rest =>
    obtain ⟨β, hhead⟩ := ih_head hmarked.1 hnodup.of_append_left
    obtain ⟨γ, hrest⟩ := ih_rest hmarked.2 hnodup.of_append_right
    refine ⟨fun y => if y ∈ head.vars s then β y else γ y, _, _, rfl, ?_, ?_⟩
    · exact taken_congr (fun y hy => by simp [hy]) hhead
    · refine taken_congr (fun y hy => ?_) hrest
      have hnotMem : y ∉ head.vars s := fun hin => disjoint_of_nodup hnodup y hin hy
      simp [hnotMem]
  | ellipsis head mark tail ih_head ih_tail =>
    obtain ⟨hmark, hhead, htail, hflat⟩ := hmarked
    obtain ⟨β, htaken⟩ := ih_head hhead hnodup.of_append_left
    obtain ⟨γ, hrest⟩ := ih_tail htail hnodup.of_append_right
    -- a variable of the head stands for the list of one item
    have hall : ∃ δ : ι → Form ι, TakenAll s head (head.Taken s er)
        [sampleItem (head.sample s er) head] fun y => .ofList [δ y] := by
      cases head with
      | name x => exact ⟨fun _ => .nil, fun _ => rfl⟩
      | _ => exact ⟨β, [β], .cons htaken .nil, fun _ _ => rfl⟩
    obtain ⟨δ, htakenAll⟩ := hall
    refine ⟨fun y => if y ∈ head.vars s then .ofList [δ y] else γ y,
      [sampleItem (head.sample s er) head], tail.sample s er, rfl, length_cars_sample hflat,
      ?_, ?_⟩
    · refine taken_congr (fun y hy => ?_) hrest
      have hnotMem : y ∉ head.vars s := fun hin => disjoint_of_nodup hnodup y hin hy
      simp [hnotMem]
    · cases head with
      | name x =>
        intro hvar
        have hvalue := htakenAll hvar
        simpa [mem_vars_name hvar] using hvalue
      | _ =>
        obtain ⟨βs, hitems, hlists⟩ := htakenAll
        refine ⟨βs, hitems, fun y hy => ?_⟩
        have hvalue := hlists y hy
        simpa [hy] using hvalue
  | vec body ih =>
    obtain ⟨β, hbody⟩ := ih hmarked.1 hnodup
    refine ⟨β, _, rfl, ?_⟩
    rw [ofList_cars_sample hmarked.2]
    exact hbody

theorem not_matches_sample {p : Pattern ι} (hmarked : p.Marked s)
    (hlit : p.noLiteralEllipsis s = false) (β : ι → Form ι) :
    ¬ p.Matches s er (p.sample s er) β := by
  induction p generalizing β with
  | cons head rest ih_head ih_rest =>
    rintro ⟨a, d, heq, hhead, hrest⟩
    obtain ⟨rfl, rfl⟩ := Form.pair.inj heq
    rw [noLiteralEllipsis, Bool.and_eq_false_iff] at hlit
    rcases hlit with hlit | hlit
    · exact ih_head hmarked.1 hlit β hhead
    · exact ih_rest hmarked.2 hlit β hrest
  | ellipsis head mark tail ih_head ih_tail =>
    obtain ⟨hmark, hhead, htail, hflat⟩ := hmarked
    rintro ⟨items, rest, heq, hlen, hrest, βs, hitems, hlists⟩
    -- only one item is in front of the elements of the tail
    have hcount : items.length = 1 := by
      have hcars := congrArg (fun v => v.cars.length) heq
      simp only [sample, Form.cars, Form.cars_listTail, List.length_cons, List.length_append,
        length_cars_sample hflat, hlen] at hcars
      omega
    obtain ⟨item, rfl⟩ := List.length_eq_one_iff.mp hcount
    obtain ⟨hitem, htailEq⟩ := Form.pair.inj heq
    have htailEq : tail.sample s er = rest := htailEq
    cases hitems with
    | @cons _ γ _ _ hmatches _ =>
      cases htailLit : tail.noLiteralEllipsis s with
      | false =>
        rw [← htailEq] at hrest
        exact ih_tail htail htailLit β hrest
      | true =>
        rw [← hitem] at hmatches
        have hwhich : head.isLiteral s = true ∨ head.noLiteralEllipsis s = false := by
          rw [noLiteralEllipsis, htailLit, Bool.and_true, Bool.and_eq_false_iff] at hlit
          exact hlit.imp (by simp) id
        rcases hwhich with hname | hinner
        · cases head with
          | name x =>
            have hin : x ∈ s.lits := of_decide_eq_true hname
            have hsame : er.compare.same .nil (.ident (er.rename x)) = true := by
              simpa [Matches, sampleItem, hin] using hmatches
            have hident := er.compare.ident_of_same_right _ _ hsame
            simp [Form.isIdent] at hident
          | _ => simp [isLiteral] at hname
        · cases head with
          | name x => simp [noLiteralEllipsis] at hinner
          | _ => exact ih_head hhead hinner γ hmatches
  | vec body ih =>
    rintro ⟨vs, heq, hbody⟩
    obtain rfl := Form.vec.inj heq
    rw [ofList_cars_sample hmarked.2] at hbody
    exact ih hmarked.1 hlit β hbody
  | _ => simp [noLiteralEllipsis] at hlit

end Pattern

/-! ## Whole clauses -/

/-- What the claim on `expand-pattern` says of one pattern: where the template can be expanded,
code is generated; where the form matches, it binds every pattern variable to what it stands for,
with its depth known to the template, and goes on with the template; and where it does not match,
it answers `#f`. Unless some pattern of the macro is no pair, the keyword in front of the pattern
and of the form is skipped. -/
def MatchesAsWritten (s : Rules ι) (er : Renaming ι) (p : Pattern ι) : Prop :=
  ∀ (fullMatch : Bool) (keyword tmpl : Form ι) (c : ℕ), ∃ vars,
    (∀ cell ∈ p.depths s 0, depthOf vars cell.1 = some cell.2) ∧
    ∀ body, s.expandTemplate tmpl vars = .ok body → ∃ code c',
      s.expandPattern fullMatch (if fullMatch then p.form else .pair keyword p.form) tmpl c
        = .ok (code, c') ∧
      ∀ ρ use v, lookup ρ .expr = some (if fullMatch then v else .pair use v) →
        (∀ β, p.Matches s er v β → ∃ ρ', (∀ y ∈ p.vars s, lookup ρ' (.user y) = some (β y)) ∧
          ∀ r, Runs er ρ' (.prim₂ .cons body (.quote .no)) r → Runs er ρ code r) ∧
        ((¬∃ β, p.Matches s er v β) → Runs er ρ code .no)

theorem expandPattern_takes {p : Pattern ι} (hvalid : p.Valid s) (fullMatch : Bool)
    (keyword tmpl : Form ι) (c : ℕ) : ∃ vars,
    (∀ cell ∈ p.depths s 0, depthOf vars cell.1 = some cell.2) ∧
    ∀ body, s.expandTemplate tmpl vars = .ok body → ∃ code c',
      s.expandPattern fullMatch (if fullMatch then p.form else .pair keyword p.form) tmpl c
        = .ok (code, c') ∧
      ∀ ρ use v, lookup ρ .expr = some (if fullMatch then v else .pair use v) →
        Takes s er p c ρ v (.prim₂ .cons body (.quote .no)) code := by
  obtain ⟨vars, c₁, _, hlists, hcode⟩ := generates hvalid.marked hvalid.distinct
    (if fullMatch then .var .expr else .prim₁ .cdr (.var .expr)) 0 []
    (fun vars => do
      let code ← s.expandTemplate tmpl vars
      return .prim₂ .cons code (.quote .no)) c
  refine ⟨vars, hlists.new, fun body hbody => ?_⟩
  obtain ⟨code, hrun, htakes⟩ := hcode (.prim₂ .cons body (.quote .no)) c₁ (by rw [hbody]; rfl)
  refine ⟨code, c₁, ?_, fun ρ use v hexpr => htakes ρ v ?_⟩
  · cases fullMatch with
    | true => exact hrun
    | false => exact hrun
  · cases fullMatch with
    | true => exact runs_var hexpr
    | false => exact runs_prim₁ (runs_var hexpr) rfl

theorem matchesAsWritten_of_noLiteralEllipsis {p : Pattern ι} (hvalid : p.Valid s)
    (hlit : p.noLiteralEllipsis s = true) : MatchesAsWritten s er p := by
  intro fullMatch keyword tmpl c
  obtain ⟨vars, hdepths, hall⟩ := expandPattern_takes hvalid fullMatch keyword tmpl c
  refine ⟨vars, hdepths, fun body hbody => ?_⟩
  obtain ⟨code, c', hcode, htakes⟩ := hall body hbody
  refine ⟨code, c', hcode, fun ρ use v hexpr => ⟨fun β hmatches => ?_, fun hnone => ?_⟩⟩
  · obtain ⟨ρ', _, hvars, hrun⟩ := (htakes ρ use v hexpr).accepts β
      ((Pattern.taken_iff_matches hlit v β).mpr hmatches)
    exact ⟨ρ', hvars, hrun⟩
  · refine (htakes ρ use v hexpr).rejects ?_
    rintro ⟨β, htaken⟩
    exact hnone ⟨β, (Pattern.taken_iff_matches hlit v β).mp htaken⟩

theorem not_matchesAsWritten {p : Pattern ι} (hvalid : p.Valid s)
    (hlit : p.noLiteralEllipsis s = false) : ¬ MatchesAsWritten s er p := by
  intro hwritten
  obtain ⟨vars, _, hall⟩ := hwritten true .nil .nil 0
  have htemplate : ∀ vars, s.expandTemplate .nil vars = .ok (.quote .nil) := by
    intro vars
    rw [Rules.expandTemplate, Rules.templateLp]
    rfl
  obtain ⟨code, c', hcode, hrun⟩ := hall _ (htemplate vars)
  obtain ⟨vars', _, hall'⟩ := expandPattern_takes hvalid true .nil .nil 0
  obtain ⟨code', c'', hcode', htakes⟩ := hall' _ (htemplate vars')
  rw [hcode] at hcode'
  obtain rfl : code = code' := (Prod.mk.inj (Except.ok.inj hcode')).1
  have hexpr : lookup [.bind .expr (p.sample s er)] .expr
      = some (if true then p.sample s er else .pair .nil (p.sample s er)) := by
    simp [lookup]
  have hno := (hrun _ .nil _ hexpr).2 fun hex =>
    hex.elim fun β => Pattern.not_matches_sample hvalid.marked hlit β
  obtain ⟨β, htaken⟩ := Pattern.taken_sample hvalid.marked hvalid.distinct
  obtain ⟨ρ', _, _, hyes⟩ := (htakes _ .nil _ hexpr).accepts β htaken
  have hpair := hyes _ (runs_prim₂ (runs_quote .nil) (runs_quote .no) rfl)
  have heq := hno.unique hpair
  exact absurd heq (by simp [Form.no])

/-- `identifier=?` on symbols that are not bound. -/
def sameSymbol : Compare String where
  same
    | .ident x, .ident y => decide (x = y)
    | _, _ => false
  same_self := by simp
  ident_of_same_left := by
    intro x v h
    cases v with
    | ident y => rfl
    | _ => simp at h
  ident_of_same_right := by
    intro v x h
    cases v with
    | ident y => rfl
    | _ => simp at h

/-- `(syntax-rules (else) ...)` -/
def elseRules : Rules String where
  ellipsis := "..."
  ellipsisSpecified := false
  lits := ["else"]
  underscore := "_"
  compare := sameSymbol
  symbolName := id

/-- The macro is used where it is defined. -/
def plainRenaming : Renaming String where
  rename := id
  compare := sameSymbol

theorem elseEllipsis_valid :
    (Pattern.ellipsis (.name "else") "..." .nil).Valid elseRules := by
  have helse : elseRules.ellipsisMark (.ident "else") = false := by decide
  have hmark : elseRules.ellipsisMark (.ident "...") = true := by decide
  exact ⟨⟨hmark, helse, trivial, rfl⟩, by decide⟩

end ChibiScheme.SyntaxRules
