import ChibiScheme.SyntaxRules.Expand

/-!
# Patterns

The patterns of `syntax-rules` as abstract syntax, the forms they are written as, and what they
match.  `Matches` is the rule of the language; `Taken` is the same rule as the generated code
has it, which treats an identifier in front of an ellipsis as a variable without a look at the
literals.
-/

namespace ChibiScheme.SyntaxRules

open List

variable {ι : Type} [DecidableEq ι]

/-- A pattern. A name may be a variable, a literal or an underscore. -/
inductive Pattern (ι : Type) where
  | name (x : ι)
  | datum (a : Atom)
  | nil
  | cons (head rest : Pattern ι)
  /-- `(head mark . tail)` -/
  | ellipsis (head : Pattern ι) (mark : ι) (tail : Pattern ι)
  | vec (body : Pattern ι)

namespace Pattern

/-- The pattern as a form. -/
def form : Pattern ι → Form ι
  | name x => .ident x
  | datum a => .atom a
  | nil => .nil
  | cons head rest => .pair head.form rest.form
  | ellipsis head mark tail => .pair head.form (.pair (.ident mark) tail.form)
  | vec body => .vec body.form.cars

/-- Whether no element of a list pattern is followed by an ellipsis. -/
def flat : Pattern ι → Bool
  | cons _ rest => rest.flat
  | ellipsis _ _ _ => false
  | _ => true

/-- Whether a list pattern ends with the empty list. -/
def proper : Pattern ι → Bool
  | nil => true
  | cons _ rest => rest.proper
  | ellipsis _ _ tail => tail.proper
  | _ => false

/-- How many elements the list has. -/
def elements : Pattern ι → ℕ
  | cons _ rest => rest.elements + 1
  | _ => 0

/-- The variables, in order. -/
def vars (s : Rules ι) : Pattern ι → List ι
  | name x => if s.isVariable x then [x] else []
  | cons head rest => head.vars s ++ rest.vars s
  | ellipsis head _ tail => head.vars s ++ tail.vars s
  | vec body => body.vars s
  | _ => []

/-- The variables of a pattern with the number of ellipses that they are below. -/
def depths (s : Rules ι) : Pattern ι → ℕ → List (ι × ℕ)
  | name x, dim => if s.isVariable x then [(x, dim)] else []
  | cons head rest, dim => head.depths s dim ++ rest.depths s dim
  | ellipsis head _ tail, dim => head.depths s (dim + 1) ++ tail.depths s dim
  | vec body, dim => body.depths s dim
  | _, _ => []

/-- Where the marks of a pattern are: no name is one, every ellipsis is one, and no list has
two of them. -/
def Marked (s : Rules ι) : Pattern ι → Prop
  | name x => s.ellipsisMark (.ident x) = false
  | cons head rest => head.Marked s ∧ rest.Marked s
  | ellipsis head mark tail =>
    s.ellipsisMark (.ident mark) = true ∧ head.Marked s ∧ tail.Marked s ∧ tail.flat = true
  | vec body => body.Marked s ∧ body.proper = true
  | _ => True

/-- No variable occurs twice. -/
structure Valid (s : Rules ι) (p : Pattern ι) : Prop where
  marked : p.Marked s
  distinct : (p.vars s).Nodup

/-- A literal of the rules. -/
def isLiteral (s : Rules ι) : Pattern ι → Bool
  | name x => decide (x ∈ s.lits)
  | _ => false

/-- No ellipsis follows a literal. -/
def noLiteralEllipsis (s : Rules ι) : Pattern ι → Bool
  | cons head rest => head.noLiteralEllipsis s && rest.noLiteralEllipsis s
  | ellipsis head _ tail =>
    !head.isLiteral s && head.noLiteralEllipsis s && tail.noLiteralEllipsis s
  | vec body => body.noLiteralEllipsis s
  | _ => true

/-! ## Matching -/

/-- The form `v` matches the pattern, and the variables stand for what `β` says: a variable below
an ellipsis stands for the list of what it stands for in the items. -/
def Matches (s : Rules ι) (er : Renaming ι) : Pattern ι → Form ι → (ι → Form ι) → Prop
  | name x, v, β =>
    if x ∈ s.lits then er.compare.same v (.ident (er.rename x)) = true
    else if s.isUnderscore x then True
    else β x = v
  | datum a, v, _ => v = .atom a
  | nil, v, _ => v = .nil
  | cons head rest, v, β =>
    ∃ a d, v = .pair a d ∧ head.Matches s er a β ∧ rest.Matches s er d β
  | ellipsis head _ tail, v, β =>
    ∃ items rest, v = .listTail items rest ∧ rest.cars.length = tail.elements ∧
      tail.Matches s er rest β ∧
      ∃ βs : List (ι → Form ι), List.Forall₂ (head.Matches s er) items βs ∧
        ∀ x ∈ head.vars s, β x = .ofList (βs.map fun γ => γ x)
  | vec body, v, β => ∃ vs, v = .vec vs ∧ body.Matches s er (.ofList vs) β

/-- What the generated code makes of the items in front of an ellipsis: an identifier takes any
item. -/
def TakenAll (s : Rules ι) (head : Pattern ι) (taken : Form ι → (ι → Form ι) → Prop)
    (items : List (Form ι)) (β : ι → Form ι) : Prop :=
  match head with
  | name x => s.isVariable x = true → β x = .ofList items
  | head =>
    ∃ βs : List (ι → Form ι), List.Forall₂ taken items βs ∧
      ∀ x ∈ head.vars s, β x = .ofList (βs.map fun γ => γ x)

/-- What the generated code matches. -/
def Taken (s : Rules ι) (er : Renaming ι) : Pattern ι → Form ι → (ι → Form ι) → Prop
  | name x, v, β =>
    if x ∈ s.lits then er.compare.same v (.ident (er.rename x)) = true
    else if s.isUnderscore x then True
    else β x = v
  | datum a, v, _ => v = .atom a
  | nil, v, _ => v = .nil
  | cons head rest, v, β =>
    ∃ a d, v = .pair a d ∧ head.Taken s er a β ∧ rest.Taken s er d β
  | ellipsis head _ tail, v, β =>
    ∃ items rest, v = .listTail items rest ∧ rest.cars.length = tail.elements ∧
      tail.Taken s er rest β ∧ TakenAll s head (head.Taken s er) items β
  | vec body, v, β => ∃ vs, v = .vec vs ∧ body.Taken s er (.ofList vs) β

/-! ## What a match says about -/

variable {s : Rules ι} {er : Renaming ι}

theorem mem_vars_name {x : ι} (h : s.isVariable x = true) : x ∈ (name x).vars s := by
  simp [vars, h]

theorem isVariable_iff {x : ι} :
    s.isVariable x = true ↔ x ∉ s.lits ∧ s.isUnderscore x = false := by
  simp [Rules.isVariable]

theorem isVariable_of_mem {p : Pattern ι} {x : ι} (hmem : x ∈ p.vars s) :
    s.isVariable x = true := by
  induction p with
  | name y =>
    by_cases hvar : s.isVariable y = true
    · have heq : x = y := by simpa [vars, hvar] using hmem
      rw [heq]
      exact hvar
    · simp [vars, hvar] at hmem
  | cons head rest ih_head ih_rest =>
    rcases mem_append.mp hmem with h | h
    · exact ih_head h
    · exact ih_rest h
  | ellipsis head mark tail ih_head ih_tail =>
    rcases mem_append.mp hmem with h | h
    · exact ih_head h
    · exact ih_tail h
  | vec body ih => exact ih hmem
  | _ => simp [vars] at hmem

theorem taken_congr {p : Pattern ι} {v : Form ι} {β γ : ι → Form ι}
    (heq : ∀ x ∈ p.vars s, β x = γ x) (h : p.Taken s er v β) : p.Taken s er v γ := by
  induction p generalizing v with
  | name x =>
    simp only [Taken] at h ⊢
    split at h
    · rw [if_pos (by assumption)]
      exact h
    · rename_i hlit
      rw [if_neg hlit]
      split at h
      · rw [if_pos (by assumption)]
        trivial
      · rename_i hunder
        rw [if_neg hunder, ← h]
        exact (heq x (mem_vars_name (isVariable_iff.mpr ⟨hlit, by simpa using hunder⟩))).symm
  | datum a => exact h
  | nil => exact h
  | cons head rest ih_head ih_rest =>
    obtain ⟨a, d, hv, hhead, hrest⟩ := h
    refine ⟨a, d, hv, ih_head (fun x hx => heq x ?_) hhead,
      ih_rest (fun x hx => heq x ?_) hrest⟩
    · exact mem_append_left _ hx
    · exact mem_append_right _ hx
  | ellipsis head mark tail ih_head ih_tail =>
    obtain ⟨items, rest, hv, hlen, htail, hall⟩ := h
    refine ⟨items, rest, hv, hlen,
      ih_tail (fun x hx => heq x (mem_append_right _ hx)) htail, ?_⟩
    have hhead : ∀ x ∈ head.vars s, β x = γ x :=
      fun x hx => heq x (mem_append_left _ hx)
    cases head with
    | name x =>
      intro hvar
      rw [← hhead x (mem_vars_name hvar)]
      exact hall hvar
    | _ =>
      obtain ⟨βs, hitems, hlists⟩ := hall
      exact ⟨βs, hitems, fun x hx => (hhead x hx).symm.trans (hlists x hx)⟩
  | vec body ih =>
    obtain ⟨vs, hv, hbody⟩ := h
    exact ⟨vs, hv, ih heq hbody⟩

end Pattern

end ChibiScheme.SyntaxRules
