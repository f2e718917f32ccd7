import Mathlib.Order.Nat

/-!
# Parser combinators and negative lookahead

A parser takes a position, a success continuation and a failure continuation.  The
success continuation gets, besides the result, the failure continuation that goes on with
the alternatives that are left.

A run of a parser with continuations that only report says which of the two is called
first.  Runs with other continuations are compared with it by a relation on the answers
that all combinators preserve (`run_related`).

`parse-not` means to call its own failure continuation when its parser succeeds, but the
success continuation that it installs has a parameter of the same name.  It goes on with
the alternatives of the parser instead, and when there are none it succeeds.
-/

namespace ChibiScheme.Lookahead

/-! ## The code -/

/-- The data that a parse gives. -/
inductive Val where
  | bool (b : Bool)
  | char (ch : Char)
  | string (chars : List Char)
  | nil
  | pair (a b : Val)
  | ignored
  deriving DecidableEq

/-- A list of values. -/
def Val.list : List Val → Val
  | [] => .nil
  | v :: vs => .pair v (.list vs)

/-- A failure continuation. -/
abbrev Fk (R : Type) := ℕ → String → Option R

/-- A success continuation. -/
abbrev Sk (R : Type) := Val → ℕ → Fk R → Option R

/-- A parser combinator; `none` is a run that does not end in the given number of rounds.
The source is the whole input, and an index is a place in it. -/
abbrev Parser (R : Type) := ℕ → Sk R → Fk R → Option R

section Code

variable {R : Type} (text : List Char)

/-- `parse-epsilon` -/
def parseEpsilon : Parser R := fun index sk fk => sk (.bool true) index fk

/-- `parse-anything` -/
def parseAnything : Parser R := fun index sk fk =>
  match text[index]? with
  | none => fk index "end of input"
  | some ch => sk (.char ch) (index + 1) fk

/-- `parse-nothing` -/
def parseNothing : Parser R := fun index _ fk => fk index "nothing"

/-- `parse-or` of two parsers. -/
def parseOr (f g : Parser R) : Parser R := fun index sk fk =>
  f index sk fun _ _ => g index sk fk

/-- `parse-and` -/
def parseAnd (f g : Parser R) : Parser R := fun index sk fk =>
  f index (fun _ _ fk => g index sk fk) fk

/-- `parse-not` -/
def parseNot (f : Parser R) : Parser R := fun index sk fk =>
  f index (fun _ i fk => fk i "not") fun _ _ => sk (.bool true) index fk

/-- What `parse-seq` makes of the result of its last parser. -/
def lastResult (r : Val) : Val := if r = .ignored then .nil else .pair r .nil

/-- `parse-seq-list` for one parser. -/
def parseSeqOne (f : Parser R) : Parser R := fun index sk fk =>
  f index (fun r i fk => sk (lastResult r) i fk) fk

/-- `parse-seq-list` for a parser and the sequence of those after it. -/
def parseSeqPair (f g : Parser R) : Parser R := fun index sk fk =>
  f index
    (fun r i fk => g i (fun r2 i fk => sk (if r = .ignored then r2 else .pair r r2) i fk) fk) fk

/-- `parse-optional` -/
def parseOptional (f : Parser R) : Parser R := fun index sk fk =>
  f index sk fun _ _ => sk (.bool false) index fk

/-- The loop of `parse-repeat`. -/
def repeatLoop (f : Parser R) (lo : ℕ) (hi : Option ℕ) (sk : Sk R) :
    ℕ → ℕ → Fk R → ℕ → List Val → Option R
  | 0, _, _, _, _ => none
  | n + 1, index, fk, j, res =>
    let fk : Fk R := if lo ≤ j then fun _ _ => sk (.list res.reverse) index fk else fk
    if hi = some j then sk (.list res.reverse) index fk
    else f index (fun r i fk => repeatLoop f lo hi sk n i fk (j + 1) (r :: res)) fk

/-- `parse-repeat` -/
def parseRepeat (rounds : ℕ) (f : Parser R) (lo : ℕ) (hi : Option ℕ) : Parser R :=
  fun index sk fk => repeatLoop f lo hi sk rounds index fk 0 []

/-- `parse-map` -/
def parseMap (f : Parser R) (proc : Val → Val) : Parser R := fun index sk fk =>
  f index (fun res i fk => sk (proc res) i fk) fk

/-- `parse-stream-substring` -/
def substring (i j : ℕ) : List Char := (text.drop i).take (j - i)

/-- `parse-map-substring` -/
def parseMapSubstring (f : Parser R) (proc : List Char → Val) : Parser R := fun index sk fk =>
  f index (fun _ i fk => sk (proc (substring text index i)) i fk) fk

/-- `parse-assert` -/
def parseAssert (f : Parser R) (check : Val → Bool) : Parser R := fun index sk fk =>
  f index (fun res i fk => if check res then sk res i fk else fk i "assertion failed") fk

/-- `parse-atomic` -/
def parseAtomic (f : Parser R) : Parser R := fun index sk fk =>
  f index (fun res i _ => sk res i fk) fk

/-- `parse-commit` -/
def parseCommit (f : Parser R) (commitFk : Fk R) : Parser R := fun index sk fk =>
  f index (fun res i _ => sk res i commitFk) fk

/-- `parse-with-failure-reason` -/
def parseWithFailureReason (f : Parser R) (reason : String) : Parser R := fun index sk fk =>
  f index sk fun i _ => fk i reason

/-- `parse-beginning` -/
def parseBeginning : Parser R := fun index sk fk =>
  if index = 0 then sk (.bool true) index fk else fk index "expected beginning"

/-- `parse-end` -/
def parseEnd : Parser R := fun index sk fk =>
  if text[index]? = none then sk (.bool true) index fk else fk index "expected end"

/-- `parse-char-pred` -/
def parseCharPred (pred : Char → Bool) : Parser R := fun index sk fk =>
  match text[index]? with
  | none => fk index "failed char pred"
  | some ch => if pred ch then sk (.char ch) (index + 1) fk else fk index "failed char pred"

/-- The loop of `parse-token`. -/
def tokenLoop (f : Parser R) (index0 : ℕ) (sk : Sk R) (fk : Fk R) : ℕ → ℕ → Option R
  | 0, _ => none
  | n + 1, index =>
    f index (fun _ i _ => tokenLoop f index0 sk fk n i) fun i r =>
      if index = index0 then fk i r
      else sk (.string (substring text index0 index)) index fk

/-- `parse-token` -/
def parseToken (rounds : ℕ) (f : Parser R) : Parser R := fun index sk fk =>
  tokenLoop text f index sk fk rounds index

end Code

/-! ## Parsers built from the combinators -/

/-- A parser that is built from the combinators, with the procedures it is given.  The
failure continuation given to `parse-commit` is named by a number. -/
inductive Combinator where
  | epsilon
  | anything
  | nothing
  | or (f g : Combinator)
  | and (f g : Combinator)
  | not (f : Combinator)
  | seqOne (f : Combinator)
  | seqPair (f g : Combinator)
  | optional (f : Combinator)
  | repeated (f : Combinator) (lo : ℕ) (hi : Option ℕ)
  | map (f : Combinator) (proc : Val → Val)
  | mapSubstring (f : Combinator) (proc : List Char → Val)
  | assert (f : Combinator) (check : Val → Bool)
  | atomic (f : Combinator)
  | commit (f : Combinator) (commitFk : ℕ)
  | withFailureReason (f : Combinator) (reason : String)
  | beginning
  | ending
  | charPred (pred : Char → Bool)
  | token (pred : Char → Bool)

/-- `parse-seq` -/
def Combinator.seq : List Combinator → Combinator
  | [] => .epsilon
  | [f] => .seqOne f
  | f :: g :: o => .seqPair f (.seq (g :: o))

/-- `parse-or` -/
def Combinator.orList (f : Combinator) : List Combinator → Combinator
  | [] => f
  | g :: o => .or f (g.orList o)

/-- `parse-repeat+` -/
def Combinator.repeat1 (f : Combinator) : Combinator := .repeated f 1 none

/-- `parse-ignore` -/
def Combinator.ignore (f : Combinator) : Combinator := .map f fun _ => .ignored

/-- `parse-char` of a character. -/
def Combinator.char (ch : Char) : Combinator := .charPred (· == ch)

/-- The parser itself, whose loops take at most `rounds` rounds. -/
def run {R : Type} (text : List Char) (commitFk : ℕ → Fk R) (rounds : ℕ) : Combinator → Parser R
  | .epsilon => parseEpsilon
  | .anything => parseAnything text
  | .nothing => parseNothing
  | .or f g => parseOr (run text commitFk rounds f) (run text commitFk rounds g)
  | .and f g => parseAnd (run text commitFk rounds f) (run text commitFk rounds g)
  | .not f => parseNot (run text commitFk rounds f)
  | .seqOne f => parseSeqOne (run text commitFk rounds f)
  | .seqPair f g => parseSeqPair (run text commitFk rounds f) (run text commitFk rounds g)
  | .optional f => parseOptional (run text commitFk rounds f)
  | .repeated f lo hi => parseRepeat rounds (run text commitFk rounds f) lo hi
  | .map f proc => parseMap (run text commitFk rounds f) proc
  | .mapSubstring f proc => parseMapSubstring text (run text commitFk rounds f) proc
  | .assert f check => parseAssert (run text commitFk rounds f) check
  | .atomic f => parseAtomic (run text commitFk rounds f)
  | .commit f k => parseCommit (run text commitFk rounds f) (commitFk k)
  | .withFailureReason f reason => parseWithFailureReason (run text commitFk rounds f) reason
  | .beginning => parseBeginning
  | .ending => parseEnd text
  | .charPred pred => parseCharPred text pred
  | .token pred => parseToken text rounds (parseCharPred text pred)

/-! ## Outcomes -/

/-- The continuation that a parse calls first, with its arguments. -/
inductive Outcome where
  | success (r : Val) (index : ℕ)
  | failure (index : ℕ) (reason : String)
  | gaveUp (commitFk index : ℕ) (reason : String)
  deriving DecidableEq

/-- The parse with continuations that report what they are called with. -/
def outcome (text : List Char) (rounds : ℕ) (f : Combinator) (index : ℕ) : Option Outcome :=
  run text (fun k i r => some (.gaveUp k i r)) rounds f index
    (fun r i _ => some (.success r i)) fun i r => some (.failure i r)

/-- The parser has a parse at the position. -/
def Succeeds (text : List Char) (f : Combinator) (index : ℕ) : Prop :=
  ∃ rounds r i, outcome text rounds f index = some (.success r i)

/-- The parser calls its failure continuation at the position. -/
def Fails (text : List Char) (f : Combinator) (index : ℕ) : Prop :=
  ∃ rounds i reason, outcome text rounds f index = some (.failure i reason)

/-- `parse-not` is a negative lookahead for the parser at the position. -/
structure Negates (text : List Char) (f : Combinator) (index : ℕ) : Prop where
  fails : Succeeds text f index → Fails text (.not f) index
  guards : Succeeds text f index → ¬ Succeeds text (.seq [.not f, .anything]) index
  succeeds : ¬ Succeeds text f index →
    ∃ rounds, outcome text rounds (.not f) index = some (.success (.bool true) index)

/-! ## Related runs -/

section Related

variable {R S : Type} (ρ : Option R → Option S → Prop)

/-- Failure continuations with related answers. -/
def RelatedFk (fk : Fk R) (fk' : Fk S) : Prop := ∀ i reason, ρ (fk i reason) (fk' i reason)

/-- Success continuations that have related answers when they are given related failure
continuations. -/
def RelatedSk (sk : Sk R) (sk' : Sk S) : Prop :=
  ∀ r i fk fk', RelatedFk ρ fk fk' → ρ (sk r i fk) (sk' r i fk')

/-- Two parsers that go to related ends from related continuations. -/
def RelatedParser (f : Parser R) (f' : Parser S) : Prop :=
  ∀ index sk sk' fk fk', RelatedSk ρ sk sk' → RelatedFk ρ fk fk' →
    ρ (f index sk fk) (f' index sk' fk')

variable {ρ} {text : List Char} {f : Parser R} {f' : Parser S}

theorem repeatLoop_related {sk : Sk R} {sk' : Sk S} (hnone : ∀ y, ρ none y)
    (hf : RelatedParser ρ f f') (lo : ℕ) (hi : Option ℕ) (hsk : RelatedSk ρ sk sk') :
    ∀ n m, n ≤ m → ∀ index fk fk' j res, RelatedFk ρ fk fk' →
      ρ (repeatLoop f lo hi sk n index fk j res) (repeatLoop f' lo hi sk' m index fk' j res) := by
  intro n
  induction n with
  | zero =>
    intro m _ index fk fk' j res _
    exact hnone _
  | succ n ih =>
    intro m hle index fk fk' j res hfk
    obtain ⟨m, rfl⟩ : ∃ k, m = k + 1 := ⟨m - 1, by omega⟩
    -- the alternative to a further round is to stop at this one
    have hstop : RelatedFk ρ
        (if lo ≤ j then fun _ _ => sk (.list res.reverse) index fk else fk)
        (if lo ≤ j then fun _ _ => sk' (.list res.reverse) index fk' else fk') := by
      by_cases hlo : lo ≤ j
      · rw [if_pos hlo, if_pos hlo]
        intro i reason
        exact hsk _ _ _ _ hfk
      · rw [if_neg hlo, if_neg hlo]
        exact hfk
    simp only [repeatLoop]
    by_cases hhi : hi = some j
    · rw [if_pos hhi, if_pos hhi]
      exact hsk _ _ _ _ hstop
    · rw [if_neg hhi, if_neg hhi]
      apply hf
      · intro r i fk fk' hfk
        exact ih m (by omega) i fk fk' (j + 1) (r :: res) hfk
      · exact hstop

theorem tokenLoop_related {sk : Sk R} {sk' : Sk S} {fk : Fk R} {fk' : Fk S}
    (hnone : ∀ y, ρ none y) (hf : RelatedParser ρ f f') (index0 : ℕ)
    (hsk : RelatedSk ρ sk sk') (hfk : RelatedFk ρ fk fk') :
    ∀ n m, n ≤ m → ∀ index,
      ρ (tokenLoop text f index0 sk fk n index) (tokenLoop text f' index0 sk' fk' m index) := by
  intro n
  induction n with
  | zero =>
    intro m _ index
    exact hnone _
  | succ n ih =>
    intro m hle index
    obtain ⟨m, rfl⟩ : ∃ k, m = k + 1 := ⟨m - 1, by omega⟩
    simp only [tokenLoop]
    apply hf
    · intro r i _ _ _
      exact ih m (by omega) i
    · intro i reason
      by_cases hstart : index = index0
      · simp only [if_pos hstart]
        exact hfk i reason
      · simp only [if_neg hstart]
        exact hsk _ _ _ _ hfk

theorem parseCharPred_related (pred : Char → Bool) :
    RelatedParser ρ (parseCharPred text pred) (parseCharPred text pred) := by
  intro index sk sk' fk fk' hsk hfk
  cases hch : text[index]? with
  | none =>
    simp only [parseCharPred, hch]
    exact hfk _ _
  | some ch =>
    simp only [parseCharPred, hch]
    by_cases hpred : pred ch
    · rw [if_pos hpred, if_pos hpred]
      exact hsk _ _ _ _ hfk
    · rw [if_neg hpred, if_neg hpred]
      exact hfk _ _

theorem run_related {commitFk : ℕ → Fk R} {commitFk' : ℕ → Fk S} {n m : ℕ} (hle : n ≤ m)
    (hnone : ∀ y, ρ none y) (hcommit : ∀ k, RelatedFk ρ (commitFk k) (commitFk' k))
    (f : Combinator) : RelatedParser ρ (run text commitFk n f) (run text commitFk' m f) := by
  induction f with
  | epsilon =>
    intro index sk sk' fk fk' hsk hfk
    exact hsk _ _ _ _ hfk
  | anything =>
    intro index sk sk' fk fk' hsk hfk
    cases hch : text[index]? with
    | none =>
      simp only [run, parseAnything, hch]
      exact hfk _ _
    | some ch =>
      simp only [run, parseAnything, hch]
      exact hsk _ _ _ _ hfk
  | nothing =>
    intro index sk sk' fk fk' hsk hfk
    exact hfk _ _
  | or f g ih_f ih_g =>
    intro index sk sk' fk fk' hsk hfk
    apply ih_f _ _ _ _ _ hsk
    intro _ _
    exact ih_g _ _ _ _ _ hsk hfk
  | and f g ih_f ih_g =>
    intro index sk sk' fk fk' hsk hfk
    apply ih_f _ _ _ _ _ _ hfk
    intro _ _ fk fk' hfk
    exact ih_g _ _ _ _ _ hsk hfk
  | not f ih =>
    intro index sk sk' fk fk' hsk hfk
    apply ih
    · intro _ _ fk fk' hfk
      exact hfk _ _
    · intro _ _
      exact hsk _ _ _ _ hfk
  | seqOne f ih =>
    intro index sk sk' fk fk' hsk hfk
    apply ih _ _ _ _ _ _ hfk
    intro _ _ fk fk' hfk
    exact hsk _ _ _ _ hfk
  | seqPair f g ih_f ih_g =>
    intro index sk sk' fk fk' hsk hfk
    apply ih_f _ _ _ _ _ _ hfk
    intro _ _ fk fk' hfk
    apply ih_g _ _ _ _ _ _ hfk
    intro _ _ fk fk' hfk
    exact hsk _ _ _ _ hfk
  | optional f ih =>
    intro index sk sk' fk fk' hsk hfk
    apply ih _ _ _ _ _ hsk
    intro _ _
    exact hsk _ _ _ _ hfk
  | repeated f lo hi ih =>
    intro index sk sk' fk fk' hsk hfk
    -- the one place where the fuel counts
    exact repeatLoop_related hnone ih lo hi hsk n m hle index fk fk' 0 [] hfk
  | map f proc ih =>
    intro index sk sk' fk fk' hsk hfk
    apply ih _ _ _ _ _ _ hfk
    intro _ _ fk fk' hfk
    exact hsk _ _ _ _ hfk
  | mapSubstring f proc ih =>
    intro index sk sk' fk fk' hsk hfk
    apply ih _ _ _ _ _ _ hfk
    intro _ _ fk fk' hfk
    exact hsk _ _ _ _ hfk
  | assert f check ih =>
    intro index sk sk' fk fk' hsk hfk
    apply ih _ _ _ _ _ _ hfk
    intro res i fk fk' hfk
    by_cases hcheck : check res
    · simp only [if_pos hcheck]
      exact hsk _ _ _ _ hfk
    · simp only [if_neg hcheck]
      exact hfk _ _
  | atomic f ih =>
    intro index sk sk' fk fk' hsk hfk
    apply ih _ _ _ _ _ _ hfk
    intro _ _ _ _ _
    exact hsk _ _ _ _ hfk
  | commit f k ih =>
    intro index sk sk' fk fk' hsk hfk
    apply ih _ _ _ _ _ _ hfk
    intro _ _ _ _ _
    exact hsk _ _ _ _ (hcommit k)
  | withFailureReason f reason ih =>
    intro index sk sk' fk fk' hsk hfk
    apply ih _ _ _ _ _ hsk
    intro _ _
    exact hfk _ _
  | beginning =>
    intro index sk sk' fk fk' hsk hfk
    simp only [run, parseBeginning]
    by_cases hstart : index = 0
    · rw [if_pos hstart, if_pos hstart]
      exact hsk _ _ _ _ hfk
    · rw [if_neg hstart, if_neg hstart]
      exact hfk _ _
  | ending =>
    intro index sk sk' fk fk' hsk hfk
    simp only [run, parseEnd]
    by_cases hend : text[index]? = none
    · rw [if_pos hend, if_pos hend]
      exact hsk _ _ _ _ hfk
    · rw [if_neg hend, if_neg hend]
      exact hfk _ _
  | charPred pred => exact parseCharPred_related pred
  | token pred =>
    intro index sk sk' fk fk' hsk hfk
    exact tokenLoop_related hnone (parseCharPred_related pred) index hsk hfk n m hle index

end Related

/-! ## What the outcome decides -/

variable {text : List Char} {f : Combinator} {index : ℕ}

theorem outcome_mono {n m : ℕ} (hle : n ≤ m) {o : Outcome}
    (hout : outcome text n f index = some o) : outcome text m f index = some o := by
  let ρ : Option Outcome → Option Outcome → Prop := fun x y => ∀ o, x = some o → y = some o
  have hrel : ρ (outcome text n f index) (outcome text m f index) := by
    apply run_related hle
    · intro y o ho
      exact nomatch ho
    · intro k i reason o ho
      exact ho
    · intro r i _ _ _ o ho
      exact ho
    · intro i reason o ho
      exact ho
  exact hrel o hout

theorem not_succeeds_of_fails (hfails : Fails text f index) : ¬ Succeeds text f index := by
  intro hsucceeds
  obtain ⟨n, i, reason, hfail⟩ := hfails
  obtain ⟨m, r, i', hsucc⟩ := hsucceeds
  have hfail := outcome_mono (Nat.le_max_left n m) hfail
  have hsucc := outcome_mono (Nat.le_max_right n m) hsucc
  rw [hsucc] at hfail
  exact nomatch hfail

theorem run_of_failure {R : Type} {n : ℕ} {i : ℕ} {reason : String}
    (hout : outcome text n f index = some (.failure i reason)) (commitFk : ℕ → Fk R)
    (sk : Sk R) (fk : Fk R) : run text commitFk n f index sk fk = fk i reason := by
  let ρ : Option Outcome → Option R → Prop := fun x y =>
    ∀ i reason, x = some (.failure i reason) → y = fk i reason
  have hrel : ρ (outcome text n f index) (run text commitFk n f index sk fk) := by
    apply run_related le_rfl
    · intro y i reason ho
      exact nomatch ho
    · intro k i reason i' reason' ho
      exact nomatch ho
    · intro r i _ _ _ i' reason ho
      exact nomatch ho
    · intro i reason i' reason' ho
      cases ho
      rfl
  exact hrel i reason hout

/-! ## `parse-not` -/

theorem parseNot_not_fails (text : List Char) (f : Combinator) (index : ℕ) :
    ¬ Fails text (.not f) index := by
  intro hfails
  obtain ⟨n, i, reason, hout⟩ := hfails
  let ρ : Option Outcome → Option Outcome → Prop := fun x _ =>
    ∀ i reason, x ≠ some (.failure i reason)
  have hrel : ρ (outcome text n (.not f) index) (outcome text n (.not f) index) := by
    apply run_related le_rfl (f := f)
    · intro y i reason ho
      exact nomatch ho
    · intro k i reason i' reason' ho
      exact nomatch ho
    · -- the failure continuation here goes on in the parser
      intro _ i fk fk' hfk
      exact hfk i "not"
    · intro _ _ i reason ho
      exact nomatch ho
  exact hrel i reason hout

theorem settled_of_parseNot {n : ℕ} {r : Val} {i : ℕ}
    (hout : outcome text n (.not f) index = some (.success r i)) :
    Succeeds text f index ∨ Fails text f index := by
  let ρ : Option Outcome → Option Outcome → Prop := fun x y =>
    ∀ r i, x = some (.success r i) →
      (∃ r i, y = some (.success r i)) ∨ ∃ i reason, y = some (.failure i reason)
  have hrel : ρ (outcome text n (.not f) index) (outcome text n f index) := by
    apply run_related le_rfl
    · intro y r i ho
      exact nomatch ho
    · intro k i reason r i' ho
      exact nomatch ho
    · intro r i _ _ _ _ _ _
      exact Or.inl ⟨r, i, rfl⟩
    · intro i reason _ _ _
      exact Or.inr ⟨i, reason, rfl⟩
  cases hrel r i hout with
  | inl hsucc => exact Or.inl ⟨n, hsucc⟩
  | inr hfail => exact Or.inr ⟨n, hfail⟩

/-- `parse-not` is a negative lookahead exactly where its parser fails. -/
theorem negates_iff_fails (text : List Char) (f : Combinator) (index : ℕ) :
    Negates text f index ↔ Fails text f index := by
  constructor
  · intro hneg
    have hnone : ¬ Succeeds text f index := by
      intro hsucc
      exact parseNot_not_fails text f index (hneg.fails hsucc)
    obtain ⟨n, hout⟩ := hneg.succeeds hnone
    cases settled_of_parseNot hout with
    | inl hsucc => exact absurd hsucc hnone
    | inr hfails => exact hfails
  · intro hfails
    have hnone : ¬ Succeeds text f index := not_succeeds_of_fails hfails
    obtain ⟨n, i, reason, hout⟩ := hfails
    refine ⟨fun hsucc => absurd hsucc hnone, fun hsucc => absurd hsucc hnone, fun _ => ?_⟩
    exact ⟨n, run_of_failure hout _ _ _⟩

/-- At the character that it should reject, `parse-not` succeeds. -/
theorem not_negates_char : ¬ Negates ['a'] (.char 'a') 0 := by
  intro hneg
  have hsucc : Succeeds ['a'] (.char 'a') 0 := ⟨0, .char 'a', 1, by decide⟩
  apply hneg.guards hsucc
  exact ⟨0, .pair (.bool true) (.pair (.char 'a') .nil), 1, by decide⟩

end ChibiScheme.Lookahead
