import ChibiScheme.Regexp.Api

/-!
# Iterated matching

`regexp-fold` searches again from the end of each match.  The search starts one position later when the
match is empty where the search began, so that the iteration ends.
-/

namespace ChibiScheme

open List

namespace Regexp

/-- The start and the end of the whole match. -/
def Matches.bounds (m : Matches) : Option (ℕ × ℕ) := do
  let s ← m.ref 0
  let e ← m.ref 1
  pure (s, e)

/-- Where the next search begins after one from the first position with a match to the second -/
def nextStart (i j stop : ℕ) : ℕ := if i = j ∧ j < stop then j + 1 else j

namespace Rx

variable {α β : Type}

/-- The loop of `regexp-fold`, as long as the fuel lasts -/
def foldLoop (rx : Rx) (order : Order) (kons : ℕ → Matches → α → α) (finish : ℕ → α → β)
    (str : List Char) (stop : ℕ) : ℕ → ℕ → ℕ → α → Option β
  | 0, _, _, _ => none
  | fuel + 1, i, from', acc =>
    if i < stop then do
      match ← rx.runOffsets order true ⟨str, i, stop⟩ with
      | none => pure (finish from' acc)
      | some md => do
          let j ← md.ref 1
          foldLoop rx order kons finish str stop fuel (nextStart i j stop) j (kons from' md acc)
    else pure (finish from' acc)

/-- `regexp-fold` -/
def regexpFold (rx : Rx) (order : Order) (kons : ℕ → Matches → α → α) (knil : α) (str : List Char)
    (finish : ℕ → α → β) (start stop : ℕ) : Option β :=
  rx.foldLoop order kons finish str stop (stop - start + 1) start start knil

/-- What the loop of `regexp-fold` hands over from a position on: the end of the match before and the
match itself, and at last the end of the last match. -/
inductive Calls (rx : Rx) (order : Order) (str : List Char) (stop : ℕ) :
    ℕ → ℕ → List (ℕ × Matches) → ℕ → Prop
  | ended {i from'} (hi : stop ≤ i) : Calls rx order str stop i from' [] from'
  | unfound {i from'} (hi : i < stop)
      (hrun : rx.runOffsets order true ⟨str, i, stop⟩ = some none) :
      Calls rx order str stop i from' [] from'
  | found {i from' md j calls last} (hi : i < stop)
      (hrun : rx.runOffsets order true ⟨str, i, stop⟩ = some (some md)) (hone : md.ref 1 = some j)
      (hrest : Calls rx order str stop (nextStart i j stop) j calls last) :
      Calls rx order str stop i from' ((from', md) :: calls) last

variable {env : Env} {flags : Flags} {sre : Sre} {rx : Rx} {order : Order} {str : List Char}
  {i j start stop : ℕ}

theorem lt_nextStart (hi : i < stop) (hj : i ≤ j) : i < nextStart i j stop := by
  unfold nextStart
  split <;> omega

theorem nextStart_le (hj : j ≤ stop) : nextStart i j stop ≤ stop := by
  unfold nextStart
  split <;> omega

theorem le_nextStart : j ≤ nextStart i j stop := by
  unfold nextStart
  split <;> omega

/-! ## What a search finds -/

/-- A match of the SRE that lies in the range. -/
def MatchIn (env : Env) (sre : Sre) (flags : Flags) (range : Range) (s e : ℕ) : Prop :=
  range.start ≤ s ∧ e ≤ range.stop ∧ Spans env sre flags range s e

/-- The first match: the longest one at the least start, or one that ends first if it is non-greedy -/
def First (nonGreedy : Bool) (matchIn : ℕ → ℕ → Prop) (s e : ℕ) : Prop :=
  matchIn s e ∧ ∀ s' e', matchIn s' e' →
    if nonGreedy = true then e ≤ e' else s < s' ∨ s = s' ∧ e' ≤ e

variable {s e : ℕ}

theorem MatchIn.le {range : Range} (h : MatchIn env sre flags range s e) : s ≤ e :=
  (spans_forward env sre flags range s e h.2.2).1

theorem search_cases (h : rx.Of env flags sre) (order : Order) (range : Range)
    (hrange : range.Valid) :
    (rx.runOffsets order true range = some none ∧ ∀ s e, ¬ MatchIn env sre flags range s e) ∨
    ∃ md s e, rx.runOffsets order true range = some (some md) ∧ md.ref 0 = some s ∧
      md.ref 1 = some e ∧ First sre.nonGreedySre (MatchIn env sre flags range) s e := by
  have hsearch := search_iff h hrange order
  obtain ⟨accept, -, hrun⟩ := runOffsets_search h hrange order
  cases accept with
  | none =>
    refine Or.inl ⟨hrun, fun s e hmatch => ?_⟩
    obtain ⟨m, hm⟩ :=
      hsearch.mpr ⟨s, e, hmatch.1, Nat.le_trans hmatch.le hmatch.2.1, hmatch.2.2⟩
    rw [hrun] at hm
    cases hm
  | some a =>
    refine Or.inr ⟨a.found, ?_⟩
    by_cases hlazy : sre.nonGreedySre = true
    · obtain ⟨s, e, hzero, hone, hs, he, hspans, hleast⟩ :=
        search_first_end h hrange order hlazy hrun
      refine ⟨s, e, hrun, hzero, hone, ⟨hs, he, hspans⟩, fun s' e' hmatch => ?_⟩
      rw [if_pos hlazy]
      exact hleast s' e' hmatch.1 (Nat.le_trans hmatch.le hmatch.2.1) hmatch.2.2
    · obtain ⟨s, e, hzero, hone, hs, he, hspans, hleast, hlongest⟩ :=
        search_leftmost_longest h hrange order (Bool.eq_false_iff.mpr hlazy) hrun
      refine ⟨s, e, hrun, hzero, hone, ⟨hs, he, hspans⟩, fun s' e' hmatch => ?_⟩
      rw [if_neg hlazy]
      have hs' :=
        hleast s' e' hmatch.1 (Nat.le_trans hmatch.le hmatch.2.1) hmatch.2.2
      rcases Nat.eq_or_lt_of_le hs' with rfl | hlt
      · exact Or.inr ⟨rfl, hlongest e' hmatch.2.2⟩
      · exact Or.inl hlt

/-! ## The loop -/

theorem exists_calls (h : rx.Of env flags sre) (order : Order) (hstop : stop ≤ str.length)
    (i from' : ℕ) : ∃ calls last, rx.Calls order str stop i from' calls last := by
  induction hleft : stop - i using Nat.strong_induction_on generalizing i from' with
  | h left ih =>
    by_cases hi : i < stop
    · rcases search_cases h order ⟨str, i, stop⟩ ⟨Nat.le_of_lt hi, hstop⟩ with
        ⟨hrun, -⟩ | ⟨md, s, e, hrun, -, hone, ⟨hmatch, -⟩⟩
      · exact ⟨[], from', Calls.unfound hi hrun⟩
      · have hlater := lt_nextStart hi (Nat.le_trans hmatch.1 hmatch.le)
        obtain ⟨calls, last, hcalls⟩ := ih (stop - nextStart i e stop) (by omega) _ e rfl
        exact ⟨(from', md) :: calls, last, Calls.found hi hrun hone hcalls⟩
    · exact ⟨[], from', Calls.ended (Nat.le_of_not_lt hi)⟩

variable {from' last : ℕ} {calls : List (ℕ × Matches)}

theorem Calls.foldLoop (h : rx.Of env flags sre) (hstop : stop ≤ str.length)
    (hcalls : rx.Calls order str stop i from' calls last) (kons : ℕ → Matches → α → α)
    (finish : ℕ → α → β) (acc : α) (fuel : ℕ) (hfuel : stop - i < fuel) :
    rx.foldLoop order kons finish str stop fuel i from' acc =
      some (finish last (calls.foldl (fun acc call => kons call.1 call.2 acc) acc)) := by
  induction hcalls generalizing acc fuel with
  | ended hi =>
    obtain ⟨fuel, rfl⟩ := Nat.exists_eq_succ_of_ne_zero (Nat.ne_zero_of_lt hfuel)
    rw [Rx.foldLoop, if_neg (Nat.not_lt.mpr hi)]
    rfl
  | unfound hi hrun =>
    obtain ⟨fuel, rfl⟩ := Nat.exists_eq_succ_of_ne_zero (Nat.ne_zero_of_lt hfuel)
    rw [Rx.foldLoop, if_pos hi, hrun]
    rfl
  | @found i from' md j calls last hi hrun hone hrest ih =>
    obtain ⟨fuel, rfl⟩ := Nat.exists_eq_succ_of_ne_zero (Nat.ne_zero_of_lt hfuel)
    have hj : i ≤ j := by
      rcases search_cases h order ⟨str, i, stop⟩ ⟨Nat.le_of_lt hi, hstop⟩ with
        ⟨hnone, -⟩ | ⟨md', s, e, hrun', -, hone', ⟨hmatch, -⟩⟩
      · rw [hrun] at hnone
        cases hnone
      · rw [hrun] at hrun'
        cases hrun'
        rw [hone] at hone'
        cases hone'
        exact Nat.le_trans hmatch.1 hmatch.le
    have hlater := lt_nextStart hi hj
    rw [Rx.foldLoop, if_pos hi, hrun]
    simp only [Option.bind_eq_bind, Option.bind_some, hone, foldl_cons]
    exact ih (kons from' md acc) fuel (by omega)

theorem Calls.regexpFold (h : rx.Of env flags sre) (hstop : stop ≤ str.length)
    (hcalls : rx.Calls order str stop start start calls last) (kons : ℕ → Matches → α → α)
    (knil : α) (finish : ℕ → α → β) :
    rx.regexpFold order kons knil str finish start stop =
      some (finish last (calls.foldl (fun acc call => kons call.1 call.2 acc) knil)) :=
  hcalls.foldLoop h hstop kons finish knil _ (Nat.lt_succ_self _)

end Rx

end Regexp

end ChibiScheme
