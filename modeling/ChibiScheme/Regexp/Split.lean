import ChibiScheme.Regexp.Fold
import ChibiScheme.Regexp.Submatches

/-!
# Splitting a string

`regexp-split` and `regexp-partition` cut a range of a string at the matches that are not empty.  The
accumulator holds where the last of them ends and the pieces so far, last one first.  What is left is
cut off at the end: `regexp-partition` leaves it out when the last match of any kind ends there.
-/

namespace ChibiScheme

open List

namespace Regexp

namespace Rx

variable (rx : Rx) (order : Order) (str : List Char)

/-- A step of the fold: the string is cut at a match that is not empty. -/
def cutKons (cut : ℕ → ℕ → ℕ → List (List Char)) (_from : ℕ) (md : Matches)
    (a : ℕ × List (List Char)) : ℕ × List (List Char) :=
  match rx.submatch md 0 with
  | none => a
  | some (i, j) => if i = j then a else (j, cut a.1 i j ++ a.2)

/-- The step of `regexp-split` -/
def splitKons : ℕ → Matches → ℕ × List (List Char) → ℕ × List (List Char) :=
  rx.cutKons fun p i _ => [substring str p i]

/-- `regexp-split` -/
def regexpSplit (start stop : ℕ) : Option (List (List Char)) :=
  rx.regexpFold order (rx.splitKons str) (start, []) str
    (fun _ a => (substring str a.1 stop :: a.2).reverse) start stop

/-- The step of `regexp-partition` -/
def partitionKons : ℕ → Matches → ℕ × List (List Char) → ℕ × List (List Char) :=
  rx.cutKons fun p i j => [substring str i j, substring str p i]

/-- The last step of `regexp-partition` -/
def partitionFinal (stop from' : ℕ) (a : ℕ × List (List Char)) : List (List Char) :=
  if from' < stop ∨ a.2 = [] then substring str a.1 stop :: a.2 else a.2

/-- `regexp-partition` -/
def regexpPartition (start stop : ℕ) : Option (List (List Char)) :=
  (rx.regexpFold order (rx.partitionKons str) (start, []) str (partitionFinal str stop) start
    stop).map List.reverse

end Rx

/-! ## Cutting at pairs of positions -/

/-- Pairs of positions that follow each other between two positions -/
def Spaced (stop : ℕ) : ℕ → List (ℕ × ℕ) → Prop
  | p, [] => p ≤ stop
  | p, (i, j) :: pairs => p ≤ i ∧ i ≤ j ∧ Spaced stop j pairs

/-- Where the last match ends. -/
def lastEnd : ℕ → List (ℕ × ℕ) → ℕ
  | p, [] => p
  | _, (_, j) :: pairs => lastEnd j pairs

/-- A string is so many pieces with a separator between any two of them. -/
inductive Interleaved : List (List Char) → List (List Char) → List Char → Prop
  | last (piece : List Char) : Interleaved [piece] [] piece
  | cons {pieces separators whole} (piece separator : List Char)
      (h : Interleaved pieces separators whole) :
      Interleaved (piece :: pieces) (separator :: separators) (piece ++ separator ++ whole)

/-- Cutting at the pairs, one after the other -/
def cutAll (cut : ℕ → ℕ → ℕ → List (List Char)) (a : ℕ × List (List Char)) (pairs : List (ℕ × ℕ)) :
    ℕ × List (List Char) :=
  pairs.foldl (fun a p => (p.2, cut a.1 p.1 p.2 ++ a.2)) a

section Cuts

variable {str : List Char} {p stop : ℕ} {pairs : List (ℕ × ℕ)}

theorem Spaced.lastEnd (h : Spaced stop p pairs) : p ≤ lastEnd p pairs ∧ lastEnd p pairs ≤ stop := by
  induction pairs generalizing p with
  | nil => exact ⟨Nat.le_refl p, h⟩
  | cons pair pairs ih =>
    obtain ⟨hi, hj, hrest⟩ := h
    obtain ⟨hle, hstop⟩ := ih hrest
    exact ⟨Nat.le_trans hi (Nat.le_trans hj hle), hstop⟩

theorem cutAll_fst (cut : ℕ → ℕ → ℕ → List (List Char)) (rest : List (List Char)) :
    (cutAll cut (p, rest) pairs).1 = lastEnd p pairs := by
  induction pairs generalizing p rest with
  | nil => rfl
  | cons pair pairs ih => exact ih _

theorem split_interleaved (str : List Char) (h : Spaced stop p pairs) (rest : List (List Char)) :
    ∃ pieces, (substring str (cutAll (fun p i _ => [substring str p i]) (p, rest) pairs).1 stop ::
        (cutAll (fun p i _ => [substring str p i]) (p, rest) pairs).2).reverse =
          rest.reverse ++ pieces ∧
      Interleaved pieces (pairs.map fun pair => substring str pair.1 pair.2)
        (substring str p stop) := by
  induction pairs generalizing p rest with
  | nil => exact ⟨[substring str p stop], reverse_cons, Interleaved.last _⟩
  | cons pair pairs ih =>
    obtain ⟨i, j⟩ := pair
    obtain ⟨hi, hj, hrest⟩ := h
    obtain ⟨pieces, hpieces, hinterleaved⟩ := ih hrest (substring str p i :: rest)
    have hstop := Nat.le_trans hrest.lastEnd.1 hrest.lastEnd.2
    refine ⟨substring str p i :: pieces, ?_, ?_⟩
    · refine hpieces.trans ?_
      rw [reverse_cons, append_assoc]
      rfl
    · have hwhole : substring str p stop =
          substring str p i ++ substring str i j ++ substring str j stop := by
        rw [substring_append hi hj, substring_append (Nat.le_trans hi hj) hstop]
      rw [hwhole]
      exact Interleaved.cons _ _ hinterleaved

theorem partition_flatten (str : List Char) (h : Spaced stop p pairs) (rest : List (List Char)) :
    ∃ parts, (cutAll (fun p i j => [substring str i j, substring str p i]) (p, rest) pairs).2.reverse =
        rest.reverse ++ parts ∧
      parts.flatten = substring str p (lastEnd p pairs) ∧ (parts = [] ↔ pairs = []) := by
  induction pairs generalizing p rest with
  | nil => exact ⟨[], (append_nil _).symm, substring_self.symm, by simp⟩
  | cons pair pairs ih =>
    obtain ⟨i, j⟩ := pair
    obtain ⟨hi, hj, hrest⟩ := h
    obtain ⟨parts, hparts, hflatten, -⟩ := ih hrest (substring str i j :: substring str p i :: rest)
    refine ⟨substring str p i :: substring str i j :: parts, ?_, ?_, by simp⟩
    · refine hparts.trans ?_
      rw [reverse_cons, reverse_cons, append_assoc, append_assoc]
      rfl
    · have hend := hrest.lastEnd.1
      rw [flatten_cons, flatten_cons, hflatten, ← append_assoc,
        substring_append hi hj, substring_append (Nat.le_trans hi hj) hend]
      rfl

/-- The matches that are not empty. -/
def nonEmpty (pairs : List (ℕ × ℕ)) : List (ℕ × ℕ) := pairs.filter fun pair => pair.1 ≠ pair.2

theorem Spaced.mono {p' : ℕ} (h : Spaced stop p pairs) (hp : p' ≤ p) : Spaced stop p' pairs := by
  cases pairs with
  | nil => exact Nat.le_trans hp h
  | cons pair pairs => exact ⟨Nat.le_trans hp h.1, h.2⟩

theorem Spaced.nonEmpty (h : Spaced stop p pairs) : Spaced stop p (nonEmpty pairs) := by
  induction pairs generalizing p with
  | nil => exact h
  | cons pair pairs ih =>
    obtain ⟨i, j⟩ := pair
    obtain ⟨hi, hj, hrest⟩ := h
    have hafter := ih hrest
    by_cases heq : i = j
    · subst heq
      rw [Regexp.nonEmpty, filter_cons_of_neg (by simp)]
      exact hafter.mono hi
    · rw [Regexp.nonEmpty, filter_cons_of_pos (by simp [heq])]
      exact ⟨hi, hj, hafter⟩

end Cuts

/-! ## What the fold cuts at -/

namespace Rx

variable {env : Env} {flags : Flags} {sre : Sre} {rx : Rx} {order : Order} {str : List Char}
  {i start stop : ℕ}

theorem submatch_zero (hrx : regexp env sre flags = .ok rx) (m : Matches) :
    rx.submatch m 0 = m.bounds := by
  obtain ⟨c, hrules⟩ := rules_regexp hrx
  have hrule : rx.rules[0]? = some (0, 1) := by
    rw [hrules, getElem?_map, getElem?_range (Nat.succ_pos c)]
    rfl
  rw [submatch, hrule, Matches.bounds]
  simp only
  cases m.ref 0 with
  | none => rfl
  | some s => cases m.ref 1 <;> rfl

theorem Calls.spaced (h : rx.Of env flags sre) (hstop : stop ≤ str.length) {from' last : ℕ}
    {calls : List (ℕ × Matches)} (hcalls : rx.Calls order str stop i from' calls last)
    (hfrom : from' ≤ i) (hfrom' : from' ≤ stop) :
    ∃ pairs : List (ℕ × ℕ), (calls.map fun call => call.2.bounds) = pairs.map some ∧
      Spaced stop from' pairs ∧ last = lastEnd from' pairs := by
  induction hcalls with
  | ended => exact ⟨[], rfl, hfrom', rfl⟩
  | unfound => exact ⟨[], rfl, hfrom', rfl⟩
  | @found i from' md j calls last hi hrun hone hrest ih =>
    rcases search_cases h order ⟨str, i, stop⟩ ⟨Nat.le_of_lt hi, hstop⟩ with
      ⟨hnone, -⟩ | ⟨md', s, e, hrun', hzero, hone', hfirst⟩
    · rw [hrun] at hnone
      cases hnone
    rw [hrun] at hrun'
    cases hrun'
    rw [hone] at hone'
    cases hone'
    obtain ⟨hs, hj, -⟩ := hfirst.1
    obtain ⟨pairs, hpairs, hspaced, hlast⟩ := ih le_nextStart hj
    refine ⟨(s, j) :: pairs, ?_, ⟨Nat.le_trans hfrom hs, hfirst.1.le, hspaced⟩, hlast⟩
    rw [map_cons, map_cons, hpairs, Matches.bounds, hzero, hone]
    rfl

theorem foldl_cutKons (hrx : regexp env sre flags = .ok rx)
    (cut : ℕ → ℕ → ℕ → List (List Char)) {calls : List (ℕ × Matches)} {pairs : List (ℕ × ℕ)}
    (hpairs : (calls.map fun call => call.2.bounds) = pairs.map some)
    (a : ℕ × List (List Char)) :
    calls.foldl (fun acc call => rx.cutKons cut call.1 call.2 acc) a =
      cutAll cut a (nonEmpty pairs) := by
  induction calls generalizing pairs a with
  | nil =>
    rw [map_nil, eq_comm, map_eq_nil_iff] at hpairs
    subst hpairs
    rfl
  | cons call calls ih =>
    obtain ⟨pair, pairs, rfl, hpair, hrest⟩ := map_eq_cons_iff.mp hpairs.symm
    have hkons : rx.cutKons cut call.1 call.2 a =
        if pair.1 = pair.2 then a else (pair.2, cut a.1 pair.1 pair.2 ++ a.2) := by
      rw [cutKons, submatch_zero hrx, show call.2.bounds = some pair from hpair.symm]
    rw [foldl_cons, ih hrest.symm, hkons]
    by_cases heq : pair.1 = pair.2
    · rw [if_pos heq, nonEmpty, nonEmpty, filter_cons_of_neg (by simp [heq])]
    · rw [if_neg heq, nonEmpty, nonEmpty, filter_cons_of_pos (by simp [heq])]
      rfl

end Rx

/-- The matches end where the range does, but the last one of them that is not empty ends before. -/
def LostTail (start stop : ℕ) (pairs : List (ℕ × ℕ)) : Prop :=
  lastEnd start pairs = stop ∧ nonEmpty pairs ≠ [] ∧ lastEnd start (nonEmpty pairs) < stop

/-- `regexp-fold` hands over matches, and the string is made up of the pieces of `regexp-split` and what
is matched between them, and of the parts of `regexp-partition` unless the tail is lost. -/
theorem partition_iff (env : Env) (flags : Flags) (sre : Sre) (rx : Rx) (order : Order)
    (str : List Char) (start stop : ℕ) (hrx : regexp env sre flags = .ok rx)
    (hrange : (⟨str, start, stop⟩ : Range).Valid) :
    ∃ pairs : List (ℕ × ℕ),
      rx.regexpFold order (fun _ md acc => md.bounds :: acc) [] str (fun _ acc => acc.reverse) start
        stop = some (pairs.map some) ∧
      (((∃ parts, rx.regexpPartition order str start stop = some parts ∧
            parts.flatten = substring str start stop) ∧
          ∃ pieces, rx.regexpSplit order str start stop = some pieces ∧
            Interleaved pieces ((nonEmpty pairs).map fun pair => substring str pair.1 pair.2)
              (substring str start stop)) ↔
        ¬ LostTail start stop pairs) := by
  have hof := regexp_of hrx
  have hstart : start ≤ stop := hrange.start_le
  have hstop : stop ≤ str.length := hrange.stop_le
  obtain ⟨calls, last, hcalls⟩ := Rx.exists_calls hof order hstop start start
  obtain ⟨pairs, hpairs, hspaced, hlast⟩ := hcalls.spaced hof hstop (Nat.le_refl _) hstart
  have hnonEmpty := hspaced.nonEmpty
  obtain ⟨pieces, hpieces, hinterleaved⟩ := split_interleaved str hnonEmpty []
  obtain ⟨parts, hparts, hflatten, hnil⟩ := partition_flatten str hnonEmpty []
  have hsplit : rx.regexpSplit order str start stop = some pieces := by
    have hreverse : (substring str (cutAll (fun p i _ => [substring str p i]) (start, [])
        (nonEmpty pairs)).1 stop :: (cutAll (fun p i _ => [substring str p i]) (start, [])
        (nonEmpty pairs)).2).reverse = pieces := hpieces
    rw [Rx.regexpSplit, hcalls.regexpFold hof hstop, Rx.splitKons,
      Rx.foldl_cutKons hrx _ hpairs, hreverse]
  have hpartition : rx.regexpPartition order str start stop =
      some (if lastEnd start pairs < stop ∨ nonEmpty pairs = [] then
        parts ++ [substring str (lastEnd start (nonEmpty pairs)) stop] else parts) := by
    have hreverse : (cutAll (fun p i j => [substring str i j, substring str p i]) (start, [])
        (nonEmpty pairs)).2 = parts.reverse := by
      rw [← reverse_inj, reverse_reverse]
      exact hparts
    have hempty : parts.reverse = [] ↔ nonEmpty pairs = [] := by
      rw [reverse_eq_nil_iff, hnil]
    rw [Rx.regexpPartition, hcalls.regexpFold hof hstop, Rx.partitionKons, Rx.foldl_cutKons hrx
      _ hpairs, Rx.partitionFinal, hreverse, cutAll_fst, hlast, Option.map_some]
    by_cases hfinal : lastEnd start pairs < stop ∨ nonEmpty pairs = []
    · rw [if_pos hfinal, if_pos (hfinal.imp_right hempty.mpr), reverse_cons, reverse_reverse]
    · rw [if_neg hfinal, if_neg (fun h => hfinal (h.imp_right hempty.mp)), reverse_reverse]
  obtain ⟨hle, hend⟩ := hnonEmpty.lastEnd
  refine ⟨pairs, ?_, ?_⟩
  · rw [hcalls.regexpFold hof hstop, ← hpairs, foldl_flip_cons_eq_append,
      append_nil, reverse_reverse]
  · rw [hsplit, hpartition]
    constructor
    · rintro ⟨⟨parts', hparts', hwhole⟩, -⟩ ⟨hreached, hsome, hbefore⟩
      rw [if_neg (by rw [hreached]; simp [hsome])] at hparts'
      cases hparts'
      -- the string is longer than the parts
      have hlength := congrArg List.length (hflatten.symm.trans hwhole)
      rw [length_substring (Nat.le_trans hend hstop), length_substring hstop] at hlength
      omega
    · intro hnot
      refine ⟨⟨_, rfl, ?_⟩, pieces, rfl, hinterleaved⟩
      split
      · rw [flatten_append, hflatten, flatten_singleton, substring_append hle hend]
      next hneg =>
        rw [not_or] at hneg
        have hreached : lastEnd start pairs = stop := by
          have := hspaced.lastEnd.2
          omega
        have hlast' : lastEnd start (nonEmpty pairs) = stop := by
          by_contra hne
          exact hnot ⟨hreached, hneg.2, by omega⟩
        rw [hflatten, hlast']

/-- A string is cut at a space. -/
theorem partition_iff_space :
    ∃ rx parts, regexp Env.ascii (.ofChar ' ') Flags.none = .ok rx ∧
      rx.regexpPartition Order.added ['a', ' ', 'b'] 0 3 = some parts ∧
      parts.flatten = ['a', ' ', 'b'] := by
  have hbounds : (regexp Env.ascii (.ofChar ' ') Flags.none).toOption.bind (fun rx =>
      rx.regexpFold Order.added (fun _ md acc => md.bounds :: acc) [] ['a', ' ', 'b']
        (fun _ acc => acc.reverse) 0 3) = some [some (1, 2)] := by decide +kernel
  obtain ⟨rx, hrx, hfold⟩ := exists_regexp hbounds
  obtain ⟨pairs, hpairs, hiff⟩ := partition_iff Env.ascii Flags.none (.ofChar ' ') rx Order.added
    ['a', ' ', 'b'] 0 3 hrx ⟨by decide, by decide⟩
  obtain rfl : pairs = [(1, 2)] := by
    rw [hfold, Option.some.injEq] at hpairs
    exact map_injective_iff.mpr (Option.some_injective _) hpairs.symm
  obtain ⟨⟨parts, hparts, hflatten⟩, -⟩ := hiff.mpr fun hlost => by cases hlost.1
  exact ⟨rx, parts, hrx, hparts, hflatten⟩

/-- "xab" is cut at "x" and at its end, and "ab" is lost. -/
theorem tail_lost :
    let sre : Sre := .alt (.ofChar 'x') (.alt (.assertion .eos) .fail)
    ∃ rx parts, regexp Env.ascii sre Flags.none = .ok rx ∧
      rx.regexpPartition Order.added ['x', 'a', 'b'] 0 3 = some parts ∧
      parts.flatten ≠ substring ['x', 'a', 'b'] 0 3 := by
  intro sre
  have hparts : (regexp Env.ascii sre Flags.none).toOption.bind (fun rx =>
      rx.regexpPartition Order.added ['x', 'a', 'b'] 0 3) = some [[], ['x']] := by decide +kernel
  obtain ⟨rx, hrx, hpartition⟩ := exists_regexp hparts
  exact ⟨rx, _, hrx, hpartition, by decide⟩

end Regexp

end ChibiScheme
