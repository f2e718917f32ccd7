import ChibiScheme.Regexp.Carried
import ChibiScheme.Regexp.Split

/-!
# Replacing matches

`regexp-replace` and `regexp-replace-all` in a range of a string.  They should do what they do to the
range alone, but without a match `regexp-replace` returns the whole string, and `regexp-replace-all` goes
on to the end of the string.
-/

namespace ChibiScheme

open List Option

namespace Regexp

/-- What a match is replaced with: a string, the contents of a submatch, or what a symbol stands for -/
inductive Subst where
  | string (s : List Char)
  | submatch (n : ℕ)
  | symbol (name : String)
deriving DecidableEq

/-- Why `regexp-replace` raises. -/
inductive ReplaceError where
  | unknownMatchReplacement (name : String)
  | notMatched
deriving DecidableEq

/-- A new string, or the error. -/
abbrev Replaced := Except ReplaceError (List Char)

namespace Rx

variable (rx : Rx) (order : Order)

/-- `regexp-match-submatch` -/
def matchSubmatch (m : Matches) (str : List Char) (n : ℕ) : Option (List Char) :=
  (rx.submatch m n).map fun pair => substring str pair.1 pair.2

/-- `regexp-apply-match`, the last string first -/
def applyMatch (m : Matches) (str : List Char) (start stop : ℕ) :
    List Subst → List (List Char) → Except ReplaceError (List (List Char))
  | [], res => .ok res
  | .submatch n :: ls, res =>
    applyMatch m str start stop ls ((rx.matchSubmatch m str n).getD [] :: res)
  | .symbol name :: ls, res =>
    if name = "pre" then
      match rx.submatch m 0 with
      | none => .error .notMatched
      | some (i, _) => applyMatch m str start stop ls (substring str start i :: res)
    else if name = "post" then
      match rx.submatch m 0 with
      | none => .error .notMatched
      | some (_, j) => applyMatch m str start stop ls (substring str j stop :: res)
    else
      match rx.names.lookup name with
      | none => .error (.unknownMatchReplacement name)
      | some n => applyMatch m str start stop ls ((rx.matchSubmatch m str n).getD [] :: res)
  | .string s :: ls, res => applyMatch m str start stop ls (s :: res)

/-- The loop of `regexp-replace`, with the number of matches to pass over -/
def replaceLoop (str : List Char) (subst : List Subst) (start stop : ℕ) :
    ℕ → ℕ → Option Replaced
  | count, i => do
      match ← rx.runOffsets order true ⟨str, i, stop⟩ with
      | none => pure (.ok str)
      | some m =>
        match rx.submatch m 0 with
        | none => pure (.error .notMatched)
        | some (s, e) =>
          match count with
          | count + 1 => replaceLoop str subst start stop count e
          | 0 => pure do
              let parts ← rx.applyMatch m str start stop subst []
              pure (substring str start s ++ parts.reverse.flatten ++ substring str e stop)

/-- `regexp-replace` -/
def regexpReplace (str : List Char) (subst : List Subst) (start stop count : ℕ) : Option Replaced :=
  rx.replaceLoop order str subst start stop count start

/-- The step of `regexp-replace-all` -/
def replaceKons (str : List Char) (subst : List Subst) (start stop i : ℕ) (m : Matches)
    (acc : Except ReplaceError (List (List Char))) : Except ReplaceError (List (List Char)) := do
  let acc ← acc
  match rx.submatch m 0 with
  | none => .error .notMatched
  | some (s, _) =>
    let parts ← rx.applyMatch m str start stop subst []
    pure (parts ++ if i ≥ s then acc else substring str i s :: acc)

/-- The last step of `regexp-replace-all` -/
def replaceFinish (str : List Char) (i : ℕ) (acc : Except ReplaceError (List (List Char))) :
    Replaced := do
  let acc ← acc
  pure (if i ≥ str.length then acc else substring str i str.length :: acc).reverse.flatten

/-- `regexp-replace-all` -/
def regexpReplaceAll (str : List Char) (subst : List Subst) (start stop : ℕ) : Option Replaced :=
  rx.regexpFold order (rx.replaceKons str subst start stop) (.ok []) str (replaceFinish str) start
    stop

end Rx

/-! ## The range alone -/

section Substring

variable {str : List Char} {start stop i j : ℕ}

theorem substring_substring (h : start + j ≤ stop) :
    substring (substring str start stop) i j = substring str (i + start) (j + start) := by
  rw [substring, substring, substring, drop_take, take_take, drop_drop]
  congr 1
  · omega
  · rw [Nat.add_comm]

theorem moved_substring (hstart : start ≤ stop) (hstop : stop ≤ str.length)
    (hi : i ≤ stop - start) :
    Moved start ⟨substring str start stop, i, stop - start⟩ ⟨str, i + start, stop⟩ where
  start := rfl
  stop := (Nat.sub_add_cancel hstart).symm
  valid := ⟨hi, Nat.le_of_eq (length_substring hstop).symm⟩
  valid' := ⟨by simp only; omega, hstop⟩
  char := by
    intro k _ hk
    have hk : k < stop - start := hk
    show str[k + start]? = (substring str start stop)[k]?
    rw [substring, getElem?_take, if_pos hk, getElem?_drop, Nat.add_comm]

end Substring

namespace Rx

variable {env : Env} {flags : Flags} {sre : Sre} {rx : Rx} {order : Order} {str : List Char}
  {subst : List Subst} {range : Range} {start stop : ℕ}

theorem recorded_le {s q i : ℕ} {m : Matches} (h : rx.Reached range s q i m) (k p : ℕ)
    (hp : m.ref k = some p) : p ≤ i := by
  have hpath : ∀ c, Path rx.states range (rx.startConfig s) c →
      ∀ k p, c.found.ref k = some p → p ≤ c.pos := by
    intro c hc
    induction hc with
    | refl =>
      intro k p hp
      rw [startConfig, Matches.ref, getElem?_replicate] at hp
      split at hp <;> cases hp
    | @tail c c' hbefore hstep ih =>
      obtain ⟨q, i, m⟩ := c
      obtain ⟨st, -, q', -, i', hi', -, rfl⟩ := hstep.inv_leads
      intro k p hp
      have hbefore : ∀ k p, m.ref k = some p → p ≤ i := ih
      by_cases hindex : st.index = some k
      · simp only [State.record, hindex] at hp
        split at hp
        · exact Nat.le_trans (hbefore k p hp) hi'
        rw [Matches.ref, getElem?_set_self'] at hp
        cases hold : m[k]? with
        | none =>
          rw [hold] at hp
          cases hp
        | some old =>
          rw [hold] at hp
          cases hp
          exact hi'
      · rw [State.record_ref st i m hindex] at hp
        exact Nat.le_trans (hbefore k p hp) hi'
  exact hpath ⟨q, i, m⟩ h k p hp

theorem search_recorded (hrx : regexp env sre flags = .ok rx) (hrange : range.Valid)
    {m : Matches} (hrun : rx.runOffsets order true range = some (some m)) :
    (∀ k p, m.ref k = some p → p ≤ range.stop) ∧
      ∃ s e, m.bounds = some (s, e) ∧ m.ref 1 = some e ∧ range.start ≤ s ∧ s ≤ e ∧
        e ≤ range.stop := by
  have hof := regexp_of hrx
  obtain ⟨accept, hresult, hrun'⟩ := runOffsets_search hof hrange order
  rw [hrun] at hrun'
  cases accept with
  | none => cases hrun'
  | some a =>
    cases hrun'
    obtain ⟨s, e, hs, he, hreached⟩ := hresult.sound a rfl
    obtain ⟨hzero, hone, hle⟩ := hof.recorded_accept hreached
    refine ⟨fun k p hp => Nat.le_trans (recorded_le hreached k p hp) he, s, e, ?_, hone,
      hs.1, hle, he⟩
    rw [Matches.bounds, hzero, hone]
    rfl

/-! ## One match -/

theorem submatch_shift (a : ℕ) (m : Matches) (n : ℕ) :
    rx.submatch (m.shift a) n = (rx.submatch m n).map fun pair => (pair.1 + a, pair.2 + a) := by
  unfold submatch
  cases rx.rules[n]? with
  | none => rfl
  | some rule =>
    simp only [Matches.ref_shift]
    cases m.ref rule.1 with
    | none => rfl
    | some s => cases m.ref rule.2 <;> rfl

/-- What is recorded of a match lies in the first positions. -/
def Within (m : Matches) (n : ℕ) : Prop := ∀ k p, m.ref k = some p → p ≤ n

theorem Within.submatch {m : Matches} {n l s e : ℕ} (h : Within m l)
    (hsubmatch : rx.submatch m n = some (s, e)) : s ≤ l ∧ e ≤ l := by
  unfold Rx.submatch at hsubmatch
  split at hsubmatch
  · cases hsubmatch
  · split at hsubmatch
    · next s' e' hs he =>
        cases hsubmatch
        exact ⟨h _ _ hs, h _ _ he⟩
    · cases hsubmatch

theorem matchSubmatch_shift {m : Matches} (h : Within m (stop - start)) (hstart : start ≤ stop)
    (n : ℕ) :
    rx.matchSubmatch (m.shift start) str n = rx.matchSubmatch m (substring str start stop) n := by
  rw [matchSubmatch, matchSubmatch, submatch_shift]
  cases hsubmatch : rx.submatch m n with
  | none => rfl
  | some pair =>
    have he := (h.submatch hsubmatch).2
    rw [map_some, map_some, map_some, substring_substring (by omega)]

theorem applyMatch_shift {m : Matches} (h : Within m (stop - start)) (hstart : start ≤ stop)
    (ls : List Subst) (res : List (List Char)) :
    rx.applyMatch (m.shift start) str start stop ls res =
      rx.applyMatch m (substring str start stop) 0 (stop - start) ls res := by
  induction ls generalizing res with
  | nil => rfl
  | cons item ls ih =>
    cases item with
    | string s => exact ih _
    | submatch n =>
      rw [applyMatch, applyMatch, matchSubmatch_shift h hstart]
      exact ih _
    | symbol name =>
      have hbounds : rx.submatch (m.shift start) 0 =
          (rx.submatch m 0).map fun pair => (pair.1 + start, pair.2 + start) :=
        submatch_shift start m 0
      rw [applyMatch, applyMatch]
      split
      · rw [hbounds]
        cases hpair : rx.submatch m 0 with
        | none => rfl
        | some pair =>
          have hs := (h.submatch hpair).1
          have hpre : substring (substring str start stop) 0 pair.1 =
              substring str start (pair.1 + start) := by
            rw [substring_substring (by omega), Nat.zero_add]
          simp only [map_some, hpre]
          exact ih _
      · split
        · rw [hbounds]
          cases hpair : rx.submatch m 0 with
          | none => rfl
          | some pair =>
            have hpost : substring (substring str start stop) pair.2 (stop - start) =
                substring str (pair.2 + start) stop := by
              rw [substring_substring (by omega), Nat.sub_add_cancel hstart]
            simp only [map_some, hpost]
            exact ih _
        · cases rx.names.lookup name with
          | none => rfl
          | some n =>
            simp only [matchSubmatch_shift h hstart]
            exact ih _

/-! ## The first match -/

/-- There are so many matches and one more, each found from the end of the one before. -/
def Found (rx : Rx) (order : Order) (str : List Char) (stop : ℕ) : ℕ → ℕ → Prop
  | 0, i => ∃ m, rx.runOffsets order true ⟨str, i, stop⟩ = some (some m)
  | count + 1, i => ∃ m e, rx.runOffsets order true ⟨str, i, stop⟩ = some (some m) ∧
      m.ref 1 = some e ∧ Found rx order str stop count e

theorem search_range (hrx : regexp env sre flags = .ok rx) (order : Order) (hstart : start ≤ stop)
    (hstop : stop ≤ str.length) {k : ℕ} (hk : k ≤ stop - start) :
    (rx.runOffsets order true ⟨substring str start stop, k, stop - start⟩ = some none ∧
      rx.runOffsets order true ⟨str, k + start, stop⟩ = some none) ∨
    ∃ m s e, rx.runOffsets order true ⟨substring str start stop, k, stop - start⟩ = some (some m) ∧
      rx.runOffsets order true ⟨str, k + start, stop⟩ = some (some (m.shift start)) ∧
      Within m (stop - start) ∧ rx.submatch m 0 = some (s, e) ∧ m.ref 1 = some e ∧ k ≤ s ∧ s ≤ e ∧
      e ≤ stop - start := by
  have hof := regexp_of hrx
  have hmoved := moved_substring hstart hstop hk
  have hshift := runOffsets_shift hof.guardsMoved hmoved order true
  obtain ⟨accept, -, hrun⟩ := runOffsets_search hof hmoved.valid order
  rw [hrun] at hshift
  cases accept with
  | none => exact Or.inl ⟨hrun, hshift⟩
  | some a =>
    obtain ⟨hwithin, s, e, hbounds, hone, hs, hle, he⟩ :=
      search_recorded hrx hmoved.valid hrun
    rw [← submatch_zero hrx] at hbounds
    exact Or.inr ⟨a.found, s, e, hrun, hshift, hwithin, hbounds, hone, hs, hle, he⟩

/-- The loop of `regexp-replace` in the range alone, and in the string: it does the same if there are
enough matches, and returns its whole string otherwise. -/
theorem replaceLoop_range (hrx : regexp env sre flags = .ok rx) (order : Order)
    (hstart : start ≤ stop) (hstop : stop ≤ str.length) (subst : List Subst) (count : ℕ) {k : ℕ}
    (hk : k ≤ stop - start) :
    (rx.Found order str stop count (k + start) ∧
      rx.replaceLoop order str subst start stop count (k + start) =
        rx.replaceLoop order (substring str start stop) subst 0 (stop - start) count k) ∨
    (¬ rx.Found order str stop count (k + start) ∧
      rx.replaceLoop order str subst start stop count (k + start) = some (.ok str) ∧
      rx.replaceLoop order (substring str start stop) subst 0 (stop - start) count k =
        some (.ok (substring str start stop))) := by
  induction count generalizing k with
  | zero =>
    rcases search_range hrx order hstart hstop hk with
      ⟨halone, hin⟩ | ⟨m, s, e, halone, hin, hwithin, hsubmatch, -, -, hle, he⟩
    · refine Or.inr ⟨?_, ?_, ?_⟩
      · rintro ⟨m, hm⟩
        rw [hin] at hm
        cases hm
      · rw [replaceLoop, hin]
        rfl
      · rw [replaceLoop, halone]
        rfl
    · refine Or.inl ⟨⟨m.shift start, hin⟩, ?_⟩
      have hmoved : rx.submatch (m.shift start) 0 = some (s + start, e + start) := by
        rw [submatch_shift, hsubmatch]
        rfl
      rw [replaceLoop, replaceLoop, hin, halone]
      simp only [bind_eq_bind, bind_some, hmoved, hsubmatch, applyMatch_shift hwithin hstart]
      rw [substring_substring (by omega), substring_substring (by omega), Nat.zero_add,
        Nat.sub_add_cancel hstart]
  | succ count ih =>
    rcases search_range hrx order hstart hstop hk with
      ⟨halone, hin⟩ | ⟨m, s, e, halone, hin, -, hsubmatch, hone, -, -, he⟩
    · refine Or.inr ⟨?_, ?_, ?_⟩
      · rintro ⟨m, e, hm, -⟩
        rw [hin] at hm
        cases hm
      · rw [replaceLoop, hin]
        rfl
      · rw [replaceLoop, halone]
        rfl
    · have hmoved : rx.submatch (m.shift start) 0 = some (s + start, e + start) := by
        rw [submatch_shift, hsubmatch]
        rfl
      have hfound : rx.Found order str stop (count + 1) (k + start) ↔
          rx.Found order str stop count (e + start) := by
        have hend : (m.shift start).ref 1 = some (e + start) := by
          rw [Matches.ref_shift, hone]
          rfl
        constructor
        · rintro ⟨m', e', hm', he', hfound⟩
          rw [hin] at hm'
          cases hm'
          rw [hend] at he'
          cases he'
          exact hfound
        · exact fun hfound => ⟨_, _, hin, hend, hfound⟩
      rw [hfound, replaceLoop, replaceLoop, hin, halone]
      simp only [bind_eq_bind, bind_some, hmoved, hsubmatch]
      exact ih he

/-! ## All matches -/

/-- A substitution names a submatch that the automaton does not have. -/
def Fails (rx : Rx) (subst : List Subst) : Prop :=
  ∃ name, .symbol name ∈ subst ∧ name ≠ "pre" ∧ name ≠ "post" ∧ rx.names.lookup name = none

theorem applyMatch_ok_iff {m : Matches} {s e : ℕ} (hsubmatch : rx.submatch m 0 = some (s, e))
    (ls : List Subst) (res : List (List Char)) :
    (∃ parts, rx.applyMatch m str start stop ls res = .ok parts) ↔ ¬ rx.Fails ls := by
  induction ls generalizing res with
  | nil => exact ⟨fun _ ⟨_, hmem, _⟩ => not_mem_nil hmem, fun _ => ⟨res, rfl⟩⟩
  | cons item ls ih =>
    have hcons : rx.Fails (item :: ls) ↔
        (∃ name, item = .symbol name ∧ name ≠ "pre" ∧ name ≠ "post" ∧
          rx.names.lookup name = none) ∨ rx.Fails ls := by
      constructor
      · rintro ⟨name, hmem, hname⟩
        rcases mem_cons.mp hmem with heq | hmem
        · exact Or.inl ⟨name, heq.symm, hname⟩
        · exact Or.inr ⟨name, hmem, hname⟩
      · rintro (⟨name, rfl, hname⟩ | ⟨name, hmem, hname⟩)
        · exact ⟨name, mem_cons_self, hname⟩
        · exact ⟨name, mem_cons_of_mem _ hmem, hname⟩
    rw [hcons, not_or]
    cases item with
    | string s =>
      rw [applyMatch, ih]
      exact ⟨fun h => ⟨nofun, h⟩, fun h => h.2⟩
    | submatch n =>
      rw [applyMatch, ih]
      exact ⟨fun h => ⟨nofun, h⟩, fun h => h.2⟩
    | symbol name =>
      rw [applyMatch]
      split
      · next hpre =>
          rw [hsubmatch]
          simp only [ih]
          refine ⟨fun h => ⟨?_, h⟩, fun h => h.2⟩
          rintro ⟨name', heq, hnot, -⟩
          cases heq
          exact hnot hpre
      · next hpre =>
          split
          · next hpost =>
              rw [hsubmatch]
              simp only [ih]
              refine ⟨fun h => ⟨?_, h⟩, fun h => h.2⟩
              rintro ⟨name', heq, -, hnot, -⟩
              cases heq
              exact hnot hpost
          · next hpost =>
              cases hlookup : rx.names.lookup name with
              | none =>
                refine ⟨fun ⟨_, h⟩ => (nomatch h), fun h => ?_⟩
                exact absurd ⟨name, rfl, hpre, hpost, hlookup⟩ h.1
              | some n =>
                simp only [ih]
                refine ⟨fun h => ⟨?_, h⟩, fun h => h.2⟩
                rintro ⟨name', heq, -, -, hnone⟩
                cases heq
                rw [hlookup] at hnone
                cases hnone

/-- A match that is handed over by the fold, with what is recorded of it -/
def Handed (rx : Rx) (l : ℕ) (call : ℕ × Matches) : Prop :=
  Within call.2 l ∧ ∃ s e, rx.submatch call.2 0 = some (s, e)

theorem replaceKons_range (hstart : start ≤ stop) (subst : List Subst) {call : ℕ × Matches}
    (hcall : rx.Handed (stop - start) call) (acc : Except ReplaceError (List (List Char))) :
    rx.replaceKons str subst start stop (call.1 + start) (call.2.shift start) acc =
      rx.replaceKons (substring str start stop) subst 0 (stop - start) call.1 call.2 acc := by
  obtain ⟨hwithin, s, e, hsubmatch⟩ := hcall
  have hs := (hwithin.submatch hsubmatch).1
  have hmoved : rx.submatch (call.2.shift start) 0 = some (s + start, e + start) := by
    rw [submatch_shift, hsubmatch]
    rfl
  rw [replaceKons, replaceKons]
  simp only [hmoved, hsubmatch, applyMatch_shift hwithin hstart, ge_iff_le,
    Nat.add_le_add_iff_right]
  rw [substring_substring (by omega)]

theorem foldl_replaceKons_error (subst : List Subst) (calls : List (ℕ × Matches))
    (e : ReplaceError) :
    calls.foldl (fun acc call => rx.replaceKons str subst start stop call.1 call.2 acc) (.error e) =
      .error e := by
  induction calls with
  | nil => rfl
  | cons call calls ih => exact ih

theorem foldl_replaceKons_ok_iff (subst : List Subst) {l : ℕ} (calls : List (ℕ × Matches))
    (hcalls : ∀ call ∈ calls, rx.Handed l call) (acc : List (List Char)) :
    (∃ parts, calls.foldl (fun acc call => rx.replaceKons str subst start stop call.1 call.2 acc)
        (.ok acc) = .ok parts) ↔ calls = [] ∨ ¬ rx.Fails subst := by
  induction calls generalizing acc with
  | nil => exact ⟨fun _ => Or.inl rfl, fun _ => ⟨acc, rfl⟩⟩
  | cons call calls ih =>
    obtain ⟨-, s, e, hsubmatch⟩ := hcalls call mem_cons_self
    have hrest := fun call h => hcalls call (mem_cons_of_mem _ h)
    have happly : (∃ parts, rx.applyMatch call.2 str start stop subst [] = .ok parts) ↔
        ¬ rx.Fails subst := applyMatch_ok_iff hsubmatch subst []
    have hstep : rx.replaceKons str subst start stop call.1 call.2 (.ok acc) =
        (rx.applyMatch call.2 str start stop subst []).map fun parts =>
          parts ++ if call.1 ≥ s then acc else substring str call.1 s :: acc := by
      rw [replaceKons, hsubmatch]
      cases rx.applyMatch call.2 str start stop subst [] <;> rfl
    rw [foldl_cons, hstep]
    cases hparts : rx.applyMatch call.2 str start stop subst [] with
    | error e =>
      have hfails : rx.Fails subst := by
        by_contra hnot
        obtain ⟨parts, hok⟩ := happly.mpr hnot
        rw [hparts] at hok
        cases hok
      rw [Except.map, foldl_replaceKons_error]
      constructor
      · rintro ⟨parts, hok⟩
        cases hok
      · rintro (hnil | hnot)
        · cases hnil
        · exact absurd hfails hnot
    | ok parts =>
      have hnot : ¬ rx.Fails subst := happly.mp ⟨parts, hparts⟩
      rw [Except.map, ih hrest]
      exact ⟨fun _ => Or.inr hnot, fun _ => Or.inr hnot⟩

theorem replaceFinish_ok (i : ℕ) (acc : List (List Char)) :
    replaceFinish str i (.ok acc) =
      .ok (acc.reverse.flatten ++ substring str i str.length) := by
  show Except.ok (if i ≥ str.length then acc else substring str i str.length :: acc).reverse.flatten =
    Except.ok (acc.reverse.flatten ++ substring str i str.length)
  split
  · next hge =>
      have hempty : substring str i str.length = [] := by
        rw [substring, Nat.sub_eq_zero_of_le hge, take_zero]
      rw [hempty, append_nil]
  · rw [reverse_cons, flatten_append, flatten_singleton]

theorem Calls.inRange (hrx : regexp env sre flags = .ok rx) (hstart : start ≤ stop)
    (hstop : stop ≤ str.length) {k from' last : ℕ} {calls : List (ℕ × Matches)}
    (h : rx.Calls order (substring str start stop) (stop - start) k from' calls last)
    (hk : k ≤ stop - start) (hfrom : from' ≤ stop - start) :
    rx.Calls order str stop (k + start) (from' + start)
        (calls.map fun call => (call.1 + start, call.2.shift start)) (last + start) ∧
      (∀ call ∈ calls, rx.Handed (stop - start) call) ∧ last ≤ stop - start := by
  induction h with
  | ended hi => exact ⟨Calls.ended (by omega), nofun, hfrom⟩
  | @unfound k from' hi hrun =>
    refine ⟨Calls.unfound (by omega) ?_, nofun, hfrom⟩
    rcases search_range hrx order hstart hstop hk with ⟨-, hin⟩ | ⟨m, s, e, halone, -⟩
    · exact hin
    · rw [hrun] at halone
      cases halone
  | @found k from' md j calls last hi hrun hone hrest ih =>
    rcases search_range hrx order hstart hstop hk with
      ⟨halone, -⟩ | ⟨m, s, e, halone, hin, hwithin, hsubmatch, hone', -, -, he⟩
    · rw [hrun] at halone
      cases halone
    rw [hrun] at halone
    cases halone
    rw [hone] at hone'
    cases hone'
    have hnext : nextStart k j (stop - start) + start = nextStart (k + start) (j + start) stop := by
      unfold nextStart
      split <;> split <;> omega
    obtain ⟨hcalls, hhanded, hlast⟩ := ih (nextStart_le he) he
    refine ⟨?_, ?_, hlast⟩
    · rw [hnext] at hcalls
      refine Calls.found (by omega) hin ?_ hcalls
      rw [Matches.ref_shift, hone]
      rfl
    · intro call hcall
      rcases mem_cons.mp hcall with rfl | hcall
      · exact ⟨hwithin, s, j, hsubmatch⟩
      · exact hhanded call hcall

theorem Calls.eq_nil_iff {i from' last : ℕ} {calls : List (ℕ × Matches)}
    (h : rx.Calls order str stop i from' calls last) :
    calls = [] ↔ ¬ (i < stop ∧ rx.Found order str stop 0 i) := by
  cases h with
  | ended hi => exact ⟨fun _ h => absurd h.1 (Nat.not_lt.mpr hi), fun _ => rfl⟩
  | unfound hi hrun =>
    refine ⟨fun _ h => ?_, fun _ => rfl⟩
    obtain ⟨m, hm⟩ := h.2
    rw [hrun] at hm
    cases hm
  | found hi hrun => exact ⟨nofun, fun h => absurd ⟨hi, _, hrun⟩ h⟩

theorem replaceAll_range (hrx : regexp env sre flags = .ok rx) (order : Order)
    (hstart : start ≤ stop) (hstop : stop ≤ str.length) (subst : List Subst) :
    rx.regexpReplaceAll order str subst start stop =
        rx.regexpReplaceAll order (substring str start stop) subst 0 (stop - start) ↔
      stop = str.length ∨ (start < stop ∧ rx.Found order str stop 0 start ∧ rx.Fails subst) := by
  have hof := regexp_of hrx
  have hlength : (substring str start stop).length = stop - start := length_substring hstop
  obtain ⟨calls, last, hcalls⟩ :=
    exists_calls hof order (Nat.le_of_eq hlength.symm) 0 0
  obtain ⟨hmoved, hhanded, hlast⟩ :=
    hcalls.inRange hrx hstart hstop (Nat.zero_le _) (Nat.zero_le _)
  rw [Nat.zero_add] at hmoved
  have hnil := hmoved.eq_nil_iff
  rw [map_eq_nil_iff] at hnil
  have hfold : (calls.map fun call => (call.1 + start, call.2.shift start)).foldl
      (fun acc call => rx.replaceKons str subst start stop call.1 call.2 acc) (.ok []) =
      calls.foldl (fun acc call => rx.replaceKons (substring str start stop) subst 0 (stop - start)
        call.1 call.2 acc) (.ok []) := by
    rw [foldl_map]
    exact foldl_ext _ _ _ fun acc call hcall =>
      replaceKons_range hstart subst (hhanded call hcall) acc
  rw [regexpReplaceAll, regexpReplaceAll, hmoved.regexpFold hof hstop,
    hcalls.regexpFold hof (Nat.le_of_eq hlength.symm), hfold]
  cases hsteps : calls.foldl (fun acc call => rx.replaceKons (substring str start stop) subst 0
      (stop - start) call.1 call.2 acc) (.ok []) with
  | error e =>
    have hfails : ¬ (calls = [] ∨ ¬ rx.Fails subst) := by
      rw [← foldl_replaceKons_ok_iff subst calls hhanded [], hsteps]
      rintro ⟨parts, hok⟩
      cases hok
    rw [not_or, not_not, hnil, not_not] at hfails
    exact ⟨fun _ => Or.inr ⟨hfails.1.1, hfails.1.2, hfails.2⟩, fun _ => rfl⟩
  | ok parts =>
    have hnot : calls = [] ∨ ¬ rx.Fails subst :=
      (foldl_replaceKons_ok_iff subst calls hhanded []).mp ⟨parts, hsteps⟩
    have htail : substring (substring str start stop) last (stop - start) =
        substring str (last + start) stop := by
      rw [substring_substring (by omega), Nat.sub_add_cancel hstart]
    rw [replaceFinish_ok, replaceFinish_ok, hlength, htail, Option.some.injEq,
      Except.ok.injEq, append_cancel_left_eq]
    constructor
    · intro heq
      have hlengths := congrArg List.length heq
      rw [length_substring (Nat.le_refl _), length_substring hstop] at hlengths
      exact Or.inl (by omega)
    · rintro (rfl | ⟨hlt, hfound, hfails⟩)
      · rfl
      · exact absurd (hnot.resolve_left fun h => hnil.mp h ⟨hlt, hfound⟩) (not_not.mpr hfails)

end Rx

/-- Replacing in a range does what replacing in the range alone does if there is a match to replace or the
range is the whole string, and if the string ends with the range or replacing all matches fails. -/
theorem replace_iff (env : Env) (flags : Flags) (sre : Sre) (rx : Rx) (order : Order)
    (str : List Char) (start stop : ℕ) (hrx : regexp env sre flags = .ok rx)
    (hrange : (⟨str, start, stop⟩ : Range).Valid) (subst : List Subst) (count : ℕ) :
    (rx.regexpReplace order str subst start stop count =
        rx.regexpReplace order (substring str start stop) subst 0 (stop - start) count ∧
      rx.regexpReplaceAll order str subst start stop =
        rx.regexpReplaceAll order (substring str start stop) subst 0 (stop - start)) ↔
      (rx.Found order str stop count start ∨ substring str start stop = str) ∧
      (stop = str.length ∨ (start < stop ∧ rx.Found order str stop 0 start ∧ rx.Fails subst)) := by
  have hstart : start ≤ stop := hrange.start_le
  have hstop : stop ≤ str.length := hrange.stop_le
  refine and_congr ?_ (Rx.replaceAll_range hrx order hstart hstop subst)
  have hloop := Rx.replaceLoop_range hrx order hstart hstop subst count (Nat.zero_le _)
  rw [Nat.zero_add] at hloop
  rw [Rx.regexpReplace, Rx.regexpReplace]
  rcases hloop with ⟨hfound, heq⟩ | ⟨hnot, hin, halone⟩
  · exact ⟨fun _ => Or.inl hfound, fun _ => heq⟩
  · rw [hin, halone, Option.some.injEq, Except.ok.injEq]
    exact ⟨fun h => Or.inr h.symm, fun h => (h.resolve_left hnot).symm⟩

/-- A "b" is replaced at the end of a string. -/
theorem replace_iff_end :
    ∃ rx, regexp Env.ascii (.ofChar 'b') Flags.none = .ok rx ∧
      rx.regexpReplace Order.added ['a', 'b'] [.string ['x']] 1 2 0 =
        rx.regexpReplace Order.added ['b'] [.string ['x']] 0 1 0 ∧
      rx.regexpReplaceAll Order.added ['a', 'b'] [.string ['x']] 1 2 =
        rx.regexpReplaceAll Order.added ['b'] [.string ['x']] 0 1 := by
  have hrun : (regexp Env.ascii (.ofChar 'b') Flags.none).toOption.bind (fun rx =>
      (rx.runOffsets Order.added true ⟨['a', 'b'], 1, 2⟩).join) = some [some 1, some 2] := by
    decide +kernel
  obtain ⟨rx, hrx, hfound⟩ := exists_regexp hrun
  refine ⟨rx, hrx, ?_⟩
  exact (replace_iff Env.ascii Flags.none (.ofChar 'b') rx Order.added ['a', 'b'] 1 2 hrx
    ⟨by decide, by decide⟩ [.string ['x']] 0).mpr
      ⟨Or.inl ⟨_, join_eq_some_iff.mp hfound⟩, Or.inl rfl⟩

/-- Where there is nothing to replace between "a" and "c", the rest of the string is returned too. -/
theorem range_left :
    ∃ rx, regexp Env.ascii (.ofChar 'z') Flags.none = .ok rx ∧
      ¬ (rx.regexpReplace Order.added ['a', 'b', 'c'] [.string ['x']] 1 2 0 =
          rx.regexpReplace Order.added (substring ['a', 'b', 'c'] 1 2) [.string ['x']] 0 1 0) ∧
      ¬ (rx.regexpReplaceAll Order.added ['a', 'b', 'c'] [.string ['x']] 1 2 =
          rx.regexpReplaceAll Order.added (substring ['a', 'b', 'c'] 1 2) [.string ['x']] 0 1) := by
  have hrun : (regexp Env.ascii (.ofChar 'z') Flags.none).toOption.bind (fun rx =>
      some (decide (rx.regexpReplace Order.added ['a', 'b', 'c'] [.string ['x']] 1 2 0 =
          rx.regexpReplace Order.added (substring ['a', 'b', 'c'] 1 2) [.string ['x']] 0 1 0),
        decide (rx.regexpReplaceAll Order.added ['a', 'b', 'c'] [.string ['x']] 1 2 =
          rx.regexpReplaceAll Order.added (substring ['a', 'b', 'c'] 1 2) [.string ['x']] 0 1))) =
        some (false, false) := by
    decide +kernel
  obtain ⟨rx, hrx, hboth⟩ := exists_regexp hrun
  have hpair := Prod.mk.inj (some.inj hboth)
  exact ⟨rx, hrx, of_decide_eq_false hpair.1, of_decide_eq_false hpair.2⟩

end Regexp

end ChibiScheme
