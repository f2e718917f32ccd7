import ChibiScheme.Regexp.Api

/-!
# Moving the range

A run does not depend on where in the string its range lies: in a range that is moved, with the same
characters in it, it finds the same with all positions moved.  The hash tables are walked in the order of
their keys, which are states, so that the order stays the same.
-/

namespace ChibiScheme

open List Option

namespace Regexp

/-- The second range is the first one moved by so many positions, with the same characters in it. -/
structure Moved (a : ℕ) (range range' : Range) : Prop where
  start : range'.start = range.start + a
  stop : range'.stop = range.stop + a
  valid : range.Valid
  valid' : range'.Valid
  char : ∀ i, range.start ≤ i → i < range.stop → range'.str[i + a]? = range.str[i]?

/-- The guard answers alike in a range that is moved. -/
def GuardMoved (g : Guard) : Prop :=
  ∀ (a : ℕ) (range range' : Range), Moved a range range' → ∀ i, range.start ≤ i → i ≤ range.stop →
    g range'.str (i + a) range'.start range'.stop = g range.str i range.start range.stop

/-- All guards of the regular expression say the same of moved positions. -/
def Rx.GuardsMoved (rx : Rx) : Prop :=
  ∀ st ∈ rx.states, ∀ g, st.chars = .guard g → GuardMoved g

namespace Moved

variable {a : ℕ} {range range' : Range} {i : ℕ}

theorem ahead (h : Moved a range range') (hstart : range.start ≤ i) (hstop : i ≤ range.stop) :
    Moved a ⟨range.str, i, range.stop⟩ ⟨range'.str, i + a, range'.stop⟩ where
  start := rfl
  stop := h.stop
  valid := ⟨hstop, h.valid.stop_le⟩
  valid' := ⟨by rw [h.stop]; exact Nat.add_le_add_right hstop a, h.valid'.stop_le⟩
  char := fun k hk hlt => h.char k (Nat.le_trans hstart hk) hlt

theorem behind (h : Moved a range range') (hstart : range.start ≤ i) (hstop : i ≤ range.stop) :
    Moved a ⟨range.str, range.start, i⟩ ⟨range'.str, range'.start, i + a⟩ where
  start := h.start
  stop := rfl
  valid := ⟨hstart, Nat.le_trans hstop h.valid.stop_le⟩
  valid' := by
    refine ⟨by rw [h.start]; exact Nat.add_le_add_right hstart a, ?_⟩
    have hend := h.valid'.stop_le
    rw [h.stop] at hend
    exact Nat.le_trans (Nat.add_le_add_right hstop a) hend
  char := fun k hk hlt => h.char k hk (Nat.lt_of_lt_of_le hlt hstop)

end Moved

/-! ## Vectors and searchers -/

/-- All recorded positions are moved. -/
def Matches.shift (a : ℕ) (m : Matches) : Matches := m.map fun p => p.map (· + a)

/-- The searcher, `a` positions later. -/
def Searcher.shift (a : ℕ) (sr : Searcher) : Searcher := ⟨sr.state, sr.found.shift a⟩

/-- Every searcher, `a` positions later. -/
def Posse.shift (a : ℕ) (posse : Posse) : Posse := posse.map (Searcher.shift a)

/-- The closure, `a` positions later. -/
def Closure.shift (a : ℕ) (c : Closure) : Closure :=
  ⟨Posse.shift a c.new, Posse.shift a c.seen, c.accept.map (Searcher.shift a)⟩

section Vectors

variable {a : ℕ}

@[simp]
theorem Matches.ref_shift (m : Matches) (k : ℕ) : (m.shift a).ref k = (m.ref k).map (· + a) := by
  rw [ref, ref, shift, getElem?_map]
  cases m[k]? with
  | none => rfl
  | some p => rfl

theorem Matches.set_shift (m : Matches) (k i : ℕ) :
    Matches.shift a (m.set k (some i)) = (m.shift a).set k (some (i + a)) := by
  rw [shift, shift, map_set]
  rfl

theorem pairGe_shift (nonGreedy : Bool) (s₁ e₁ s₂ e₂ : Option ℕ) :
    pairGe nonGreedy (s₁.map (· + a)) (e₁.map (· + a)) (s₂.map (· + a)) (e₂.map (· + a)) =
      pairGe nonGreedy s₁ e₁ s₂ e₂ := by
  cases s₁ <;> cases e₁ <;> cases s₂ <;> cases e₂ <;> simp [pairGe]

theorem matchGe_shift (nonGreedyIndexes : List ℕ) (i : ℕ) (m₁ m₂ : Matches) :
    matchGe nonGreedyIndexes i (m₁.shift a) (m₂.shift a) = matchGe nonGreedyIndexes i m₁ m₂ := by
  have hinj : Function.Injective (Option.map fun p : ℕ => p + a) :=
    map_injective (add_left_injective a)
  fun_induction matchGe nonGreedyIndexes i m₁ m₂ with
  | case1 i s₁ e₁ m₁ s₂ e₂ m₂ heq ih =>
    rw [← ih, Matches.shift, Matches.shift, map_cons, map_cons, map_cons,
      map_cons, matchGe, heq.1, heq.2, if_pos ⟨rfl, rfl⟩]
    rfl
  | case2 i s₁ e₁ m₁ s₂ e₂ m₂ hne =>
    rw [← pairGe_shift, Matches.shift, Matches.shift, map_cons, map_cons,
      map_cons, map_cons, matchGe, if_neg]
    exact fun h => hne ⟨hinj h.1, hinj h.2⟩
  | case3 m₁ i m₂ hshort =>
    -- one of the vectors has less than two places, and so has the moved one
    cases m₁ with
    | nil => rfl
    | cons s₁ m₁ =>
      cases m₁ with
      | nil => rfl
      | cons e₁ m₁ =>
        cases m₂ with
        | nil => rfl
        | cons s₂ m₂ =>
          cases m₂ with
          | nil => rfl
          | cons e₂ m₂ => exact absurd rfl (hshort _ _ _ _ _ _ rfl)

end Vectors

namespace State

variable {a : ℕ} (st : State)

theorem keeps_shift (k : ℕ) (m : Matches) : st.keeps k (m.shift a) = st.keeps k m := by
  unfold keeps
  rw [Matches.ref_shift, Matches.ref_shift]
  cases m.ref k with
  | none => rfl
  | some recorded =>
    cases m.ref (k - 1) with
    | none => rfl
    | some start => simp

theorem record_shift (i : ℕ) (m : Matches) :
    st.record (i + a) (m.shift a) = (st.record i m).shift a := by
  unfold record
  cases st.index with
  | none => rfl
  | some k =>
    simp only [keeps_shift]
    split
    · rfl
    · exact (Matches.set_shift m k i).symm

end State

section Posses

variable {a : ℕ}

theorem posseRef_shift (posse : Posse) (q : ℕ) :
    posseRef (Posse.shift a posse) q = (posseRef posse q).map (Searcher.shift a) := by
  rw [posseRef, posseRef, Posse.shift, find?_map]
  rfl

theorem posseSet_shift (posse : Posse) (sr : Searcher) :
    posseSet (Posse.shift a posse) (sr.shift a) = Posse.shift a (posseSet posse sr) := by
  rw [posseSet, posseSet, Posse.shift, Posse.shift, List.map_map, List.map_map]
  refine map_congr_left fun old _ => ?_
  show (if old.state = sr.state then sr.shift a else old.shift a) =
    (if old.state = sr.state then sr else old).shift a
  split <;> rfl

theorem posseKeys_shift (posse : Posse) : posseKeys (Posse.shift a posse) = posseKeys posse := by
  rw [posseKeys, posseKeys, Posse.shift, List.map_map]
  rfl

theorem Posse.shift_append (posse posse' : Posse) :
    Posse.shift a (posse ++ posse') = Posse.shift a posse ++ Posse.shift a posse' :=
  map_append

theorem Order.walk_shift (order : Order) (rx : Rx) (past : List (List ℕ)) (posse : Posse) :
    order.walk rx past (Posse.shift a posse) = (order.walk rx past posse).map (Searcher.shift a) := by
  rw [walk, walk, posseKeys_shift, map_filterMap]
  exact filterMap_congr fun q _ => posseRef_shift posse q

end Posses

/-! ## The run -/

namespace Rx

variable {rx : Rx} {a : ℕ} {range range' : Range} {i : ℕ}

theorem merge_shift (sr₁ sr₂ : Searcher) :
    rx.merge (sr₁.shift a) (sr₂.shift a) = (rx.merge sr₁ sr₂).shift a := by
  have hge : matchGe rx.nonGreedyIndexes 0 (sr₁.shift a).found (sr₂.shift a).found =
      matchGe rx.nonGreedyIndexes 0 sr₁.found sr₂.found := matchGe_shift _ _ _ _
  rw [merge, merge, hge]
  split <;> rfl

theorem offer_shift (accept : Option Searcher) (sr : Searcher) :
    rx.offer (accept.map (Searcher.shift a)) (sr.shift a) =
      (rx.offer accept sr).map (Searcher.shift a) := by
  have hge : rx.searcherGe (sr.shift a) (accept.map (Searcher.shift a)) = rx.searcherGe sr accept := by
    cases accept with
    | none => rfl
    | some accepted => exact matchGe_shift _ _ _ _
  rw [offer, offer, hge]
  split <;> rfl

/-- `advance!` in the moved range; the induction is on the fuel. -/
theorem advance_shift (hguards : rx.GuardsMoved) (h : Moved a range range')
    (hstart : range.start ≤ i) (hstop : i ≤ range.stop) (fuel : ℕ) (sr : Searcher) (c : Closure) :
    rx.advance range' (i + a) fuel (sr.shift a) (c.shift a) =
      (rx.advance range i fuel sr c).map (Closure.shift a) := by
  induction fuel generalizing sr c with
  | zero => rfl
  | succ fuel ih =>
    have hfollow : ∀ (next : Option ℕ) (m : Matches) (c : Closure),
        rx.follow range' (i + a) fuel next (m.shift a) (c.shift a) =
          (rx.follow range i fuel next m c).map (Closure.shift a) := by
      intro next m c
      cases next with
      | none => rfl
      | some q => exact ih ⟨q, m⟩ c
    obtain ⟨q, m⟩ := sr
    cases hst : rx.states[q]? with
    | none =>
      rw [advance, advance, Searcher.shift, hst]
      rfl
    | some st =>
      have hpasses : st.passes range' (i + a) = st.passes range i := by
        unfold State.passes
        split
        · next g hg =>
            exact hguards st (mem_of_getElem? hst) g hg a range range' h i hstart hstop
        · rfl
      rw [Searcher.shift, advance_succ hst, advance_succ hst]
      simp only [State.record_shift, hpasses]
      have hhere : (⟨q, (st.record i m).shift a⟩ : Searcher) =
          Searcher.shift a ⟨q, st.record i m⟩ := rfl
      rw [hhere]
      split
      · simp only [Closure.shift, offer_shift, map_some]
      have hseen : posseRef (c.shift a).seen q = (posseRef c.seen q).map (Searcher.shift a) :=
        posseRef_shift c.seen q
      have hnew : posseRef (c.shift a).new q = (posseRef c.new q).map (Searcher.shift a) :=
        posseRef_shift c.new q
      rw [hseen]
      cases posseRef c.seen q with
      | some prev =>
        simp only [map_some, merge_shift, Closure.shift, posseSet_shift]
      | none =>
        simp only [map_none]
        split
        · split
          · have hadded : ({ c.shift a with
                seen := (c.shift a).seen ++ [Searcher.shift a ⟨q, st.record i m⟩] } : Closure) =
                  Closure.shift a { c with seen := c.seen ++ [⟨q, st.record i m⟩] } := by
              simp only [Closure.shift, Posse.shift_append]
              rfl
            rw [hadded, hfollow]
            cases rx.follow range i fuel st.next1 (st.record i m)
                { c with seen := c.seen ++ [⟨q, st.record i m⟩] } with
            | none => rfl
            | some c₁ => exact hfollow _ _ c₁
          · rfl
        · rw [hnew]
          cases posseRef c.new q with
          | some prev =>
            simp only [map_some, merge_shift, Closure.shift, posseSet_shift]
          | none =>
            simp only [map_none, map_some, Closure.shift, Posse.shift_append]
            rfl

/-- The table of the next searchers and the accepted one, moved -/
def shiftBoth (a : ℕ) (acc : Posse × Option Searcher) : Posse × Option Searcher :=
  (Posse.shift a acc.1, acc.2.map (Searcher.shift a))

theorem posseAdvance_shift (hguards : rx.GuardsMoved) (h : Moved a range range')
    (hstart : range.start ≤ i) (hstop : i ≤ range.stop) (sr : Searcher)
    (acc : Posse × Option Searcher) :
    rx.posseAdvance range' (i + a) (sr.shift a) (shiftBoth a acc).1 (shiftBoth a acc).2 =
      (rx.posseAdvance range i sr acc.1 acc.2).map (shiftBoth a) := by
  have hclosure : (⟨(shiftBoth a acc).1, [], (shiftBoth a acc).2⟩ : Closure) =
      Closure.shift a ⟨acc.1, [], acc.2⟩ := rfl
  rw [posseAdvance, posseAdvance, hclosure, advance_shift hguards h hstart hstop]
  cases rx.advance range i (rx.states.length + 1) sr ⟨acc.1, [], acc.2⟩ <;> rfl

theorem advanceSearcher_shift (hguards : rx.GuardsMoved) (h : Moved a range range')
    (hstart : range.start ≤ i) (hstop : i < range.stop) (ch : Char)
    (acc : Posse × Option Searcher) (sr : Searcher) :
    rx.advanceSearcher range' (i + a) ch (shiftBoth a acc) (sr.shift a) =
      (rx.advanceSearcher range i ch acc sr).map (shiftBoth a) := by
  rw [advanceSearcher, advanceSearcher, Searcher.shift]
  cases rx.states[sr.state]? with
  | none => rfl
  | some st =>
    simp only [bind_eq_bind, bind_some]
    split
    · cases st.next1 with
      | none => rfl
      | some next1 =>
        have hlater : i + a + 1 = i + 1 + a := Nat.add_right_comm i a 1
        rw [hlater]
        exact posseAdvance_shift hguards h (Nat.le_succ_of_le hstart) hstop ⟨next1, sr.found⟩ acc
    · rfl

theorem walk_shift (hguards : rx.GuardsMoved) (h : Moved a range range')
    (hstart : range.start ≤ i) (hstop : i < range.stop) (ch : Char) (searchers : List Searcher)
    (acc : Posse × Option Searcher) :
    (searchers.map (Searcher.shift a)).foldlM (rx.advanceSearcher range' (i + a) ch)
        (shiftBoth a acc) =
      (searchers.foldlM (rx.advanceSearcher range i ch) acc).map (shiftBoth a) := by
  induction searchers generalizing acc with
  | nil => rfl
  | cons sr searchers ih =>
    rw [map_cons, foldlM_cons, foldlM_cons, advanceSearcher_shift hguards h hstart hstop]
    cases rx.advanceSearcher range i ch acc sr with
    | none => rfl
    | some acc' => exact ih acc'

theorem settled_shift (search : Bool) (acc : Posse × Option Searcher) :
    settled search (shiftBoth a acc).1 (shiftBoth a acc).2 = settled search acc.1 acc.2 := by
  unfold settled shiftBoth
  split
  · cases acc.2 with
    | none => rfl
    | some accepted =>
      simp only [map_some, Posse.shift, List.all_map]
      congr 1
      funext sr
      simp only [Function.comp_apply, Searcher.shift, Matches.ref_shift]
      cases sr.found.ref 0 with
      | none => rfl
      | some s =>
        cases accepted.found.ref 0 with
        | none => rfl
        | some s' => simp
  · cases acc.1 <;> rfl

theorem round_shift (hguards : rx.GuardsMoved) (h : Moved a range range')
    (hstart : range.start ≤ i) (hstop : i ≤ range.stop) (search : Bool)
    (acc : Posse × Option Searcher) :
    (if (search || decide (i + a = range'.start)) = true then
      rx.posseAdvance range' (i + a) rx.startSearcher (shiftBoth a acc).1 (shiftBoth a acc).2
      else pure ((shiftBoth a acc).1, (shiftBoth a acc).2)) =
    (if (search || decide (i = range.start)) = true then
      rx.posseAdvance range i rx.startSearcher acc.1 acc.2 else pure (acc.1, acc.2)).map
        (shiftBoth a) := by
  have hfirst : decide (i + a = range'.start) = decide (i = range.start) := by
    rw [h.start]
    simp
  have hsearcher : rx.startSearcher.shift a = rx.startSearcher := by
    rw [startSearcher, Searcher.shift, Matches.shift, map_replicate]
    rfl
  rw [hfirst]
  split
  · rw [← posseAdvance_shift hguards h hstart hstop, hsearcher]
  · rfl

theorem advanceLoop_none {order : Order} {search : Bool} {left : ℕ} {past : List (List ℕ)}
    {acc : Posse × Option Searcher}
    (hround : (if (search || decide (i = range.start)) = true then
      rx.posseAdvance range i rx.startSearcher acc.1 acc.2 else pure (acc.1, acc.2)) = none) :
    rx.advanceLoop order search range left i past acc.1 acc.2 = none := by
  rw [advanceLoop]
  split at hround
  · next hstart =>
      rw [if_pos hstart, hround]
      rfl
  · cases hround

/-- The loop in the moved range; the induction is on the characters left. -/
theorem advanceLoop_shift (hguards : rx.GuardsMoved) (h : Moved a range range') (order : Order)
    (search : Bool) (left : ℕ) (hleft : i + left = range.stop) (hstart : range.start ≤ i)
    (past : List (List ℕ)) (acc : Posse × Option Searcher) :
    rx.advanceLoop order search range' left (i + a) past (shiftBoth a acc).1 (shiftBoth a acc).2 =
      (rx.advanceLoop order search range left i past acc.1 acc.2).map
        (Option.map (Searcher.shift a)) := by
  induction left generalizing i past acc with
  | zero =>
    have hround := round_shift hguards h hstart (by omega) search acc
    cases hhere : (if (search || decide (i = range.start)) = true then
        rx.posseAdvance range i rx.startSearcher acc.1 acc.2 else pure (acc.1, acc.2)) with
    | none =>
      rw [hhere] at hround
      rw [advanceLoop_none hhere, advanceLoop_none hround]
      rfl
    | some acc' =>
      rw [hhere] at hround
      rw [advanceLoop_eq hhere, advanceLoop_eq hround]
      rfl
  | succ left ih =>
    have hround := round_shift hguards h hstart (by omega) search acc
    cases hhere : (if (search || decide (i = range.start)) = true then
        rx.posseAdvance range i rx.startSearcher acc.1 acc.2 else pure (acc.1, acc.2)) with
    | none =>
      rw [hhere] at hround
      rw [advanceLoop_none hhere, advanceLoop_none hround]
      rfl
    | some acc' =>
      rw [hhere] at hround
      rw [advanceLoop_eq hhere, advanceLoop_eq hround]
      simp only [settled_shift]
      split
      · rfl
      have hkeys : posseKeys (shiftBoth a acc').1 = posseKeys acc'.1 := posseKeys_shift acc'.1
      have hwalk : order.walk rx past (shiftBoth a acc').1 =
          (order.walk rx past acc'.1).map (Searcher.shift a) :=
        Order.walk_shift order rx past acc'.1
      rw [h.char i hstart (by omega), hkeys, hwalk]
      cases range.str[i]? with
      | none => rfl
      | some ch =>
        have hnext := walk_shift hguards h hstart (by omega) ch
          (order.walk rx past acc'.1) ([], acc'.2)
        have hempty : shiftBoth a ([], acc'.2) = ([], (shiftBoth a acc').2) := rfl
        rw [hempty] at hnext
        rw [bind_some, bind_some, hnext]
        cases (order.walk rx past acc'.1).foldlM (rx.advanceSearcher range i ch)
            ([], acc'.2) with
        | none => rfl
        | some acc'' =>
          have hlater : i + a + 1 = i + 1 + a := Nat.add_right_comm i a 1
          rw [map_some, bind_some, bind_some, hlater]
          exact ih (by omega) (Nat.le_succ_of_le hstart) _ acc''

theorem runOffsets_shift (hguards : rx.GuardsMoved) (h : Moved a range range') (order : Order)
    (search : Bool) :
    rx.runOffsets order search range' =
      (rx.runOffsets order search range).map (Option.map (Matches.shift a)) := by
  have hle := h.valid.start_le
  have hlength : range'.stop - range'.start = range.stop - range.start := by
    rw [h.stop, h.start]
    omega
  have hloop := advanceLoop_shift hguards h order search (range.stop - range.start) (by omega)
    (Nat.le_refl _) [] ([], none)
  have hrun : rx.regexpAdvance order search range' =
      (rx.regexpAdvance order search range).map (Option.map (Searcher.shift a)) := by
    rw [regexpAdvance, regexpAdvance, hlength, h.start]
    exact hloop
  rw [runOffsets, runOffsets, hrun]
  cases rx.regexpAdvance order search range with
  | none => rfl
  | some accept =>
    cases accept with
    | none => rfl
    | some accepted =>
      cases search with
      | true => rfl
      | false =>
        have hend : (Searcher.shift a accepted).found.ref 1 =
            (accepted.found.ref 1).map (· + a) := Matches.ref_shift _ _
        simp only [bind_eq_bind, map_some, bind_some, hend]
        cases accepted.found.ref 1 with
        | none => rfl
        | some e =>
          have hge : e + a ≥ range'.stop ↔ e ≥ range.stop := by
            rw [h.stop]
            omega
          simp only [map_some, bind_some, hge, Bool.false_eq_true, if_false]
          split <;> rfl

end Rx

end Regexp

end ChibiScheme
