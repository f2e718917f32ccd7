import ChibiScheme.Regexp.Ranking

/-!
# What one searcher reaches

`posse-advance!` follows a searcher through the states between characters and adds those that wait
for a character.  The states in `seen` are not followed again: at the end every state that was
followed leads to states that were dealt with.
-/

namespace ChibiScheme

open List Option

namespace Regexp

variable {env : Env} {range : Range} {flags : Flags} {sre : Sre}

/-! ## Posses -/

section Posse

variable {posse : Posse} {sr sr' : Searcher} {q : ℕ}

theorem mem_of_posseRef (h : posseRef posse q = some sr) : sr ∈ posse ∧ sr.state = q :=
  ⟨mem_of_find?_eq_some h, by simpa using find?_some h⟩

theorem posseRef_append (sr : Searcher) :
    posseRef (posse ++ [sr]) q = (posseRef posse q).or (if sr.state = q then some sr else none) := by
  rw [posseRef, find?_append]
  congr 1
  by_cases h : sr.state = q <;> simp [h]

theorem mem_posseSet (h : sr' ∈ posseSet posse sr) : sr' = sr ∨ sr' ∈ posse := by
  obtain ⟨old, hold, rfl⟩ := List.mem_map.mp h
  split
  · exact Or.inl rfl
  · exact Or.inr hold

theorem posseRef_set_of_ne (h : sr.state ≠ q) : posseRef (posseSet posse sr) q = posseRef posse q := by
  induction posse with
  | nil => rfl
  | cons old posse ih =>
    rw [posseSet, map_cons, posseRef, find?_cons, posseRef, find?_cons]
    by_cases hold : old.state = sr.state
    · have hne : old.state ≠ q := fun heq => h (hold ▸ heq)
      simp only [if_pos hold, h, hne, decide_false]
      exact ih
    · simp only [if_neg hold]
      split
      · rfl
      · exact ih

theorem posseRef_set_self (h : posseRef posse sr.state = some sr') :
    posseRef (posseSet posse sr) sr.state = some sr := by
  induction posse with
  | nil => cases h
  | cons old posse ih =>
    rw [posseSet, map_cons, posseRef, find?_cons]
    rw [posseRef, find?_cons] at h
    by_cases hold : old.state = sr.state
    · simp [hold]
    · rw [decide_eq_false hold] at h
      rw [if_neg hold]
      simp only [hold, decide_false]
      exact ih h

theorem posseRef_isSome_iff : (posseRef posse q).isSome = true ↔ q ∈ posseKeys posse := by
  simp [posseRef, posseKeys]

theorem posseKeys_set (posse : Posse) (sr : Searcher) : posseKeys (posseSet posse sr) = posseKeys posse := by
  rw [posseKeys, posseSet, List.map_map, posseKeys]
  apply map_congr_left
  intro old _
  rw [Function.comp_apply]
  split
  · next heq => exact heq.symm
  · rfl

theorem posseRef_set_isSome :
    (posseRef (posseSet posse sr) q).isSome = true ↔ (posseRef posse q).isSome = true := by
  rw [posseRef_isSome_iff, posseRef_isSome_iff, posseKeys_set]

theorem posseRef_append_isSome :
    (posseRef (posse ++ [sr]) q).isSome = true ↔
      (posseRef posse q).isSome = true ∨ q = sr.state := by
  rw [posseRef_isSome_iff, posseRef_isSome_iff]
  simp [posseKeys]

end Posse

namespace Rx

/-! ## What `advance!` does -/

/-- The searcher goes on to the next state, if there is one. -/
def follow (rx : Rx) (range : Range) (i fuel : ℕ) (next : Option ℕ) (m : Matches) (c : Closure) :
    Option Closure :=
  match next with
  | none => some c
  | some q => rx.advance range i fuel ⟨q, m⟩ c

variable {rx : Rx} {i fuel q : ℕ} {m : Matches} {c c' : Closure}

theorem advance_succ {st : State} (hst : rx.states[q]? = some st) :
    rx.advance range i (fuel + 1) ⟨q, m⟩ c =
      if st.accept then some { c with accept := rx.offer c.accept ⟨q, st.record i m⟩ }
      else match posseRef c.seen q with
        | some prev =>
          some { c with seen := posseSet c.seen (rx.merge prev ⟨q, st.record i m⟩) }
        | none =>
          if st.isEpsilon then
            if st.passes range i then
              (rx.follow range i fuel st.next1 (st.record i m)
                { c with seen := c.seen ++ [⟨q, st.record i m⟩] }).bind
                  (rx.follow range i fuel st.next2 (st.record i m))
            else some c
          else match posseRef c.new q with
            | some prev =>
              some { c with new := posseSet c.new (rx.merge prev ⟨q, st.record i m⟩) }
            | none => some { c with new := c.new ++ [⟨q, st.record i m⟩] } := by
  have hjoin : ∀ (next1 next2 : Option ℕ) (c : Closure),
      (rx.follow range i fuel next1 (st.record i m) c).bind
        (rx.follow range i fuel next2 (st.record i m)) = (do
          let c ← match next1 with
            | none => pure c
            | some next1 => rx.advance range i fuel ⟨next1, st.record i m⟩ c
          match next2 with
          | none => pure c
          | some next2 => rx.advance range i fuel ⟨next2, st.record i m⟩ c) := by
    intro next1 next2 c
    cases next1 <;> cases next2 <;> rfl
  rw [advance, hjoin]
  simp only [hst]
  rfl

theorem advance_cases (h : rx.advance range i (fuel + 1) ⟨q, m⟩ c = some c') :
    ∃ st, rx.states[q]? = some st ∧
      ((st.accept = true ∧ c' = { c with accept := rx.offer c.accept ⟨q, st.record i m⟩ }) ∨
      (st.accept = false ∧ ∃ prev, posseRef c.seen q = some prev ∧
        c' = { c with seen := posseSet c.seen (rx.merge prev ⟨q, st.record i m⟩) }) ∨
      (st.accept = false ∧ posseRef c.seen q = none ∧ st.isEpsilon = true ∧
        st.passes range i = false ∧ c' = c) ∨
      (st.accept = false ∧ posseRef c.seen q = none ∧ st.isEpsilon = true ∧
        st.passes range i = true ∧ ∃ c₁,
          rx.follow range i fuel st.next1 (st.record i m)
            { c with seen := c.seen ++ [⟨q, st.record i m⟩] } = some c₁ ∧
          rx.follow range i fuel st.next2 (st.record i m) c₁ = some c') ∨
      (st.accept = false ∧ posseRef c.seen q = none ∧ st.isEpsilon = false ∧
        ∃ prev, posseRef c.new q = some prev ∧ c' =
          { c with new := posseSet c.new (rx.merge prev ⟨q, st.record i m⟩) }) ∨
      (st.accept = false ∧ posseRef c.seen q = none ∧ st.isEpsilon = false ∧
        posseRef c.new q = none ∧ c' = { c with new := c.new ++ [⟨q, st.record i m⟩] })) := by
  obtain ⟨st, hst⟩ : ∃ st, rx.states[q]? = some st := by
    rw [advance] at h
    obtain ⟨st, hst, -⟩ := bind_eq_some_iff.mp h
    exact ⟨st, hst⟩
  rw [advance_succ hst] at h
  refine ⟨st, hst, ?_⟩
  split at h
  · next haccept => exact Or.inl ⟨haccept, (some.inj h).symm⟩
  next haccept =>
    rw [Bool.not_eq_true] at haccept
    refine Or.inr ?_
    split at h
    · next prev hseen => exact Or.inl ⟨haccept, prev, hseen, (some.inj h).symm⟩
    next hseen =>
      refine Or.inr ?_
      split at h
      · next hepsilon =>
          split at h
          · next hpasses =>
              obtain ⟨c₁, hfirst, hrest⟩ := bind_eq_some_iff.mp h
              exact Or.inr (Or.inl ⟨haccept, hseen, hepsilon, hpasses, c₁, hfirst, hrest⟩)
          · next hpasses =>
              rw [Bool.not_eq_true] at hpasses
              exact Or.inl ⟨haccept, hseen, hepsilon, hpasses, (some.inj h).symm⟩
      · next hepsilon =>
          rw [Bool.not_eq_true] at hepsilon
          refine Or.inr (Or.inr ?_)
          split at h
          · next prev hnew =>
              exact Or.inl
                ⟨haccept, hseen, hepsilon, prev, hnew, (some.inj h).symm⟩
          · next hnew =>
              exact Or.inr ⟨haccept, hseen, hepsilon, hnew, (some.inj h).symm⟩

/-! ## What a closure has -/

/-- The searcher stands where the automaton comes to, at a state that reads a character. -/
def Waits (rx : Rx) (search : Bool) (range : Range) (i : ℕ) (sr : Searcher) : Prop :=
  ∃ s m st, Starts search range s ∧ rx.Reached range s sr.state i m ∧
    rx.states[sr.state]? = some st ∧ st.isEpsilon = false ∧ sr.found = st.record i m

/-- The posse has a searcher at the state which started as early as `s`. -/
def Covered (rx : Rx) (posse : Posse) (q s : ℕ) : Prop :=
  ∃ sr, posseRef posse q = some sr ∧ rx.Earlier sr.found s

/-- Every searcher has come to its state on a path. -/
structure Sound (rx : Rx) (search : Bool) (range : Range) (i : ℕ) (c : Closure) : Prop where
  new : ∀ sr ∈ c.new, rx.Waits search range i sr
  accept : ∀ a, c.accept = some a → rx.Accepted search range i a
  seen : ∀ q st, (posseRef c.seen q).isSome = true → rx.states[q]? = some st → st.isEpsilon = true

/-- The second closure keeps what the first has reached. -/
structure Extends (rx : Rx) (search : Bool) (c c' : Closure) : Prop where
  new : ∀ q s, rx.Covered c.new q s → rx.Covered c'.new q s
  accept : ∀ s j, rx.Won c.accept s j → rx.Won c'.accept s j
  seen : ∀ q, (posseRef c.seen q).isSome = true → (posseRef c'.seen q).isSome = true

/-- A searcher from `s` has been at the state. -/
structure Done (rx : Rx) (search : Bool) (range : Range) (i : ℕ) (c : Closure) (s q : ℕ) : Prop where
  new : ∀ st, rx.states[q]? = some st → st.isEpsilon = false → rx.Covered c.new q s
  accept : ∀ st, rx.states[q]? = some st → st.accept = true → rx.Won c.accept s i
  seen : ∀ st, rx.states[q]? = some st → st.accept = false → st.isEpsilon = true →
    st.passes range i = true → (posseRef c.seen q).isSome = true

/-- The states that were followed lead to states where a searcher from `s` has been. -/
def Followed (rx : Rx) (search : Bool) (range : Range) (i : ℕ) (c c' : Closure) (s : ℕ) : Prop :=
  ∀ q, (posseRef c'.seen q).isSome = true → (posseRef c.seen q).isSome = true ∨
    ∀ st, rx.states[q]? = some st → ∀ q', st.Leads q' → rx.Done search range i c' s q'

variable {search : Bool} {s : ℕ} {c₁ : Closure} {st : State}

theorem Extends.refl (c : Closure) : rx.Extends search c c :=
  ⟨fun _ _ h => h, fun _ _ h => h, fun _ h => h⟩

theorem Extends.trans (h : rx.Extends search c c₁) (h' : rx.Extends search c₁ c') :
    rx.Extends search c c' :=
  ⟨fun q s hq => h'.new q s (h.new q s hq), fun s j hj => h'.accept s j (h.accept s j hj),
    fun q hq => h'.seen q (h.seen q hq)⟩

theorem Done.extend (h : rx.Done search range i c s q) (h' : rx.Extends search c c') :
    rx.Done search range i c' s q :=
  ⟨fun st hst hepsilon => h'.new q s (h.new st hst hepsilon),
    fun st hst haccept => h'.accept s i (h.accept st hst haccept),
    fun st hst haccept hepsilon hpasses =>
      h'.seen q (h.seen st hst haccept hepsilon hpasses)⟩

theorem Followed.trans (h : rx.Followed search range i c c₁ s)
    (h' : rx.Followed search range i c₁ c' s) (hextends : rx.Extends search c₁ c') :
    rx.Followed search range i c c' s := by
  intro q hq
  rcases h' q hq with hbefore | hdone
  · rcases h q hbefore with hfirst | hdone
    · exact Or.inl hfirst
    · exact Or.inr fun st hst q' hleads => (hdone st hst q' hleads).extend hextends
  · exact Or.inr hdone

theorem Waits.recorded (h : rx.Of env flags sre) {sr : Searcher} (hsr : rx.Waits search range i sr) :
    2 ≤ sr.found.length ∧ sr.found.ref 1 = none ∧
      ∃ s, Starts search range s ∧ s ≤ i ∧ sr.found.ref 0 = some s := by
  obtain ⟨s, m, st, hs, hreached, hst, hepsilon, hfound⟩ := hsr
  obtain ⟨hzero, hone⟩ := h.recorded_takes hreached hst hepsilon
  rw [hfound]
  refine ⟨?_, hone, s, hs, ?_, hzero⟩
  · rw [State.record_length]
    rcases h.recordedFrom hreached with ⟨-, -, rfl⟩ | ⟨-, -, hlength, -⟩
    · rw [length_replicate]
      exact h.saves_ge
    · rw [show m.length = _ from hlength]
      exact h.saves_ge
  · rcases h.recordedFrom hreached with ⟨-, rfl, -⟩ | ⟨-, hi, -⟩
    · exact Nat.le_refl _
    · exact hi

/-! ## One searcher -/

theorem advance_accept (h : rx.Of env flags sre) (hs : Starts search range s)
    (hreached : rx.Reached range s q i m) (hsound : rx.Sound search range i c)
    (hst : rx.states[q]? = some st) (haccept : st.accept = true) :
    rx.Sound search range i { c with accept := rx.offer c.accept ⟨q, st.record i m⟩ } ∧
    rx.Extends search c { c with accept := rx.offer c.accept ⟨q, st.record i m⟩ } ∧
    rx.Done search range i { c with accept := rx.offer c.accept ⟨q, st.record i m⟩ } s q := by
  obtain rfl := (h.accept_iff hst).mp haccept
  rw [h.accept] at hst
  cases hst
  refine ⟨⟨hsound.new, ?_, hsound.seen⟩, ⟨fun _ _ h => h, ?_, fun _ h => h⟩, ⟨?_, ?_, ?_⟩⟩
  · exact offer_accepted hsound.accept hs hreached
  · exact fun s j hwon => offer_won_of_won h hsound.accept hreached hwon
  · intro st hst hepsilon
    rw [h.accept] at hst
    cases hst
    cases hepsilon
  · exact fun _ _ _ => offer_won h hsound.accept hreached
  · intro st hst hnot
    rw [(h.accept_iff hst).mpr rfl] at hnot
    cases hnot

theorem advance_merge (h : rx.Of env flags sre) (hs : Starts search range s)
    (hreached : rx.Reached range s q i m) (hsound : rx.Sound search range i c)
    (hst : rx.states[q]? = some st) (hepsilon : st.isEpsilon = false) {prev : Searcher}
    (hprev : posseRef c.new q = some prev) :
    rx.Sound search range i
      { c with new := posseSet c.new (rx.merge prev ⟨q, st.record i m⟩) } ∧
    rx.Extends search c { c with new := posseSet c.new (rx.merge prev ⟨q, st.record i m⟩) } ∧
    rx.Covered (posseSet c.new (rx.merge prev ⟨q, st.record i m⟩)) q s := by
  obtain ⟨hmem, hstate⟩ := mem_of_posseRef hprev
  have hwaits : rx.Waits search range i ⟨q, st.record i m⟩ :=
    ⟨s, m, st, hs, hreached, hst, hepsilon, rfl⟩
  have hwaits' := hsound.new prev hmem
  obtain ⟨hlength, hend, s₁, -, -, hstart⟩ := hwaits'.recorded h
  obtain ⟨hlength', hend', -⟩ := hwaits.recorded h
  have hstart' := (h.recorded_takes hreached hst hepsilon).1
  obtain ⟨hmerged, hfound⟩ := merge_found rx prev ⟨q, st.record i m⟩
  have hearlier := fun s₀ hor =>
    merge_earlier rx hlength hlength' hstart hend hstart' hend' s₀ hor
  have href : posseRef (posseSet c.new (rx.merge prev ⟨q, st.record i m⟩)) q =
      some (rx.merge prev ⟨q, st.record i m⟩) := by
    have hq : (rx.merge prev ⟨q, st.record i m⟩).state = q := hmerged.trans hstate
    have hat : posseRef c.new (rx.merge prev ⟨q, st.record i m⟩).state = some prev := by
      rw [hq, hprev]
    have hset := posseRef_set_self hat
    rwa [hq] at hset
  refine ⟨⟨?_, hsound.accept, hsound.seen⟩, ⟨?_, fun _ _ h => h, fun _ h => h⟩, _, href, ?_⟩
  · intro sr hsr
    rcases mem_posseSet hsr with rfl | hold
    · obtain ⟨s', m', st', hwaiting⟩ := hwaits'
      rcases hfound with hfound | hfound
      · rw [Waits, hmerged, hfound]
        exact ⟨s', m', st', hwaiting⟩
      · rw [Waits, hmerged, hfound, hstate]
        exact hwaits
    · exact hsound.new sr hold
  · rintro q' s₀ ⟨sr, hsr, hsr_earlier⟩
    by_cases hq : q' = q
    · subst hq
      rw [hprev] at hsr
      cases hsr
      exact ⟨_, href, hearlier s₀ (Or.inl hsr_earlier)⟩
    · refine ⟨sr, ?_, hsr_earlier⟩
      rw [posseRef_set_of_ne (by rw [hmerged, hstate]; exact Ne.symm hq)]
      exact hsr
  · exact hearlier s (Or.inr fun _ => ⟨s, hstart', Nat.le_refl s⟩)

theorem advance_add (h : rx.Of env flags sre) (hs : Starts search range s)
    (hreached : rx.Reached range s q i m) (hsound : rx.Sound search range i c)
    (hst : rx.states[q]? = some st) (hepsilon : st.isEpsilon = false)
    (hnone : posseRef c.new q = none) :
    rx.Sound search range i { c with new := c.new ++ [⟨q, st.record i m⟩] } ∧
    rx.Extends search c { c with new := c.new ++ [⟨q, st.record i m⟩] } ∧
    rx.Covered (c.new ++ [⟨q, st.record i m⟩]) q s := by
  refine ⟨⟨?_, hsound.accept, hsound.seen⟩, ⟨?_, fun _ _ h => h, fun _ h => h⟩,
    ⟨q, st.record i m⟩, ?_, ?_⟩
  · intro sr hsr
    rcases mem_append.mp hsr with hold | hnew
    · exact hsound.new sr hold
    · rw [mem_singleton.mp hnew]
      exact ⟨s, m, st, hs, hreached, hst, hepsilon, rfl⟩
  · rintro q' s₀ ⟨sr, hsr, hearlier⟩
    refine ⟨sr, ?_, hearlier⟩
    rw [posseRef_append, hsr]
    rfl
  · rw [posseRef_append, hnone]
    simp
  · exact fun _ => ⟨s, (h.recorded_takes hreached hst hepsilon).1, Nat.le_refl s⟩

/-- What following a searcher from `s` does -/
structure Advanced (rx : Rx) (search : Bool) (range : Range) (i : ℕ) (c c' : Closure) (s : ℕ) :
    Prop where
  sound : rx.Sound search range i c'
  more : rx.Extends search c c'
  followed : rx.Followed search range i c c' s

theorem Followed.of_seen (h : ∀ q, (posseRef c'.seen q).isSome = true →
    (posseRef c.seen q).isSome = true) : rx.Followed search range i c c' s :=
  fun q hq => Or.inl (h q hq)

theorem advance_seen (hsound : rx.Sound search range i c) (hst : rx.states[q]? = some st)
    (haccept : st.accept = false) {prev : Searcher} (hprev : posseRef c.seen q = some prev)
    (sr : Searcher) :
    rx.Advanced search range i c { c with seen := posseSet c.seen sr } s ∧
      rx.Done search range i { c with seen := posseSet c.seen sr } s q := by
  have hseen : (posseRef c.seen q).isSome = true := by rw [hprev]; rfl
  have hepsilon := hsound.seen q st hseen hst
  refine ⟨⟨⟨hsound.new, hsound.accept, ?_⟩, ⟨fun _ _ h => h, fun _ _ h => h, ?_⟩, ?_⟩,
    ⟨?_, ?_, ?_⟩⟩
  · exact fun q' st' hq' => hsound.seen q' st' (posseRef_set_isSome.mp hq')
  · exact fun q' hq' => posseRef_set_isSome.mpr hq'
  · exact Followed.of_seen fun q' hq' => posseRef_set_isSome.mp hq'
  · intro st' hst' hnot
    rw [hst] at hst'
    cases hst'
    rw [hepsilon] at hnot
    cases hnot
  · intro st' hst' his
    rw [hst] at hst'
    cases hst'
    rw [haccept] at his
    cases his
  · exact fun _ _ _ _ _ => posseRef_set_isSome.mpr hseen

theorem done_of_not_passes (hst : rx.states[q]? = some st) (haccept : st.accept = false)
    (hepsilon : st.isEpsilon = true) (hpasses : st.passes range i = false) :
    rx.Done search range i c s q := by
  refine ⟨fun st' hst' hnot => ?_, fun st' hst' his => ?_, fun st' hst' _ _ his => ?_⟩
  · rw [hst] at hst'
    cases hst'
    rw [hepsilon] at hnot
    cases hnot
  · rw [hst] at hst'
    cases hst'
    rw [haccept] at his
    cases his
  · rw [hst] at hst'
    cases hst'
    rw [hpasses] at his
    cases his

theorem done_of_seen (hst : rx.states[q]? = some st) (haccept : st.accept = false)
    (hepsilon : st.isEpsilon = true) (hseen : (posseRef c.seen q).isSome = true) :
    rx.Done search range i c s q := by
  refine ⟨fun st' hst' hnot => ?_, fun st' hst' his => ?_, fun _ _ _ _ _ => hseen⟩
  · rw [hst] at hst'
    cases hst'
    rw [hepsilon] at hnot
    cases hnot
  · rw [hst] at hst'
    cases hst'
    rw [haccept] at his
    cases his

theorem done_of_covered (hst : rx.states[q]? = some st) (haccept : st.accept = false)
    (hepsilon : st.isEpsilon = false) (hcovered : rx.Covered c.new q s) :
    rx.Done search range i c s q := by
  refine ⟨fun _ _ _ => hcovered, fun st' hst' his => ?_, fun st' hst' _ his => ?_⟩
  · rw [hst] at hst'
    cases hst'
    rw [haccept] at his
    cases his
  · rw [hst] at hst'
    cases hst'
    rw [hepsilon] at his
    cases his

/-- `advance!` deals with the state it is given and with the states it follows: the induction is on
the fuel, and a state is in `seen` before its transitions are followed. -/
theorem advance_spec (h : rx.Of env flags sre) (hs : Starts search range s)
    (hreached : rx.Reached range s q i m) (hsound : rx.Sound search range i c)
    (hadvance : rx.advance range i fuel ⟨q, m⟩ c = some c') :
    rx.Advanced search range i c c' s ∧ rx.Done search range i c' s q := by
  induction fuel generalizing q m c c' with
  | zero => cases hadvance
  | succ fuel ih =>
    -- both edges of a fork are followed in this way
    have hfollow : ∀ {next c c'} (st : State), rx.states[q]? = some st → st.accept = false →
        st.isEpsilon = true → st.passes range i = true →
        (∀ q', next = some q' → st.Leads q') → rx.Sound search range i c →
        rx.follow range i fuel next (st.record i m) c = some c' →
        rx.Advanced search range i c c' s ∧
          ∀ q', next = some q' → rx.Done search range i c' s q' := by
      intro next c c' st hst haccept hepsilon hpasses hleads hsound hfollow
      cases next with
      | none =>
        cases hfollow
        exact ⟨⟨hsound, Extends.refl c, Followed.of_seen fun _ h => h⟩, nofun⟩
      | some q' =>
        have hnext : rx.Reached range s q' i (st.record i m) :=
          hreached.tail (Step.between hst haccept hepsilon hpasses (hleads q' rfl))
        obtain ⟨hadvanced, hdone⟩ := ih hnext hsound hfollow
        exact ⟨hadvanced, fun q'' hq'' => some.inj hq'' ▸ hdone⟩
    obtain ⟨st, hst, hcases⟩ := advance_cases hadvance
    rcases hcases with ⟨haccept, rfl⟩ | ⟨haccept, prev, hprev, rfl⟩ |
      ⟨haccept, hseen, hepsilon, hpasses, rfl⟩ |
      ⟨haccept, hseen, hepsilon, hpasses, c₁, hfirst, hrest⟩ |
      ⟨haccept, hseen, hepsilon, prev, hprev, rfl⟩ | ⟨haccept, hseen, hepsilon, hnone, rfl⟩
    · obtain ⟨hsound', hextends, hdone⟩ :=
        advance_accept h hs hreached hsound hst haccept
      exact ⟨⟨hsound', hextends, Followed.of_seen fun _ h => h⟩, hdone⟩
    · exact advance_seen hsound hst haccept hprev _
    · exact ⟨⟨hsound, Extends.refl c', Followed.of_seen fun _ h => h⟩,
        done_of_not_passes hst haccept hepsilon hpasses⟩
    · -- the fork counts as seen before its edges are followed, so loops end
      have hsound₀ : rx.Sound search range i
          { c with seen := c.seen ++ [⟨q, st.record i m⟩] } := by
        refine ⟨hsound.new, hsound.accept, fun q' st' hq' hst' => ?_⟩
        rcases posseRef_append_isSome.mp hq' with hold | rfl
        · exact hsound.seen q' st' hold hst'
        · rw [hst] at hst'
          cases hst'
          exact hepsilon
      have hextends₀ : rx.Extends search c { c with seen := c.seen ++ [⟨q, st.record i m⟩] } :=
        ⟨fun _ _ h => h, fun _ _ h => h, fun _ h => posseRef_append_isSome.mpr (Or.inl h)⟩
      obtain ⟨hadvanced, hdone⟩ := hfollow st hst haccept hepsilon hpasses
        (fun _ hnext => Or.inl hnext) hsound₀ hfirst
      obtain ⟨hadvanced', hdone'⟩ := hfollow st hst haccept hepsilon hpasses
        (fun _ hnext => Or.inr hnext) hadvanced.sound hrest
      have hmore := hadvanced.more.trans hadvanced'.more
      refine ⟨⟨hadvanced'.sound, hextends₀.trans hmore, fun q' hq' => ?_⟩, ?_⟩
      · rcases hadvanced.followed.trans hadvanced'.followed hadvanced'.more q' hq' with
          hbefore | hafter
        · rcases posseRef_append_isSome.mp hbefore with hold | rfl
          · exact Or.inl hold
          refine Or.inr fun st' hst' q'' hleads => ?_
          rw [hst] at hst'
          cases hst'
          rcases hleads with hleads | hleads
          · exact (hdone q'' hleads).extend hadvanced'.more
          · exact hdone' q'' hleads
        · exact Or.inr hafter
      · apply done_of_seen hst haccept hepsilon
        exact hmore.seen q (posseRef_append_isSome.mpr (Or.inr rfl))
    · obtain ⟨hsound', hextends, hcovered⟩ :=
        advance_merge h hs hreached hsound hst hepsilon hprev
      exact ⟨⟨hsound', hextends, Followed.of_seen fun _ h => h⟩,
        done_of_covered hst haccept hepsilon hcovered⟩
    · obtain ⟨hsound', hextends, hcovered⟩ :=
        advance_add h hs hreached hsound hst hepsilon hnone
      exact ⟨⟨hsound', hextends, Followed.of_seen fun _ h => h⟩,
        done_of_covered hst haccept hepsilon hcovered⟩

/-! ## There is fuel enough -/

/-- How many states have not been followed yet -/
def unfollowed (rx : Rx) (c : Closure) : ℕ :=
  ((Finset.range rx.states.length).filter fun q => (posseRef c.seen q).isSome = false).card

theorem unfollowed_le (rx : Rx) (h : ∀ q, (posseRef c.seen q).isSome = true →
    (posseRef c'.seen q).isSome = true) : rx.unfollowed c' ≤ rx.unfollowed c := by
  apply Finset.card_le_card
  intro q hq
  rw [Finset.mem_filter] at hq ⊢
  refine ⟨hq.1, Bool.eq_false_iff.mpr fun hsome => ?_⟩
  rw [h q hsome] at hq
  cases hq.2

theorem unfollowed_append_lt (hq : q < rx.states.length) (hnone : posseRef c.seen q = none) :
    rx.unfollowed { c with seen := c.seen ++ [⟨q, m⟩] } < rx.unfollowed c := by
  apply Finset.card_lt_card
  rw [Finset.ssubset_iff_of_subset]
  · refine ⟨q, ?_, fun hmem => ?_⟩
    · rw [Finset.mem_filter, hnone]
      exact ⟨Finset.mem_range.mpr hq, rfl⟩
    · have hsome := (Finset.mem_filter.mp hmem).2
      rw [posseRef_append_isSome.mpr (Or.inr rfl)] at hsome
      cases hsome
  · intro q' hq'
    rw [Finset.mem_filter] at hq' ⊢
    refine ⟨hq'.1, Bool.eq_false_iff.mpr fun hsome => ?_⟩
    rw [posseRef_append_isSome.mpr (Or.inl hsome)] at hq'
    cases hq'.2

theorem advance_total (range : Range) (i : ℕ) (m : Matches) (h : rx.Of env flags sre) (hq : q < rx.states.length)
    (hfuel : rx.unfollowed c < fuel) :
    ∃ c', rx.advance range i fuel ⟨q, m⟩ c = some c' ∧
      ∀ q', (posseRef c.seen q').isSome = true → (posseRef c'.seen q').isSome = true := by
  induction fuel generalizing q m c with
  | zero => exact absurd hfuel (Nat.not_lt_zero _)
  | succ fuel ih =>
    obtain ⟨st, hst⟩ : ∃ st, rx.states[q]? = some st := ⟨_, getElem?_eq_getElem hq⟩
    rw [advance_succ hst]
    split
    · exact ⟨_, rfl, fun _ h => h⟩
    split
    · exact ⟨_, rfl, fun _ h => posseRef_set_isSome.mpr h⟩
    next hnone =>
      split
      · split
        · have hfollow : ∀ next c₁, (∀ q', next = some q' → st.Leads q') →
              rx.unfollowed c₁ < fuel → ∃ c', rx.follow range i fuel next (st.record i m) c₁ =
                some c' ∧ ∀ q', (posseRef c₁.seen q').isSome = true →
                  (posseRef c'.seen q').isSome = true := by
            intro next c₁ hleads hfuel
            cases next with
            | none => exact ⟨c₁, rfl, fun _ h => h⟩
            | some q' =>
              have hq' := h.leads_lt hst (hleads q' rfl)
              exact ih _ (by rw [h.length]; omega) hfuel
          have hless := unfollowed_append_lt (m := st.record i m) hq hnone
          obtain ⟨c₁, hfirst, hseen⟩ := hfollow st.next1
            { c with seen := c.seen ++ [⟨q, st.record i m⟩] } (fun _ => Or.inl) (by omega)
          have hle := unfollowed_le rx hseen
          obtain ⟨c', hrest, hseen'⟩ := hfollow st.next2 c₁ (fun _ => Or.inr) (by omega)
          refine ⟨c', ?_, fun q' hq' => ?_⟩
          · rw [hfirst]
            exact hrest
          · exact hseen' q' (hseen q' (posseRef_append_isSome.mpr (Or.inl hq')))
        · exact ⟨_, rfl, fun _ h => h⟩
      · split
        · exact ⟨_, rfl, fun _ h => h⟩
        · exact ⟨_, rfl, fun _ h => h⟩

/-! ## All that one searcher reaches -/

/-- A state between characters passes the position and leads to the other one. -/
def Eps (rx : Rx) (range : Range) (i q q' : ℕ) : Prop :=
  ∃ st, rx.states[q]? = some st ∧ st.accept = false ∧ st.isEpsilon = true ∧
    st.passes range i = true ∧ st.Leads q'

/-- What a search has at a position -/
def closureOf (acc : Posse × Option Searcher) : Closure := ⟨acc.1, [], acc.2⟩

/-- A searcher from `s` has been at the state, or it lies between characters. -/
structure Handled (rx : Rx) (search : Bool) (i : ℕ) (acc : Posse × Option Searcher) (s q : ℕ) :
    Prop where
  new : ∀ st, rx.states[q]? = some st → st.isEpsilon = false → rx.Covered acc.1 q s
  accept : ∀ st, rx.states[q]? = some st → st.accept = true → rx.Won acc.2 s i

theorem Handled.extend {acc acc' : Posse × Option Searcher} (h : rx.Handled search i acc s q)
    (h' : rx.Extends search (closureOf acc) (closureOf acc')) : rx.Handled search i acc' s q :=
  ⟨fun st hst hepsilon => h'.new q s (h.new st hst hepsilon),
    fun st hst haccept => h'.accept s i (h.accept st hst haccept)⟩

theorem Handled.mono {acc : Posse × Option Searcher} {s' : ℕ} (h : rx.Handled search i acc s q)
    (hle : ¬ rx.NonGreedy → s ≤ s') : rx.Handled search i acc s' q := by
  refine ⟨fun st hst hepsilon => ?_, fun st hst haccept => ?_⟩
  · obtain ⟨sr, hsr, hearlier⟩ := h.new st hst hepsilon
    exact ⟨sr, hsr, hearlier.mono hle⟩
  · obtain ⟨a, ha, hwins⟩ := h.accept st hst haccept
    exact ⟨a, ha, hwins.mono hle⟩

theorem Of.lt_of_reached (h : rx.Of env flags sre) (hreached : rx.Reached range s q i m) :
    q < rx.states.length := by
  rw [h.length]
  rcases h.recordedFrom hreached with ⟨rfl, -⟩ | ⟨hq, -⟩
  · exact Nat.lt_succ_self _
  · exact Nat.lt_succ_of_lt hq

/-- A searcher is added with all it leads to, and nothing else. -/
theorem posseAdvance_spec (h : rx.Of env flags sre) (hs : Starts search range s)
    (hreached : rx.Reached range s q i m) {acc : Posse × Option Searcher}
    (hsound : rx.Sound search range i (closureOf acc)) :
    ∃ acc', rx.posseAdvance range i ⟨q, m⟩ acc.1 acc.2 = some acc' ∧
      rx.Sound search range i (closureOf acc') ∧ rx.Extends search (closureOf acc) (closureOf acc') ∧
      ∀ q', Relation.ReflTransGen (rx.Eps range i) q q' → rx.Handled search i acc' s q' := by
  have hfuel : rx.unfollowed (closureOf acc) < rx.states.length + 1 := by
    have hcard := Finset.card_filter_le (Finset.range rx.states.length) fun q =>
      (posseRef (closureOf acc).seen q).isSome = false
    rw [Finset.card_range] at hcard
    exact Nat.lt_succ_of_le hcard
  obtain ⟨c', hadvance, -⟩ := advance_total range i m h (h.lt_of_reached hreached) hfuel
  obtain ⟨hadvanced, hdone⟩ := advance_spec h hs hreached hsound hadvance
  refine ⟨(c'.new, c'.accept), ?_, ?_, ?_, ?_⟩
  · rw [posseAdvance]
    exact bind_eq_some_iff.mpr ⟨c', hadvance, rfl⟩
  · exact ⟨hadvanced.sound.new, hadvanced.sound.accept, nofun⟩
  · exact ⟨hadvanced.more.new, hadvanced.more.accept, nofun⟩
  · intro q' heps
    have hall : rx.Done search range i c' s q' := by
      induction heps with
      | refl => exact hdone
      | tail _ hlast ih =>
        obtain ⟨st, hst, haccept, hepsilon, hpasses, hleads⟩ := hlast
        rcases hadvanced.followed _ (ih.seen st hst haccept hepsilon hpasses) with
          hbefore | hnext
        · cases hbefore
        · exact hnext st hst _ hleads
    exact ⟨hall.new, hall.accept⟩

end Rx

end Regexp

end ChibiScheme
