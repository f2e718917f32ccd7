import ChibiScheme.Regexp.Thompson

/-!
# The states of a regular expression

A regular expression records its whole match as the submatch at the first two positions of the match
vector.  Its states are the accepting one, the state that ends the match, those of the SRE, and the
state that starts it.
-/

namespace ChibiScheme

open List

namespace Regexp

variable {env : Env} {range : Range} {flags : Flags} {sre : Sre}

/-! ## Recording positions -/

theorem Matches.ref_set {m : Matches} {k : ℕ} (h : k < m.length) (v : Option ℕ) :
    Matches.ref (m.set k v) k = v := by
  rw [Matches.ref, getElem?_set_self h]
  rfl

theorem Matches.ref_set_of_ne {m : Matches} {k k' : ℕ} (h : k ≠ k') (v : Option ℕ) :
    Matches.ref (m.set k v) k' = m.ref k' := by
  rw [Matches.ref, getElem?_set_ne h]
  rfl

namespace State

variable (st : State) (i : ℕ) (m : Matches)

theorem record_length : (st.record i m).length = m.length := by
  unfold record
  split
  · rfl
  · split
    · rfl
    · exact length_set

theorem record_ref {k : ℕ} (h : st.index ≠ some k) : (st.record i m).ref k = m.ref k := by
  unfold record
  split
  · rfl
  · next k' hindex =>
      split
      · rfl
      · exact Matches.ref_set_of_ne (fun heq => h (hindex.trans (congrArg some heq))) _

theorem record_ofEnd_of_none {nonGreedy : Bool} {base next : ℕ} (h : m.ref (base + 1) = none) :
    (ofEnd nonGreedy base next).record i m = m.set (base + 1) (some i) := by
  have hkeeps : (ofEnd nonGreedy base next).keeps (base + 1) m = false := by
    rw [keeps, h]
    exact Bool.and_false _
  show (if (ofEnd nonGreedy base next).keeps (base + 1) m then m else _) = _
  rw [hkeeps]
  rfl

end State

/-! ## Which positions a fragment records -/

/-- The state takes a character and goes on, or records from the given index on. -/
def State.Plain (st : State) (base : ℕ) : Prop :=
  (st.isEpsilon = false → ∃ next, st.next1 = some next) ∧ ∀ k, st.index = some k → base ≤ k

/-- Every state from the place `lo` up to `hi` is plain. -/
def Plains (states : List State) (lo hi base : ℕ) : Prop :=
  ∀ q, lo ≤ q → q < hi → ∃ st, states[q]? = some st ∧ st.Plain base

section Plains

variable {states : List State} {lo mid hi base base' : ℕ}

theorem Plains.append (h : Plains states lo mid base) (h' : Plains states mid hi base')
    (hbase : base ≤ base') : Plains states lo hi base := by
  intro q hlo hhi
  rcases Nat.lt_or_ge q mid with hmid | hmid
  · exact h q hlo hmid
  · obtain ⟨st, hst, hnext, hindex⟩ := h' q hmid hhi
    exact ⟨st, hst, hnext, fun k hk => Nat.le_trans hbase (hindex k hk)⟩

theorem Plains.empty : Plains states lo lo base :=
  fun _ hlo hhi => absurd hhi (Nat.not_lt.mpr hlo)

theorem Plains.single {st : State} (h : states[lo]? = some st) (hst : st.Plain base) :
    Plains states lo (lo + 1) base := by
  intro q hlo hhi
  obtain rfl : q = lo := Nat.le_antisymm (Nat.le_of_lt_succ hhi) hlo
  exact ⟨st, h, hst⟩

theorem State.plain_ofChars (chars : Matcher) (next : ℕ) : (ofChars chars next).Plain base :=
  ⟨fun _ => ⟨next, rfl⟩, nofun⟩

theorem State.plain_fork (next1 next2 : Option ℕ) : (fork next1 next2).Plain base :=
  ⟨nofun, nofun⟩

theorem State.plain_ofEnd (nonGreedy : Bool) (next : ℕ) : (ofEnd nonGreedy base next).Plain base := by
  refine ⟨nofun, fun k hk => ?_⟩
  cases hk
  exact Nat.le_succ base

theorem State.plain_ofStart (next : Option ℕ) : (ofStart base next).Plain base := by
  refine ⟨nofun, fun k hk => ?_⟩
  cases hk
  exact Nat.le_refl base

theorem Fragment.plains {next : ℕ} {entry : Option ℕ}
    (h : Fragment env states flags sre lo hi base entry next) : Plains states lo hi base := by
  induction h with
  | chars h => exact Plains.single h (State.plain_ofChars _ _)
  | string _ ih => exact ih
  | epsilon => exact Plains.empty
  | assertion h => exact Plains.single h (State.plain_ofChars _ _)
  | look h _ => exact Plains.single h (State.plain_ofChars _ _)
  | nil => exact Plains.empty
  | seq hjoin _ _ ih_first ih_rest =>
    have hbase := Nat.le_refl
    exact ((Plains.single hjoin (State.plain_fork _ _)).append ih_first (hbase _)).append ih_rest
      (Nat.le_add_right _ _)
  | fail => exact Plains.empty
  | altSet _ _ h => exact Plains.single h (State.plain_ofChars _ _)
  | altOne _ _ ih => exact ih
  | alt _ _ _ hfork ih_first ih_rest =>
    exact (ih_first.append ih_rest (Nat.le_add_right _ _)).append
      (Plains.single hfork (State.plain_fork _ _)) (Nat.le_refl _)
  | optional _ hfork ih =>
    exact ih.append (Plains.single hfork (State.plain_fork _ _)) (Nat.le_refl _)
  | star hleave _ henter ih =>
    exact ((Plains.single hleave (State.plain_fork _ _)).append ih (Nat.le_refl _)).append
      (Plains.single henter (State.plain_fork _ _)) (Nat.le_refl _)
  | plus hleave _ ih =>
    exact (Plains.single hleave (State.plain_fork _ _)).append ih (Nat.le_refl _)
  | exactly _ _ ih => exact ih
  | atLeast _ _ ih => exact ih
  | repeated _ _ ih => exact ih
  | submatch _ hend _ hstart ih =>
    exact ((Plains.single hend (State.plain_ofEnd _ _)).append ih (Nat.le_add_right _ _)).append
      (Plains.single hstart (State.plain_ofStart _)) (Nat.le_refl _)
  | noSubmatch _ _ ih => exact ih
  | named _ ih => exact ih
  | withFlags _ ih => exact ih

end Plains

/-! ## The whole expression -/

theorem Step.inv_leads {states : List State} {q i : ℕ} {m : Matches} {c : Config}
    (h : Step states range ⟨q, i, m⟩ c) :
    ∃ st, states[q]? = some st ∧ ∃ q', st.Leads q' ∧ ∃ i', i ≤ i' ∧
      (st.isEpsilon = true → i' = i) ∧ c = ⟨q', i', st.record i m⟩ := by
  cases h with
  | between hstate _ hepsilon _ hleads =>
    exact ⟨_, hstate, _, hleads, i, Nat.le_refl i, fun _ => rfl, rfl⟩
  | char hstate _ hepsilon _ _ _ hnext =>
    refine ⟨_, hstate, _, Or.inl hnext, i + 1, Nat.le_succ i, fun htrue => ?_, rfl⟩
    rw [hepsilon] at htrue
    cases htrue

theorem Path.pathIn {states : List State} {c c' : Config} (h : Path states range c c') :
    PathIn states range 0 states.length c c' := by
  induction h with
  | refl => exact Relation.ReflTransGen.refl
  | @tail c _ _ hstep ih =>
    obtain ⟨q, i, m⟩ := c
    obtain ⟨st, hst, -⟩ := hstep.inv_leads
    exact ih.tail ⟨Nat.zero_le _, (List.getElem?_eq_some_iff.mp hst).1, hstep⟩

theorem PathIn.path {states : List State} {lo hi : ℕ} {c c' : Config}
    (h : PathIn states range lo hi c c') : Path states range c c' := by
  induction h with
  | refl => exact Relation.ReflTransGen.refl
  | tail _ hstep ih => exact ih.tail hstep.2.2

namespace Rx

/-- The regular expression is the SRE's. -/
structure Of (env : Env) (flags : Flags) (sre : Sre) (rx : Rx) : Prop where
  accept : rx.states[0]? = some .ofAccept
  length : rx.states.length = rx.startState + 1
  body : ∃ entry, rx.states[1]? = some (.ofEnd sre.nonGreedySre 0 0) ∧
    Fragment env rx.states flags sre 2 rx.startState 2 entry 1 ∧
    rx.states[rx.startState]? = some (.ofStart 0 entry)
  saves : rx.numSaveIndexes = 2 + sre.width flags
  nonGreedy : rx.nonGreedyIndexes.contains 1 = sre.nonGreedySre

/-- The start of a run at position `s`. -/
def startConfig (rx : Rx) (s : ℕ) : Config :=
  ⟨rx.startState, s, List.replicate rx.numSaveIndexes none⟩

/-- The matches when a run starts at position `s`. -/
def startMatches (rx : Rx) (s : ℕ) : Matches :=
  List.set (List.replicate rx.numSaveIndexes none) 0 (some s)

/-- A path comes to the state from the start at the position `s`. -/
def Reached (rx : Rx) (range : Range) (s q i : ℕ) (m : Matches) : Prop :=
  Path rx.states range (rx.startConfig s) ⟨q, i, m⟩

/-- The match started at `s`, and its end is recorded when the accepting state is entered. -/
def RecordedFrom (rx : Rx) (s : ℕ) (c : Config) : Prop :=
  c.state < rx.startState ∧ s ≤ c.pos ∧ c.found.length = rx.numSaveIndexes ∧
    c.found.ref 0 = some s ∧ c.found.ref 1 = if c.state = 0 then some c.pos else none

variable {rx : Rx} {s q i j : ℕ} {m : Matches} {st : State}

namespace Of

variable (h : rx.Of env flags sre)

include h

theorem startState_ge : 2 ≤ rx.startState := by
  obtain ⟨entry, -, hfragment, -⟩ := h.body
  exact hfragment.lo_le

theorem place (hst : rx.states[q]? = some st) :
    (q = 0 ∧ st = .ofAccept) ∨
    (q = 1 ∧ st = .ofEnd sre.nonGreedySre 0 0) ∨
    (2 ≤ q ∧ q < rx.startState ∧ st.accept = false ∧ st.Plain 2 ∧
      ∀ q', st.Leads q' → Inside 2 rx.startState 1 q') ∨
    (q = rx.startState ∧ ∃ entry, st = .ofStart 0 entry ∧
      ∀ e, entry = some e → Inside 2 rx.startState 1 e) := by
  obtain ⟨entry, hend, hfragment, hstart⟩ := h.body
  have hq : q < rx.startState + 1 := by
    rw [← h.length]
    exact (List.getElem?_eq_some_iff.mp hst).1
  rcases Nat.lt_or_ge q 2 with hq' | hq'
  · rcases Nat.lt_or_ge q 1 with hzero | hone
    · obtain rfl : q = 0 := by omega
      rw [h.accept] at hst
      exact Or.inl ⟨rfl, (Option.some.inj hst).symm⟩
    · obtain rfl : q = 1 := by omega
      rw [hend] at hst
      exact Or.inr (Or.inl ⟨rfl, (Option.some.inj hst).symm⟩)
  · rcases Nat.lt_or_ge q rx.startState with hlt | hge
    · obtain ⟨st', hst', haccept, hleads⟩ := hfragment.encloses.1 q hq' hlt
      obtain ⟨st'', hst'', hplain⟩ := hfragment.plains q hq' hlt
      rw [hst] at hst' hst''
      cases hst'
      cases hst''
      exact Or.inr (Or.inr (Or.inl ⟨hq', hlt, haccept, hplain, hleads⟩))
    · obtain rfl : q = rx.startState := by omega
      rw [hstart] at hst
      exact Or.inr (Or.inr (Or.inr
        ⟨rfl, entry, (Option.some.inj hst).symm, hfragment.encloses.2⟩))

theorem leads_lt (hst : rx.states[q]? = some st) {q' : ℕ} (hleads : st.Leads q') :
    q' < rx.startState := by
  have htwo := h.startState_ge
  have hinside : ∀ {e}, Inside 2 rx.startState 1 e → e < rx.startState := by
    intro e he
    rcases he with he | rfl
    · exact he.2
    · omega
  rcases h.place hst with ⟨-, rfl⟩ | ⟨-, rfl⟩ | ⟨-, -, -, -, hinner⟩ | ⟨-, entry, rfl, hinner⟩
  · rcases hleads with hleads | hleads <;> cases hleads
  · rcases hleads with hleads | hleads
    · cases hleads
      omega
    · cases hleads
  · exact hinside (hinner q' hleads)
  · rcases hleads with hleads | hleads
    · exact hinside (hinner q' hleads)
    · cases hleads

theorem accept_iff (hst : rx.states[q]? = some st) : st.accept = true ↔ q = 0 := by
  have htwo := h.startState_ge
  rcases h.place hst with ⟨rfl, rfl⟩ | ⟨rfl, rfl⟩ | ⟨hq, -, haccept, -⟩ | ⟨rfl, entry, rfl, -⟩
  · exact ⟨fun _ => rfl, fun _ => rfl⟩
  · exact ⟨nofun, nofun⟩
  · rw [haccept]
    exact ⟨nofun, fun hzero => by omega⟩
  · exact ⟨nofun, fun hzero => by omega⟩

theorem plain_of_takes (hst : rx.states[q]? = some st) (hepsilon : st.isEpsilon = false) :
    st.Plain 2 := by
  rcases h.place hst with ⟨-, rfl⟩ | ⟨-, rfl⟩ | ⟨-, -, -, hplain, -⟩ | ⟨-, entry, rfl, -⟩
  · cases hepsilon
  · cases hepsilon
  · exact hplain
  · cases hepsilon

theorem saves_ge : 2 ≤ rx.numSaveIndexes := by
  rw [h.saves]
  exact Nat.le_add_right 2 _

theorem recordedFrom_start {c : Config} (hstep : Step rx.states range (rx.startConfig s) c) :
    rx.RecordedFrom s c := by
  have hsaves := h.saves_ge
  obtain ⟨entry, -, hfragment, hstart⟩ := h.body
  obtain ⟨e, he, rfl⟩ := hstep.inv_ofStart hstart
  have hzero : e ≠ 0 := by
    rcases hfragment.encloses.2 e he with hin | rfl <;> omega
  have hlength : 0 < (List.replicate rx.numSaveIndexes (none : Option ℕ)).length := by
    rw [length_replicate]
    omega
  refine ⟨h.leads_lt hstart (Or.inl he), Nat.le_refl s, ?_, Matches.ref_set hlength _, ?_⟩
  · rw [length_set, length_replicate]
  · rw [if_neg hzero, Matches.ref_set_of_ne Nat.zero_ne_one, Matches.ref, getElem?_replicate]
    split <;> rfl

theorem recordedFrom_step {c c' : Config} (hstep : Step rx.states range c c')
    (hc : rx.RecordedFrom s c) : rx.RecordedFrom s c' := by
  obtain ⟨q, i, m⟩ := c
  obtain ⟨hq, hi, hlength, hzero, hone⟩ := hc
  have hsaves := h.saves_ge
  obtain ⟨st, hst, q', hleads, i', hi', hepsilon, rfl⟩ := hstep.inv_leads
  have hq' := h.leads_lt hst hleads
  rcases h.place hst with ⟨-, rfl⟩ | ⟨rfl, rfl⟩ | ⟨hin, -, -, hplain, hinner⟩ | ⟨rfl, -⟩
  · rcases hleads with hleads | hleads <;> cases hleads
  · obtain rfl : i' = i := hepsilon rfl
    obtain rfl : q' = 0 := by
      rcases hleads with hleads | hleads
      · exact (Option.some.inj hleads).symm
      · cases hleads
    have hrecord : (State.ofEnd sre.nonGreedySre 0 0).record i' m = m.set 1 (some i') :=
      State.record_ofEnd_of_none i' m hone
    refine ⟨hq', hi, ?_, ?_, ?_⟩
    · rw [State.record_length]
      exact hlength
    · rw [State.record_ref _ _ _ (k := 0) (by simp [State.ofEnd])]
      exact hzero
    · rw [hrecord, if_pos rfl]
      exact Matches.ref_set (by simp only at hlength; omega) _
  · have hne : q' ≠ 0 := by
      rcases hinner q' hleads with hin' | rfl <;> omega
    have hindex : ∀ k, k < 2 → (st.record i m).ref k = m.ref k := fun k hk =>
      State.record_ref st i m fun hsome => absurd (hplain.2 k hsome) (Nat.not_le.mpr hk)
    simp only at hone
    rw [if_neg (by omega)] at hone
    refine ⟨hq', Nat.le_trans hi hi', ?_, (hindex 0 Nat.zero_lt_two).trans hzero, ?_⟩
    · rw [State.record_length]
      exact hlength
    · rw [if_neg hne]
      exact (hindex 1 Nat.one_lt_two).trans hone
  · exact absurd hq (Nat.lt_irrefl _)

theorem recordedFrom (hreached : rx.Reached range s q i m) :
    (q = rx.startState ∧ i = s ∧ m = List.replicate rx.numSaveIndexes none) ∨
      rx.RecordedFrom s ⟨q, i, m⟩ := by
  have hinv : ∀ c, Path rx.states range (rx.startConfig s) c →
      c = rx.startConfig s ∨ rx.RecordedFrom s c := by
    intro c hpath
    induction hpath with
    | refl => exact Or.inl rfl
    | tail _ hstep ih =>
      rcases ih with rfl | hc
      · exact Or.inr (h.recordedFrom_start hstep)
      · exact Or.inr (h.recordedFrom_step hstep hc)
  rcases hinv _ hreached with heq | hc
  · cases heq
    exact Or.inl ⟨rfl, rfl, rfl⟩
  · exact Or.inr hc

theorem recorded_takes (hreached : rx.Reached range s q i m) (hst : rx.states[q]? = some st)
    (hepsilon : st.isEpsilon = false) :
    (st.record i m).ref 0 = some s ∧ (st.record i m).ref 1 = none := by
  have hplain := h.plain_of_takes hst hepsilon
  have hindex : ∀ k, k < 2 → (st.record i m).ref k = m.ref k := fun k hk =>
    State.record_ref st i m fun hsome => absurd (hplain.2 k hsome) (Nat.not_le.mpr hk)
  have hne : q ≠ 0 := by
    rintro rfl
    rw [h.accept] at hst
    cases hst
    cases hepsilon
  rcases h.recordedFrom hreached with ⟨rfl, -, -⟩ | ⟨-, -, -, hzero, hone⟩
  · obtain ⟨entry, -, -, hstart⟩ := h.body
    rw [hstart] at hst
    cases hst
    cases hepsilon
  · simp only at hone
    rw [if_neg hne] at hone
    exact ⟨(hindex 0 Nat.zero_lt_two).trans hzero, (hindex 1 Nat.one_lt_two).trans hone⟩

theorem recorded_accept (hreached : rx.Reached range s 0 i m) :
    m.ref 0 = some s ∧ m.ref 1 = some i ∧ s ≤ i := by
  rcases h.recordedFrom hreached with ⟨hstart, -, -⟩ | ⟨-, hi, -, hzero, hone⟩
  · have htwo := h.startState_ge
    omega
  · rw [if_pos rfl] at hone
    exact ⟨hzero, hone, hi⟩

/-! ### The paths to the accepting state -/

theorem recorded_of_reached (hrange : range.Valid) (hs : range.start ≤ s) (hs' : s ≤ range.stop)
    (hreached : rx.Reached range s 0 j m) :
    ∃ m₁, Recorded env range flags sre 2 s (rx.startMatches s) j m₁ ∧ m = m₁.set 1 (some j) := by
  have htwo := h.startState_ge
  obtain ⟨entry, hend, hfragment, hstart⟩ := h.body
  -- from the start into the fragment
  obtain ⟨c, hstep, hthen⟩ :=
    (Path.pathIn hreached).exists_step (by simp only [startConfig]; omega)
  obtain ⟨e, he, rfl⟩ := hstep.inv_ofStart hstart
  -- through the fragment to the state that ends the match
  obtain ⟨k, m₁, hpart, hthen⟩ :=
    hthen.leave hfragment.encloses.1 (hfragment.encloses.2 e he) (by simp only; omega)
  have hrecorded := hfragment.sound hrange (by omega) e s _ k m₁ he hs hs' hpart
  -- and from there to the accepting state, which has no way on
  have hreached₁ : rx.Reached range s 1 k m₁ :=
    Relation.ReflTransGen.head hstep (PathIn.path hpart)
  obtain ⟨c, hlast, hthen⟩ := hthen.exists_step (by simp only; omega)
  cases hlast.inv_ofEnd hend
  have heq : (⟨0, j, m⟩ : Config) = ⟨0, k, (State.ofEnd sre.nonGreedySre 0 0).record k m₁⟩ := by
    rcases Relation.ReflTransGen.cases_head hthen with heq | ⟨c, ⟨-, -, hmore⟩, -⟩
    · exact heq.symm
    · obtain ⟨st, hst, q', hleads, -⟩ := hmore.inv_leads
      rw [h.accept] at hst
      cases hst
      rcases hleads with hleads | hleads <;> cases hleads
  cases heq
  have hnone : m₁.ref 1 = none := by
    rcases h.recordedFrom hreached₁ with ⟨hone, -⟩ | ⟨-, -, -, -, hone⟩
    · omega
    · exact hone
  exact ⟨m₁, hrecorded, State.record_ofEnd_of_none _ m₁ hnone⟩

theorem reached_of_spans (hrange : range.Valid) (hs : range.start ≤ s) (hs' : s ≤ range.stop)
    (hspans : Spans env sre flags range s j) : ∃ m, rx.Reached range s 0 j m := by
  obtain ⟨entry, hend, hfragment, hstart⟩ := h.body
  obtain ⟨e, m', he, hpath⟩ :=
    hfragment.complete hrange s j hspans hs' hs (rx.startMatches s)
  exact ⟨_, Relation.ReflTransGen.head (Step.of_start hstart he)
    (hpath.tail (Step.of_end hend))⟩

end Of

end Rx

end Regexp

end ChibiScheme
