import ChibiScheme.Regexp.Run

/-!
# What a run finds

The outcome of a run in terms of what the SRE matches: whether a search or a match succeeds, and which
match a greedy search returns.
-/

namespace ChibiScheme

open Option

namespace Regexp

namespace Rx

variable {env : Env} {range : Range} {flags : Flags} {sre : Sre} {rx : Rx} {search : Bool} {s j : ℕ}

theorem Accepted.spans (h : rx.Of env flags sre) (hrange : range.Valid) {a : Searcher}
    (ha : rx.Accepted search range range.stop a) :
    ∃ s e, Starts search range s ∧ s ≤ range.stop ∧ e ≤ range.stop ∧
      Spans env sre flags range s e ∧ a.found.ref 0 = some s ∧ a.found.ref 1 = some e ∧
      ∃ m, Recorded env range flags sre 2 s (rx.startMatches s) e m ∧
        a.found = m.set 1 (some e) := by
  obtain ⟨s, e, hs, he, hreached⟩ := ha
  obtain ⟨hzero, hone, hle⟩ := h.recorded_accept hreached
  have hstop : s ≤ range.stop := Nat.le_trans hle he
  obtain ⟨m, hrecorded, hfound⟩ := h.recorded_of_reached hrange hs.1 hstop hreached
  exact ⟨s, e, hs, hstop, he, hrecorded.spans, hzero, hone, m, hrecorded, hfound⟩

theorem Result.won_of_spans (h : rx.Of env flags sre) (hrange : range.Valid)
    {accept : Option Searcher} (hresult : rx.Result search range accept)
    (hs : Starts search range s) (hstop : s ≤ range.stop)
    (hspans : Spans env sre flags range s j) : rx.Won accept s j := by
  obtain ⟨m, hreached⟩ := h.reached_of_spans hrange hs.1 hstop hspans
  exact hresult.best s j m hs ((spans_forward env sre flags range s j hspans).2 hstop) hreached

theorem runOffsets_search (h : rx.Of env flags sre) (hrange : range.Valid) (order : Order) :
    ∃ accept, rx.Result true range accept ∧
      rx.runOffsets order true range = some (accept.map Searcher.found) := by
  obtain ⟨accept, hrun, hresult⟩ := regexpAdvance_spec h hrange order true
  refine ⟨accept, hresult, ?_⟩
  rw [runOffsets, hrun]
  cases accept <;> rfl

theorem runOffsets_match (h : rx.Of env flags sre) (hrange : range.Valid) (order : Order) :
    ∃ accept, rx.Result false range accept ∧
      rx.runOffsets order false range = some
        ((accept.map Searcher.found).filter fun m => m.ref 1 = some range.stop) := by
  obtain ⟨accept, hrun, hresult⟩ := regexpAdvance_spec h hrange order false
  refine ⟨accept, hresult, ?_⟩
  rw [runOffsets, hrun]
  cases accept with
  | none => rfl
  | some a =>
    obtain ⟨s, e, -, -, he, -, -, hone, -⟩ := (hresult.sound a rfl).spans h hrange
    simp only [bind_eq_bind, bind_some, hone, map_some, filter_some, Option.some.injEq]
    by_cases heq : e = range.stop
    · simp [heq]
    · have hlt : ¬ e ≥ range.stop := by omega
      simp [heq, hlt]

theorem search_iff (h : rx.Of env flags sre) (hrange : range.Valid) (order : Order) :
    (∃ m, rx.runOffsets order true range = some (some m)) ↔
      ∃ s j, range.start ≤ s ∧ s ≤ range.stop ∧ Spans env sre flags range s j := by
  obtain ⟨accept, hresult, hrun⟩ := runOffsets_search h hrange order
  rw [hrun]
  constructor
  · rintro ⟨m, hm⟩
    cases accept with
    | none => cases hm
    | some a =>
      obtain ⟨s, e, hs, hstop, -, hspans, -⟩ := (hresult.sound a rfl).spans h hrange
      exact ⟨s, e, hs.1, hstop, hspans⟩
  · rintro ⟨s, j, hs, hstop, hspans⟩
    obtain ⟨a, rfl, -⟩ := hresult.won_of_spans h hrange ⟨hs, Or.inl rfl⟩ hstop hspans
    exact ⟨a.found, rfl⟩

theorem starts_false : Starts false range s ↔ s = range.start := by
  constructor
  · rintro ⟨-, hfalse | heq⟩
    · cases hfalse
    · exact heq
  · rintro rfl
    exact ⟨Nat.le_refl _, Or.inr rfl⟩

/-- A match succeeds if the SRE matches the whole range, and for a non-greedy whole match no shorter
part from the start. -/
theorem match_iff (h : rx.Of env flags sre) (hrange : range.Valid) (order : Order) :
    (∃ m, rx.runOffsets order false range = some (some m)) ↔
      Spans env sre flags range range.start range.stop ∧
        (sre.nonGreedySre = true →
          ∀ j, j < range.stop → ¬ Spans env sre flags range range.start j) := by
  obtain ⟨accept, hresult, hrun⟩ := runOffsets_match h hrange order
  have hstart : Starts false range range.start := starts_false.mpr rfl
  rw [hrun]
  constructor
  · rintro ⟨m, hm⟩
    cases accept with
    | none => cases hm
    | some a =>
      obtain ⟨s, e, hs, -, -, hspans, -, hone, -⟩ := (hresult.sound a rfl).spans h hrange
      obtain rfl := starts_false.mp hs
      have he : e = range.stop := by
        rw [Option.some.injEq, filter_eq_some_iff] at hm
        obtain ⟨hfound, hwhole⟩ := hm
        cases hfound
        rw [hone, decide_eq_true_eq] at hwhole
        exact some.inj hwhole
      subst he
      refine ⟨hspans, fun hnonGreedy j hj hshorter => ?_⟩
      obtain ⟨a', ha', -, hwins⟩ :=
        hresult.won_of_spans h hrange hstart hrange.start_le hshorter
      cases ha'
      obtain ⟨e', hone', hle⟩ := hwins (h.nonGreedy.trans hnonGreedy)
      rw [hone] at hone'
      cases hone'
      omega
  · rintro ⟨hspans, hshorter⟩
    obtain ⟨a, rfl, hgreedy_wins, hnonGreedy_wins⟩ :=
      hresult.won_of_spans h hrange hstart hrange.start_le hspans
    obtain ⟨s, e, hs, -, he, hfound, hzero, hone, -⟩ :=
      (hresult.sound a rfl).spans h hrange
    obtain rfl := starts_false.mp hs
    have hwhole : e = range.stop := by
      by_cases hnonGreedy : sre.nonGreedySre = true
      · by_contra hne
        exact hshorter hnonGreedy e (by omega) hfound
      · have hgreedy : ¬ rx.NonGreedy := by
          rw [NonGreedy, h.nonGreedy]
          exact hnonGreedy
        obtain ⟨s', e', hzero', hone', hbetter⟩ := hgreedy_wins hgreedy
        rw [hzero] at hzero'
        rw [hone] at hone'
        cases hzero'
        cases hone'
        omega
    refine ⟨a.found, ?_⟩
    simp [hone, hwhole]

theorem search_leftmost_longest (h : rx.Of env flags sre) (hrange : range.Valid) (order : Order)
    (hgreedy : sre.nonGreedySre = false) {m : Matches}
    (hrun : rx.runOffsets order true range = some (some m)) :
    ∃ s e, m.ref 0 = some s ∧ m.ref 1 = some e ∧ range.start ≤ s ∧ e ≤ range.stop ∧
      Spans env sre flags range s e ∧
      (∀ s' j, range.start ≤ s' → s' ≤ range.stop → Spans env sre flags range s' j → s ≤ s') ∧
      ∀ j, Spans env sre flags range s j → j ≤ e := by
  obtain ⟨accept, hresult, hrun'⟩ := runOffsets_search h hrange order
  rw [hrun] at hrun'
  cases accept with
  | none => cases hrun'
  | some a =>
    cases hrun'
    have hnot : ¬ rx.NonGreedy := by
      rw [NonGreedy, h.nonGreedy, hgreedy]
      exact Bool.false_ne_true
    obtain ⟨s, e, hs, hstop, he, hspans, hzero, hone, -⟩ :=
      (hresult.sound a rfl).spans h hrange
    have hbest : ∀ s' j, range.start ≤ s' → s' ≤ range.stop → Spans env sre flags range s' j →
        s < s' ∨ s = s' ∧ j ≤ e := by
      intro s' j hs' hstop' hspans'
      obtain ⟨a', ha', hwins, -⟩ :=
        hresult.won_of_spans h hrange ⟨hs', Or.inl rfl⟩ hstop' hspans'
      cases ha'
      obtain ⟨s₀, e₀, hzero', hone', hbetter⟩ := hwins hnot
      rw [hzero] at hzero'
      rw [hone] at hone'
      cases hzero'
      cases hone'
      exact hbetter
    refine ⟨s, e, hzero, hone, hs.1, he, hspans, fun s' j hs' hstop' hspans' => ?_,
      fun j hj => ?_⟩
    · rcases hbest s' j hs' hstop' hspans' with hlt | ⟨heq, -⟩
      · exact Nat.le_of_lt hlt
      · exact Nat.le_of_eq heq
    · rcases hbest s j hs.1 hstop hj with hlt | ⟨-, hle⟩
      · exact absurd hlt (Nat.lt_irrefl s)
      · exact hle

theorem search_first_end (h : rx.Of env flags sre) (hrange : range.Valid) (order : Order)
    (hlazy : sre.nonGreedySre = true) {m : Matches}
    (hrun : rx.runOffsets order true range = some (some m)) :
    ∃ s e, m.ref 0 = some s ∧ m.ref 1 = some e ∧ range.start ≤ s ∧ e ≤ range.stop ∧
      Spans env sre flags range s e ∧
      ∀ s' j, range.start ≤ s' → s' ≤ range.stop → Spans env sre flags range s' j → e ≤ j := by
  obtain ⟨accept, hresult, hrun'⟩ := runOffsets_search h hrange order
  rw [hrun] at hrun'
  cases accept with
  | none => cases hrun'
  | some a =>
    cases hrun'
    obtain ⟨s, e, hs, hstop, he, hspans, hzero, hone, -⟩ :=
      (hresult.sound a rfl).spans h hrange
    refine ⟨s, e, hzero, hone, hs.1, he, hspans, fun s' j hs' hstop' hspans' => ?_⟩
    obtain ⟨a', ha', -, hwins⟩ :=
      hresult.won_of_spans h hrange ⟨hs', Or.inl rfl⟩ hstop' hspans'
    cases ha'
    obtain ⟨e₀, hone', hle⟩ := hwins (h.nonGreedy.trans hlazy)
    rw [hone] at hone'
    cases hone'
    exact hle

end Rx

theorem Env.finds_iff {env : Env} {range : Range} {flags : Flags} {sre : Sre} {rx : Rx}
    (h : rx.Of env flags sre) (hrange : range.Valid) :
    env.finds rx range = true ↔
      ∃ s j, range.start ≤ s ∧ s ≤ range.stop ∧ Spans env sre flags range s j := by
  rw [← Rx.search_iff h hrange env.order, finds]
  split
  · next m hrun => exact ⟨fun _ => ⟨m, hrun⟩, fun _ => rfl⟩
  · next hnone => exact ⟨nofun, fun ⟨m, hrun⟩ => absurd hrun (hnone m)⟩

end Regexp

end ChibiScheme
