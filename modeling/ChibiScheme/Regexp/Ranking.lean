import ChibiScheme.Regexp.Whole

/-!
# Which match is kept

Two searchers of one state, and two accepted searchers, are compared by their match vectors, the pair
of the whole match first.  Without a non-greedy whole match the earlier start is kept, and of two
matches with one start the longer one.  A non-greedy whole match is kept once it is found.
-/

namespace ChibiScheme

namespace Regexp

variable {env : Env} {range : Range} {flags : Flags} {sre : Sre}

/-! ## Comparing vectors -/

theorem matchGe_cons (nonGreedyIndexes : List ℕ) (s₁ e₁ s₂ e₂ : Option ℕ) (m₁ m₂ : Matches) :
    matchGe nonGreedyIndexes 0 (s₁ :: e₁ :: m₁) (s₂ :: e₂ :: m₂) =
      if s₁ = s₂ ∧ e₁ = e₂ then matchGe nonGreedyIndexes 2 m₁ m₂
      else pairGe (nonGreedyIndexes.contains 1) s₁ e₁ s₂ e₂ := rfl

theorem Matches.exists_cons {m : Matches} (h : 2 ≤ m.length) :
    ∃ rest, m = m.ref 0 :: m.ref 1 :: rest := by
  match m, h with
  | s :: e :: rest, _ => exact ⟨rest, rfl⟩

variable {s₁ s₂ : ℕ}

theorem pairGe_greedy {e₁ e₂ : ℕ} (hle : s₁ ≤ e₁) :
    pairGe false (some s₁) (some e₁) (some s₂) (some e₂) = true ↔
      s₁ < s₂ ∨ s₁ = s₂ ∧ e₂ ≤ e₁ := by
  simp [pairGe]
  omega

theorem pairGe_nonGreedy {e₁ e₂ : ℕ} (hle : s₁ ≤ e₁) :
    pairGe true (some s₁) (some e₁) (some s₂) (some e₂) = true ↔ s₁ = s₂ ∧ e₁ < e₂ := by
  simp [pairGe]
  omega

theorem pairGe_waiting :
    pairGe false (some s₁) none (some s₂) none = true ↔ s₁ < s₂ := by
  simp [pairGe]
  omega

namespace Rx

variable (rx : Rx)

/-- The first submatch is a non-greedy one. -/
def NonGreedy : Prop := rx.nonGreedyIndexes.contains 1 = true

/-- The recorded start is as early as the position; a non-greedy search does not care. -/
def Earlier (m : Matches) (s : ℕ) : Prop :=
  ¬ rx.NonGreedy → ∃ s', m.ref 0 = some s' ∧ s' ≤ s

/-- The recorded match is as good as one from `s` to `j`. -/
def Wins (m : Matches) (s j : ℕ) : Prop :=
  (¬ rx.NonGreedy → ∃ s' e, m.ref 0 = some s' ∧ m.ref 1 = some e ∧ (s' < s ∨ s' = s ∧ j ≤ e)) ∧
  (rx.NonGreedy → ∃ e, m.ref 1 = some e ∧ e ≤ j)

variable {rx}

variable {m : Matches} {s s' : ℕ}

theorem Earlier.mono (h : rx.Earlier m s) (hle : ¬ rx.NonGreedy → s ≤ s') : rx.Earlier m s' := by
  intro hgreedy
  obtain ⟨s₀, href, hs₀⟩ := h hgreedy
  exact ⟨s₀, href, Nat.le_trans hs₀ (hle hgreedy)⟩

theorem Wins.mono {j : ℕ} (h : rx.Wins m s j) (hle : ¬ rx.NonGreedy → s ≤ s') :
    rx.Wins m s' j := by
  refine ⟨fun hgreedy => ?_, h.2⟩
  obtain ⟨s₀, e, hzero, hone, hbetter⟩ := h.1 hgreedy
  have hs := hle hgreedy
  refine ⟨s₀, e, hzero, hone, ?_⟩
  omega

theorem merge_found (rx : Rx) (sr₁ sr₂ : Searcher) :
    (rx.merge sr₁ sr₂).state = sr₁.state ∧
      ((rx.merge sr₁ sr₂).found = sr₁.found ∨ (rx.merge sr₁ sr₂).found = sr₂.found) := by
  unfold merge
  split
  · exact ⟨rfl, Or.inl rfl⟩
  · exact ⟨rfl, Or.inr rfl⟩

theorem merge_earlier (rx : Rx) {sr₁ sr₂ : Searcher} {s₁ s₂ : ℕ} (hlength₁ : 2 ≤ sr₁.found.length)
    (hlength₂ : 2 ≤ sr₂.found.length) (hstart₁ : sr₁.found.ref 0 = some s₁)
    (hend₁ : sr₁.found.ref 1 = none) (hstart₂ : sr₂.found.ref 0 = some s₂)
    (hend₂ : sr₂.found.ref 1 = none) (s : ℕ)
    (h : rx.Earlier sr₁.found s ∨ rx.Earlier sr₂.found s) :
    rx.Earlier (rx.merge sr₁ sr₂).found s := by
  intro hgreedy
  have hle : s₁ ≤ s ∨ s₂ ≤ s := by
    rcases h with h | h
    · obtain ⟨s', href, hs'⟩ := h hgreedy
      rw [hstart₁] at href
      cases href
      exact Or.inl hs'
    · obtain ⟨s', href, hs'⟩ := h hgreedy
      rw [hstart₂] at href
      cases href
      exact Or.inr hs'
  obtain ⟨rest₁, heq₁⟩ := Matches.exists_cons hlength₁
  obtain ⟨rest₂, heq₂⟩ := Matches.exists_cons hlength₂
  rw [hstart₁, hend₁] at heq₁
  rw [hstart₂, hend₂] at heq₂
  have hge := matchGe_cons rx.nonGreedyIndexes (some s₁) none (some s₂) none rest₁ rest₂
  rw [← heq₁, ← heq₂] at hge
  unfold merge
  by_cases heq : s₁ = s₂
  · subst heq
    split
    · exact ⟨s₁, hstart₁, by omega⟩
    · exact ⟨s₁, hstart₂, by omega⟩
  · have hcontains : rx.nonGreedyIndexes.contains 1 = false := Bool.eq_false_iff.mpr hgreedy
    rw [if_neg (by simp [heq]), hcontains] at hge
    split
    · next htrue =>
        rw [hge, pairGe_waiting] at htrue
        exact ⟨s₁, hstart₁, by omega⟩
    · next hfalse =>
        rw [hge, pairGe_waiting] at hfalse
        exact ⟨s₂, hstart₂, by omega⟩

/-! ## The accepted searcher -/

/-- A match may start at `s`. -/
def Starts (search : Bool) (range : Range) (s : ℕ) : Prop :=
  range.start ≤ s ∧ (search = true ∨ s = range.start)

/-- The searcher has come to the accepting state by the position `i`. -/
def Accepted (rx : Rx) (search : Bool) (range : Range) (i : ℕ) (sr : Searcher) : Prop :=
  ∃ s e, Starts search range s ∧ e ≤ i ∧ rx.Reached range s 0 e sr.found

/-- The accepted searcher is as good as a match from `s` to `j`. -/
def Won (rx : Rx) (accept : Option Searcher) (s j : ℕ) : Prop :=
  ∃ a, accept = some a ∧ rx.Wins a.found s j

variable {i : ℕ}

theorem Of.length_of_reached (h : rx.Of env flags sre) (hreached : rx.Reached range s 0 i m) :
    2 ≤ m.length := by
  rcases h.recordedFrom hreached with ⟨hstart, -⟩ | ⟨-, -, hlength, -⟩
  · have htwo := h.startState_ge
    omega
  · simp only at hlength
    rw [hlength]
    exact h.saves_ge

theorem offer_cases (rx : Rx) (accept : Option Searcher) (sr : Searcher) :
    rx.offer accept sr = some sr ∨ ∃ a, accept = some a ∧ rx.offer accept sr = some a := by
  unfold offer
  split
  · exact Or.inl rfl
  · next hnot =>
      cases accept with
      | none => exact absurd rfl hnot
      | some a => exact Or.inr ⟨a, rfl, rfl⟩

variable {search : Bool} {accept : Option Searcher} {sr : Searcher}

theorem offer_accepted (haccept : ∀ a, accept = some a → rx.Accepted search range i a)
    (hs : Starts search range s) (hsr : rx.Reached range s 0 i sr.found) :
    ∀ a, rx.offer accept sr = some a → rx.Accepted search range i a := by
  intro a ha
  rcases offer_cases rx accept sr with hnew | ⟨a', hold, hoffer⟩
  · rw [hnew] at ha
    cases ha
    exact ⟨s, i, hs, Nat.le_refl i, hsr⟩
  · rw [hoffer] at ha
    cases ha
    exact haccept a hold

theorem searcherGe_some (h : rx.Of env flags sre) {a : Searcher} {e : ℕ}
    (hsr : rx.Reached range s 0 i sr.found) (ha : rx.Reached range s' 0 e a.found) :
    s = s' ∧ i = e ∨
    ((¬ rx.NonGreedy → (rx.searcherGe sr (some a) = true ↔ s < s' ∨ s = s' ∧ e ≤ i)) ∧
      (rx.NonGreedy → (rx.searcherGe sr (some a) = true ↔ s = s' ∧ i < e))) := by
  obtain ⟨hzero, hone, hle⟩ := h.recorded_accept hsr
  obtain ⟨hzero', hone', -⟩ := h.recorded_accept ha
  obtain ⟨rest, heq⟩ := Matches.exists_cons (h.length_of_reached hsr)
  obtain ⟨rest', heq'⟩ := Matches.exists_cons (h.length_of_reached ha)
  rw [hzero, hone] at heq
  rw [hzero', hone'] at heq'
  have hge := matchGe_cons rx.nonGreedyIndexes (some s) (some i) (some s') (some e) rest rest'
  rw [← heq, ← heq'] at hge
  by_cases hsame : s = s' ∧ i = e
  · exact Or.inl hsame
  · rw [if_neg (by simpa using hsame)] at hge
    refine Or.inr ⟨fun hgreedy => ?_, fun hnonGreedy => ?_⟩
    · have hcontains : rx.nonGreedyIndexes.contains 1 = false := Bool.eq_false_iff.mpr hgreedy
      rw [searcherGe, hge, hcontains, pairGe_greedy hle]
    · rw [searcherGe, hge, hnonGreedy, pairGe_nonGreedy hle]

theorem offer_won (h : rx.Of env flags sre)
    (haccept : ∀ a, accept = some a → rx.Accepted search range i a)
    (hsr : rx.Reached range s 0 i sr.found) : rx.Won (rx.offer accept sr) s i := by
  obtain ⟨hzero, hone, hle⟩ := h.recorded_accept hsr
  rcases offer_cases rx accept sr with hnew | ⟨a, hold, hoffer⟩
  · refine ⟨sr, hnew, fun _ => ?_, fun _ => ?_⟩
    · exact ⟨s, i, hzero, hone, Or.inr ⟨rfl, Nat.le_refl i⟩⟩
    · exact ⟨i, hone, Nat.le_refl i⟩
  · obtain ⟨s', e, hs', he, ha⟩ := haccept a hold
    obtain ⟨hzero', hone', -⟩ := h.recorded_accept ha
    have hnot : rx.searcherGe sr accept = false ∨ sr = a := by
      unfold offer at hoffer
      split at hoffer
      · exact Or.inr (Option.some.inj hoffer)
      · next hnot => exact Or.inl (Bool.eq_false_iff.mpr hnot)
    refine ⟨a, hoffer, fun hgreedy => ?_, fun _ => ⟨e, hone', he⟩⟩
    refine ⟨s', e, hzero', hone', ?_⟩
    rcases hnot with hnot | rfl
    · rcases searcherGe_some h hsr ha with ⟨rfl, rfl⟩ | ⟨hiff, -⟩
      · exact Or.inr ⟨rfl, Nat.le_refl _⟩
      · rw [hold, Bool.eq_false_iff, ne_eq, hiff hgreedy] at hnot
        omega
    · rw [hzero] at hzero'
      rw [hone] at hone'
      cases hzero'
      cases hone'
      exact Or.inr ⟨rfl, Nat.le_refl _⟩

theorem offer_won_of_won (h : rx.Of env flags sre)
    (haccept : ∀ a, accept = some a → rx.Accepted search range i a)
    (hsr : rx.Reached range s 0 i sr.found) {s₀ j : ℕ} (hwon : rx.Won accept s₀ j) :
    rx.Won (rx.offer accept sr) s₀ j := by
  obtain ⟨a, rfl, hgreedy_wins, hnonGreedy_wins⟩ := hwon
  obtain ⟨hzero, hone, hle⟩ := h.recorded_accept hsr
  obtain ⟨s', e, hs', he, ha⟩ := haccept a rfl
  obtain ⟨hzero', hone', -⟩ := h.recorded_accept ha
  by_cases hge : rx.searcherGe sr (some a) = true
  · have hbetter := searcherGe_some h hsr ha
    refine ⟨sr, if_pos hge, fun hgreedy => ?_, fun hnonGreedy => ?_⟩
    · obtain ⟨s₁, e₁, href, href', hwins⟩ := hgreedy_wins hgreedy
      rw [hzero'] at href
      rw [hone'] at href'
      cases href
      cases href'
      refine ⟨s, i, hzero, hone, ?_⟩
      rcases hbetter with ⟨rfl, rfl⟩ | ⟨hiff, -⟩
      · exact hwins
      · have hfirst := (hiff hgreedy).mp hge
        omega
    · obtain ⟨e₁, href', hwins⟩ := hnonGreedy_wins hnonGreedy
      rw [hone'] at href'
      cases href'
      refine ⟨i, hone, ?_⟩
      rcases hbetter with ⟨rfl, rfl⟩ | ⟨-, hiff⟩
      · exact hwins
      · have hfirst := (hiff hnonGreedy).mp hge
        omega
  · exact ⟨a, if_neg hge, hgreedy_wins, hnonGreedy_wins⟩

end Rx

end Regexp

end ChibiScheme
