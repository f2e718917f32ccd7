import ChibiScheme.Regexp.Repetition

/-!
# The states of an SRE

`Fragment` describes the states that an SRE is compiled to: they lie between two places of the list
of states, are entered at one of them, and left for the state that comes next.  The paths from the
entry to the next state are the ways in which the SRE matches.
-/

namespace ChibiScheme

namespace Regexp

/-- The states of the SRE, from the place `lo` up to `hi`, with the state to enter and the next one -/
inductive Fragment (env : Env) (states : List State) :
    Flags → Sre → ℕ → ℕ → ℕ → Option ℕ → ℕ → Prop
  | chars {flags cs lo base next}
      (h : states[lo]? = some (.ofChars (.set (env.charSre flags cs)) next)) :
      Fragment env states flags (.chars cs) lo (lo + 1) base (some lo) next
  | string {flags s lo hi base entry next}
      (h : Fragment env states flags (.ofList (s.map fun c => .chars (.char c))) lo hi base entry
        next) :
      Fragment env states flags (.string s) lo hi base entry next
  | epsilon {flags lo base next} :
      Fragment env states flags .epsilon lo lo base (some next) next
  | assertion {flags a lo base next}
      (h : states[lo]? = some (.ofChars (.guard (env.matchAssertion a)) next)) :
      Fragment env states flags (.assertion a) lo (lo + 1) base (some lo) next
  | look {flags ahead negated body g lo base next}
      (h : states[lo]? = some (.ofChars (.guard g) next))
      (hguard : ∀ range : Range, range.Valid → ∀ i, range.start ≤ i → i ≤ range.stop →
        (g range.str i range.start range.stop = true ↔
          LookHolds (Spans env body Flags.none) ahead negated range i)) :
      Fragment env states flags (.look ahead negated body) lo (lo + 1) base (some lo) next
  | nil {flags lo base next} : Fragment env states flags .nil lo lo base (some next) next
  | seq {flags first rest lo mid hi base entry entry' next}
      (hjoin : states[lo]? = some (.ofEpsilon entry'))
      (hfirst : Fragment env states flags first (lo + 1) mid base entry lo)
      (hrest : Fragment env states flags rest mid hi (base + first.width flags) entry' next) :
      Fragment env states flags (.seq first rest) lo hi base entry next
  | fail {flags lo base next} : Fragment env states flags .fail lo lo base none next
  | altSet {flags first rest cs lo base next}
      (hset : (Sre.alt first rest).charSetSre = true)
      (hcs : (Sre.alt first rest).toCharSet env Flags.none = .ok cs)
      (h : states[lo]? = some (.ofChars (.set (env.maybeCi flags cs)) next)) :
      Fragment env states flags (.alt first rest) lo (lo + 1) base (some lo) next
  | altOne {flags first lo hi base entry next}
      (hset : (Sre.alt first .fail).charSetSre = false)
      (h : Fragment env states flags first lo hi base entry next) :
      Fragment env states flags (.alt first .fail) lo hi base entry next
  | alt {flags first rest lo mid hi base entry entry' next}
      (hset : (Sre.alt first rest).charSetSre = false)
      (hfirst : Fragment env states flags first lo mid base entry next)
      (hrest : Fragment env states flags rest mid hi (base + first.width flags) entry' next)
      (hfork : states[hi]? = some (.fork entry entry')) :
      Fragment env states flags (.alt first rest) lo (hi + 1) base (some hi) next
  | optional {flags greedy body lo hi base entry next}
      (hbody : Fragment env states flags body lo hi base entry next)
      (hfork : states[hi]? = some (.fork entry (some next))) :
      Fragment env states flags (.optional greedy body) lo (hi + 1) base (some hi) next
  | star {flags greedy body lo hi base entry next}
      (hleave : states[lo]? = some (.fork (some next) (some hi)))
      (hbody : Fragment env states flags body (lo + 1) hi base entry lo)
      (henter : states[hi]? = some (.fork entry (some lo))) :
      Fragment env states flags (.star greedy body) lo (hi + 1) base (some hi) next
  | plus {flags body lo hi base entry next}
      (hleave : states[lo]? = some (.fork (some next) entry))
      (hbody : Fragment env states flags body (lo + 1) hi base entry lo) :
      Fragment env states flags (.plus body) lo hi base entry next
  | exactly {flags n body form lo hi base entry next}
      (hform : Sre.ofForm (Sre.sreExpandReps n (some n) body) = .ok form)
      (h : Fragment env states flags form lo hi base entry next) :
      Fragment env states flags (.exactly n body) lo hi base entry next
  | atLeast {flags n body form lo hi base entry next}
      (hform : Sre.ofForm (Sre.sreExpandReps n none body) = .ok form)
      (h : Fragment env states flags form lo hi base entry next) :
      Fragment env states flags (.atLeast n body) lo hi base entry next
  | repeated {flags greedy n l body form lo hi base entry next}
      (hform : Sre.ofForm (Sre.sreExpandReps n (some l) body) = .ok form)
      (h : Fragment env states flags form lo hi base entry next) :
      Fragment env states flags (.repeated greedy n l body) lo hi base entry next
  | submatch {flags body lo hi base entry next} (hcapture : flags.nocapture = false)
      (hend : states[lo]? = some (.ofEnd body.nonGreedySre base next))
      (hbody : Fragment env states flags body (lo + 1) hi (base + 2) entry lo)
      (hstart : states[hi]? = some (.ofStart base entry)) :
      Fragment env states flags (.submatch body) lo (hi + 1) base (some hi) next
  | noSubmatch {flags body lo hi base entry next} (hcapture : flags.nocapture = true)
      (h : Fragment env states flags body lo hi base entry next) :
      Fragment env states flags (.submatch body) lo hi base entry next
  | named {flags name body lo hi base entry next}
      (h : Fragment env states flags (.submatch body) lo hi base entry next) :
      Fragment env states flags (.named name body) lo hi base entry next
  | withFlags {flags change body lo hi base entry next}
      (h : Fragment env states (change.apply flags) body lo hi base entry next) :
      Fragment env states flags (.withFlags change body) lo hi base entry next

/-- A state about to be entered, at a position and with the positions recorded before -/
structure Config where
  state : ℕ
  pos : ℕ
  found : Matches

/-- An edge to the state `q`. -/
def State.Leads (st : State) (q : ℕ) : Prop := st.next1 = some q ∨ st.next2 = some q

/-- A searcher goes on from one configuration to the other. -/
inductive Step (states : List State) (range : Range) : Config → Config → Prop
  | between {q i m q' st} (hstate : states[q]? = some st) (haccept : st.accept = false)
      (hepsilon : st.isEpsilon = true) (hpasses : st.passes range i = true)
      (hleads : st.Leads q') : Step states range ⟨q, i, m⟩ ⟨q', i, st.record i m⟩
  | char {q i m q' st ch} (hstate : states[q]? = some st) (haccept : st.accept = false)
      (hepsilon : st.isEpsilon = false) (hbefore : i < range.stop)
      (hchar : range.str[i]? = some ch) (htakes : st.takes ch = true) (hnext : st.next1 = some q') :
      Step states range ⟨q, i, m⟩ ⟨q', i + 1, st.record i m⟩

/-- Steps of the automaton. -/
def Path (states : List State) (range : Range) : Config → Config → Prop :=
  Relation.ReflTransGen (Step states range)

/-- A path that leaves only states from the place `lo` up to `hi` -/
def PathIn (states : List State) (range : Range) (lo hi : ℕ) : Config → Config → Prop :=
  Relation.ReflTransGen fun c c' => lo ≤ c.state ∧ c.state < hi ∧ Step states range c c'

variable {env : Env} {states : List State} {range : Range} {flags : Flags} {sre : Sre}
  {lo hi base next : ℕ} {entry : Option ℕ}

/-! ## The shape of a fragment -/

theorem Fragment.lo_le (h : Fragment env states flags sre lo hi base entry next) : lo ≤ hi := by
  induction h <;> omega

/-- The place lies in the fragment or is the next one. -/
def Inside (lo hi next q : ℕ) : Prop := (lo ≤ q ∧ q < hi) ∨ q = next

/-- The state at the place does not accept, and leads to states of the fragment or the next one. -/
def StateInside (states : List State) (lo hi next q : ℕ) : Prop :=
  ∃ st, states[q]? = some st ∧ st.accept = false ∧ ∀ q', st.Leads q' → Inside lo hi next q'

/-- Every state of the fragment leads only to states of it or to the next one. -/
def Encloses (states : List State) (lo hi next : ℕ) : Prop :=
  ∀ q, lo ≤ q → q < hi → StateInside states lo hi next q

variable {lo' hi' next' q : ℕ}

theorem Inside.widen (h : Inside lo' hi' next' q) (hlo : lo ≤ lo') (hhi : hi' ≤ hi)
    (hnext : Inside lo hi next next') : Inside lo hi next q := by
  rcases h with h | rfl
  · exact Or.inl (by omega)
  · exact hnext

theorem Encloses.widen (h : Encloses states lo' hi' next') (hq : lo' ≤ q) (hq' : q < hi')
    (hlo : lo ≤ lo') (hhi : hi' ≤ hi) (hnext : Inside lo hi next next') :
    StateInside states lo hi next q := by
  obtain ⟨st, hst, haccept, hleads⟩ := h q hq hq'
  exact ⟨st, hst, haccept, fun q' h => (hleads q' h).widen hlo hhi hnext⟩

theorem stateInside_fork {next1 next2 : Option ℕ} (h : states[q]? = some (.fork next1 next2))
    (h_1 : ∀ e, next1 = some e → Inside lo hi next e)
    (h_2 : ∀ e, next2 = some e → Inside lo hi next e) : StateInside states lo hi next q :=
  ⟨_, h, rfl, fun q' hleads => hleads.elim (h_1 q') (h_2 q')⟩

theorem encloses_chars {chars : Matcher} (h : states[lo]? = some (.ofChars chars next)) :
    Encloses states lo (lo + 1) next := by
  intro q hlo hhi
  obtain rfl : q = lo := by omega
  refine ⟨_, h, rfl, fun q' hleads => ?_⟩
  rcases hleads with hleads | hleads
  · cases hleads
    exact Or.inr rfl
  · cases hleads

theorem inside_lo (h : lo < hi) : Inside lo hi next lo := Or.inl ⟨Nat.le_refl lo, h⟩

theorem inside_next : Inside lo hi next next := Or.inr rfl

variable {c : Config}

theorem Fragment.encloses (h : Fragment env states flags sre lo hi base entry next) :
    Encloses states lo hi next ∧ ∀ e, entry = some e → Inside lo hi next e := by
  induction h with
  | chars h => exact ⟨encloses_chars h, fun e he => by cases he; exact inside_lo (Nat.lt_succ_self _)⟩
  | string _ ih => exact ih
  | epsilon => exact ⟨fun q hlo hhi => absurd hhi (by omega), fun e he => by cases he; exact inside_next⟩
  | assertion h =>
    exact ⟨encloses_chars h, fun e he => by cases he; exact inside_lo (Nat.lt_succ_self _)⟩
  | look h _ =>
    exact ⟨encloses_chars h, fun e he => by cases he; exact inside_lo (Nat.lt_succ_self _)⟩
  | nil => exact ⟨fun q hlo hhi => absurd hhi (by omega), fun e he => by cases he; exact inside_next⟩
  | @seq flags first rest lo mid hi base entry entry' next hjoin hfirst hrest ih_first ih_rest =>
    have hle := hfirst.lo_le
    have hle' := hrest.lo_le
    have hlo : Inside lo hi next lo := inside_lo (by omega)
    refine ⟨fun q hq hq' => ?_, fun e he => ?_⟩
    · rcases Nat.lt_trichotomy q lo with h | rfl | h
      · omega
      · refine stateInside_fork hjoin (fun e he => ?_) (fun e he => by cases he)
        exact (ih_rest.2 e he).widen (by omega) (Nat.le_refl _) inside_next
      · rcases Nat.lt_or_ge q mid with hmid | hmid
        · exact ih_first.1.widen (by omega) hmid (by omega) (by omega) hlo
        · exact ih_rest.1.widen hmid hq' (by omega) (Nat.le_refl _) inside_next
    · exact (ih_first.2 e he).widen (by omega) (by omega) hlo
  | fail => exact ⟨fun q hlo hhi => absurd hhi (by omega), fun e he => by cases he⟩
  | altSet _ _ h =>
    exact ⟨encloses_chars h, fun e he => by cases he; exact inside_lo (Nat.lt_succ_self _)⟩
  | altOne _ _ ih => exact ih
  | @alt flags first rest lo mid hi base entry entry' next _ hfirst hrest hfork ih_first ih_rest =>
    have hle := hfirst.lo_le
    have hle' := hrest.lo_le
    refine ⟨fun q hq hq' => ?_, fun e he => by cases he; exact Or.inl (by omega)⟩
    rcases Nat.lt_or_ge q mid with hmid | hmid
    · exact ih_first.1.widen hq hmid (Nat.le_refl _) (by omega) inside_next
    rcases Nat.lt_or_ge q hi with hhi | hhi
    · exact ih_rest.1.widen hmid hhi (by omega) (by omega) inside_next
    · obtain rfl : q = hi := by omega
      refine stateInside_fork hfork (fun e he => ?_) (fun e he => ?_)
      · exact (ih_first.2 e he).widen (Nat.le_refl _) (by omega) inside_next
      · exact (ih_rest.2 e he).widen (by omega) (by omega) inside_next
  | @optional flags greedy body lo hi base entry next hbody hfork ih =>
    have hle := hbody.lo_le
    refine ⟨fun q hq hq' => ?_, fun e he => by cases he; exact Or.inl (by omega)⟩
    rcases Nat.lt_or_ge q hi with hhi | hhi
    · exact ih.1.widen hq hhi (Nat.le_refl _) (by omega) inside_next
    · obtain rfl : q = hi := by omega
      refine stateInside_fork hfork (fun e he => ?_) (fun e he => by cases he; exact inside_next)
      exact (ih.2 e he).widen (Nat.le_refl _) (by omega) inside_next
  | @star flags greedy body lo hi base entry next hleave hbody henter ih =>
    have hle := hbody.lo_le
    have hlo : Inside lo (hi + 1) next lo := inside_lo (by omega)
    refine ⟨fun q hq hq' => ?_, fun e he => by cases he; exact Or.inl (by omega)⟩
    rcases Nat.eq_or_lt_of_le hq with rfl | hq
    · exact stateInside_fork hleave (fun e he => by cases he; exact inside_next)
        (fun e he => by cases he; exact Or.inl (by omega))
    · rcases Nat.lt_or_ge q hi with hhi | hhi
      · exact ih.1.widen hq hhi (by omega) (by omega) hlo
      · obtain rfl : q = hi := by omega
        refine stateInside_fork henter (fun e he => ?_) (fun e he => by cases he; exact hlo)
        exact (ih.2 e he).widen (by omega) (by omega) hlo
  | @plus flags body lo hi base entry next hleave hbody ih =>
    have hle := hbody.lo_le
    have hlo : Inside lo hi next lo := inside_lo (by omega)
    have hentry : ∀ e, entry = some e → Inside lo hi next e := fun e he =>
      (ih.2 e he).widen (by omega) (Nat.le_refl _) hlo
    refine ⟨fun q hq hq' => ?_, hentry⟩
    rcases Nat.eq_or_lt_of_le hq with rfl | hq
    · exact stateInside_fork hleave (fun e he => by cases he; exact inside_next) hentry
    · exact ih.1.widen hq hq' (by omega) (Nat.le_refl _) hlo
  | exactly _ _ ih => exact ih
  | atLeast _ _ ih => exact ih
  | repeated _ _ ih => exact ih
  | @submatch flags body lo hi base entry next _ hend hbody hstart ih =>
    have hle := hbody.lo_le
    have hlo : Inside lo (hi + 1) next lo := inside_lo (by omega)
    refine ⟨fun q hq hq' => ?_, fun e he => by cases he; exact Or.inl (by omega)⟩
    rcases Nat.eq_or_lt_of_le hq with rfl | hq
    · refine ⟨_, hend, rfl, fun q' hleads => ?_⟩
      rcases hleads with hleads | hleads
      · cases hleads
        exact inside_next
      · cases hleads
    · rcases Nat.lt_or_ge q hi with hhi | hhi
      · exact ih.1.widen hq hhi (by omega) (by omega) hlo
      · obtain rfl : q = hi := by omega
        refine ⟨_, hstart, rfl, fun q' hleads => ?_⟩
        rcases hleads with hleads | hleads
        · exact (ih.2 q' hleads).widen (by omega) (by omega) hlo
        · cases hleads
  | noSubmatch _ _ ih => exact ih
  | named _ ih => exact ih
  | withFlags _ ih => exact ih

/-! ## Paths through a fragment -/

theorem Encloses.step {c₁ : Config} (h : Encloses states lo hi next) (hlo : lo ≤ c.state)
    (hhi : c.state < hi) (hstep : Step states range c c₁) : Inside lo hi next c₁.state := by
  obtain ⟨st, hst, -, hleads⟩ := h c.state hlo hhi
  cases hstep with
  | between hstate _ _ _ hlead =>
    rw [hst] at hstate
    cases hstate
    exact hleads _ hlead
  | char hstate _ _ _ _ _ hnext =>
    rw [hst] at hstate
    cases hstate
    exact hleads _ (Or.inl hnext)

variable {c' : Config}

theorem PathIn.leave (h : PathIn states range lo hi c c')
    (hencloses : Encloses states lo' hi' next') (hc : Inside lo' hi' next' c.state)
    (hc' : ¬ (lo' ≤ c'.state ∧ c'.state < hi')) :
    ∃ i m, PathIn states range lo' hi' c ⟨next', i, m⟩ ∧
      PathIn states range lo hi ⟨next', i, m⟩ c' := by
  induction h using Relation.ReflTransGen.head_induction_on with
  | refl =>
    rcases hc with hin | hnext
    · exact absurd hin hc'
    · obtain ⟨q, i, m⟩ := c'
      cases hnext
      exact ⟨i, m, Relation.ReflTransGen.refl, Relation.ReflTransGen.refl⟩
  | @head c c₁ hstep hrest ih =>
    by_cases hin : lo' ≤ c.state ∧ c.state < hi'
    · obtain ⟨hlo, hhi, hstep'⟩ := hstep
      obtain ⟨i, m, hpart, hwhole⟩ := ih (hencloses.step hin.1 hin.2 hstep')
      exact ⟨i, m, Relation.ReflTransGen.head ⟨hin.1, hin.2, hstep'⟩ hpart, hwhole⟩
    · rcases hc with hc | hnext
      · exact absurd hc hin
      · obtain ⟨q, i, m⟩ := c
        cases hnext
        exact ⟨i, m, Relation.ReflTransGen.refl, Relation.ReflTransGen.head hstep hrest⟩

theorem PathIn.eq_of_outside (h : PathIn states range lo hi c c')
    (hc : ¬ (lo ≤ c.state ∧ c.state < hi)) : c' = c := by
  rcases Relation.ReflTransGen.cases_head h with heq | ⟨c₁, hstep, -⟩
  · exact heq.symm
  · exact absurd ⟨hstep.1, hstep.2.1⟩ hc

theorem PathIn.eq_of_next {i : ℕ} {m : Matches} (hnext : next < lo)
    (h : PathIn states range lo hi ⟨next, i, m⟩ c') : c' = ⟨next, i, m⟩ :=
  h.eq_of_outside fun hin => absurd hin.1 (Nat.not_le.mpr hnext)

theorem PathIn.exists_step (h : PathIn states range lo hi c c') (hne : c.state ≠ c'.state) :
    ∃ c₁, Step states range c c₁ ∧ PathIn states range lo hi c₁ c' := by
  rcases Relation.ReflTransGen.cases_head h with heq | ⟨c₁, hstep, hrest⟩
  · exact absurd (congrArg Config.state heq) hne
  · exact ⟨c₁, hstep.2.2, hrest⟩

section Steps

variable {q i : ℕ} {m : Matches} {c : Config} {st : State}

theorem Step.inv (hst : states[q]? = some st) (h : Step states range ⟨q, i, m⟩ c) :
    (st.isEpsilon = true ∧ st.passes range i = true ∧
      ∃ q', st.Leads q' ∧ c = ⟨q', i, st.record i m⟩) ∨
    (st.isEpsilon = false ∧ i < range.stop ∧ ∃ ch q', range.str[i]? = some ch ∧
      st.takes ch = true ∧ st.next1 = some q' ∧ c = ⟨q', i + 1, st.record i m⟩) := by
  cases h with
  | between hstate haccept hepsilon hpasses hleads =>
    rw [hst] at hstate
    cases hstate
    exact Or.inl ⟨hepsilon, hpasses, _, hleads, rfl⟩
  | char hstate haccept hepsilon hbefore hchar htakes hnext =>
    rw [hst] at hstate
    cases hstate
    exact Or.inr ⟨hepsilon, hbefore, _, _, hchar, htakes, hnext, rfl⟩

theorem Step.inv_set {cs : CharSet} (hst : states[q]? = some (.ofChars (.set cs) next))
    (h : Step states range ⟨q, i, m⟩ c) : Takes range cs i ∧ c = ⟨next, i + 1, m⟩ := by
  rcases h.inv hst with ⟨hepsilon, -⟩ | ⟨-, hbefore, ch, q', hchar, htakes, hnext, hc⟩
  · cases hepsilon
  · cases hnext
    exact ⟨⟨hbefore, ch, hchar, htakes⟩, hc⟩

theorem Step.inv_guard {g : Guard} (hst : states[q]? = some (.ofChars (.guard g) next))
    (h : Step states range ⟨q, i, m⟩ c) :
    g range.str i range.start range.stop = true ∧ c = ⟨next, i, m⟩ := by
  rcases h.inv hst with ⟨-, hpasses, q', hleads, hc⟩ | ⟨hepsilon, -⟩
  · rcases hleads with hleads | hleads
    · cases hleads
      exact ⟨hpasses, hc⟩
    · cases hleads
  · cases hepsilon

variable {next1 : Option ℕ}

theorem Step.inv_fork {next2 : Option ℕ} (hst : states[q]? = some (.fork next1 next2))
    (h : Step states range ⟨q, i, m⟩ c) :
    ∃ q', (next1 = some q' ∨ next2 = some q') ∧ c = ⟨q', i, m⟩ := by
  rcases h.inv hst with ⟨-, -, q', hleads, hc⟩ | ⟨hepsilon, -⟩
  · exact ⟨q', hleads, hc⟩
  · cases hepsilon

theorem Step.inv_ofEpsilon (hst : states[q]? = some (.ofEpsilon next1))
    (h : Step states range ⟨q, i, m⟩ c) : ∃ q', next1 = some q' ∧ c = ⟨q', i, m⟩ := by
  obtain ⟨q', hleads, hc⟩ := h.inv_fork hst
  rcases hleads with hleads | hleads
  · exact ⟨q', hleads, hc⟩
  · cases hleads

theorem Step.inv_ofStart (hst : states[q]? = some (.ofStart base next1))
    (h : Step states range ⟨q, i, m⟩ c) :
    ∃ q', next1 = some q' ∧ c = ⟨q', i, m.set base (some i)⟩ := by
  rcases h.inv hst with ⟨-, -, q', hleads, hc⟩ | ⟨hepsilon, -⟩
  · rcases hleads with hleads | hleads
    · exact ⟨q', hleads, hc⟩
    · cases hleads
  · cases hepsilon

theorem Step.inv_ofEnd {nonGreedy : Bool} (hst : states[q]? = some (.ofEnd nonGreedy base next))
    (h : Step states range ⟨q, i, m⟩ c) :
    c = ⟨next, i, (State.ofEnd nonGreedy base 0).record i m⟩ := by
  rcases h.inv hst with ⟨-, -, q', hleads, hc⟩ | ⟨hepsilon, -⟩
  · rcases hleads with hleads | hleads
    · cases hleads
      exact hc
    · cases hleads
  · cases hepsilon

theorem Step.pos {c' : Config} (h : Step states range c c') :
    c.pos ≤ c'.pos ∧ (c.pos ≤ range.stop → c'.pos ≤ range.stop) := by
  cases h with
  | between => exact ⟨Nat.le_refl _, id⟩
  | char _ _ _ hbefore => exact ⟨Nat.le_succ _, fun _ => hbefore⟩

theorem PathIn.pos {c' : Config} (h : PathIn states range lo hi c c') :
    c.pos ≤ c'.pos ∧ (c.pos ≤ range.stop → c'.pos ≤ range.stop) := by
  induction h with
  | refl => exact ⟨Nat.le_refl _, id⟩
  | tail _ hstep ih =>
    have hpos := hstep.2.2.pos
    exact ⟨Nat.le_trans ih.1 hpos.1, fun h => hpos.2 (ih.2 h)⟩

theorem PathIn.single {j : ℕ} {m' : Matches} (h : PathIn states range lo (lo + 1) ⟨lo, i, m⟩ ⟨next, j, m'⟩)
    (hnext : next < lo) (hstep : ∀ c, Step states range ⟨lo, i, m⟩ c → c.state = next) :
    Step states range ⟨lo, i, m⟩ ⟨next, j, m'⟩ := by
  obtain ⟨c₁, hfirst, hrest⟩ := h.exists_step (by simp only; omega)
  have hstate := hstep c₁ hfirst
  have heq := hrest.eq_of_outside (by omega)
  rwa [heq]

end Steps

/-! ## A path records a match -/

section Sound

variable {e i j : ℕ} {m m' : Matches} {body : Sre}

theorem PathIn.last {lo' hi' : ℕ} (h : PathIn states range lo hi ⟨e, i, m⟩ ⟨next, j, m'⟩)
    (hnext : next < lo) (hencloses : Encloses states lo' hi' next) (he : Inside lo' hi' next e)
    (hlo : lo ≤ lo') : PathIn states range lo' hi' ⟨e, i, m⟩ ⟨next, j, m'⟩ := by
  obtain ⟨k, m₁, hpart, hrest⟩ := h.leave hencloses he (by simp only; omega)
  cases hrest.eq_of_next hnext
  exact hpart

/-- What paths through the body of a loop record -/
def BodySound (env : Env) (states : List State) (range : Range) (flags : Flags) (body : Sre)
    (lo hi base : ℕ) (entry : Option ℕ) (next : ℕ) : Prop :=
  ∀ e i m j m', entry = some e → range.start ≤ i → i ≤ range.stop →
    PathIn states range lo hi ⟨e, i, m⟩ ⟨next, j, m'⟩ → Recorded env range flags body base i m j m'

/-- Once around the loop, or out of it: the induction is on the path from its end. -/
theorem star_sound {greedy : Bool} {c : Config} (hnext : next < lo) (hle : lo < hi)
    (hleave : states[lo]? = some (.fork (some next) (some hi)))
    (henter : states[hi]? = some (.fork entry (some lo)))
    (hencloses : Encloses states (lo + 1) hi lo)
    (hentry : ∀ e, entry = some e → Inside (lo + 1) hi lo e)
    (hbody : BodySound env states range flags body (lo + 1) hi base entry lo)
    (h : PathIn states range lo (hi + 1) c ⟨next, j, m'⟩) :
    range.start ≤ c.pos → c.pos ≤ range.stop →
    (c.state = lo ∨ c.state = hi →
      Recorded env range flags (.star greedy body) base c.pos c.found j m') ∧
    (lo + 1 ≤ c.state → c.state < hi → ∃ k m₁, PathIn states range (lo + 1) hi c ⟨lo, k, m₁⟩ ∧
      Recorded env range flags (.star greedy body) base k m₁ j m') := by
  induction h using Relation.ReflTransGen.head_induction_on with
  | refl => exact fun _ _ => ⟨fun h => by simp only at h; omega, fun h => by simp only at h; omega⟩
  | @head c c₁ hstep hrest ih =>
    intro hstart hstop
    have hpos := hstep.2.2.pos
    obtain ⟨ih_loop, ih_body⟩ := ih (Nat.le_trans hstart hpos.1) (hpos.2 hstop)
    obtain ⟨q, i, m⟩ := c
    constructor
    · rintro (hq | hq)
      · cases hq
        obtain ⟨q', hq', rfl⟩ := hstep.2.2.inv_fork hleave
        rcases hq' with hq' | hq'
        · -- out of the loop
          cases hq'
          cases PathIn.eq_of_next hnext hrest
          exact Recorded.starNil
        · cases hq'
          exact ih_loop (Or.inr rfl)
      · cases hq
        obtain ⟨q', hq', rfl⟩ := hstep.2.2.inv_fork henter
        rcases hq' with hq' | hq'
        · rcases hentry q' hq' with hin | rfl
          · obtain ⟨k, m₁, honce, hagain⟩ := ih_body hin.1 hin.2
            exact Recorded.starStep (hbody _ _ _ _ _ hq' hstart hstop honce) hagain
          · exact ih_loop (Or.inl rfl)
        · cases hq'
          exact ih_loop (Or.inl rfl)
    · intro hlo hhi
      rcases hencloses.step hlo hhi hstep.2.2 with hin | hout
      · obtain ⟨k, m₁, honce, hagain⟩ := ih_body hin.1 hin.2
        exact ⟨k, m₁, Relation.ReflTransGen.head ⟨hlo, hhi, hstep.2.2⟩ honce, hagain⟩
      · obtain ⟨q₁, k, m₁⟩ := c₁
        cases hout
        exact ⟨k, m₁, Relation.ReflTransGen.single ⟨hlo, hhi, hstep.2.2⟩, ih_loop (Or.inl rfl)⟩

/-- By induction on the way: from the fork it leaves the loop or goes through the body again. -/
theorem plus_sound {c : Config} (hnext : next < lo)
    (hleave : states[lo]? = some (.fork (some next) entry))
    (hencloses : Encloses states (lo + 1) hi lo)
    (hentry : ∀ e, entry = some e → Inside (lo + 1) hi lo e)
    (hbody : BodySound env states range flags body (lo + 1) hi base entry lo)
    (h : PathIn states range lo hi c ⟨next, j, m'⟩) :
    range.start ≤ c.pos → c.pos ≤ range.stop →
    (c.state = lo → (j = c.pos ∧ m' = c.found) ∨
      Recorded env range flags (.plus body) base c.pos c.found j m') ∧
    (lo + 1 ≤ c.state → c.state < hi → ∃ k m₁, PathIn states range (lo + 1) hi c ⟨lo, k, m₁⟩ ∧
      ((j = k ∧ m' = m₁) ∨ Recorded env range flags (.plus body) base k m₁ j m')) := by
  induction h using Relation.ReflTransGen.head_induction_on with
  | refl => exact fun _ _ => ⟨fun h => by simp only at h; omega, fun h => by simp only at h; omega⟩
  | @head c c₁ hstep hrest ih =>
    intro hstart hstop
    have hpos := hstep.2.2.pos
    obtain ⟨ih_loop, ih_body⟩ := ih (Nat.le_trans hstart hpos.1) (hpos.2 hstop)
    obtain ⟨q, i, m⟩ := c
    constructor
    · intro hq
      cases hq
      obtain ⟨q', hq', rfl⟩ := hstep.2.2.inv_fork hleave
      rcases hq' with hq' | hq'
      · cases hq'
        cases PathIn.eq_of_next hnext hrest
        exact Or.inl ⟨rfl, rfl⟩
      · rcases hentry q' hq' with hin | rfl
        · obtain ⟨k, m₁, honce, hagain⟩ := ih_body hin.1 hin.2
          have hrecorded := hbody _ _ _ _ _ hq' hstart hstop honce
          rcases hagain with ⟨rfl, rfl⟩ | hagain
          · exact Or.inr (Recorded.plusOne hrecorded)
          · exact Or.inr (Recorded.plusStep hrecorded hagain)
        · exact ih_loop rfl
    · intro hlo hhi
      rcases hencloses.step hlo hhi hstep.2.2 with hin | hout
      · obtain ⟨k, m₁, honce, hagain⟩ := ih_body hin.1 hin.2
        exact ⟨k, m₁, Relation.ReflTransGen.head ⟨hlo, hhi, hstep.2.2⟩ honce, hagain⟩
      · obtain ⟨q₁, k, m₁⟩ := c₁
        cases hout
        exact ⟨k, m₁, Relation.ReflTransGen.single ⟨hlo, hhi, hstep.2.2⟩, ih_loop rfl⟩

/-- A way through the fragment spans a part that matches. -/
theorem Fragment.sound (hrange : range.Valid)
    (h : Fragment env states flags sre lo hi base entry next) (hnext : next < lo) :
    BodySound env states range flags sre lo hi base entry next := by
  induction h with
  | chars h =>
    intro e i m j m' he _ _ hpath
    cases he
    obtain ⟨htakes, hc⟩ :=
      (hpath.single hnext fun c hstep => by rw [(hstep.inv_set h).2]).inv_set h
    cases hc
    exact Recorded.chars htakes
  | string _ ih => exact fun e i m j m' he hindex hi' h => Recorded.string (ih hnext e i m j m' he hindex hi' h)
  | epsilon =>
    intro e i m j m' he _ _ hpath
    cases he
    cases hpath.eq_of_next hnext
    exact Recorded.epsilon
  | assertion h =>
    intro e i m j m' he _ _ hpath
    cases he
    obtain ⟨hguard, hc⟩ :=
      (hpath.single hnext fun c hstep => by rw [(hstep.inv_guard h).2]).inv_guard h
    cases hc
    exact Recorded.assertion hguard
  | look h hlook =>
    intro e i m j m' he hindex hi' hpath
    cases he
    obtain ⟨hguard, hc⟩ :=
      (hpath.single hnext fun c hstep => by rw [(hstep.inv_guard h).2]).inv_guard h
    cases hc
    exact Recorded.look ((hlook range hrange i hindex hi').mp hguard)
  | nil =>
    intro e i m j m' he _ _ hpath
    cases he
    cases hpath.eq_of_next hnext
    exact Recorded.nil
  | @seq flags first rest lo mid hi base entry entry' next hjoin hfirst hrest ih_first ih_rest =>
    intro e i m j m' he hindex hi' hpath
    -- the path leaves the first part through the joining state
    have hle := hfirst.lo_le
    obtain ⟨k, m₁, hpart, hthen⟩ :=
      hpath.leave hfirst.encloses.1 (hfirst.encloses.2 e he) (by simp only; omega)
    obtain ⟨c, hstep, hthen⟩ := hthen.exists_step (by simp only; omega)
    obtain ⟨e', he', rfl⟩ := hstep.inv_ofEpsilon hjoin
    have hlast := hthen.last hnext hrest.encloses.1 (hrest.encloses.2 e' he') (by omega)
    have hpos := hpart.pos
    exact Recorded.seq (ih_first (Nat.lt_succ_self lo) e i m k m₁ he hindex hi' hpart)
      (ih_rest (by omega) e' k m₁ j m' he' (Nat.le_trans hindex hpos.1) (hpos.2 hi') hlast)
  | fail =>
    intro e i m j m' he
    cases he
  | altSet hset hcs h =>
    intro e i m j m' he _ _ hpath
    cases he
    obtain ⟨htakes, hc⟩ :=
      (hpath.single hnext fun c hstep => by rw [(hstep.inv_set h).2]).inv_set h
    cases hc
    exact Recorded.altSet hset hcs htakes
  | altOne hset _ ih =>
    exact fun e i m j m' he hindex hi' h => Recorded.altFirst hset (ih hnext e i m j m' he hindex hi' h)
  | @alt flags first rest lo mid hi base entry entry' next hset hfirst hrest hfork ih_first ih_rest =>
    intro e i m j m' he hindex hi' hpath
    have hle := hfirst.lo_le
    have hle' := hrest.lo_le
    cases he
    obtain ⟨c, hstep, hthen⟩ := hpath.exists_step (by simp only; omega)
    obtain ⟨e, he, rfl⟩ := hstep.inv_fork hfork
    -- the fork has gone into one of the two parts
    rcases he with he | he
    · have hlast := hthen.last hnext hfirst.encloses.1 (hfirst.encloses.2 e he) (Nat.le_refl _)
      exact Recorded.altFirst hset (ih_first hnext e i m j m' he hindex hi' hlast)
    · have hlast := hthen.last hnext hrest.encloses.1 (hrest.encloses.2 e he) hle
      exact Recorded.altRest hset (ih_rest (by omega) e i m j m' he hindex hi' hlast)
  | @optional flags greedy body lo hi base entry next hbody hfork ih =>
    intro e i m j m' he hindex hi' hpath
    have hle := hbody.lo_le
    cases he
    obtain ⟨c, hstep, hthen⟩ := hpath.exists_step (by simp only; omega)
    obtain ⟨e, he, rfl⟩ := hstep.inv_fork hfork
    rcases he with he | he
    · have hlast := hthen.last hnext hbody.encloses.1 (hbody.encloses.2 e he) (Nat.le_refl _)
      exact Recorded.optionalBody (ih hnext e i m j m' he hindex hi' hlast)
    · cases he
      cases hthen.eq_of_next hnext
      exact Recorded.optionalNil
  | @star flags greedy body lo hi base entry next hleave hbody henter ih =>
    intro e i m j m' he hindex hi' hpath
    cases he
    exact (star_sound hnext hbody.lo_le hleave henter hbody.encloses.1 hbody.encloses.2
      (ih (Nat.lt_succ_self lo)) hpath hindex hi').1 (Or.inr rfl)
  | @plus flags body lo hi base entry next hleave hbody ih =>
    intro e i m j m' he hindex hi' hpath
    have hsound := ih (Nat.lt_succ_self lo)
    obtain ⟨hloop, hinside⟩ := plus_sound hnext hleave hbody.encloses.1 hbody.encloses.2
      hsound hpath hindex hi'
    rcases hbody.encloses.2 e he with hin | rfl
    · obtain ⟨k, m₁, honce, hagain⟩ := hinside hin.1 hin.2
      have hrecorded := hsound e i m k m₁ he hindex hi' honce
      rcases hagain with ⟨rfl, rfl⟩ | hagain
      · exact Recorded.plusOne hrecorded
      · exact Recorded.plusStep hrecorded hagain
    · rcases hloop rfl with ⟨rfl, rfl⟩ | hrecorded
      · exact Recorded.plusOne (hsound _ _ _ _ _ he hindex hi' Relation.ReflTransGen.refl)
      · exact hrecorded
  | exactly hform _ ih =>
    exact fun e i m j m' he hindex hi' h =>
      Recorded.exactly hform (ih hnext e i m j m' he hindex hi' h)
  | atLeast hform _ ih =>
    exact fun e i m j m' he hindex hi' h =>
      Recorded.atLeast hform (ih hnext e i m j m' he hindex hi' h)
  | repeated hform _ ih =>
    exact fun e i m j m' he hindex hi' h =>
      Recorded.repeated hform (ih hnext e i m j m' he hindex hi' h)
  | @submatch flags body lo hi base entry next hcapture hend hbody hstart ih =>
    intro e i m j m' he hindex hi' hpath
    have hle := hbody.lo_le
    cases he
    obtain ⟨c, hstep, hthen⟩ := hpath.exists_step (by simp only; omega)
    obtain ⟨e, he, rfl⟩ := hstep.inv_ofStart hstart
    obtain ⟨k, m₁, hpart, hthen⟩ :=
      hthen.leave hbody.encloses.1 (hbody.encloses.2 e he) (by simp only; omega)
    obtain ⟨c, hstep, hthen⟩ := hthen.exists_step (by simp only; omega)
    cases hstep.inv_ofEnd hend
    cases hthen.eq_of_next hnext
    exact Recorded.submatch hcapture (ih (Nat.lt_succ_self lo) e i _ _ _ he hindex hi' hpart)
  | noSubmatch hcapture _ ih =>
    exact fun e i m j m' he hindex hi' h =>
      Recorded.noSubmatch hcapture (ih hnext e i m j m' he hindex hi' h)
  | named _ ih =>
    exact fun e i m j m' he hindex hi' h => Recorded.named (ih hnext e i m j m' he hindex hi' h)
  | withFlags _ ih =>
    exact fun e i m j m' he hindex hi' h => Recorded.withFlags (ih hnext e i m j m' he hindex hi' h)

end Sound

/-! ## Every match has a path -/

section Complete

variable {e i j : ℕ} {m m' : Matches}

/-- From the entry of the fragment a path leads to the next state, whatever was recorded before. -/
def Leads (states : List State) (range : Range) (entry : Option ℕ) (next i j : ℕ) : Prop :=
  ∀ m, ∃ e m', entry = some e ∧ Path states range ⟨e, i, m⟩ ⟨next, j, m'⟩

theorem Step.of_set {cs : CharSet} (h : states[e]? = some (.ofChars (.set cs) next))
    (htakes : Takes range cs i) : Step states range ⟨e, i, m⟩ ⟨next, i + 1, m⟩ := by
  obtain ⟨hbefore, ch, hchar, hcs⟩ := htakes
  exact Step.char h rfl rfl hbefore hchar hcs rfl

theorem Step.of_guard {g : Guard} (h : states[e]? = some (.ofChars (.guard g) next))
    (hguard : g range.str i range.start range.stop = true) :
    Step states range ⟨e, i, m⟩ ⟨next, i, m⟩ :=
  Step.between h rfl rfl hguard (Or.inl rfl)

theorem Step.of_fork {next1 next2 : Option ℕ} (h : states[e]? = some (.fork next1 next2)) {q : ℕ}
    (hq : next1 = some q ∨ next2 = some q) : Step states range ⟨e, i, m⟩ ⟨q, i, m⟩ :=
  Step.between h rfl rfl rfl hq

theorem Step.of_start (h : states[e]? = some (.ofStart base entry)) {q : ℕ} (hq : entry = some q) :
    Step states range ⟨e, i, m⟩ ⟨q, i, m.set base (some i)⟩ :=
  Step.between h rfl rfl rfl (Or.inl hq)

theorem Step.of_end {nonGreedy : Bool} (h : states[e]? = some (.ofEnd nonGreedy base next)) :
    Step states range ⟨e, i, m⟩ ⟨next, i, (State.ofEnd nonGreedy base next).record i m⟩ :=
  Step.between h rfl rfl rfl (Or.inl rfl)

theorem leads_of_step (h : ∀ m, Step states range ⟨e, i, m⟩ ⟨next, j, m⟩) :
    Leads states range (some e) next i j :=
  fun m => ⟨e, m, rfl, Relation.ReflTransGen.single (h m)⟩

/-- By induction on the rounds. -/
theorem star_complete {r : ℕ → ℕ → Prop}
    (hleave : states[lo]? = some (.fork (some next) (some hi)))
    (henter : states[hi]? = some (.fork entry (some lo)))
    (hbody : ∀ i j, r i j → i ≤ range.stop → range.start ≤ i → Leads states range entry lo i j)
    (hpos : ∀ i j, r i j → i ≤ j ∧ (i ≤ range.stop → j ≤ range.stop))
    (h : Relation.ReflTransGen r i j) (hindex : range.start ≤ i) (hi' : i ≤ range.stop) (m : Matches) :
    ∃ m', Path states range ⟨hi, i, m⟩ ⟨next, j, m'⟩ := by
  induction h using Relation.ReflTransGen.head_induction_on generalizing m with
  | refl =>
    refine ⟨m, Relation.ReflTransGen.head (Step.of_fork henter (Or.inr rfl)) ?_⟩
    exact Relation.ReflTransGen.single (Step.of_fork hleave (Or.inl rfl))
  | @head i k honce _ ih =>
    obtain ⟨e, m₁, he, hpath⟩ := hbody i k honce hi' hindex m
    have hk := hpos i k honce
    obtain ⟨m', hrest⟩ := ih (Nat.le_trans hindex hk.1) (hk.2 hi') m₁
    refine ⟨m', Relation.ReflTransGen.head (Step.of_fork henter (Or.inl he)) ?_⟩
    refine hpath.trans (Relation.ReflTransGen.head (Step.of_fork hleave (Or.inr rfl)) hrest)

/-- By induction on the rounds. -/
theorem plus_complete {r : ℕ → ℕ → Prop}
    (hleave : states[lo]? = some (.fork (some next) entry))
    (hbody : ∀ i j, r i j → i ≤ range.stop → range.start ≤ i → Leads states range entry lo i j)
    (hpos : ∀ i j, r i j → i ≤ j ∧ (i ≤ range.stop → j ≤ range.stop))
    (h : Relation.TransGen r i j) (hi : range.start ≤ i) (hi' : i ≤ range.stop) :
    Leads states range entry next i j := by
  induction h using Relation.TransGen.head_induction_on with
  | @single i honce =>
    intro m
    obtain ⟨e, m₁, he, hpath⟩ := hbody i j honce hi' hi m
    exact ⟨e, m₁, he, hpath.tail (Step.of_fork hleave (Or.inl rfl))⟩
  | @head i k honce _ ih =>
    intro m
    obtain ⟨e, m₁, he, hpath⟩ := hbody i k honce hi' hi m
    have hk := hpos i k honce
    obtain ⟨e', m', he', hrest⟩ := ih (Nat.le_trans hi hk.1) (hk.2 hi') m₁
    refine ⟨e, m', he, hpath.trans ?_⟩
    exact Relation.ReflTransGen.head (Step.of_fork hleave (Or.inr he')) hrest

/-- A part that matches leads through the fragment. -/
theorem Fragment.complete (hrange : range.Valid)
    (h : Fragment env states flags sre lo hi base entry next) :
    ∀ i j, Spans env sre flags range i j → i ≤ range.stop → range.start ≤ i →
      Leads states range entry next i j := by
  induction h with
  | chars h =>
    rintro i j ⟨htakes, rfl⟩ - -
    exact leads_of_step fun m => Step.of_set h htakes
  | string _ ih => exact fun i j h => ih i j (spans_ofList_chars.mpr h)
  | epsilon =>
    rintro i j rfl - - m
    exact ⟨_, m, rfl, Relation.ReflTransGen.refl⟩
  | assertion h =>
    rintro i j ⟨hguard, rfl⟩ - -
    exact leads_of_step fun m => Step.of_guard h hguard
  | look h hlook =>
    rintro i j ⟨hholds, rfl⟩ hi' hindex
    exact leads_of_step fun m => Step.of_guard h ((hlook range hrange i hindex hi').mpr hholds)
  | nil =>
    rintro i j rfl - - m
    exact ⟨_, m, rfl, Relation.ReflTransGen.refl⟩
  | @seq flags first rest lo mid hi base entry entry' next hjoin hfirst hrest ih_first ih_rest =>
    rintro i j ⟨k, honce, hthen⟩ hi' hindex m
    have hk := spans_forward env first flags range i k honce
    obtain ⟨e, m₁, he, hpath⟩ := ih_first i k honce hi' hindex m
    obtain ⟨e', m', he', hpath'⟩ :=
      ih_rest k j hthen (hk.2 hi') (Nat.le_trans hindex hk.1) m₁
    refine ⟨e, m', he, hpath.trans ?_⟩
    exact Relation.ReflTransGen.head (Step.of_fork hjoin (Or.inl he')) hpath'
  | fail => exact fun i j h => h.elim
  | altSet hset hcs h =>
    intro i j hspans _ _
    rcases spans_alt.mp hspans with ⟨-, cs, hcs', htakes, rfl⟩ | ⟨hnot, -⟩
    · rw [hcs] at hcs'
      cases hcs'
      exact leads_of_step fun m => Step.of_set h htakes
    · rw [hset] at hnot
      cases hnot
  | altOne hset _ ih =>
    intro i j hspans
    rcases spans_alt.mp hspans with ⟨his, -⟩ | ⟨-, hfirst | hrest⟩
    · rw [hset] at his
      cases his
    · exact ih i j hfirst
    · exact hrest.elim
  | alt hset _ _ hfork ih_first ih_rest =>
    intro i j hspans hi' hindex m
    rcases spans_alt.mp hspans with ⟨his, -⟩ | ⟨-, hfirst | hrest⟩
    · rw [hset] at his
      cases his
    · obtain ⟨e, m', he, hpath⟩ := ih_first i j hfirst hi' hindex m
      exact ⟨_, m', rfl, Relation.ReflTransGen.head (Step.of_fork hfork (Or.inl he)) hpath⟩
    · obtain ⟨e, m', he, hpath⟩ := ih_rest i j hrest hi' hindex m
      exact ⟨_, m', rfl, Relation.ReflTransGen.head (Step.of_fork hfork (Or.inr he)) hpath⟩
  | optional _ hfork ih =>
    rintro i j (rfl | hbody) hi' hindex m
    · exact ⟨_, m, rfl, Relation.ReflTransGen.single (Step.of_fork hfork (Or.inr rfl))⟩
    · obtain ⟨e, m', he, hpath⟩ := ih i j hbody hi' hindex m
      exact ⟨_, m', rfl, Relation.ReflTransGen.head (Step.of_fork hfork (Or.inl he)) hpath⟩
  | @star flags greedy body lo hi base entry next hleave _ henter ih =>
    intro i j hstar hi' hindex m
    obtain ⟨m', hpath⟩ := star_complete hleave henter ih (spans_forward env body flags range)
      hstar hindex hi' m
    exact ⟨_, m', rfl, hpath⟩
  | @plus flags body lo hi base entry next hleave _ ih =>
    intro i j hplus hi' hindex
    exact plus_complete hleave ih (spans_forward env body flags range) hplus hindex hi'
  | exactly hform _ ih => exact fun i j h => ih i j ((spans_exactly_form hform).mpr h)
  | atLeast hform _ ih => exact fun i j h => ih i j ((spans_atLeast_form hform).mpr h)
  | repeated hform _ ih => exact fun i j h => ih i j ((spans_repeated_form hform).mpr h)
  | submatch _ hend _ hstart ih =>
    intro i j hbody hi' hindex m
    obtain ⟨e, m', he, hpath⟩ := ih i j hbody hi' hindex (m.set _ (some i))
    exact ⟨_, _, rfl, Relation.ReflTransGen.head (Step.of_start hstart he)
      (hpath.tail (Step.of_end hend))⟩
  | noSubmatch _ _ ih => exact ih
  | named _ ih => exact ih
  | withFlags _ ih => exact ih

theorem Recorded.spans (h : Recorded env range flags sre base i m j m') :
    Spans env sre flags range i j := by
  induction h with
  | chars h => exact ⟨h, rfl⟩
  | string _ ih => exact spans_ofList_chars.mp ih
  | epsilon => rfl
  | assertion h => exact ⟨h, rfl⟩
  | look h => exact ⟨h, rfl⟩
  | nil => rfl
  | seq _ _ ih_first ih_rest => exact ⟨_, ih_first, ih_rest⟩
  | altSet hset hcs h => exact spans_alt.mpr (Or.inl ⟨hset, _, hcs, h, rfl⟩)
  | altFirst hset _ ih => exact spans_alt.mpr (Or.inr ⟨hset, Or.inl ih⟩)
  | altRest hset _ ih => exact spans_alt.mpr (Or.inr ⟨hset, Or.inr ih⟩)
  | optionalNil => exact Or.inl rfl
  | optionalBody _ ih => exact Or.inr ih
  | starNil => exact Relation.ReflTransGen.refl
  | starStep _ _ ih_first ih_rest => exact Relation.ReflTransGen.head ih_first ih_rest
  | plusOne _ ih => exact Relation.TransGen.single ih
  | plusStep _ _ ih_first ih_rest => exact Relation.TransGen.head ih_first ih_rest
  | exactly hform _ ih => exact (spans_exactly_form hform).mp ih
  | atLeast hform _ ih => exact (spans_atLeast_form hform).mp ih
  | repeated hform _ ih => exact (spans_repeated_form hform).mp ih
  | submatch _ _ ih => exact ih
  | noSubmatch _ _ ih => exact ih
  | named _ ih => exact ih
  | withFlags _ ih => exact ih

end Complete

end Regexp

end ChibiScheme
