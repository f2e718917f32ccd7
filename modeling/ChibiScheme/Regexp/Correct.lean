import ChibiScheme.Regexp.Outcome

/-!
# The compiler is right

`->rx` adds the states of a fragment to those made before, and changes none of these.  A look-around
assertion runs a regular expression of its own, so the induction takes the run along.
-/

namespace ChibiScheme

open List

namespace Regexp

variable {env : Env} {flags : Flags} {sre : Sre}

theorem ok_of_bind {α β ε : Type} {x : Except ε α} {f : α → Except ε β} {b : β}
    (h : (x >>= f) = .ok b) : ∃ a, x = .ok a ∧ f a = .ok b := by
  cases x with
  | error e => cases h
  | ok a => exact ⟨a, rfl, h⟩

/-! ## Fragments in a longer list -/

/-- The lists have the same states from the place `lo` up to `hi`. -/
def Agree (states states' : List State) (lo hi : ℕ) : Prop :=
  ∀ q, lo ≤ q → q < hi → states'[q]? = states[q]?

section Agree

variable {states states' states'' : List State} {lo hi : ℕ}

theorem Agree.narrow {lo' hi' : ℕ} (h : Agree states states' lo hi) (hlo : lo ≤ lo')
    (hhi : hi' ≤ hi) : Agree states states' lo' hi' :=
  fun q hq hq' => h q (Nat.le_trans hlo hq) (Nat.lt_of_lt_of_le hq' hhi)

theorem Agree.trans (h : Agree states states' lo hi) (h' : Agree states' states'' lo hi) :
    Agree states states'' lo hi :=
  fun q hlo hhi => (h' q hlo hhi).trans (h q hlo hhi)

theorem Agree.at (h : Agree states states' lo hi) {q : ℕ} {st : State} (hlo : lo ≤ q)
    (hhi : q < hi) (hst : states[q]? = some st) : states'[q]? = some st :=
  (h q hlo hhi).trans hst

theorem Fragment.agree {base next : ℕ} {entry : Option ℕ}
    (h : Fragment env states flags sre lo hi base entry next) (hagree : Agree states states' lo hi) :
    Fragment env states' flags sre lo hi base entry next := by
  induction h with
  | chars h => exact Fragment.chars (hagree.at (Nat.le_refl _) (Nat.lt_succ_self _) h)
  | string _ ih => exact Fragment.string (ih hagree)
  | epsilon => exact Fragment.epsilon
  | assertion h => exact Fragment.assertion (hagree.at (Nat.le_refl _) (Nat.lt_succ_self _) h)
  | look h hguard =>
    exact Fragment.look (hagree.at (Nat.le_refl _) (Nat.lt_succ_self _) h) hguard
  | nil => exact Fragment.nil
  | seq hjoin hfirst hrest ih_first ih_rest =>
    have hle := hfirst.lo_le
    have hle' := hrest.lo_le
    exact Fragment.seq (hagree.at (Nat.le_refl _) (by omega) hjoin)
      (ih_first (hagree.narrow (by omega) (by omega)))
      (ih_rest (hagree.narrow (by omega) (Nat.le_refl _)))
  | fail => exact Fragment.fail
  | altSet hset hcs h =>
    exact Fragment.altSet hset hcs (hagree.at (Nat.le_refl _) (Nat.lt_succ_self _) h)
  | altOne hset _ ih => exact Fragment.altOne hset (ih hagree)
  | alt hset hfirst hrest hfork ih_first ih_rest =>
    have hle := hfirst.lo_le
    have hle' := hrest.lo_le
    exact Fragment.alt hset (ih_first (hagree.narrow (Nat.le_refl _) (by omega)))
      (ih_rest (hagree.narrow (by omega) (by omega)))
      (hagree.at (by omega) (Nat.lt_succ_self _) hfork)
  | optional hbody hfork ih =>
    have hle := hbody.lo_le
    exact Fragment.optional (ih (hagree.narrow (Nat.le_refl _) (by omega)))
      (hagree.at (by omega) (Nat.lt_succ_self _) hfork)
  | star hleave hbody henter ih =>
    have hle := hbody.lo_le
    exact Fragment.star (hagree.at (Nat.le_refl _) (by omega) hleave)
      (ih (hagree.narrow (by omega) (by omega)))
      (hagree.at (by omega) (Nat.lt_succ_self _) henter)
  | plus hleave hbody ih =>
    have hle := hbody.lo_le
    exact Fragment.plus (hagree.at (Nat.le_refl _) (by omega) hleave)
      (ih (hagree.narrow (by omega) (Nat.le_refl _)))
  | exactly hform _ ih => exact Fragment.exactly hform (ih hagree)
  | atLeast hform _ ih => exact Fragment.atLeast hform (ih hagree)
  | repeated hform _ ih => exact Fragment.repeated hform (ih hagree)
  | submatch hcapture hend hbody hstart ih =>
    have hle := hbody.lo_le
    exact Fragment.submatch hcapture (hagree.at (Nat.le_refl _) (by omega) hend)
      (ih (hagree.narrow (by omega) (by omega)))
      (hagree.at (by omega) (Nat.lt_succ_self _) hstart)
  | noSubmatch hcapture _ ih => exact Fragment.noSubmatch hcapture (ih hagree)
  | named _ ih => exact Fragment.named (ih hagree)
  | withFlags _ ih => exact Fragment.withFlags (ih hagree)

end Agree

/-! ## What is added to a builder -/

/-- The SRE is compiled: its states stand behind those made before. -/
structure Built (env : Env) (flags : Flags) (sre : Sre) (next : ℕ) (b : Builder)
    (entry : Option ℕ) (b' : Builder) : Prop where
  fragment : Fragment env b'.states flags sre b.states.length b'.states.length b.currentIndex entry
    next
  prior : Agree b.states b'.states 0 b.states.length
  index : b'.currentIndex = b.currentIndex + sre.width flags
  nonGreedy : ∀ k, k < b.currentIndex →
    b'.nonGreedyIndexes.contains k = b.nonGreedyIndexes.contains k

section Builder

variable {b b' : Builder} {st : State} {next q : ℕ} {entry : Option ℕ}

theorem Builder.length_add : (b.add st).states.length = b.states.length + 1 :=
  length_append

theorem Builder.add_self : (b.add st).states[b.states.length]? = some st :=
  getElem?_concat_length

theorem Builder.agree_add : Agree b.states (b.add st).states 0 b.states.length :=
  fun _ _ hq => getElem?_append_left hq

theorem Builder.agree_modify {lo hi : ℕ} (f : State → State) (hq : ¬ (lo ≤ q ∧ q < hi)) :
    Agree b.states (b.states.modify q f) lo hi := by
  intro p hlo hhi
  rw [getElem?_modify]
  have hne : q ≠ p := by
    rintro rfl
    exact hq ⟨hlo, hhi⟩
  simp only [if_neg hne]
  exact congrFun Option.map_id _

theorem Builder.modify_self {f : State → State} (h : b.states[q]? = some st) :
    (b.states.modify q f)[q]? = some (f st) := by
  rw [getElem?_modify, h]
  simp

theorem Built.single (hindex : sre.width flags = 0)
    (h : ∀ states : List State, states[b.states.length]? = some st →
      Fragment env states flags sre b.states.length (b.states.length + 1) b.currentIndex entry next) :
    Built env flags sre next b entry (b.add st) := by
  refine ⟨?_, Builder.agree_add, ?_, fun _ _ => rfl⟩
  · rw [Builder.length_add]
    exact h _ Builder.add_self
  · rw [hindex]
    rfl

theorem Built.empty (hindex : sre.width flags = 0)
    (h : ∀ states : List State,
      Fragment env states flags sre b.states.length b.states.length b.currentIndex entry next) :
    Built env flags sre next b entry b := by
  refine ⟨h _, fun _ _ _ => rfl, ?_, fun _ _ => rfl⟩
  rw [hindex]
  rfl

theorem Built.of {sre' : Sre} {flags' : Flags} (h : Built env flags' sre' next b entry b')
    (hindex : sre.width flags = sre'.width flags')
    (hfragment : ∀ {states : List State} {lo hi base},
      Fragment env states flags' sre' lo hi base entry next →
      Fragment env states flags sre lo hi base entry next) :
    Built env flags sre next b entry b' := by
  refine ⟨hfragment h.fragment, h.prior, ?_, h.nonGreedy⟩
  rw [hindex]
  exact h.index

theorem Built.le (h : Built env flags sre next b entry b') : b.states.length ≤ b'.states.length :=
  h.fragment.lo_le

end Builder

section Parts

variable {first rest body : Sre} {next : ℕ} {b b₁ b₂ : Builder} {entry entry' : Option ℕ}

theorem Built.seq (hfirst : Built env flags first b.nextId (b.add (.ofEpsilon none)) entry b₁)
    (hrest : Built env flags rest next b₁ entry' b₂) :
    Built env flags (.seq first rest) next b entry (b₂.setNext1 b.nextId entry') := by
  have hle := hfirst.le
  have hfragment := hfirst.fragment
  have hprior := hfirst.prior
  rw [Builder.length_add] at hle hfragment hprior
  have hset : ∀ {lo hi}, ¬ (lo ≤ b.states.length ∧ b.states.length < hi) →
      Agree b₂.states (b₂.setNext1 b.nextId entry').states lo hi := Builder.agree_modify _
  have hjoin : (b₂.setNext1 b.nextId entry').states[b.states.length]? =
      some (.ofEpsilon entry') := by
    have hbefore : b₂.states[b.states.length]? = some (.ofEpsilon none) :=
      (hprior.trans (hrest.prior.narrow (Nat.zero_le _) hle)).at (Nat.zero_le _)
        (Nat.lt_succ_self _) Builder.add_self
    exact Builder.modify_self hbefore
  have hlength : (b₂.setNext1 b.nextId entry').states.length = b₂.states.length :=
    length_modify _ _ _
  refine ⟨?_, ?_, ?_, fun k hk => ?_⟩
  · rw [hlength]
    refine Fragment.seq hjoin (hfragment.agree ?_) ?_
    · exact (hrest.prior.narrow (Nat.zero_le _) (Nat.le_refl _)).trans (hset (by omega))
    · have hlast := hrest.fragment
      rw [hfirst.index] at hlast
      exact hlast.agree (hset (by omega))
  · exact ((Builder.agree_add.trans (hprior.narrow (Nat.le_refl _) (Nat.le_succ _))).trans
      (hrest.prior.narrow (Nat.le_refl _) (by omega))).trans (hset (by omega))
  · exact hrest.index.trans (by rw [hfirst.index]; exact Nat.add_assoc _ _ _)
  · have hk' : k < b₁.currentIndex := by
      rw [hfirst.index]
      exact Nat.lt_of_lt_of_le hk (Nat.le_add_right _ _)
    exact (hrest.nonGreedy k hk').trans (hfirst.nonGreedy k hk)

theorem Built.alt (hset : (Sre.alt first rest).charSetSre = false)
    (hfirst : Built env flags first next b entry b₁)
    (hrest : Built env flags rest next b₁ entry' b₂) :
    Built env flags (.alt first rest) next b (some b₂.nextId) (b₂.add (.fork entry entry')) := by
  have hle := hfirst.le
  have hle' := hrest.le
  have hadd : Agree b₂.states (b₂.add (.fork entry entry')).states 0 b₂.states.length :=
    Builder.agree_add
  refine ⟨?_, ?_, ?_, fun k hk => ?_⟩
  · rw [Builder.length_add]
    refine Fragment.alt hset (hfirst.fragment.agree ?_) ?_ Builder.add_self
    · exact (hrest.prior.narrow (Nat.zero_le _) (Nat.le_refl _)).trans
        (hadd.narrow (Nat.zero_le _) hle')
    · have hlast := hrest.fragment
      rw [hfirst.index] at hlast
      exact hlast.agree (hadd.narrow (Nat.zero_le _) (Nat.le_refl _))
  · exact (hfirst.prior.trans (hrest.prior.narrow (Nat.le_refl _) hle)).trans
      (hadd.narrow (Nat.le_refl _) (by omega))
  · exact hrest.index.trans (by rw [hfirst.index]; exact Nat.add_assoc _ _ _)
  · have hk' : k < b₁.currentIndex := by
      rw [hfirst.index]
      exact Nat.lt_of_lt_of_le hk (Nat.le_add_right _ _)
    exact (hrest.nonGreedy k hk').trans (hfirst.nonGreedy k hk)

theorem Built.optional {greedy : Bool} (hbody : Built env flags body next b entry b₁) :
    Built env flags (.optional greedy body) next b (some b₁.nextId)
      (b₁.add (.fork entry (some next))) := by
  have hadd : Agree b₁.states (b₁.add (.fork entry (some next))).states 0 b₁.states.length :=
    Builder.agree_add
  refine ⟨?_, ?_, hbody.index, hbody.nonGreedy⟩
  · rw [Builder.length_add]
    exact Fragment.optional (hbody.fragment.agree (hadd.narrow (Nat.zero_le _) (Nat.le_refl _)))
      Builder.add_self
  · exact hbody.prior.trans (hadd.narrow (Nat.le_refl _) hbody.le)

theorem Built.plus
    (hbody : Built env flags body b.nextId (b.add (.fork (some next) none)) entry b₁) :
    Built env flags (.plus body) next b entry (b₁.setNext2 b.nextId entry) := by
  have hle := hbody.le
  have hfragment := hbody.fragment
  have hprior := hbody.prior
  rw [Builder.length_add] at hle hfragment hprior
  have hset : ∀ {lo hi}, ¬ (lo ≤ b.states.length ∧ b.states.length < hi) →
      Agree b₁.states (b₁.setNext2 b.nextId entry).states lo hi := Builder.agree_modify _
  have hbefore : b₁.states[b.states.length]? = some (.fork (some next) none) :=
    hprior.at (Nat.zero_le _) (Nat.lt_succ_self _) Builder.add_self
  have hleave : (b₁.setNext2 b.nextId entry).states[b.states.length]? =
      some (.fork (some next) entry) := Builder.modify_self hbefore
  have hlength : (b₁.setNext2 b.nextId entry).states.length = b₁.states.length :=
    length_modify _ _ _
  refine ⟨?_, ?_, hbody.index, hbody.nonGreedy⟩
  · rw [hlength]
    exact Fragment.plus hleave (hfragment.agree (hset (by omega)))
  · exact (Builder.agree_add.trans (hprior.narrow (Nat.le_refl _) (Nat.le_succ _))).trans
      (hset (by omega))

theorem Built.star {greedy : Bool}
    (hbody : Built env flags body b.nextId (b.add (.fork (some next) none)) entry b₁) :
    Built env flags (.star greedy body) next b (some b₁.nextId)
      ((b₁.add (.fork entry (some b.nextId))).setNext2 b.nextId (some b₁.nextId)) := by
  have hle := hbody.le
  have hfragment := hbody.fragment
  have hprior := hbody.prior
  rw [Builder.length_add] at hle hfragment hprior
  have hadd : Agree b₁.states (b₁.add (.fork entry (some b.nextId))).states 0 b₁.states.length :=
    Builder.agree_add
  have hset : ∀ {lo hi}, ¬ (lo ≤ b.states.length ∧ b.states.length < hi) →
      Agree (b₁.add (.fork entry (some b.nextId))).states
        ((b₁.add (.fork entry (some b.nextId))).setNext2 b.nextId (some b₁.nextId)).states lo hi :=
    Builder.agree_modify _
  have hbefore : (b₁.add (.fork entry (some b.nextId))).states[b.states.length]? =
      some (.fork (some next) none) :=
    (hprior.trans (hadd.narrow (Nat.le_refl _) hle)).at (Nat.zero_le _) (Nat.lt_succ_self _)
      Builder.add_self
  have hleave : ((b₁.add (.fork entry (some b.nextId))).setNext2 b.nextId
      (some b₁.nextId)).states[b.states.length]? = some (.fork (some next) (some b₁.nextId)) :=
    Builder.modify_self hbefore
  have hlength : ((b₁.add (.fork entry (some b.nextId))).setNext2 b.nextId
      (some b₁.nextId)).states.length = b₁.states.length + 1 :=
    (length_modify _ _ _).trans Builder.length_add
  refine ⟨?_, ?_, hbody.index, hbody.nonGreedy⟩
  · rw [hlength]
    refine Fragment.star hleave (hfragment.agree ?_) ?_
    · exact (hadd.narrow (Nat.zero_le _) (Nat.le_refl _)).trans (hset (by omega))
    · have henter : Agree _ _ b₁.states.length (b₁.states.length + 1) := hset (by omega)
      exact henter.at (Nat.le_refl _) (Nat.lt_succ_self _) Builder.add_self
  · exact ((Builder.agree_add.trans (hprior.narrow (Nat.le_refl _) (Nat.le_succ _))).trans
      (hadd.narrow (Nat.le_refl _) (by omega))).trans (hset (by omega))

end Parts

/-! ## Submatches -/

/-- The states of a submatch, or of the whole match -/
structure Submatch (env : Env) (flags : Flags) (sre : Sre) (next index : ℕ) (b : Builder) (n1 : ℕ)
    (b' : Builder) : Prop where
  length : b'.states.length = n1 + 1
  body : ∃ entry, b'.states[b.states.length]? = some (.ofEnd sre.nonGreedySre index next) ∧
    Fragment env b'.states flags sre (b.states.length + 1) n1 (index + 2) entry b.states.length ∧
    b'.states[n1]? = some (.ofStart index entry)
  prior : Agree b.states b'.states 0 b.states.length
  index' : b'.currentIndex = index + 2 + sre.width flags
  nonGreedy : ∀ k, k < index + 2 → b'.nonGreedyIndexes.contains k =
    (sre.nonGreedySre && k == index + 1 || b.nonGreedyIndexes.contains k)

/-- The states of a submatch around those of its body. -/
theorem makeSubmatchState_spec {compile : ℕ → Builder → Compiled} {next index n1 : ℕ}
    {b b' : Builder}
    (hcompile : ∀ next b entry b', compile next b = .ok (entry, b') →
      Built env flags sre next b entry b')
    (hindex : b.currentIndex = index + 2)
    (h : makeSubmatchState compile sre next index b = .ok (n1, b')) :
    Submatch env flags sre next index b n1 b' := by
  obtain ⟨⟨entry, b₁⟩, hbody, h⟩ := ok_of_bind h
  have hbuilt := hcompile _ _ _ _ hbody
  have hle := hbuilt.le
  have hfragment := hbuilt.fragment
  have hprior := hbuilt.prior
  rw [Builder.length_add] at hle hfragment hprior
  have hlo : b₁.states[b.states.length]? = some (.ofEpsilon (some next)) :=
    hprior.at (Nat.zero_le _) (Nat.lt_succ_self _) Builder.add_self
  -- the states once the first and the last one record
  obtain ⟨hn1, hstates, hindex', hnonGreedy⟩ : n1 = b₁.states.length ∧
      b'.states = (((b₁.add (.ofEpsilon entry)).setMatch n1 index .left).setMatch b.states.length
        (index + 1) (if sre.nonGreedySre then .nonGreedyLeft else .right)).states ∧
      b'.currentIndex = b₁.currentIndex ∧ b'.nonGreedyIndexes =
        if sre.nonGreedySre then (index + 1) :: b₁.nonGreedyIndexes else b₁.nonGreedyIndexes := by
    cases h
    cases sre.nonGreedySre <;> exact ⟨rfl, rfl, rfl, rfl⟩
  have hstart : (b₁.add (.ofEpsilon entry)).states[n1]? = some (.ofEpsilon entry) := by
    rw [hn1]
    exact Builder.add_self
  have hagree₁ : Agree b₁.states (b₁.add (.ofEpsilon entry)).states 0 b₁.states.length :=
    Builder.agree_add
  have hagree₂ : ∀ {lo hi}, ¬ (lo ≤ n1 ∧ n1 < hi) → Agree (b₁.add (.ofEpsilon entry)).states
      ((b₁.add (.ofEpsilon entry)).setMatch n1 index .left).states lo hi :=
    Builder.agree_modify _
  have hagree₃ : ∀ {lo hi}, ¬ (lo ≤ b.states.length ∧ b.states.length < hi) →
      Agree ((b₁.add (.ofEpsilon entry)).setMatch n1 index .left).states b'.states lo hi := by
    intro lo hi hout
    rw [hstates]
    exact Builder.agree_modify _ hout
  have hinner : ∀ {lo hi}, hi ≤ n1 → ¬ (lo ≤ b.states.length ∧ b.states.length < hi) →
      Agree b₁.states b'.states lo hi := fun hhi hout =>
    ((hagree₁.narrow (Nat.zero_le _) (by omega)).trans (hagree₂ (by omega))).trans (hagree₃ hout)
  refine ⟨?_, ⟨entry, ?_, ?_, ?_⟩, ?_, ?_, ?_⟩
  · rw [hstates, hn1]
    simp [Builder.setMatch, Builder.add]
  · rw [hstates]
    have hbefore : ((b₁.add (.ofEpsilon entry)).setMatch n1 index .left).states[b.states.length]? =
        some (.ofEpsilon (some next)) :=
      ((hagree₁.narrow (Nat.zero_le _) (Nat.le_refl _)).trans
        (hagree₂ (by omega))).at (Nat.zero_le _) (by omega) hlo
    exact Builder.modify_self hbefore
  · rw [show (b.add _).currentIndex = _ from hindex] at hfragment
    rw [hn1]
    exact hfragment.agree (hinner (by omega) (by omega))
  · have hbefore : ((b₁.add (.ofEpsilon entry)).setMatch n1 index .left).states[n1]? =
        some (.ofStart index entry) := Builder.modify_self hstart
    have hlast : Agree _ _ n1 (n1 + 1) := hagree₃ (by omega)
    exact hlast.at (Nat.le_refl _) (Nat.lt_succ_self _) hbefore
  · have hold : Agree b.states b₁.states 0 b.states.length :=
      Builder.agree_add.trans (hprior.narrow (Nat.le_refl _) (Nat.le_succ _))
    exact hold.trans (hinner (by omega) (by omega))
  · rw [hindex', hbuilt.index]
    exact congrArg (· + _) hindex
  · intro k hk
    rw [hnonGreedy]
    have hold : b₁.nonGreedyIndexes.contains k = b.nonGreedyIndexes.contains k :=
      hbuilt.nonGreedy k (by rw [show (b.add _).currentIndex = _ from hindex]; exact hk)
    cases sre.nonGreedySre with
    | true => rw [if_pos rfl, contains_cons, hold, Bool.true_and]
    | false => rw [if_neg Bool.false_ne_true, hold, Bool.false_and, Bool.false_or]

theorem Submatch.built {next n1 : ℕ} {b b₀ b' : Builder}
    (h : Submatch env flags sre next b.currentIndex b₀ n1 b') (hcapture : flags.nocapture = false)
    (hstates : b₀.states = b.states) (hnonGreedy : b₀.nonGreedyIndexes = b.nonGreedyIndexes) :
    Built env flags (.submatch sre) next b (some n1) b' := by
  have hwidth : (Sre.submatch sre).width flags = sre.width flags + 2 := by
    rw [Sre.width, if_neg (Bool.eq_false_iff.mp hcapture)]
  obtain ⟨entry, hend, hfragment, hstart⟩ := h.body
  have hprior := h.prior
  rw [hstates] at hend hfragment hprior
  refine ⟨?_, hprior, ?_, fun k hk => ?_⟩
  · rw [h.length]
    exact Fragment.submatch hcapture hend hfragment hstart
  · rw [h.index', hwidth]
    omega
  · rw [h.nonGreedy k (by omega), hnonGreedy]
    have hne : (k == b.currentIndex + 1) = false := by
      rw [beq_eq_false_iff_ne]
      omega
    rw [hne, Bool.and_false, Bool.false_or]

theorem regexpWith_of {compile : ℕ → Builder → Compiled} {rx : Rx}
    (hcompile : ∀ next b entry b', compile next b = .ok (entry, b') →
      Built env flags sre next b entry b')
    (h : regexpWith compile sre = .ok rx) : rx.Of env flags sre := by
  obtain ⟨⟨start, b⟩, hstart, h⟩ := ok_of_bind h
  cases h
  have hmatch := makeSubmatchState_spec hcompile rfl hstart
  obtain ⟨entry, hend, hfragment, hfirst⟩ := hmatch.body
  refine ⟨?_, hmatch.length, ⟨entry, hend, hfragment, hfirst⟩, ?_, ?_⟩
  · exact hmatch.prior.at (Nat.le_refl 0) Nat.zero_lt_one rfl
  · exact (hmatch.index'.trans (by rw [Nat.zero_add]) : b.currentIndex = 2 + sre.width flags)
  · refine (hmatch.nonGreedy 1 (by omega)).trans ?_
    show (sre.nonGreedySre && true || false) = sre.nonGreedySre
    rw [Bool.and_true, Bool.or_false]

/-! ## The compiler -/

theorem width_ofList_chars (s : List Char) (flags : Flags) :
    (Sre.ofList (s.map fun c => .chars (.char c))).width flags = 0 := by
  induction s with
  | nil => rfl
  | cons c s ih => exact (Nat.zero_add _).trans ih

theorem spans_snoc {range : Range} {i j : ℕ} (body last : Sre) :
    Spans env (body.snoc last) flags range i j ↔
      ∃ k, Spans env body flags range i k ∧ Spans env last flags range k j := by
  induction body generalizing i with
  | nil => simp [Sre.snoc, Spans]
  | seq first rest _ ih =>
    simp only [Sre.snoc, Spans, ih]
    constructor
    · rintro ⟨k, hfirst, k', hrest, hlast⟩
      exact ⟨k', ⟨k, hfirst, hrest⟩, hlast⟩
    · rintro ⟨k', ⟨k, hfirst, hrest⟩, hlast⟩
      exact ⟨k, hfirst, k', hrest, hlast⟩
  | _ => exact exists_congr fun k => and_congr_right' (spans_seq_nil last)

theorem matchLook_iff {ahead negated : Bool} {body : Sre} {rx : Rx}
    (h : rx.Of env Flags.none
      (if ahead then .seq (.assertion .bos) body else body.snoc (.assertion .eos)))
    {range : Range} (hrange : range.Valid) {i : ℕ} (hstart : range.start ≤ i)
    (hstop : i ≤ range.stop) :
    env.matchLook ahead negated rx range.str i range.start range.stop = true ↔
      LookHolds (Spans env body Flags.none) ahead negated range i := by
  have hlength := hrange.stop_le
  have hfound : env.finds rx (if ahead then ⟨range.str, i, range.stop⟩
      else ⟨range.str, range.start, i⟩) = true ↔
        if ahead then
          ∃ k, k ≤ range.stop ∧ Spans env body Flags.none ⟨range.str, i, range.stop⟩ i k
        else ∃ k, range.start ≤ k ∧ Spans env body Flags.none ⟨range.str, range.start, i⟩ k i := by
    cases ahead with
    | true =>
      simp only [if_true] at h ⊢
      have hpart : (⟨range.str, i, range.stop⟩ : Range).Valid := ⟨hstop, hlength⟩
      rw [Env.finds_iff h hpart]
      constructor
      · rintro ⟨s, j, -, hs, k, ⟨hbos, rfl⟩, hspans⟩
        obtain rfl : s = i := of_decide_eq_true hbos
        exact ⟨j, (spans_forward env body _ _ _ _ hspans).2 hs, hspans⟩
      · rintro ⟨k, -, hspans⟩
        exact ⟨i, k, Nat.le_refl i, hstop, i, ⟨decide_eq_true rfl, rfl⟩, hspans⟩
    | false =>
      simp only [Bool.false_eq_true, if_false] at h ⊢
      have hpart : (⟨range.str, range.start, i⟩ : Range).Valid :=
        ⟨hstart, Nat.le_trans hstop hlength⟩
      rw [Env.finds_iff h hpart]
      simp only [spans_snoc]
      constructor
      · rintro ⟨s, j, hs, hs', k, hspans, heos, rfl⟩
        have hk := (spans_forward env body _ _ _ _ hspans).2 hs'
        obtain rfl : k = i := Nat.le_antisymm hk (of_decide_eq_true heos)
        exact ⟨s, hs, hspans⟩
      · rintro ⟨k, hk, hspans⟩
        have hle := (spans_forward env body _ _ _ _ hspans).1
        exact ⟨k, i, hk, hle, i, hspans, decide_eq_true (Nat.le_refl i), rfl⟩
  unfold Env.matchLook LookHolds
  cases negated with
  | true =>
    simp only [if_true]
    rw [Bool.not_eq_true', Bool.eq_false_iff, ne_eq, hfound]
  | false =>
    simp only [Bool.false_eq_true, if_false]
    rw [hfound]

section Alternatives

variable {first rest : Sre} {fuel next : ℕ} {b : Builder}

attribute [local simp] toRx in
theorem toRx_alt_set (hset : (Sre.alt first rest).charSetSre = true) :
    toRx env (fuel + 1) (.alt first rest) flags next b = (do
      let cs ← (Sre.alt first rest).toCharSet env Flags.none
      pure (some b.nextId, b.add (.ofChars (.set (env.maybeCi flags cs)) next))) := by
  by_cases hfail : rest = .fail
  · subst hfail
    rw [toRx, if_pos hset]
  · rw [toRx, if_pos hset]
    exact hfail

theorem toRx_alt_one (hset : (Sre.alt first .fail).charSetSre = false) :
    toRx env (fuel + 1) (.alt first .fail) flags next b = toRx env fuel first flags next b := by
  rw [toRx, if_neg (Bool.eq_false_iff.mp hset)]

theorem toRx_alt (hset : (Sre.alt first rest).charSetSre = false) (hfail : rest ≠ .fail) :
    toRx env (fuel + 1) (.alt first rest) flags next b = (do
      let (n1, b) ← toRx env fuel first flags next b
      let (n2, b) ← toRx env fuel rest flags next b
      pure (some b.nextId, b.add (.fork n1 n2))) := by
  rw [toRx, if_neg (Bool.eq_false_iff.mp hset)]
  exact hfail

end Alternatives

theorem width_of_charSets {sre : Sre} {seq : Bool} (h : sre.charSets seq = true) :
    sre.width flags = 0 := by
  induction sre generalizing seq flags with
  | alt first rest ih_first ih_rest =>
    have hboth : (first.charSets false && rest.charSets false) = true := by
      cases seq <;> exact h
    rw [Bool.and_eq_true] at hboth
    rw [Sre.width, ih_first hboth.1, ih_rest hboth.2]
  | seq first rest ih_first ih_rest =>
    cases seq with
    | false => cases h
    | true =>
      have hboth : (first.charSets false && rest.charSets true) = true := h
      rw [Bool.and_eq_true] at hboth
      rw [Sre.width, ih_first hboth.1, ih_rest hboth.2]
  | withFlags change body ih =>
    have hboth : (decide (change ≠ .withNocapture) && body.charSets true) = true := by
      cases seq <;> exact h
    rw [Bool.and_eq_true] at hboth
    exact ih hboth.2
  | chars cs => rfl
  | string s => rfl
  | epsilon => rfl
  | assertion a => rfl
  | look _ _ _ => rfl
  | nil => rfl
  | fail => rfl
  | _ => cases seq <;> cases h

/-- `->rx` compiles an SRE: the induction is on the fuel, with the fragment of one part after the
other. -/
theorem toRx_spec (fuel : ℕ) {next : ℕ} {b b' : Builder} {entry : Option ℕ}
    (h : toRx env fuel sre flags next b = .ok (entry, b')) : Built env flags sre next b entry b' := by
  induction fuel generalizing sre flags next b entry b' with
  | zero => cases h
  | succ fuel ih =>
    cases sre with
    | chars cs =>
      cases h
      exact Built.single rfl fun _ h => Fragment.chars h
    | string s =>
      exact (ih h).of (width_ofList_chars s flags).symm Fragment.string
    | epsilon =>
      cases h
      exact Built.empty rfl fun _ => Fragment.epsilon
    | assertion a =>
      cases h
      exact Built.single rfl fun _ h => Fragment.assertion h
    | look ahead negated body =>
      obtain ⟨rx, hrx, h⟩ := ok_of_bind h
      cases h
      have hof := regexpWith_of (fun _ _ _ _ h => ih h) hrx
      exact Built.single rfl fun _ h => Fragment.look h fun range hrange i hi hi' =>
        matchLook_iff hof hrange hi hi'
    | nil =>
      cases h
      exact Built.empty rfl fun _ => Fragment.nil
    | seq first rest =>
      obtain ⟨⟨n1, b₁⟩, hfirst, h⟩ := ok_of_bind h
      obtain ⟨⟨n3, b₂⟩, hrest, h⟩ := ok_of_bind h
      cases h
      exact Built.seq (ih hfirst) (ih hrest)
    | fail =>
      cases h
      exact Built.empty rfl fun _ => Fragment.fail
    | alt first rest =>
      by_cases hset : (Sre.alt first rest).charSetSre = true
      · obtain ⟨cs, hcs, h⟩ := ok_of_bind ((toRx_alt_set hset).symm.trans h)
        cases h
        exact Built.single (width_of_charSets hset) fun _ h => Fragment.altSet hset hcs h
      · rw [Bool.not_eq_true] at hset
        by_cases hfail : rest = .fail
        · subst hfail
          rw [toRx_alt_one hset] at h
          exact (ih h).of (Nat.add_zero _) (Fragment.altOne hset)
        · rw [toRx_alt hset hfail] at h
          obtain ⟨⟨n1, b₁⟩, hfirst, h⟩ := ok_of_bind h
          obtain ⟨⟨n2, b₂⟩, hrest, h⟩ := ok_of_bind h
          cases h
          exact Built.alt hset (ih hfirst) (ih hrest)
    | optional greedy body =>
      obtain ⟨⟨n1, b₁⟩, hbody, h⟩ := ok_of_bind h
      cases h
      exact Built.optional (ih hbody)
    | star greedy body =>
      obtain ⟨⟨n1, b₁⟩, hbody, h⟩ := ok_of_bind h
      cases h
      exact Built.star (ih hbody)
    | plus body =>
      obtain ⟨⟨n1, b₁⟩, hbody, h⟩ := ok_of_bind h
      cases h
      exact Built.plus (ih hbody)
    | exactly n body =>
      obtain ⟨form, hform, h⟩ := ok_of_bind h
      exact (ih h).of (width_form hform).symm (Fragment.exactly hform)
    | atLeast n body =>
      obtain ⟨form, hform, h⟩ := ok_of_bind h
      exact (ih h).of (width_form hform).symm (Fragment.atLeast hform)
    | repeated greedy n m body =>
      obtain ⟨form, hform, h⟩ := ok_of_bind h
      exact (ih h).of (width_form hform).symm (Fragment.repeated hform)
    | submatch body =>
      rw [toRx] at h
      split at h
      · next hcapture => exact (ih h).of (if_pos hcapture) (Fragment.noSubmatch hcapture)
      next hcapture =>
        rw [Bool.not_eq_true] at hcapture
        obtain ⟨⟨n1, b₁⟩, hsubmatch, h⟩ := ok_of_bind h
        cases h
        have hmatch := makeSubmatchState_spec (fun _ _ _ _ h => ih h) rfl hsubmatch
        exact hmatch.built hcapture rfl rfl
    | named name body =>
      rw [toRx] at h
      split at h
      · next hcapture =>
          exact (ih h).of (if_pos hcapture) fun h =>
            Fragment.named (Fragment.noSubmatch hcapture h)
      · next hcapture =>
          obtain ⟨hfragment, hprior, hindex, hnonGreedy⟩ := ih h
          exact ⟨Fragment.named hfragment, hprior, hindex, hnonGreedy⟩
    | withFlags change body => exact (ih h).of rfl Fragment.withFlags

end Regexp

end ChibiScheme
