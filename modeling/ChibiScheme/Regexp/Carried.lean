import ChibiScheme.Regexp.Shift

/-!
# What matches in a moved range

An SRE matches between moved positions what it matches between the first ones, since its guards look at
the range only.  So a regular expression that an SRE compiles to runs alike in a moved range.
-/

namespace ChibiScheme

namespace Regexp

/-! ## Relations between positions -/

/-- The second relation relates the moved positions that the first one relates. -/
def Carried (a : ℕ) (range : Range) (r r' : ℕ → ℕ → Prop) : Prop :=
  ∀ i, range.start ≤ i → i ≤ range.stop → ∀ j', r' (i + a) j' ↔ ∃ j, j' = j + a ∧ r i j

section Relations

variable {a : ℕ} {range range' : Range} {r r' s s' : ℕ → ℕ → Prop}

theorem Carried.iff (h : Carried a range r r') {i : ℕ} (hstart : range.start ≤ i)
    (hstop : i ≤ range.stop) (j : ℕ) : r' (i + a) (j + a) ↔ r i j := by
  rw [h i hstart hstop]
  constructor
  · rintro ⟨k, hk, hr⟩
    obtain rfl : j = k := Nat.add_right_cancel hk
    exact hr
  · exact fun hr => ⟨j, rfl, hr⟩

theorem Carried.eq : Carried a range (fun i j => i = j) (fun i j => i = j) := by
  intro i _ _ j'
  constructor
  · rintro rfl
    exact ⟨i, rfl, rfl⟩
  · rintro ⟨j, rfl, rfl⟩
    rfl

theorem Carried.comp (hfirst : Carried a range r r') (hforward : Forward range r)
    (hrest : Carried a range s s') :
    Carried a range (fun i j => ∃ k, r i k ∧ s k j) (fun i j => ∃ k, r' i k ∧ s' k j) := by
  intro i hstart hstop j'
  constructor
  · rintro ⟨k', hk', hj'⟩
    obtain ⟨k, rfl, hk⟩ := (hfirst i hstart hstop k').mp hk'
    obtain ⟨hle, hk_stop⟩ := hforward i k hk
    obtain ⟨j, rfl, hj⟩ := (hrest k (Nat.le_trans hstart hle) (hk_stop hstop) j').mp hj'
    exact ⟨j, rfl, k, hk, hj⟩
  · rintro ⟨j, rfl, k, hk, hj⟩
    obtain ⟨hle, hk_stop⟩ := hforward i k hk
    exact ⟨k + a, (hfirst.iff hstart hstop k).mpr hk,
      (hrest.iff (Nat.le_trans hstart hle) (hk_stop hstop) j).mpr hj⟩

theorem Carried.or (h : Carried a range r r') (hor : Carried a range s s') :
    Carried a range (fun i j => r i j ∨ s i j) (fun i j => r' i j ∨ s' i j) := by
  intro i hstart hstop j'
  beta_reduce
  rw [h i hstart hstop, hor i hstart hstop]
  constructor
  · rintro (⟨j, heq, hr⟩ | ⟨j, heq, hs⟩)
    · exact ⟨j, heq, Or.inl hr⟩
    · exact ⟨j, heq, Or.inr hs⟩
  · rintro ⟨j, heq, hr | hs⟩
    · exact Or.inl ⟨j, heq, hr⟩
    · exact Or.inr ⟨j, heq, hs⟩

theorem Carried.iterated (h : Carried a range r r') (hforward : Forward range r) (n : ℕ) :
    Carried a range (Iterated r n) (Iterated r' n) := by
  induction n with
  | zero => exact Carried.eq
  | succ n ih => exact h.comp hforward ih

theorem Carried.count (h : Carried a range r r') (hforward : Forward range r) (p : ℕ → Prop) :
    Carried a range (fun i j => ∃ n, p n ∧ Iterated r n i j)
      (fun i j => ∃ n, p n ∧ Iterated r' n i j) := by
  intro i hstart hstop j'
  constructor
  · rintro ⟨n, hn, hj'⟩
    obtain ⟨j, heq, hj⟩ := (h.iterated hforward n i hstart hstop j').mp hj'
    exact ⟨j, heq, n, hn, hj⟩
  · rintro ⟨j, heq, n, hn, hj⟩
    exact ⟨n, hn, (h.iterated hforward n i hstart hstop j').mpr ⟨j, heq, hj⟩⟩

theorem Carried.reflTransGen (h : Carried a range r r') (hforward : Forward range r) :
    Carried a range (Relation.ReflTransGen r) (Relation.ReflTransGen r') := by
  intro i hstart hstop j'
  have hcount := h.count hforward (fun _ => True) i hstart hstop j'
  simp only [true_and] at hcount
  simp only [reflTransGen_iff_iterated]
  exact hcount

theorem Carried.of_where {p p' : ℕ → Prop}
    (h : ∀ i, range.start ≤ i → i ≤ range.stop → (p' (i + a) ↔ p i)) :
    Carried a range (fun i j => p i ∧ i = j) (fun i j => p' i ∧ i = j) := by
  intro i hstart hstop j'
  beta_reduce
  rw [h i hstart hstop]
  constructor
  · rintro ⟨hp, rfl⟩
    exact ⟨i, rfl, hp, rfl⟩
  · rintro ⟨j, rfl, hp, rfl⟩
    exact ⟨hp, rfl⟩

theorem Moved.takes_iff (h : Moved a range range') (cs : CharSet) {i : ℕ}
    (hstart : range.start ≤ i) : Takes range' cs (i + a) ↔ Takes range cs i := by
  unfold Takes
  rw [h.stop, Nat.add_lt_add_iff_right]
  refine and_congr_right fun hlt => ?_
  rw [h.char i hstart hlt]

theorem Moved.carried_takes (h : Moved a range range') (cs : CharSet) :
    Carried a range (fun i j => Takes range cs i ∧ j = i + 1)
      (fun i j => Takes range' cs i ∧ j = i + 1) := by
  intro i hstart hstop j'
  beta_reduce
  rw [h.takes_iff cs hstart]
  have hlater : i + a + 1 = i + 1 + a := Nat.add_right_comm i a 1
  constructor
  · rintro ⟨htakes, rfl⟩
    exact ⟨i + 1, hlater, htakes, rfl⟩
  · rintro ⟨j, rfl, htakes, rfl⟩
    exact ⟨htakes, hlater.symm⟩

theorem Moved.carried_string (h : Moved a range range') (cs : Char → CharSet) (s : List Char) :
    Carried a range (SpansString range cs s) (SpansString range' cs s) := by
  induction s with
  | nil => exact Carried.eq
  | cons c s ih =>
    intro i hstart hstop j'
    have hlater : i + a + 1 = i + 1 + a := Nat.add_right_comm i a 1
    unfold SpansString
    rw [h.takes_iff (cs c) hstart, hlater]
    constructor
    · rintro ⟨htakes, hj'⟩
      obtain ⟨j, heq, hj⟩ := (ih (i + 1) (Nat.le_succ_of_le hstart) htakes.1 j').mp hj'
      exact ⟨j, heq, htakes, hj⟩
    · rintro ⟨j, heq, htakes, hj⟩
      exact ⟨htakes, (ih (i + 1) (Nat.le_succ_of_le hstart) htakes.1 j').mpr ⟨j, heq, hj⟩⟩

end Relations

/-! ## The assertions -/

section Assertions

variable {a : ℕ} {range range' : Range} {i : ℕ} {env : Env}

theorem Moved.charIn_eq (h : Moved a range range') (cs : CharSet) (hstart : range.start ≤ i)
    (hstop : i < range.stop) : charIn cs range'.str (i + a) = charIn cs range.str i := by
  rw [charIn, charIn, h.char i hstart hstop]

theorem Moved.charIn_pred (h : Moved a range range') (cs : CharSet) (hstart : range.start < i)
    (hstop : i ≤ range.stop) : charIn cs range'.str (i + a - 1) = charIn cs range.str (i - 1) := by
  have hpred : i + a - 1 = i - 1 + a := by omega
  rw [hpred]
  exact h.charIn_eq cs (by omega) (by omega)

theorem guardMoved_bos : GuardMoved matchBos := by
  intro a range range' h i hstart hstop
  simp only [matchBos, h.start, Nat.add_right_cancel_iff]

theorem guardMoved_eos : GuardMoved matchEos := by
  intro a range range' h i hstart hstop
  simp only [matchEos, h.stop, ge_iff_le, Nat.add_le_add_iff_right]

theorem guardMoved_bol : GuardMoved matchBol := by
  intro a range range' h i hstart hstop
  simp only [matchBol, h.start, Nat.add_right_cancel_iff]
  by_cases heq : i = range.start
  · simp [heq]
  · have hpred : i + a - 1 = i - 1 + a := by omega
    rw [hpred, h.char (i - 1) (by omega) (by omega)]

theorem guardMoved_eol : GuardMoved matchEol := by
  intro a range range' h i hstart hstop
  simp only [matchEol, h.stop, ge_iff_le, Nat.add_le_add_iff_right]
  by_cases hle : range.stop ≤ i
  · simp [hle]
  · rw [h.char i hstart (by omega)]

theorem guardMoved_bow : GuardMoved env.matchBow := by
  intro a range range' h i hstart hstop
  simp only [Env.matchBow, h.start, h.stop, Nat.add_right_cancel_iff, Nat.add_lt_add_iff_right]
  by_cases hlt : i < range.stop
  · rw [h.charIn_eq _ hstart hlt]
    by_cases heq : i = range.start
    · simp [heq]
    · rw [h.charIn_pred _ (by omega) hstop]
  · simp [hlt]

theorem guardMoved_eow : GuardMoved env.matchEow := by
  intro a range range' h i hstart hstop
  simp only [Env.matchEow, h.start, h.stop, ge_iff_le, gt_iff_lt, Nat.add_le_add_iff_right,
    Nat.add_lt_add_iff_right]
  by_cases hgt : range.start < i
  · rw [h.charIn_pred _ hgt hstop]
    by_cases hle : range.stop ≤ i
    · simp [hle]
    · rw [h.charIn_eq _ hstart (by omega)]
  · simp [hgt]

theorem guardMoved_nwb : GuardMoved env.matchNwb := by
  intro a range range' h i hstart hstop
  rw [Env.matchNwb, Env.matchNwb, guardMoved_bow a range range' h i hstart hstop,
    guardMoved_eow a range range' h i hstart hstop]

theorem guardMoved_eog : GuardMoved env.matchEog := by
  intro a range range' h i hstart hstop
  have hguards : env.grapheme.GuardsMoved :=
    fun st hst g hg => absurd hg (env.grapheme_sets st hst g)
  have hrun := Rx.runOffsets_shift hguards (h.ahead hstart hstop) env.order true
  simp only [Env.matchEog, h.start, ge_iff_le, gt_iff_lt, Nat.add_lt_add_iff_right]
  rw [hrun]
  simp only [h.stop, Nat.add_le_add_iff_right]
  congr 2
  cases env.grapheme.runOffsets env.order true ⟨range.str, i, range.stop⟩ with
  | none => rfl
  | some found =>
    cases found with
    | none => rfl
    | some m =>
      simp only [Option.map_some, Matches.ref_shift]
      cases m.ref 1 with
      | none => rfl
      | some e => simp

theorem guardMoved_bog : GuardMoved env.matchBog := by
  intro a range range' h i hstart hstop
  simp only [Env.matchBog, h.start, h.stop, Nat.add_right_cancel_iff, Nat.add_lt_add_iff_right]
  by_cases heq : i = range.start
  · simp [heq]
  · have hpred : i + a - 1 = i - 1 + a := by omega
    have hguard : GuardMoved env.matchEog := guardMoved_eog
    have heog := hguard a range range' h (i - 1) (by omega) (by omega)
    rw [h.start, h.stop] at heog
    rw [hpred, heog]

theorem guardMoved_assertion (assertion : Assertion) : GuardMoved (env.matchAssertion assertion) := by
  cases assertion with
  | bos => exact guardMoved_bos
  | eos => exact guardMoved_eos
  | bol => exact guardMoved_bol
  | eol => exact guardMoved_eol
  | bow => exact guardMoved_bow
  | eow => exact guardMoved_eow
  | nwb => exact guardMoved_nwb
  | bog => exact guardMoved_bog
  | eog => exact guardMoved_eog

end Assertions

/-! ## The SREs -/

theorem lookHolds_moved {a : ℕ} {range range' : Range} (h : Moved a range range')
    {spans : Range → ℕ → ℕ → Prop}
    (hspans : ∀ range range', Moved a range range' → Carried a range (spans range) (spans range'))
    (hforward : ∀ range, Forward range (spans range)) (ahead negated : Bool) {i : ℕ}
    (hstart : range.start ≤ i) (hstop : i ≤ range.stop) :
    LookHolds spans ahead negated range' (i + a) ↔ LookHolds spans ahead negated range i := by
  have hfound : (if ahead = true then
      ∃ k, k ≤ range'.stop ∧ spans ⟨range'.str, i + a, range'.stop⟩ (i + a) k
      else ∃ k, range'.start ≤ k ∧ spans ⟨range'.str, range'.start, i + a⟩ k (i + a)) ↔
      if ahead = true then ∃ k, k ≤ range.stop ∧ spans ⟨range.str, i, range.stop⟩ i k
      else ∃ k, range.start ≤ k ∧ spans ⟨range.str, range.start, i⟩ k i := by
    cases ahead with
    | true =>
      simp only [if_true]
      have hahead := hspans _ _ (h.ahead hstart hstop) i (Nat.le_refl i) hstop
      constructor
      · rintro ⟨k', hk', hmatch⟩
        obtain ⟨k, rfl, hk⟩ := (hahead k').mp hmatch
        rw [h.stop, Nat.add_le_add_iff_right] at hk'
        exact ⟨k, hk', hk⟩
      · rintro ⟨k, hk, hmatch⟩
        refine ⟨k + a, ?_, (hahead (k + a)).mpr ⟨k, rfl, hmatch⟩⟩
        rw [h.stop]
        exact Nat.add_le_add_right hk a
    | false =>
      simp only [Bool.false_eq_true, if_false]
      have hbehind := hspans _ _ (h.behind hstart hstop)
      constructor
      · rintro ⟨k', hk', hmatch⟩
        have hle := (hforward _ k' (i + a) hmatch).1
        rw [h.start] at hk'
        obtain ⟨k, rfl⟩ : ∃ k, k' = k + a := ⟨k' - a, by omega⟩
        have hk : range.start ≤ k := Nat.le_of_add_le_add_right hk'
        exact ⟨k, hk, (hbehind.iff hk (Nat.le_of_add_le_add_right hle) i).mp hmatch⟩
      · rintro ⟨k, hk, hmatch⟩
        have hle := (hforward _ k i hmatch).1
        refine ⟨k + a, ?_, (hbehind.iff hk hle i).mpr hmatch⟩
        rw [h.start]
        exact Nat.add_le_add_right hk a
  unfold LookHolds
  cases negated with
  | true => exact not_congr hfound
  | false => exact hfound

theorem spans_moved (env : Env) (sre : Sre) (flags : Flags) {a : ℕ} {range range' : Range}
    (h : Moved a range range') :
    Carried a range (Spans env sre flags range) (Spans env sre flags range') := by
  induction sre generalizing flags range range' with
  | chars cs => exact h.carried_takes _
  | string s => exact h.carried_string _ s
  | epsilon => exact Carried.eq
  | nil => exact Carried.eq
  | fail =>
    intro i _ _ j'
    exact ⟨False.elim, fun ⟨_, _, hfalse⟩ => hfalse⟩
  | assertion assertion =>
    apply Carried.of_where
    intro i hstart hstop
    rw [guardMoved_assertion assertion a range range' h i hstart hstop]
  | look ahead negated body ih =>
    apply Carried.of_where
    intro i hstart hstop
    exact lookHolds_moved h (fun _ _ h' => ih Flags.none h')
      (fun range => spans_forward env body Flags.none range) ahead negated hstart hstop
  | seq first rest ih_first ih_rest =>
    exact (ih_first flags h).comp (spans_forward env first flags range) (ih_rest flags h)
  | alt first rest ih_first ih_rest =>
    by_cases hset : (Sre.alt first rest).charSetSre = true
    · intro i hstart hstop j'
      simp only [Spans, if_pos hset]
      constructor
      · rintro ⟨cs, hcs, htakes⟩
        obtain ⟨j, heq, hj⟩ := (h.carried_takes _ i hstart hstop j').mp htakes
        exact ⟨j, heq, cs, hcs, hj⟩
      · rintro ⟨j, heq, cs, hcs, hj⟩
        exact ⟨cs, hcs, (h.carried_takes _ i hstart hstop j').mpr ⟨j, heq, hj⟩⟩
    · intro i hstart hstop j'
      simp only [Spans, if_neg hset]
      exact (ih_first flags h).or (ih_rest flags h) i hstart hstop j'
  | optional greedy body ih => exact Carried.eq.or (ih flags h)
  | star greedy body ih => exact (ih flags h).reflTransGen (spans_forward env body flags range)
  | plus body ih =>
    intro i hstart hstop j'
    simp only [Spans, Relation.TransGen.head'_iff]
    exact (ih flags h).comp (spans_forward env body flags range)
      ((ih flags h).reflTransGen (spans_forward env body flags range)) i hstart hstop j'
  | exactly n body ih => exact (ih flags h).iterated (spans_forward env body flags range) n
  | atLeast n body ih => exact (ih flags h).count (spans_forward env body flags range) _
  | repeated greedy n m body ih =>
    intro i hstart hstop j'
    simp only [Spans, ← and_assoc]
    exact (ih flags h).count (spans_forward env body flags range) _ i hstart hstop j'
  | submatch body ih => exact ih flags h
  | named name body ih => exact ih flags h
  | withFlags change body ih => exact ih _ h

/-! ## The states -/

/-- The guard of the state moves with the range. -/
def State.Steady (st : State) : Prop := ∀ g, st.chars = .guard g → GuardMoved g

section Fragments

variable {env : Env} {states : List State} {flags : Flags} {sre : Sre} {lo hi base next : ℕ}
  {entry : Option ℕ}

/-- Every state from the place `lo` up to `hi` is steady. -/
def Steadies (states : List State) (lo hi : ℕ) : Prop :=
  ∀ q, lo ≤ q → q < hi → ∃ st, states[q]? = some st ∧ st.Steady

theorem Steadies.append {mid : ℕ} (h : Steadies states lo mid) (h' : Steadies states mid hi) :
    Steadies states lo hi := by
  intro q hlo hhi
  rcases Nat.lt_or_ge q mid with hmid | hmid
  · exact h q hlo hmid
  · exact h' q hmid hhi

theorem Steadies.empty : Steadies states lo lo :=
  fun _ hlo hhi => absurd hhi (Nat.not_lt.mpr hlo)

theorem Steadies.single {st : State} (h : states[lo]? = some st) (hst : st.Steady) :
    Steadies states lo (lo + 1) := by
  intro q hlo hhi
  obtain rfl : q = lo := Nat.le_antisymm (Nat.le_of_lt_succ hhi) hlo
  exact ⟨st, h, hst⟩

theorem State.steady_of_epsilon {st : State} (h : st.chars = .epsilon) : st.Steady := by
  intro g hg
  rw [h] at hg
  cases hg

theorem Steadies.epsilon {st : State} (h : states[lo]? = some st) (hst : st.chars = .epsilon) :
    Steadies states lo (lo + 1) := Steadies.single h (State.steady_of_epsilon hst)

theorem guardMoved_look {ahead negated : Bool} {body : Sre} {g : Guard}
    (hguard : ∀ range : Range, range.Valid → ∀ i, range.start ≤ i → i ≤ range.stop →
      (g range.str i range.start range.stop = true ↔
        LookHolds (Spans env body Flags.none) ahead negated range i)) : GuardMoved g := by
  intro a range range' h i hstart hstop
  rw [Bool.eq_iff_iff, hguard range h.valid i hstart hstop]
  have hstart' : range'.start ≤ i + a := by
    rw [h.start]
    exact Nat.add_le_add_right hstart a
  have hstop' : i + a ≤ range'.stop := by
    rw [h.stop]
    exact Nat.add_le_add_right hstop a
  rw [hguard range' h.valid' (i + a) hstart' hstop']
  exact lookHolds_moved h (fun _ _ h' => spans_moved env body Flags.none h')
    (fun range => spans_forward env body Flags.none range) ahead negated hstart hstop

theorem Fragment.steady (h : Fragment env states flags sre lo hi base entry next) :
    Steadies states lo hi := by
  induction h with
  | chars h => exact Steadies.single h nofun
  | string _ ih => exact ih
  | epsilon => exact Steadies.empty
  | assertion h =>
    refine Steadies.single h fun g hg => ?_
    cases hg
    exact guardMoved_assertion _
  | look h hguard =>
    refine Steadies.single h fun g hg => ?_
    cases hg
    exact guardMoved_look hguard
  | nil => exact Steadies.empty
  | seq hjoin _ _ ih_first ih_rest => exact ((Steadies.epsilon hjoin rfl).append ih_first).append ih_rest
  | fail => exact Steadies.empty
  | altSet _ _ h => exact Steadies.single h nofun
  | altOne _ _ ih => exact ih
  | alt _ _ _ hfork ih_first ih_rest =>
    exact (ih_first.append ih_rest).append (Steadies.epsilon hfork rfl)
  | optional _ hfork ih => exact ih.append (Steadies.epsilon hfork rfl)
  | star hleave _ henter ih =>
    exact ((Steadies.epsilon hleave rfl).append ih).append (Steadies.epsilon henter rfl)
  | plus hleave _ ih => exact (Steadies.epsilon hleave rfl).append ih
  | exactly _ _ ih => exact ih
  | atLeast _ _ ih => exact ih
  | repeated _ _ ih => exact ih
  | submatch _ hend _ hstart ih =>
    exact ((Steadies.epsilon hend rfl).append ih).append (Steadies.epsilon hstart rfl)
  | noSubmatch _ _ ih => exact ih
  | named _ ih => exact ih
  | withFlags _ ih => exact ih

theorem Rx.Of.guardsMoved {rx : Rx} (h : rx.Of env flags sre) : rx.GuardsMoved := by
  intro st hst
  obtain ⟨q, hq⟩ := List.mem_iff_getElem?.mp hst
  obtain ⟨entry, hend, hfragment, hstart⟩ := h.body
  have hall : Steadies rx.states 0 (rx.startState + 1) :=
    (((Steadies.epsilon h.accept rfl).append (Steadies.epsilon hend rfl)).append
      hfragment.steady).append (Steadies.epsilon hstart rfl)
  have hlt : q < rx.startState + 1 := by
    rw [← h.length]
    exact (List.getElem?_eq_some_iff.mp hq).1
  obtain ⟨st', hst', hsteady⟩ := hall q (Nat.zero_le q) hlt
  rw [hq] at hst'
  cases hst'
  exact hsteady

end Fragments

end Regexp

end ChibiScheme
