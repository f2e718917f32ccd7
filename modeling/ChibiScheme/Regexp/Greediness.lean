import ChibiScheme.Regexp.Api

/-!
# Counted repetition

A repetition matches so many matches of its body, one after the other.  Zero copies cannot be asked
for: the form that they are expanded to has lost its head.
-/

namespace ChibiScheme

namespace Regexp

/-- `regexp-matches` ends, and succeeds under the condition. -/
def MatchesWhen (env : Env) (order : Order) (flags : Flags) (range : Range) (sre : Sre)
    (condition : Prop) : Prop :=
  (regexpMatches env order sre flags range).Returns ∧
    ((regexpMatches env order sre flags range).Succeeds ↔ condition)

theorem matchesWhen_iff (env : Env) (order : Order) (flags : Flags) {range : Range} {sre : Sre}
    (hrange : range.Valid) (hgreedy : sre.nonGreedySre = false) :
    MatchesWhen env order flags range sre (Spans env sre flags range range.start range.stop) ↔
      sre.Compiles env := by
  rw [MatchesWhen, regexpMatches, returns_iff hrange, ← regexpMatches,
    regexpMatches_succeeds_iff hrange]
  constructor
  · exact fun h => h.1
  · refine fun hcompiles => ⟨hcompiles, fun h => h.2.1, fun hspans => ⟨hcompiles, hspans, ?_⟩⟩
    intro hlazy
    rw [hgreedy] at hlazy
    cases hlazy

/-- Exactly `n`, at least `n`, and `n` to `m` matches of the body: all but zero copies are matched as
they should. -/
theorem counts_iff (env : Env) (order : Order) (flags : Flags) (range : Range)
    (hrange : range.Valid) (body : Sre) (n m : ℕ) (hle : n ≤ m) :
    (MatchesWhen env order flags range (.exactly n body)
        (Iterated (Spans env body flags range) n range.start range.stop) ↔
      n ≠ 0 ∧ body.Compiles env) ∧
    (MatchesWhen env order flags range (.atLeast n body)
        (∃ k, n ≤ k ∧ Iterated (Spans env body flags range) k range.start range.stop) ↔
      body.Compiles env) ∧
    (MatchesWhen env order flags range (.repeated true n m body)
        (∃ k, n ≤ k ∧ k ≤ m ∧ Iterated (Spans env body flags range) k range.start range.stop) ↔
      m ≠ 0 ∧ body.Compiles env) := by
  refine ⟨?_, ?_, ?_⟩
  · exact matchesWhen_iff env order flags hrange (rfl : (Sre.exactly n body).nonGreedySre = false)
  · exact matchesWhen_iff env order flags hrange (rfl : (Sre.atLeast n body).nonGreedySre = false)
  have hrepeated :=
    matchesWhen_iff env order flags hrange
      (rfl : (Sre.repeated true n m body).nonGreedySre = false)
  rw [Spans, if_pos hle] at hrepeated
  rw [hrepeated]
  refine and_congr_left' (not_congr ⟨fun h => h.2, fun h => ⟨?_, h⟩⟩)
  omega

/-- Two or three copies of "a" -/
theorem counts_iff_two_three :
    MatchesWhen Env.ascii Order.added Flags.none ⟨['a', 'a'], 0, 2⟩
      (.repeated true 2 3 (.seq (.ofChar 'a') .nil))
      (∃ k, 2 ≤ k ∧ k ≤ 3 ∧ Iterated (Spans Env.ascii (.seq (.ofChar 'a') .nil) Flags.none
        ⟨['a', 'a'], 0, 2⟩) k 0 2) :=
  (counts_iff Env.ascii Order.added Flags.none ⟨['a', 'a'], 0, 2⟩ ⟨by decide, by decide⟩
    (.seq (.ofChar 'a') .nil) 2 3 (by decide)).2.2.mpr ⟨by decide, trivial, trivial⟩

/-- No copy of "a" should match the empty string, but is no SRE. -/
theorem no_copies_fail :
    Iterated (Spans Env.ascii (.seq (.ofChar 'a') .nil) Flags.none ⟨[], 0, 0⟩) 0 0 0 ∧
      ¬ (regexpMatches Env.ascii Order.added (.exactly 0 (.seq (.ofChar 'a') .nil)) Flags.none
        ⟨[], 0, 0⟩).Succeeds :=
  ⟨rfl, by decide +kernel⟩

/-! ## Greediness

Making operators non-greedy changes neither what an SRE matches nor whether it compiles.  What it can
change is which match a run keeps. -/

/-- The second SRE is the first one with some of its greedy operators made non-greedy. -/
inductive NonGreedier : Sre → Sre → Prop
  | chars {cs} : NonGreedier (.chars cs) (.chars cs)
  | string {s} : NonGreedier (.string s) (.string s)
  | epsilon : NonGreedier .epsilon .epsilon
  | assertion {a} : NonGreedier (.assertion a) (.assertion a)
  | look {ahead negated body body'} (h : NonGreedier body body') :
      NonGreedier (.look ahead negated body) (.look ahead negated body')
  | nil : NonGreedier .nil .nil
  | seq {first first' rest rest'} (hfirst : NonGreedier first first')
      (hrest : NonGreedier rest rest') : NonGreedier (.seq first rest) (.seq first' rest')
  | fail : NonGreedier .fail .fail
  | alt {first first' rest rest'} (hfirst : NonGreedier first first')
      (hrest : NonGreedier rest rest') : NonGreedier (.alt first rest) (.alt first' rest')
  | optional {greedy greedy' body body'} (hgreedy : greedy' = true → greedy = true)
      (h : NonGreedier body body') : NonGreedier (.optional greedy body) (.optional greedy' body')
  | star {greedy greedy' body body'} (hgreedy : greedy' = true → greedy = true)
      (h : NonGreedier body body') : NonGreedier (.star greedy body) (.star greedy' body')
  | plus {body body'} (h : NonGreedier body body') : NonGreedier (.plus body) (.plus body')
  | exactly {n body body'} (h : NonGreedier body body') :
      NonGreedier (.exactly n body) (.exactly n body')
  | atLeast {n body body'} (h : NonGreedier body body') :
      NonGreedier (.atLeast n body) (.atLeast n body')
  | repeated {greedy greedy' n m body body'} (hgreedy : greedy' = true → greedy = true)
      (h : NonGreedier body body') :
      NonGreedier (.repeated greedy n m body) (.repeated greedy' n m body')
  | submatch {body body'} (h : NonGreedier body body') : NonGreedier (.submatch body) (.submatch body')
  | named {name body body'} (h : NonGreedier body body') :
      NonGreedier (.named name body) (.named name body')
  | withFlags {change body body'} (h : NonGreedier body body') :
      NonGreedier (.withFlags change body) (.withFlags change body')

variable {env : Env} {sre sre' : Sre}

/-! ## What does not change -/

theorem NonGreedier.charSets (h : NonGreedier sre sre') (seq : Bool) :
    sre'.charSets seq = sre.charSets seq := by
  induction h generalizing seq with
  | seq _ _ ih_first ih_rest =>
    cases seq with
    | false => rfl
    | true => rw [Sre.charSets, Sre.charSets, ih_first, ih_rest]
  | alt _ _ ih_first ih_rest =>
    cases seq <;> rw [Sre.charSets, Sre.charSets, ih_first, ih_rest]
  | withFlags _ ih => cases seq <;> rw [Sre.charSets, Sre.charSets, ih]
  | _ => cases seq <;> rfl

theorem NonGreedier.toCharSets (h : NonGreedier sre sre') (seq : Bool) (flags : Flags) :
    sre'.toCharSets env seq flags = sre.toCharSets env seq flags := by
  induction h generalizing seq flags with
  | seq _ hrest ih_first ih_rest =>
    cases seq with
    | false => rfl
    | true =>
      cases hrest with
      | nil => exact ih_first false flags
      | _ => rfl
  | alt _ _ ih_first ih_rest =>
    cases seq <;> rw [Sre.toCharSets, Sre.toCharSets, ih_first, ih_rest]
  | withFlags _ ih => cases seq <;> rw [Sre.toCharSets, Sre.toCharSets, ih]
  | _ => cases seq <;> rfl

theorem NonGreedier.alt_charSet {first first' rest rest' : Sre} (hfirst : NonGreedier first first')
    (hrest : NonGreedier rest rest') :
    (Sre.alt first' rest').charSetSre = (Sre.alt first rest).charSetSre ∧
      (Sre.alt first' rest').toCharSet env Flags.none =
        (Sre.alt first rest).toCharSet env Flags.none :=
  ⟨(NonGreedier.alt hfirst hrest).charSets false,
    (NonGreedier.alt hfirst hrest).toCharSets false Flags.none⟩

theorem NonGreedier.spans (h : NonGreedier sre sre') (flags : Flags) (range : Range) (i j : ℕ) :
    Spans env sre' flags range i j ↔ Spans env sre flags range i j := by
  induction h generalizing flags range i j with
  | look _ ih => exact and_congr_left' (lookHolds_congr (ih Flags.none) _ _)
  | seq _ _ ih_first ih_rest =>
    exact exists_congr fun k => and_congr (ih_first flags range i k) (ih_rest flags range k j)
  | @alt first first' rest rest' hfirst hrest ih_first ih_rest =>
    obtain ⟨hset, hcs⟩ := alt_charSet hfirst hrest
    rw [spans_alt, spans_alt, hset, hcs, ih_first, ih_rest]
  | optional _ _ ih => exact or_congr_right (ih flags range i j)
  | @star _ _ body body' _ _ ih =>
    have heq : Spans env body' flags range = Spans env body flags range :=
      funext fun i => funext fun j => propext (ih flags range i j)
    rw [Spans, Spans, heq]
  | @plus body body' _ ih =>
    have heq : Spans env body' flags range = Spans env body flags range :=
      funext fun i => funext fun j => propext (ih flags range i j)
    rw [Spans, Spans, heq]
  | exactly _ ih => exact iterated_congr (ih flags range) _
  | atLeast _ ih =>
    exact exists_congr fun k => and_congr_right' (iterated_congr (ih flags range) k)
  | repeated _ _ ih =>
    exact exists_congr fun k =>
      and_congr_right' (and_congr_right' (iterated_congr (ih flags range) k))
  | submatch _ ih => exact ih flags range i j
  | named _ ih => exact ih flags range i j
  | withFlags _ ih => exact ih _ range i j
  | _ => exact Iff.rfl

theorem NonGreedier.compiles (h : NonGreedier sre sre') : sre'.Compiles env ↔ sre.Compiles env := by
  induction h with
  | look _ ih => exact ih
  | seq _ _ ih_first ih_rest => exact and_congr ih_first ih_rest
  | @alt first first' rest rest' hfirst hrest ih_first ih_rest =>
    obtain ⟨hset, hcs⟩ := alt_charSet hfirst hrest
    rw [Sre.Compiles, Sre.Compiles, hset, hcs, ih_first, ih_rest]
  | optional _ _ ih => exact ih
  | star _ _ ih => exact ih
  | plus _ ih => exact ih
  | exactly _ ih => exact and_congr_right' ih
  | atLeast _ ih => exact ih
  | repeated _ _ ih => exact and_congr_right' ih
  | submatch _ ih => exact ih
  | named _ ih => exact ih
  | withFlags _ ih => exact ih
  | _ => exact Iff.rfl

theorem NonGreedier.nonGreedySre (h : NonGreedier sre sre') (hsre : sre.nonGreedySre = true) :
    sre'.nonGreedySre = true := by
  induction h with
  | seq hfirst hrest ih_first ih_rest =>
    cases hrest with
    | nil => exact ih_first hsre
    | _ => exact ih_rest hsre
  | alt _ _ ih_first ih_rest =>
    rw [Sre.nonGreedySre, Bool.or_eq_true] at hsre ⊢
    exact hsre.imp ih_first ih_rest
  | @optional greedy greedy' _ _ hgreedy _ _ =>
    cases greedy with
    | true => cases hsre
    | false =>
      cases greedy' with
      | true => cases hgreedy rfl
      | false => rfl
  | @star greedy greedy' _ _ hgreedy _ _ =>
    cases greedy with
    | true => cases hsre
    | false =>
      cases greedy' with
      | true => cases hgreedy rfl
      | false => rfl
  | @repeated greedy greedy' _ _ _ _ hgreedy _ _ =>
    cases greedy with
    | true => cases hsre
    | false =>
      cases greedy' with
      | true => cases hgreedy rfl
      | false => rfl
  | withFlags _ ih =>
    rw [Sre.nonGreedySre, Bool.and_eq_true] at hsre ⊢
    exact ⟨hsre.1, ih hsre.2⟩
  | _ => exact hsre

/-! ## What a run returns -/

/-- The two SREs succeed on the same ranges, with `regexp-matches` and with `regexp-search`. -/
def SameSuccess (env : Env) (order : Order) (flags : Flags) (range : Range) (sre sre' : Sre) : Prop :=
  ((regexpMatches env order sre' flags range).Succeeds ↔
    (regexpMatches env order sre flags range).Succeeds) ∧
  ((regexpSearch env order sre' flags range).Succeeds ↔
    (regexpSearch env order sre flags range).Succeeds)

/-- Greediness does not matter, unless it makes the whole match non-greedy and a shorter part of the
range matches, too: then the first match found is kept. -/
theorem sameSuccess_iff (env : Env) (order : Order) (flags : Flags) (range : Range)
    (hrange : range.Valid) (sre sre' : Sre) (h : NonGreedier sre sre') :
    SameSuccess env order flags range sre sre' ↔
      ¬ (sre.Compiles env ∧ sre'.nonGreedySre = true ∧ sre.nonGreedySre = false ∧
        Spans env sre flags range range.start range.stop ∧
        ∃ j, j < range.stop ∧ Spans env sre flags range range.start j) := by
  have hsearch : (regexpSearch env order sre' flags range).Succeeds ↔
      (regexpSearch env order sre flags range).Succeeds := by
    rw [regexpSearch_succeeds_iff hrange, regexpSearch_succeeds_iff hrange, h.compiles]
    simp only [h.spans]
  rw [SameSuccess, and_iff_left hsearch, regexpMatches_succeeds_iff hrange,
    regexpMatches_succeeds_iff hrange, h.compiles]
  simp only [h.spans]
  constructor
  · rintro hsame ⟨hcompiles, hlazy, hgreedy, hwhole, j, hj, hpart⟩
    have hmatches := hsame.mpr ⟨hcompiles, hwhole, fun htrue => by
      rw [hgreedy] at htrue
      cases htrue⟩
    exact hmatches.2.2 hlazy j hj hpart
  · intro hnot
    constructor
    · rintro ⟨hcompiles, hwhole, hshortest⟩
      exact ⟨hcompiles, hwhole, fun htrue => hshortest (h.nonGreedySre htrue)⟩
    · rintro ⟨hcompiles, hwhole, hshortest⟩
      refine ⟨hcompiles, hwhole, fun hlazy j hj hpart => ?_⟩
      cases hgreedy : sre.nonGreedySre with
      | true => exact hshortest hgreedy j hj hpart
      | false => exact hnot ⟨hcompiles, hlazy, hgreedy, hwhole, j, hj, hpart⟩

/-- A non-greedy operator that is not the last one of the sequence -/
theorem sameSuccess_iff_inner :
    SameSuccess Env.ascii Order.added Flags.none ⟨['a', 'b'], 0, 2⟩
      (.seq (.star true (.seq (.ofChar 'a') .nil)) (.seq (.ofChar 'b') .nil))
      (.seq (.star false (.seq (.ofChar 'a') .nil)) (.seq (.ofChar 'b') .nil)) :=
  (sameSuccess_iff Env.ascii Order.added Flags.none ⟨['a', 'b'], 0, 2⟩ ⟨by decide, by decide⟩ _ _
    (.seq (.star (fun _ => rfl) (.seq .chars .nil)) (.seq .chars .nil))).mpr fun h =>
      Bool.false_ne_true h.2.1

/-- The greedy repetition matches "aa", the non-greedy one does not. -/
theorem nonGreedier_fails :
    NonGreedier (.star true (.seq (.ofChar 'a') .nil)) (.star false (.seq (.ofChar 'a') .nil)) ∧
      ¬ SameSuccess Env.ascii Order.added Flags.none ⟨['a', 'a'], 0, 2⟩
        (.star true (.seq (.ofChar 'a') .nil)) (.star false (.seq (.ofChar 'a') .nil)) := by
  refine ⟨.star nofun (.seq .chars .nil), fun h => ?_⟩
  have hgreedy : (regexpMatches Env.ascii Order.added (.star true (.seq (.ofChar 'a') .nil))
      Flags.none ⟨['a', 'a'], 0, 2⟩).Succeeds := by decide +kernel
  have hlazy : ¬ (regexpMatches Env.ascii Order.added (.star false (.seq (.ofChar 'a') .nil))
      Flags.none ⟨['a', 'a'], 0, 2⟩).Succeeds := by decide +kernel
  exact hlazy (h.1.mpr hgreedy)

end Regexp

end ChibiScheme
