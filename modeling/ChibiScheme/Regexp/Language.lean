import ChibiScheme.Regexp.Compile
import Mathlib.Logic.Relation
import Mathlib.Order.Basic

/-!
# What an SRE matches

An SRE matches from one position of a range to another.  `Spans` says so without the positions of
submatches, `Recorded` with them: it follows one way to match and records what the states of the
compiled expression record.
-/

namespace ChibiScheme

namespace Regexp

/-- The character at the position is before the end of the range and in the set. -/
def Takes (range : Range) (cs : CharSet) (i : ℕ) : Prop :=
  i < range.stop ∧ ∃ ch, range.str[i]? = some ch ∧ cs ch = true

/-- The range lies in the string. -/
structure Range.Valid (range : Range) : Prop where
  start_le : range.start ≤ range.stop
  stop_le : range.stop ≤ range.str.length

/-- So many steps of a relation -/
def Iterated (r : ℕ → ℕ → Prop) : ℕ → ℕ → ℕ → Prop
  | 0, i, j => i = j
  | n + 1, i, j => ∃ k, r i k ∧ Iterated r n k j

/-- The characters of a string, one after the other -/
def SpansString (range : Range) (cs : Char → CharSet) : List Char → ℕ → ℕ → Prop
  | [], i, j => i = j
  | c :: s, i, j => Takes range (cs c) i ∧ SpansString range cs s (i + 1) j

/-- What a look-around assertion says of a position, given what its body matches in a range -/
def LookHolds (spans : Range → ℕ → ℕ → Prop) (ahead negated : Bool) (range : Range) (i : ℕ) : Prop :=
  let found :=
    if ahead then ∃ k, k ≤ range.stop ∧ spans ⟨range.str, i, range.stop⟩ i k
    else ∃ k, range.start ≤ k ∧ spans ⟨range.str, range.start, i⟩ k i
  if negated then ¬ found else found

/-- The SRE matches from the first position to the second. -/
def Spans (env : Env) : Sre → Flags → Range → ℕ → ℕ → Prop
  | .chars cs, flags, range, i, j => Takes range (env.charSre flags cs) i ∧ j = i + 1
  | .string s, flags, range, i, j => SpansString range (fun c => env.charSre flags (.char c)) s i j
  | .epsilon, _, _, i, j => i = j
  | .assertion a, _, range, i, j =>
    env.matchAssertion a range.str i range.start range.stop = true ∧ i = j
  | .look ahead negated body, _, range, i, j =>
    LookHolds (Spans env body Flags.none) ahead negated range i ∧ i = j
  | .nil, _, _, i, j => i = j
  | .seq first rest, flags, range, i, j =>
    ∃ k, Spans env first flags range i k ∧ Spans env rest flags range k j
  | .fail, _, _, _, _ => False
  | .alt first rest, flags, range, i, j =>
    if (Sre.alt first rest).charSetSre then
      ∃ cs, (Sre.alt first rest).toCharSet env Flags.none = .ok cs ∧
        Takes range (env.maybeCi flags cs) i ∧ j = i + 1
    else Spans env first flags range i j ∨ Spans env rest flags range i j
  | .optional _ body, flags, range, i, j => i = j ∨ Spans env body flags range i j
  | .star _ body, flags, range, i, j => Relation.ReflTransGen (Spans env body flags range) i j
  | .plus body, flags, range, i, j => Relation.TransGen (Spans env body flags range) i j
  | .exactly n body, flags, range, i, j => Iterated (Spans env body flags range) n i j
  | .atLeast n body, flags, range, i, j =>
    ∃ k, n ≤ k ∧ Iterated (Spans env body flags range) k i j
  | .repeated _ n m body, flags, range, i, j =>
    -- counts in the wrong order allow one copy more than the first
    ∃ k, n ≤ k ∧ (k ≤ if n ≤ m then m else n + 1) ∧ Iterated (Spans env body flags range) k i j
  | .submatch body, flags, range, i, j => Spans env body flags range i j
  | .named _ body, flags, range, i, j => Spans env body flags range i j
  | .withFlags change body, flags, range, i, j => Spans env body (change.apply flags) range i j

theorem spans_alt {env : Env} {first rest : Sre} {flags : Flags} {range : Range} {i j : ℕ} :
    Spans env (.alt first rest) flags range i j ↔
      ((Sre.alt first rest).charSetSre = true ∧
        ∃ cs, (Sre.alt first rest).toCharSet env Flags.none = .ok cs ∧
          Takes range (env.maybeCi flags cs) i ∧ j = i + 1) ∨
      ((Sre.alt first rest).charSetSre = false ∧
        (Spans env first flags range i j ∨ Spans env rest flags range i j)) := by
  rw [Spans]
  cases (Sre.alt first rest).charSetSre with
  | true => simp
  | false => simp

namespace Sre

/-- How many positions of the match vector the submatches of an SRE take -/
def width : Flags → Sre → ℕ
  | flags, submatch body => if flags.nocapture then width flags body else width flags body + 2
  | flags, named _ body => if flags.nocapture then width flags body else width flags body + 2
  | flags, seq first rest => width flags first + width flags rest
  | flags, alt first rest => width flags first + width flags rest
  | flags, optional _ body => width flags body
  | flags, star _ body => width flags body
  | flags, plus body => width flags body
  | flags, exactly _ body => width flags body
  | flags, atLeast _ body => width flags body
  | flags, repeated _ _ _ body => width flags body
  | flags, withFlags change body => width (change.apply flags) body
  | _, _ => 0

end Sre

/-- The state that records the end of a submatch. -/
def State.ofEnd (nonGreedy : Bool) (base next : ℕ) : State :=
  ⟨false, .epsilon, some (base + 1), some (if nonGreedy then .nonGreedyLeft else .right), some next,
    none⟩

/-- The state that records the start of a submatch. -/
def State.ofStart (base : ℕ) (next : Option ℕ) : State :=
  ⟨false, .epsilon, some base, some .left, next, none⟩

/-- The SRE matches from the first position to the second, and turns the first vector of recorded
positions into the second.  Its submatches are recorded from the given index on. -/
inductive Recorded (env : Env) (range : Range) :
    Flags → Sre → ℕ → ℕ → Matches → ℕ → Matches → Prop
  | chars {flags cs base i m} (h : Takes range (env.charSre flags cs) i) :
      Recorded env range flags (.chars cs) base i m (i + 1) m
  | string {flags s base i m j m'}
      (h : Recorded env range flags (.ofList (s.map fun c => .chars (.char c))) base i m j m') :
      Recorded env range flags (.string s) base i m j m'
  | epsilon {flags base i m} : Recorded env range flags .epsilon base i m i m
  | assertion {flags a base i m}
      (h : env.matchAssertion a range.str i range.start range.stop = true) :
      Recorded env range flags (.assertion a) base i m i m
  | look {flags ahead negated body base i m}
      (h : LookHolds (Spans env body Flags.none) ahead negated range i) :
      Recorded env range flags (.look ahead negated body) base i m i m
  | nil {flags base i m} : Recorded env range flags .nil base i m i m
  | seq {flags first rest base i m k m₁ j m'}
      (hfirst : Recorded env range flags first base i m k m₁)
      (hrest : Recorded env range flags rest (base + first.width flags) k m₁ j m') :
      Recorded env range flags (.seq first rest) base i m j m'
  | altSet {flags first rest cs base i m} (hset : (Sre.alt first rest).charSetSre = true)
      (hcs : (Sre.alt first rest).toCharSet env Flags.none = .ok cs)
      (h : Takes range (env.maybeCi flags cs) i) :
      Recorded env range flags (.alt first rest) base i m (i + 1) m
  | altFirst {flags first rest base i m j m'} (hset : (Sre.alt first rest).charSetSre = false)
      (h : Recorded env range flags first base i m j m') :
      Recorded env range flags (.alt first rest) base i m j m'
  | altRest {flags first rest base i m j m'} (hset : (Sre.alt first rest).charSetSre = false)
      (h : Recorded env range flags rest (base + first.width flags) i m j m') :
      Recorded env range flags (.alt first rest) base i m j m'
  | optionalNil {flags greedy body base i m} :
      Recorded env range flags (.optional greedy body) base i m i m
  | optionalBody {flags greedy body base i m j m'}
      (h : Recorded env range flags body base i m j m') :
      Recorded env range flags (.optional greedy body) base i m j m'
  | starNil {flags greedy body base i m} :
      Recorded env range flags (.star greedy body) base i m i m
  | starStep {flags greedy body base i m k m₁ j m'}
      (hfirst : Recorded env range flags body base i m k m₁)
      (hrest : Recorded env range flags (.star greedy body) base k m₁ j m') :
      Recorded env range flags (.star greedy body) base i m j m'
  | plusOne {flags body base i m j m'} (h : Recorded env range flags body base i m j m') :
      Recorded env range flags (.plus body) base i m j m'
  | plusStep {flags body base i m k m₁ j m'}
      (hfirst : Recorded env range flags body base i m k m₁)
      (hrest : Recorded env range flags (.plus body) base k m₁ j m') :
      Recorded env range flags (.plus body) base i m j m'
  | exactly {flags n body form base i m j m'}
      (hform : Sre.ofForm (Sre.sreExpandReps n (some n) body) = .ok form)
      (h : Recorded env range flags form base i m j m') :
      Recorded env range flags (.exactly n body) base i m j m'
  | atLeast {flags n body form base i m j m'}
      (hform : Sre.ofForm (Sre.sreExpandReps n none body) = .ok form)
      (h : Recorded env range flags form base i m j m') :
      Recorded env range flags (.atLeast n body) base i m j m'
  | repeated {flags greedy n l body form base i m j m'}
      (hform : Sre.ofForm (Sre.sreExpandReps n (some l) body) = .ok form)
      (h : Recorded env range flags form base i m j m') :
      Recorded env range flags (.repeated greedy n l body) base i m j m'
  | submatch {flags body base i m j m'} (hcapture : flags.nocapture = false)
      (h : Recorded env range flags body (base + 2) i (m.set base (some i)) j m') :
      Recorded env range flags (.submatch body) base i m j
        ((State.ofEnd body.nonGreedySre base 0).record j m')
  | noSubmatch {flags body base i m j m'} (hcapture : flags.nocapture = true)
      (h : Recorded env range flags body base i m j m') :
      Recorded env range flags (.submatch body) base i m j m'
  | named {flags name body base i m j m'}
      (h : Recorded env range flags (.submatch body) base i m j m') :
      Recorded env range flags (.named name body) base i m j m'
  | withFlags {flags change body base i m j m'}
      (h : Recorded env range (change.apply flags) body base i m j m') :
      Recorded env range flags (.withFlags change body) base i m j m'

end Regexp

end ChibiScheme
