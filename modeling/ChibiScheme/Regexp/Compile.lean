import ChibiScheme.Regexp.Machine

/-!
# Compiling an SRE

`->rx` builds the states of an SRE in front of the state that comes next, and joins loops and
sequences by setting the transitions of a state made before.  A state is named by its place in the
list of all states.  An `or` without alternatives has no state at all.
-/

namespace ChibiScheme

namespace Regexp

/-- Why `regexp` raises. -/
inductive CompileError where
  | unknownSre
  | invalidCharSet
  | fuel
deriving DecidableEq

/-- What the compiler is given: the Unicode tables, the expression for a grapheme, and the order of
the hash tables that the look-around assertions search with -/
structure Env where
  charSetCi : CharSet → CharSet
  wordConstituent : CharSet
  grapheme : Rx
  /-- It is made of character sets. -/
  grapheme_sets : ∀ st ∈ grapheme.states, ∀ g, st.chars ≠ .guard g
  order : Order

/-! ## Matchers between characters -/

/-- `#\newline` -/
def newline : Char := Char.ofNat 10

/-- The character at `i` is in the set. -/
def charIn (cs : CharSet) (str : List Char) (i : ℕ) : Bool :=
  match str[i]? with
  | none => false
  | some ch => cs ch

/-- `match/bos` -/
def matchBos : Guard := fun _ i start _ => i = start

/-- `match/eos` -/
def matchEos : Guard := fun _ i _ stop => i ≥ stop

/-- `match/bol` -/
def matchBol : Guard := fun str i start _ => i = start || str[i - 1]? = some newline

/-- `match/eol` -/
def matchEol : Guard := fun str i _ stop => i ≥ stop || str[i]? = some newline

namespace Env

variable (env : Env)

/-- `match/bow` -/
def matchBow : Guard := fun str i start stop =>
  i < stop && (i = start || !charIn env.wordConstituent str (i - 1)) &&
    charIn env.wordConstituent str i

/-- `match/eow` -/
def matchEow : Guard := fun str i start stop =>
  (i ≥ stop || !charIn env.wordConstituent str i) && i > start &&
    charIn env.wordConstituent str (i - 1)

/-- `match/nwb` -/
def matchNwb : Guard := fun str i start stop =>
  !env.matchBow str i start stop && !env.matchEow str i start stop

/-- `match/eog`, which looks for a grapheme from the position on -/
def matchEog : Guard := fun str i start stop =>
  i > start && (i ≥ stop ||
    match env.grapheme.runOffsets env.order true ⟨str, i, stop⟩ with
    | some (some m) =>
      match m.ref 1 with
      | none => false
      | some found => found ≤ i
    | _ => false)

/-- `match/bog` -/
def matchBog : Guard := fun str i start stop =>
  i < stop && (i = start || env.matchEog str (i - 1) start stop)

/-- The matcher procedure of a symbol -/
def matchAssertion : Assertion → Guard
  | .bos => matchBos
  | .eos => matchEos
  | .bol => matchBol
  | .eol => matchEol
  | .bow => env.matchBow
  | .eow => env.matchEow
  | .nwb => env.matchNwb
  | .bog => env.matchBog
  | .eog => env.matchEog

/-- `regexp-run-offsets` finds something. -/
def finds (rx : Rx) (range : Range) : Bool :=
  match rx.runOffsets env.order true range with
  | some (some _) => true
  | _ => false

/-- `match/look-ahead` and `match/look-behind` and their negations -/
def matchLook (ahead negated : Bool) (rx : Rx) : Guard := fun str i start stop =>
  let found := env.finds rx (if ahead then ⟨str, i, stop⟩ else ⟨str, start, i⟩)
  if negated then !found else found

/-! ## Characters -/

/-- The set as the flags ask for it. -/
def maybeCi (flags : Flags) (cs : CharSet) : CharSet := if flags.ci then env.charSetCi cs else cs

/-- The character set of the state for what matches one character -/
def charSre (flags : Flags) : CharSre → CharSet
  | .char c => env.maybeCi flags fun ch => ch = c
  | .object cs => env.maybeCi flags cs
  | .expression cs => cs flags

end Env

namespace Sre

/-- `char-set-sre?` of an SRE, or of every item of a sequence -/
def charSets : Bool → Sre → Bool
  | true, nil => true
  | true, seq first rest => charSets false first && charSets true rest
  | _, chars (.object _) => false
  | _, chars _ => true
  | _, string s => s.length = 1
  | _, fail => true
  | _, alt first rest => charSets false first && charSets false rest
  | _, withFlags change body => change ≠ .withNocapture && charSets true body
  | _, _ => false

/-- `char-set-sre?` -/
def charSetSre (sre : Sre) : Bool := charSets false sre

/-- `sre->char-set` of an SRE, or of the only item of a sequence -/
def toCharSets (env : Env) : Bool → Sre → Flags → Except CompileError CharSet
  | true, seq sre nil, flags => toCharSets env false sre flags
  | _, chars cs, flags => .ok (env.charSre flags cs)
  | _, string [c], flags => .ok (env.maybeCi flags fun ch => ch = c)
  | _, fail, _ => .ok fun _ => false
  | _, alt first rest, flags => do
      let cs1 ← toCharSets env false first flags
      let cs2 ← toCharSets env false rest flags
      pure fun ch => cs1 ch || cs2 ch
  | _, withFlags change body, flags =>
    if change = .withNocapture then .error .invalidCharSet
    else toCharSets env true body (change.apply flags)
  | _, _, _ => .error .invalidCharSet

/-- `sre->char-set` -/
def toCharSet (env : Env) (sre : Sre) (flags : Flags) : Except CompileError CharSet :=
  toCharSets env false sre flags

/-- One more item at the end of a sequence -/
def snoc : Sre → Sre → Sre
  | nil, sre => seq sre nil
  | seq first rest, sre => seq first (snoc rest sre)
  | other, sre => seq other (seq sre nil)

/-- The items after the symbol `:` -/
def itemsOf : List Item → Except CompileError Sre
  | [] => .ok nil
  | .sre sre :: rest => do
      let rest ← itemsOf rest
      pure (seq sre rest)
  | .colon :: _ => .error .unknownSre

/-- A list is a form only with the symbol `:` at its head. -/
def ofForm : List Item → Except CompileError Sre
  | .colon :: rest => itemsOf rest
  | _ => .error .unknownSre

end Sre

/-! ## States -/

/-- The states made so far and the counters of `regexp` -/
structure Builder where
  states : List State
  currentIndex : ℕ
  currentMatch : ℕ
  matchNames : List (String × ℕ)
  matchRules : List (ℕ × ℕ)
  nonGreedyIndexes : List ℕ

/-- `make-fork-state` -/
def State.fork (next1 next2 : Option ℕ) : State := ⟨false, .epsilon, none, none, next1, next2⟩

/-- `make-epsilon-state` -/
def State.ofEpsilon (next : Option ℕ) : State := State.fork next none

/-- `make-char-state` -/
def State.ofChars (chars : Matcher) (next : ℕ) : State := ⟨false, chars, none, none, some next, none⟩

/-- `make-accept-state` -/
def State.ofAccept : State := ⟨true, .epsilon, none, none, none, none⟩

namespace Builder

variable (b : Builder)

/-- The number of the next state. -/
def nextId : ℕ := b.states.length

/-- A new state behind the others. -/
def add (st : State) : Builder := { b with states := b.states ++ [st] }

/-- `state-next1-set!` -/
def setNext1 (q : ℕ) (next : Option ℕ) : Builder :=
  { b with states := b.states.modify q fun st => { st with next1 := next } }

/-- `state-next2-set!` -/
def setNext2 (q : ℕ) (next : Option ℕ) : Builder :=
  { b with states := b.states.modify q fun st => { st with next2 := next } }

/-- `state-match-set!` and `state-match-rule-set!` -/
def setMatch (q index : ℕ) (rule : Rule) : Builder :=
  { b with states := b.states.modify q fun st => { st with index := some index, rule := some rule } }

end Builder

/-- What compiling returns: the first state, if there is one, and the states made -/
abbrev Compiled := Except CompileError (Option ℕ × Builder)

/-- `make-submatch-state`, with the compiler for the body -/
def makeSubmatchState (compile : ℕ → Builder → Compiled) (sre : Sre) (next index : ℕ) (b : Builder) :
    Except CompileError (ℕ × Builder) := do
  let n3 := b.nextId
  let b := b.add (.ofEpsilon (some next))
  let (n2, b) ← compile n3 b
  let n1 := b.nextId
  let b := b.add (.ofEpsilon n2)
  let nonGreedy := sre.nonGreedySre
  let b := b.setMatch n1 index .left
  let b := b.setMatch n3 (index + 1) (if nonGreedy then .nonGreedyLeft else .right)
  let b := if nonGreedy then { b with nonGreedyIndexes := (index + 1) :: b.nonGreedyIndexes } else b
  pure (n1, b)

/-- `regexp`, with the compiler for the SRE -/
def regexpWith (compile : ℕ → Builder → Compiled) (sre : Sre) : Except CompileError Rx := do
  let b : Builder := ⟨[], 2, 0, [], [(0, 1)], []⟩
  let acceptState := b.nextId
  let b := b.add .ofAccept
  let (start, b) ← makeSubmatchState compile sre acceptState 0 b
  pure ⟨b.states, start, b.currentMatch, b.currentIndex, b.nonGreedyIndexes, b.matchRules.reverse,
    b.matchNames⟩

/-- `->rx` -/
def toRx (env : Env) : ℕ → Sre → Flags → ℕ → Builder → Compiled
  | 0, _, _, _, _ => .error .fuel
  | fuel + 1, sre, flags, next, b =>
    match sre with
    | .chars cs => .ok (some b.nextId, b.add (.ofChars (.set (env.charSre flags cs)) next))
    | .string s => toRx env fuel (.ofList (s.map fun c => .chars (.char c))) flags next b
    | .epsilon => .ok (some next, b)
    | .assertion a => .ok (some b.nextId, b.add (.ofChars (.guard (env.matchAssertion a)) next))
    | .look ahead negated body => do
        let inner : Sre :=
          if ahead then .seq (.assertion .bos) body else body.snoc (.assertion .eos)
        let rx ← regexpWith (toRx env fuel inner Flags.none) inner
        pure (some b.nextId, b.add (.ofChars (.guard (env.matchLook ahead negated rx)) next))
    | .nil => .ok (some next, b)
    | .seq first rest => do
        let n2 := b.nextId
        let b := b.add (.ofEpsilon none)
        let (n1, b) ← toRx env fuel first flags n2 b
        let (n3, b) ← toRx env fuel rest flags next b
        pure (n1, b.setNext1 n2 n3)
    | .fail => .ok (none, b)
    | .alt first rest =>
      if sre.charSetSre then do
        let cs ← sre.toCharSet env Flags.none
        pure (some b.nextId, b.add (.ofChars (.set (env.maybeCi flags cs)) next))
      else
        match rest with
        | .fail => toRx env fuel first flags next b
        | rest => do
            let (n1, b) ← toRx env fuel first flags next b
            let (n2, b) ← toRx env fuel rest flags next b
            pure (some b.nextId, b.add (.fork n1 n2))
    | .optional _ body => do
        let (n1, b) ← toRx env fuel body flags next b
        pure (some b.nextId, b.add (.fork n1 (some next)))
    | .star _ body => do
        let n2 := b.nextId
        let b := b.add (.fork (some next) none)
        let (first, b) ← toRx env fuel body flags n2 b
        let n1 := b.nextId
        let b := b.add (.fork first (some n2))
        pure (some n1, b.setNext2 n2 (some n1))
    | .plus body => do
        let n2 := b.nextId
        let b := b.add (.fork (some next) none)
        let (n1, b) ← toRx env fuel body flags n2 b
        pure (n1, b.setNext2 n2 n1)
    | .exactly n body => do
        let form ← Sre.ofForm (Sre.sreExpandReps n (some n) body)
        toRx env fuel form flags next b
    | .atLeast n body => do
        let form ← Sre.ofForm (Sre.sreExpandReps n none body)
        toRx env fuel form flags next b
    | .repeated _ n m body => do
        let form ← Sre.ofForm (Sre.sreExpandReps n (some m) body)
        toRx env fuel form flags next b
    | .submatch body =>
      if flags.nocapture then toRx env fuel body flags next b
      else do
        let index := b.currentIndex
        let b := { b with
          currentMatch := b.currentMatch + 1
          currentIndex := b.currentIndex + 2
          matchRules := (index, index + 1) :: b.matchRules }
        let (n1, b) ← makeSubmatchState (toRx env fuel body flags) body next index b
        pure (some n1, b)
    | .named name body =>
      if flags.nocapture then toRx env fuel body flags next b
      else
        let b := { b with matchNames := (name, 1 + b.currentMatch) :: b.matchNames }
        toRx env fuel (.submatch body) flags next b
    | .withFlags change body => toRx env fuel body (change.apply flags) next b

/-- How deep `->rx` recurses on an SRE -/
def Sre.depth : Sre → ℕ
  | string s => s.length + 2
  | look _ _ body => body.depth + 3
  | seq first rest => max first.depth (if rest.isSeq then rest.depth else rest.depth + 1) + 1
  | alt first rest => max first.depth rest.depth + 1
  | optional _ body => body.depth + 1
  | star _ body => body.depth + 1
  | plus body => body.depth + 1
  | exactly n body => body.depth + n + n + 5
  | atLeast n body => body.depth + n + 5
  | repeated _ n m body => body.depth + n + m + 5
  | submatch body => body.depth + 1
  | named _ body => body.depth + 2
  | withFlags _ body => (if body.isSeq then body.depth else body.depth + 1) + 1
  | _ => 0

/-- `regexp`: the automaton of an SRE. -/
def regexp (env : Env) (sre : Sre) (flags : Flags) : Except CompileError Rx :=
  regexpWith (toRx env (sre.depth + 1) sre flags) sre

/-! ## Running an SRE -/

/-- What a run returns: an error of the compiler, or the match vector; a run that does not end would be
`none`. -/
abbrev RunResult := Except CompileError (Option (Option Matches))

/-- `regexp-run` on an SRE. -/
def regexpRun (env : Env) (order : Order) (search : Bool) (sre : Sre) (flags : Flags) (range : Range) :
    RunResult := do
  let rx ← regexp env sre flags
  pure (rx.runOffsets order search range)

/-- `regexp-matches` on an SRE. -/
def regexpMatches (env : Env) (order : Order) (sre : Sre) (flags : Flags) (range : Range) : RunResult :=
  regexpRun env order false sre flags range

/-- `regexp-search` on an SRE. -/
def regexpSearch (env : Env) (order : Order) (sre : Sre) (flags : Flags) (range : Range) : RunResult :=
  regexpRun env order true sre flags range

/-- The run ends, with a match or without one. -/
def RunResult.Returns (r : RunResult) : Prop := ∃ m, r = .ok (some m)

/-- A match was found. -/
def RunResult.Succeeds (r : RunResult) : Prop := ∃ m, r = .ok (some (some m))

instance (r : RunResult) : Decidable r.Succeeds :=
  match r with
  | .ok (some (some m)) => .isTrue ⟨m, rfl⟩
  | .ok (some none) => .isFalse nofun
  | .ok none => .isFalse nofun
  | .error _ => .isFalse nofun

end Regexp

end ChibiScheme
