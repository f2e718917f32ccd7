import Mathlib.Data.Nat.Notation

/-!
# The syntax of regular expressions

An SRE is a list whose head names the operator.  The items of a form are one sequence here, built
item by item: `(* a b)` is `star` of the sequence of `a` and `b`.  Characters and character sets
stand for the set of characters they match.
-/

namespace ChibiScheme

namespace Regexp

/-- A SRFI 14 set, by its membership. -/
abbrev CharSet := Char → Bool

/-- `~ci?`, `~ascii?` and `~nocapture?` -/
structure Flags where
  ci : Bool
  ascii : Bool
  nocapture : Bool
deriving DecidableEq

/-- `~none` -/
def Flags.none : Flags := ⟨false, false, false⟩

/-- The SREs that change a flag. -/
inductive FlagChange where
  | withCase
  | withNocase
  | withUnicode
  | withAscii
  | withNocapture
deriving DecidableEq

/-- The flags inside such an SRE. -/
def FlagChange.apply (flags : Flags) : FlagChange → Flags
  | withCase => { flags with ci := false }
  | withNocase => { flags with ci := true }
  | withUnicode => { flags with ascii := false }
  | withAscii => { flags with ascii := true }
  | withNocapture => { flags with nocapture := true }

/-- The symbols that match between characters -/
inductive Assertion where
  | bos
  | eos
  | bol
  | eol
  | bow
  | eow
  | nwb
  | bog
  | eog
deriving DecidableEq

/-- What matches one character -/
inductive CharSre where
  | char (c : Char)
  /-- a character set object -/
  | object (cs : CharSet)
  /-- the name of a set or an expression for one, by the set it makes under the flags -/
  | expression (cs : Flags → CharSet)

/-- An SRE.  The sequence of the items of a form ends in `nil`, the alternatives of an `or` in
`fail`. -/
inductive Sre where
  | chars (cs : CharSre)
  | string (s : List Char)
  | epsilon
  | assertion (a : Assertion)
  /-- `look-ahead` and `look-behind`, or their negations -/
  | look (ahead negated : Bool) (body : Sre)
  | nil
  | seq (first rest : Sre)
  | fail
  | alt (first rest : Sre)
  | optional (greedy : Bool) (body : Sre)
  | star (greedy : Bool) (body : Sre)
  | plus (body : Sre)
  | exactly (n : ℕ) (body : Sre)
  | atLeast (n : ℕ) (body : Sre)
  | repeated (greedy : Bool) (n m : ℕ) (body : Sre)
  | submatch (body : Sre)
  | named (name : String) (body : Sre)
  | withFlags (change : FlagChange) (body : Sre)

namespace Sre

/-- The sequence of these items -/
def ofList : List Sre → Sre
  | [] => nil
  | sre :: items => seq sre (ofList items)

/-- An operator of the non-greedy kind. -/
def nonGreedySre : Sre → Bool
  | optional greedy _ => !greedy
  | star greedy _ => !greedy
  | repeated greedy _ _ _ => !greedy
  | seq first nil => nonGreedySre first
  | seq _ rest => nonGreedySre rest
  | withFlags change body => change ≠ .withNocapture && nonGreedySre body
  | alt first rest => nonGreedySre first || nonGreedySre rest
  | _ => false

/-- A list of SREs. -/
def isSeq : Sre → Bool
  | nil => true
  | seq _ _ => true
  | _ => false

/-- A body that is no sequence is its one item; what comes of it becomes a sequence again. -/
def asSeq (body sre : Sre) : Sre := if body.isSeq then sre else seq sre nil

/-- `strip-submatches` -/
def stripSubmatches : Sre → Sre
  | submatch body => asSeq body (stripSubmatches body)
  | named _ body => asSeq body (stripSubmatches body)
  | look ahead negated body => look ahead negated (stripSubmatches body)
  | seq first rest => seq (stripSubmatches first) (asSeq rest (stripSubmatches rest))
  | alt first rest => alt (stripSubmatches first) (stripSubmatches rest)
  | optional greedy body => optional greedy (stripSubmatches body)
  | star greedy body => star greedy (stripSubmatches body)
  | plus body => plus (stripSubmatches body)
  | exactly n body => exactly n (stripSubmatches body)
  | atLeast n body => atLeast n (stripSubmatches body)
  | repeated greedy n m body => repeated greedy n m (stripSubmatches body)
  | withFlags change body => withFlags change (asSeq body (stripSubmatches body))
  | chars cs => chars cs
  | string s => string s
  | epsilon => epsilon
  | assertion a => assertion a
  | nil => nil
  | fail => fail

/-- A list under construction: the symbol `:` or an item -/
inductive Item where
  | colon
  | sre (sre : Sre)

/-- `n` copies in front of the rest. -/
def pushCopies : ℕ → Sre → List Item → List Item
  | 0, _, res => res
  | n + 1, sre, res => pushCopies n sre (.sre sre :: res)

/-- `sre-expand-reps`; the list is read as a form afterwards. -/
def sreExpandReps (low : ℕ) (high : Option ℕ) (sre : Sre) : List Item :=
  let sre0 := stripSubmatches sre
  let res := pushCopies low sre0 [.colon]
  match high with
  | none => (.sre (star true (seq sre nil)) :: res).reverse
  | some high =>
    if low = high then (.sre sre :: res.tail).reverse
    else (.sre (optional true (seq sre nil)) :: pushCopies (high - (low + 1)) (optional true (seq sre0 nil)) res).reverse

end Sre

/-! ## Running a regular expression

The compiled expression is a graph of states.  A searcher is a state with the positions recorded on
the way to it, a posse holds one searcher for each state.  The posses are hash tables, and what order
they are walked in is left open: `Order` gives some order, which may depend on everything that
happened to the table. -/

/-- A matcher procedure, given the string, the position and the ends of the range -/
abbrev Guard := List Char → ℕ → ℕ → ℕ → Bool

/-- `state-chars`: `#f`, a character set or a procedure -/
inductive Matcher where
  | epsilon
  | set (cs : CharSet)
  | guard (g : Guard)

/-- `state-match-rule` -/
inductive Rule where
  | left
  | right
  | nonGreedyLeft
deriving DecidableEq

/-- A state; the others are named by their places in the list of states. -/
structure State where
  accept : Bool
  chars : Matcher
  /-- the position of the match vector to record -/
  index : Option ℕ
  rule : Option Rule
  next1 : Option ℕ
  next2 : Option ℕ

/-- A compiled regular expression -/
structure Rx where
  states : List State
  startState : ℕ
  numMatches : ℕ
  numSaveIndexes : ℕ
  nonGreedyIndexes : List ℕ
  rules : List (ℕ × ℕ)
  names : List (String × ℕ)

/-- The vector of recorded positions -/
abbrev Matches := List (Option ℕ)

/-- `regexp-match-ref` -/
def Matches.ref (m : Matches) (n : ℕ) : Option ℕ := m[n]?.join

/-- The comparison of one pair of positions, which are not the same on both sides -/
def pairGe (nonGreedy : Bool) (start1 end1 start2 end2 : Option ℕ) : Bool :=
  match start2 with
  | none => true
  | some s2 =>
    match start1 with
    | none => false
    | some s1 =>
      let longer : Bool :=
        s2 = s1 && match end2 with
          | none => true
          | some e2 =>
            match end1 with
            | none => false
            | some e1 => e2 > e1
      let incomplete : Bool := match end1 with
        | none => false
        | some e1 => e1 < s1
      !(s2 < s1 || incomplete || (if nonGreedy then !longer else longer))

/-- `regexp-match>=?`, from the pair at an even position on -/
def matchGe (nonGreedyIndexes : List ℕ) : ℕ → Matches → Matches → Bool
  | i, start1 :: end1 :: m1, start2 :: end2 :: m2 =>
    if start1 = start2 ∧ end1 = end2 then matchGe nonGreedyIndexes (i + 2) m1 m2
    else pairGe (nonGreedyIndexes.contains (i + 1)) start1 end1 start2 end2
  | _, _, _ => true

/-- A state with the positions recorded so far -/
structure Searcher where
  state : ℕ
  found : Matches
deriving DecidableEq

/-- The searchers of a hash table, in the order in which they were added -/
abbrev Posse := List Searcher

/-- `posse-ref` -/
def posseRef (posse : Posse) (q : ℕ) : Option Searcher := posse.find? fun sr => sr.state = q

/-- The searcher takes the place of the one at its state. -/
def posseSet (posse : Posse) (sr : Searcher) : Posse :=
  posse.map fun old => if old.state = sr.state then sr else old

/-- The states of a posse. -/
def posseKeys (posse : Posse) : List ℕ := posse.map Searcher.state

/-- The order in which the hash tables of a search are walked, given the keys they held before -/
structure Order where
  perm : Rx → List (List ℕ) → List ℕ → List ℕ
  isPerm : ∀ rx past keys, (perm rx past keys).Perm keys

/-- `posse-for-each` -/
def Order.walk (order : Order) (rx : Rx) (past : List (List ℕ)) (posse : Posse) : List Searcher :=
  (order.perm rx past (posseKeys posse)).filterMap (posseRef posse)

/-- The posses and the accepted searcher that `posse-advance!` writes to -/
structure Closure where
  new : Posse
  seen : Posse
  accept : Option Searcher

/-- The string and the part of it that is searched. -/
structure Range where
  str : List Char
  start : ℕ
  stop : ℕ

namespace State

/-- `epsilon-state?` -/
def isEpsilon (st : State) : Bool :=
  match st.chars with
  | .set _ => false
  | _ => true

/-- `state-matches?` between characters -/
def passes (st : State) (range : Range) (i : ℕ) : Bool :=
  match st.chars with
  | .guard g => g range.str i range.start range.stop
  | _ => true

/-- `state-matches?` of a character -/
def takes (st : State) (ch : Char) : Bool :=
  match st.chars with
  | .set cs => cs ch
  | _ => true

/-- A non-greedy end stays if it was recorded for this start. -/
def keeps (st : State) (k : ℕ) (m : Matches) : Bool :=
  st.rule = some .nonGreedyLeft &&
    match m.ref k, m.ref (k - 1) with
    | some recorded, some start => start ≤ recorded
    | _, _ => false

/-- The matches after the state has recorded its position. -/
def record (st : State) (i : ℕ) (m : Matches) : Matches :=
  match st.index with
  | none => m
  | some k => if st.keeps k m then m else m.set k (some i)

end State

namespace Rx

variable (rx : Rx)

/-- `searcher-merge!`: the better of two vectors of positions -/
def merge (sr1 sr2 : Searcher) : Searcher :=
  if matchGe rx.nonGreedyIndexes 0 sr1.found sr2.found then sr1 else { sr1 with found := sr2.found }

/-- `searcher>=?` -/
def searcherGe (sr : Searcher) : Option Searcher → Bool
  | none => true
  | some accepted => matchGe rx.nonGreedyIndexes 0 sr.found accepted.found

/-- The better one of an accepted searcher and a new one. -/
def offer (accept : Option Searcher) (sr : Searcher) : Option Searcher :=
  if rx.searcherGe sr accept then some sr else accept

/-- `advance!`, as deep as the fuel goes.  The searchers in `seen` are only looked up by the state
they were added with. -/
def advance (range : Range) (i : ℕ) : ℕ → Searcher → Closure → Option Closure
  | 0, _, _ => none
  | fuel + 1, sr, c => do
      let st ← rx.states[sr.state]?
      let sr := { sr with found := st.record i sr.found }
      if st.accept then
        pure { c with accept := rx.offer c.accept sr }
      else
        match posseRef c.seen sr.state with
        | some prev => pure { c with seen := posseSet c.seen (rx.merge prev sr) }
        | none =>
          if st.isEpsilon then
            if st.passes range i then
              let c := { c with seen := c.seen ++ [sr] }
              let c ← match st.next1 with
                | none => pure c
                | some next1 => advance range i fuel ⟨next1, sr.found⟩ c
              match st.next2 with
              | none => pure c
              | some next2 => advance range i fuel ⟨next2, sr.found⟩ c
            else pure c
          else
            match posseRef c.new sr.state with
            | some prev => pure { c with new := posseSet c.new (rx.merge prev sr) }
            | none => pure { c with new := c.new ++ [sr] }

/-- `posse-advance!` with an empty table of epsilon states -/
def posseAdvance (range : Range) (i : ℕ) (sr : Searcher) (new : Posse) (accept : Option Searcher) :
    Option (Posse × Option Searcher) := do
  let c ← rx.advance range i (rx.states.length + 1) sr ⟨new, [], accept⟩
  pure (c.new, c.accept)

/-- `make-start-searcher` -/
def startSearcher : Searcher := ⟨rx.startState, List.replicate rx.numSaveIndexes none⟩

/-- One searcher takes the character, if its state does. -/
def advanceSearcher (range : Range) (i : ℕ) (ch : Char) (acc : Posse × Option Searcher)
    (sr : Searcher) : Option (Posse × Option Searcher) := do
  let st ← rx.states[sr.state]?
  if st.takes ch then
    let next1 ← st.next1
    rx.posseAdvance range (i + 1) ⟨next1, sr.found⟩ acc.1 acc.2
  else pure acc

/-- The search ends early: every searcher started after the accepted one, or none is left. -/
def settled (search : Bool) (searchers : Posse) (accept : Option Searcher) : Bool :=
  if search then
    match accept with
    | none => false
    | some accepted =>
      searchers.all fun sr =>
        match sr.found.ref 0, accepted.found.ref 0 with
        | some start, some acceptStart => start > acceptStart
        | _, _ => false
  else searchers.isEmpty

/-- The loop of `regexp-advance!`, with the number of characters left -/
def advanceLoop (order : Order) (search : Bool) (range : Range) :
    ℕ → ℕ → List (List ℕ) → Posse → Option Searcher → Option (Option Searcher)
  | left, i, past, searchers, accept => do
      let (searchers1, accept) ←
        if search || i = range.start then rx.posseAdvance range i rx.startSearcher searchers accept
        else pure (searchers, accept)
      match left with
      | 0 => pure accept
      | left + 1 =>
        if settled search searchers1 accept then pure accept
        else
          let ch ← range.str[i]?
          let (searchers2, accept) ←
            (order.walk rx past searchers1).foldlM (rx.advanceSearcher range i ch) ([], accept)
          advanceLoop order search range left (i + 1) (posseKeys searchers1 :: past) searchers2 accept

/-- The search over the whole range: the searcher that is accepted at the end. -/
def regexpAdvance (order : Order) (search : Bool) (range : Range) : Option (Option Searcher) :=
  rx.advanceLoop order search range (range.stop - range.start) range.start [] [] none

/-- `regexp-run-offsets` -/
def runOffsets (order : Order) (search : Bool) (range : Range) : Option (Option Matches) := do
  match ← rx.regexpAdvance order search range with
  | none => pure none
  | some accepted =>
    if search then pure (some accepted.found)
    else
      let stop ← accepted.found.ref 1
      pure (if stop ≥ range.stop then some accepted.found else none)

end Rx

end Regexp

end ChibiScheme
