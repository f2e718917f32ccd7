import Mathlib.Data.Nat.BitIndices
import Mathlib.Data.Nat.Size
import Mathlib.Data.Int.Basic

/-!
# Integer sets

An integer set is a tree of nodes.  A node holds a range of integers: all of them, or those whose bits
are set in a bitmap.  The left subtree is meant for what lies before the range and the right subtree
for what lies behind it.

The sets are changed in place; here a change is a new tree.  The bitwise operations are those on natural
numbers: the bitmaps of the program are never negative.
-/

namespace ChibiScheme.IntegerSet

/-! ## Bits -/

/-- `arithmetic-shift` -/
def shift (n : ℕ) (count : ℤ) : ℕ :=
  if 0 ≤ count then n <<< count.toNat else n >>> (-count).toNat

/-- `bit-set?` -/
def isBitSet (index : ℤ) (n : ℕ) : Bool :=
  n.testBit index.toNat

/-- `bit-clear` -/
def bitClear (n : ℕ) (index : ℤ) : ℕ :=
  if isBitSet index n then n - shift 1 index else n

/-- `range->bits` -/
def rangeToBits (start stop : ℤ) : ℕ :=
  shift 1 (1 + (stop - start)) - 1

/-! ## The record -/

/-- The fields `start`, `end` and `bits`. -/
structure Node where
  start : ℤ
  stop : ℤ
  bits : Option ℕ
deriving DecidableEq

/-- A set, or the `#f` that stands in the place of a subtree. -/
inductive Iset where
  | absent
  | node (fields : Node) (left right : Iset)
deriving DecidableEq

/-- `make-iset` without arguments -/
def makeEmpty : Iset := .node ⟨0, 0, some 0⟩ .absent .absent

/-- `make-iset` with the ends of a range -/
def makeRange (n m : ℤ) : Iset := .node ⟨n, m, none⟩ .absent .absent

namespace Iset

/-- `iset-copy-node` -/
def copyNode : Iset → Iset
  | absent => absent
  | node a _ _ => node a absent absent

/-- `iset-empty?`; also of a missing subtree. -/
def isEmpty : Iset → Bool
  | absent => true
  | node a left right => decide (a.bits = some 0) && left.isEmpty && right.isEmpty

/-- `iset-contains?` -/
def contains : Iset → ℤ → Bool
  | absent, _ => false
  | node a left right, n =>
    if n < a.start then left.contains n
    else if n > a.stop then right.contains n
    else
      match a.bits with
      | none => true
      | some bits => isBitSet (n - a.start) bits

end Iset

open Iset

/-- `iset-max-end` of a node and its right subtree. -/
def maxEnd : Node → Iset → ℤ
  | a, absent => a.stop
  | _, node b _ right => maxEnd b right

/-- `iset-min-start` of a node and its left subtree. -/
def minStart : Node → Iset → ℤ
  | a, absent => a.start
  | _, node b left _ => minStart b left

/-! ## Merging -/

/-- `bits-thresh` -/
def bitsThresh : ℤ := 128

/-- `iset-squash-bits!` -/
def squashBits (a : Node) : Node :=
  match a.bits with
  | none => a
  | some bits => if bits = rangeToBits a.start a.stop then { a with bits := none } else a

/-- `iset-should-merge-left?` -/
def shouldMergeLeft (a : Node) (left : Iset) (b : Node) : Bool :=
  decide (a.start - b.stop < bitsThresh) &&
    match left with
    | absent => true
    | node l _ right => decide (b.start > maxEnd l right)

/-- `iset-should-merge-right?` -/
def shouldMergeRight (a : Node) (right : Iset) (b : Node) : Bool :=
  decide (b.start - a.stop < bitsThresh) &&
    match right with
    | absent => true
    | node r left _ => decide (b.stop < minStart r left)

/-- The bitmap of a node, also of one that holds all of its range. -/
def Node.toBits (a : Node) : ℕ :=
  a.bits.getD (rangeToBits a.start a.stop)

/-- `iset-merge-left!` -/
def mergeLeft (a b : Node) : Node where
  start := b.start
  stop := a.stop
  bits :=
    if a.bits.isSome ∨ b.bits.isSome ∨ b.stop + 1 < a.start then
      some (b.toBits ||| shift a.toBits (a.start - b.start))
    else none

/-- `iset-merge-right!` -/
def mergeRight (a b : Node) : Node where
  start := a.start
  stop := b.stop
  bits :=
    if a.bits.isSome ∨ b.bits.isSome ∨ a.stop + 1 < b.start then
      some (a.toBits ||| shift b.toBits (b.start - a.start))
    else none

/-- A node whose range is within the range of `a` is added to `a`. -/
def addInside (a b : Node) : Node :=
  match a.bits with
  | none => a
  | some bits => squashBits { a with bits := some (bits ||| shift b.toBits (b.start - a.start)) }

/-- `iset-node-extract` -/
def nodeExtract (a : Node) (start stop : ℤ) : Node :=
  match a.bits with
  | some nodeBits =>
    let bits := shift nodeBits (a.start - start) &&& rangeToBits start stop
    ⟨start, min stop (start + bits.size), some bits⟩
  | none => ⟨max start a.start, min stop a.stop, none⟩

/-! ## Adding and deleting -/

/-- `iset-adjoin-node!`, and for a missing subtree what `iset-adjoin-node-left!` and
`iset-adjoin-node-right!` do.  There is no result if the fuel is used up first. -/
def adjoinNode : ℕ → Iset → Iset → Option Iset
  | 0, _, _ => none
  | _ + 1, absent, b => some b.copyNode
  | _ + 1, a, absent => some a
  | fuel + 1, node a left right, node b bleft bright =>
    if (node a left right).isEmpty then some (node b left right)
    else if (node b bleft bright).isEmpty then some (node a left right)
    else if b.stop ≤ a.start then
      if shouldMergeLeft a left b then some (node (mergeLeft a b) left right)
      else (adjoinNode fuel left (node b bleft bright)).map fun left => node a left right
    else if b.start ≥ a.stop then
      if shouldMergeRight a right b then some (node (mergeRight a b) left right)
      else (adjoinNode fuel right (node b bleft bright)).map fun right => node a left right
    else if b.start ≥ a.start ∧ b.stop ≤ a.stop then some (node (addInside a b) left right)
    else
      -- the node is split at the ends of the range
      let before := node (nodeExtract b b.start (a.start - 1)) absent absent
      let inside := node (nodeExtract b a.start a.stop) absent absent
      let behind := node (nodeExtract b (a.stop + 1) b.stop) absent absent
      (if b.start < a.start then adjoinNode fuel left before else some left).bind fun left =>
        (adjoinNode fuel (node a left right) inside).bind fun is =>
          match is with
          | absent => none
          | node a' left right =>
            (if b.stop > a.stop then adjoinNode fuel right behind else some right).map
              fun right => node a' left right

/-- The depth of the tree. -/
def Iset.height : Iset → ℕ
  | absent => 0
  | node _ left right => max left.height right.height + 1

/-- `iset-adjoin-node!` -/
def isetAdjoinNode (a b : Iset) : Option Iset :=
  adjoinNode (a.height + 1) a b

/-- `iset-adjoin1!` -/
def isetAdjoin1 (is : Iset) (n : ℤ) : Option Iset :=
  isetAdjoinNode is (makeRange n n)

/-- `iset-insert-right!` -/
def insertRight (a : Node) (left right : Iset) (new : Node) : Iset :=
  match right with
  | absent => node a left (node new absent absent)
  | node r _ _ =>
    if new.stop < r.start then node a left (node new absent right)
    else node a left (node new right absent)

/-- `%iset-delete1!` -/
def deleteHere (a : Node) (left right : Iset) (n : ℤ) : Iset :=
  match a.bits with
  | some bits => node { a with bits := some (bitClear bits (n - a.start)) } left right
  | none =>
    if n = a.start then
      if n = a.stop then node { a with bits := some 0 } left right
      else node { a with start := n + 1 } left right
    else if n = a.stop then node { a with stop := n - 1 } left right
    else insertRight { a with stop := n - 1 } left right ⟨n + 1, a.stop, none⟩

/-- `iset-delete1!` -/
def isetDelete1 : Iset → ℤ → Iset
  | absent, _ => absent
  | node a left right, n =>
    if n < a.start then node a (isetDelete1 left n) right
    else if n > a.stop then node a left (isetDelete1 right n)
    else deleteHere a left right n

/-! ## Folding -/

section Fold

variable {A : Type}

/-- `iset-fold-node` -/
def isetFoldNode (kons : Iset → A → A) (knil : A) : Iset → A
  | absent => knil
  | node a left right =>
    isetFoldNode kons (kons (node a left right) (isetFoldNode kons knil left)) right

/-- The loop over a bitmap: every round clears the lowest bit. -/
def foldBits (kons : ℤ → A → A) (start : ℤ) : ℕ → ℕ → A → A
  | 0, _, acc => acc
  | fuel + 1, n1, acc =>
    if n1 = 0 then acc
    else
      let n2 := n1 &&& (n1 - 1)
      foldBits kons start fuel n2 (kons (start + (n1 - n2).size - 1) acc)

/-- The loop over a range of the given length. -/
def foldRange (kons : ℤ → A → A) : ℕ → ℤ → A → A
  | 0, _, acc => acc
  | count + 1, i, acc => foldRange kons count (i + 1) (kons i acc)

/-- `iset-fold` -/
def isetFold (kons : ℤ → A → A) (knil : A) (is : Iset) : A :=
  isetFoldNode
    (fun is acc =>
      match is with
      | absent => acc
      | node a _ _ =>
        match a.bits with
        | some bits => foldBits kons a.start (bits.size + 1) bits acc
        | none => foldRange kons (a.stop + 1 - a.start).toNat a.start acc)
    knil is

end Fold

/-- `iset->list` -/
def isetToList (is : Iset) : List ℤ :=
  (isetFold (fun n acc => n :: acc) [] is).reverse

/-- `iset-node-size` -/
def nodeSize (a : Node) : ℤ :=
  match a.bits with
  | some bits => bits.bitIndices.length
  | none => 1 + (a.stop - a.start)

/-- `iset-size` -/
def isetSize (is : Iset) : ℤ :=
  isetFoldNode
    (fun is acc =>
      match is with
      | absent => acc
      | node a _ _ => acc + nodeSize a)
    0 is

/-! ## The operations -/

/-- `list->iset!` -/
def listToIset : List ℤ → Iset → Option Iset
  | [], is => some is
  | n :: ls, is => (isetAdjoin1 is n).bind (listToIset ls)

/-- `iset-delete!` -/
def isetDelete (is : Iset) (ls : List ℤ) : Iset :=
  ls.foldl isetDelete1 is

/-- `iset-union2!` -/
def isetUnion2 (a b : Iset) : Option Iset :=
  isetFoldNode (fun is acc => acc.bind fun a => isetAdjoinNode a is) (some a) b

/-- `iset-map` -/
def isetMap (proc : ℤ → ℤ) (is : Iset) : Option Iset :=
  isetFold (fun n acc => acc.bind fun is => isetAdjoin1 is (proc n)) (some makeEmpty) is

/-- The operations on some sets, which have names. -/
inductive Op where
  | makeEmpty (dst : ℕ)
  | makeRange (dst : ℕ) (n m : ℤ)
  | adjoin (dst : ℕ) (ls : List ℤ)
  | delete (dst : ℕ) (ls : List ℤ)
  | union (dst src : ℕ)
  | map (dst src : ℕ) (proc : ℤ → ℤ)

/-- The sets. -/
abbrev Store := ℕ → Iset

/-- One operation. -/
def Op.perform (s : Store) : Op → Option Store
  | makeEmpty dst => some (Function.update s dst IntegerSet.makeEmpty)
  | makeRange dst n m => some (Function.update s dst (IntegerSet.makeRange n m))
  | adjoin dst ls => (listToIset ls (s dst)).map (Function.update s dst)
  | delete dst ls => some (Function.update s dst (isetDelete (s dst) ls))
  | union dst src => (isetUnion2 (s dst) (s src)).map (Function.update s dst)
  | map dst src proc => (isetMap proc (s src)).map (Function.update s dst)

/-- A sequence of operations. -/
def runOps (s : Store) : List Op → Option Store
  | [] => some s
  | op :: ops => (op.perform s).bind fun s => runOps s ops

end ChibiScheme.IntegerSet
