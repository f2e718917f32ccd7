import Mathlib.Data.Int.Basic
import Mathlib.Data.List.Basic

/-!
# Hash tables

A hash table is a vector of buckets.  A bucket is a list of cells, a cell is a pair of a key and of
what the table holds for it.  The C part looks up, adds and unlinks cells, the Scheme part on top of it
reads and writes their contents.
-/

namespace ChibiScheme.Hash

/-- What the tables need to know of the objects that are used as keys. -/
structure Keys (K : Type) where
  /-- The word that denotes the object. -/
  word : K → ℕ
  /-- `hash_one`, before the remainder by the bound is taken. -/
  hash : K → ℕ
  /-- `sexp_equalp` -/
  equalp : K → K → Bool
  /-- Symbols, and immediate objects other than fixnums. -/
  simple : K → Bool
  /-- These objects are equal to themselves only. -/
  equalp_of_simple : ∀ k obj, simple obj = true → (equalp k obj = true ↔ k = obj)

/-- `eq_fn`: 1 for `eq?`, 2 for `equal?`, or another procedure. -/
inductive EqFn (K : Type) where
  | one
  | two
  | procedure (f : K → K → Bool)

/-- `hash_fn`: 1 for `hash-by-identity`, 2 for `hash`, or another procedure, which gets the number of
buckets too.  Its result is an exception or a word that is unboxed like a fixnum. -/
inductive HashFn (K : Type) where
  | one
  | two
  | procedure (f : K → ℕ → Option ℤ)

/-- The record `Hash-Table` with cells that hold a `C`. -/
structure HashTable (K C : Type) where
  buckets : List (List (K × C))
  size : ℕ
  hashFn : HashFn K
  eqFn : EqFn K

variable {K C V A : Type} [DecidableEq K] (keys : Keys K)

/-! ## The C part -/

/-- The hash of an object for the given number of buckets. -/
def HashFn.apply : HashFn K → K → ℕ → Option ℤ
  | one, obj, len => some ↑(keys.word obj % len)
  | two, obj, len => some ↑(keys.hash obj % len)
  | procedure f, obj, len => f obj len

/-- `sexp_get_bucket` -/
def getBucket (len : ℕ) (hashFn : HashFn K) (obj : K) : ℕ :=
  match hashFn with
  | .one => keys.word obj % len
  | .two => keys.hash obj % len
  | .procedure f =>
    match f obj len with
    | none => 0
    -- a negative hash is a huge unsigned one
    | some res => if res < 0 ∨ len ≤ res then 0 else res.toNat

/-- `sexp_scan_bucket`: the position of the cell in the bucket. -/
def scanBucket (ls : List (K × C)) (obj : K) (eqFn : EqFn K) : Option ℕ :=
  match eqFn with
  | .one => ls.findIdx? fun cell => decide (cell.1 = obj)
  | .two =>
    if keys.simple obj then ls.findIdx? fun cell => decide (cell.1 = obj)
    else ls.findIdx? fun cell => keys.equalp cell.1 obj
  | .procedure f => ls.findIdx? fun cell => f cell.1 obj

/-- `sexp_hash_resize_check` -/
def resizeCheck (n len : ℕ) : Bool :=
  decide (n * 3 > len / 4)

/-- A new cell at the front of its bucket. -/
def pushCell (hashFn : HashFn K) (buckets : List (List (K × C))) (cell : K × C) :
    List (List (K × C)) :=
  buckets.modify (getBucket keys buckets.length hashFn cell.1) fun ls => cell :: ls

/-- `sexp_regrow_hash_table`, when there is memory for the new buckets. -/
def regrowHashTable (ht : HashTable K C) : HashTable K C :=
  let newbuckets := List.replicate (ht.buckets.length * 2) []
  { ht with buckets := ht.buckets.flatten.foldl (pushCell keys ht.hashFn) newbuckets }

/-- `sexp_hash_table_cell`: the bucket and the position of the cell for `obj`.  If there is none, one
that holds `createp` is added; `allocated` tells whether the new buckets, if they are needed, can be
allocated. -/
def hashTableCell (ht : HashTable K C) (obj : K) (createp : Option C) (allocated : Bool) :
    Option (ℕ × ℕ) × HashTable K C :=
  let i := getBucket keys ht.buckets.length ht.hashFn obj
  match scanBucket keys (ht.buckets.getD i []) obj ht.eqFn, createp with
  | some j, _ => (some (i, j), ht)
  | none, none => (none, ht)
  | none, some c =>
    let grown :=
      if resizeCheck ht.size ht.buckets.length ∧ allocated then regrowHashTable keys ht else ht
    let i := getBucket keys grown.buckets.length ht.hashFn obj
    (some (i, 0),
      { grown with
        buckets := grown.buckets.modify i fun ls => (obj, c) :: ls
        size := ht.size + 1 })

/-- `sexp_hash_table_delete` -/
def hashTableDelete (ht : HashTable K C) (obj : K) : HashTable K C :=
  let i := getBucket keys ht.buckets.length ht.hashFn obj
  match scanBucket keys (ht.buckets.getD i []) obj ht.eqFn with
  | some j =>
    { ht with
      size := ht.size - 1
      buckets := ht.buckets.modify i fun ls => ls.eraseIdx j }
  | none => ht

/-- The cell at a place. -/
def HashTable.cellAt (ht : HashTable K C) (cell : ℕ × ℕ) : Option (K × C) := do
  (← ht.buckets[cell.1]?)[cell.2]?

/-- `(set-cdr! cell c)` -/
def HashTable.setCdr (ht : HashTable K C) (cell : ℕ × ℕ) (c : C) : HashTable K C :=
  { ht with
    buckets := ht.buckets.modify cell.1 fun ls => ls.modify cell.2 fun entry => (entry.1, c) }

/-! ## The Scheme part -/

/-- What a cell holds: a value, the `#t` with which `hash-table-set!` creates a cell, or the mark of
`hash-table-update!/default` for a key that is new. -/
inductive Contents (V : Type) where
  | value (v : V)
  | isTrue
  | notFound
deriving DecidableEq

/-- The operations.  A cell may be added by two of them. -/
inductive Op (K V : Type) where
  | set (key : K) (value : V) (allocated : Bool)
  | ref (key : K) (thunk : Option V) (succeed : V → V)
  | exists (key : K)
  | delete (key : K)
  | updateDefault (key : K) (func : V → V) (default : V) (allocated : Bool)

/-- What an operation returns. -/
inductive Outcome (V : Type) where
  | void
  | value (v : V)
  | boolean (b : Bool)
  | keyNotFound
deriving DecidableEq

/-- `%make-hash-table` with 23 buckets. -/
def makeHashTable (eqFn : EqFn K) (hashFn : HashFn K) : HashTable K C where
  buckets := List.replicate 23 []
  size := 0
  hashFn := hashFn
  eqFn := eqFn

/-- `hash-table-ref`.  There is no result if the cell does not hold a value. -/
def hashTableRef (ht : HashTable K (Contents V)) (key : K) (thunk : Option V) (succeed : V → V) :
    Option (Outcome V) :=
  match (hashTableCell keys ht key none true).1 with
  | some cell =>
    match ht.cellAt cell with
    | some (_, .value v) => some (.value (succeed v))
    | _ => none
  | none =>
    match thunk with
    | some v => some (.value v)
    | none => some .keyNotFound

/-- `hash-table-set!` -/
def hashTableSet (ht : HashTable K (Contents V)) (key : K) (value : V) (allocated : Bool) :
    HashTable K (Contents V) :=
  match hashTableCell keys ht key (some .isTrue) allocated with
  | (some cell, ht) => ht.setCdr cell (.value value)
  | (none, ht) => ht

/-- `hash-table-exists?` -/
def hashTableExists (ht : HashTable K (Contents V)) (key : K) : Bool :=
  (hashTableCell keys ht key none true).1.isSome

/-- `hash-table-update!/default` -/
def hashTableUpdateDefault (ht : HashTable K (Contents V)) (key : K) (func : V → V) (default : V)
    (allocated : Bool) : Option (HashTable K (Contents V)) :=
  match hashTableCell keys ht key (some .notFound) allocated with
  | (some cell, ht) =>
    match ht.cellAt cell with
    | some (_, .notFound) => some (ht.setCdr cell (.value (func default)))
    | some (_, .value v) => some (ht.setCdr cell (.value (func v)))
    | _ => none
  | (none, _) => none

/-- `hash-table-fold` -/
def hashTableFold (ht : HashTable K C) (kons : K → C → A → A) (knil : A) : A :=
  ht.buckets.reverse.foldl
    (fun acc ls => ls.foldl (fun acc cell => kons cell.1 cell.2 acc) acc) knil

/-- One operation.  There is no result if the contents of a cell are taken for a value and are none. -/
def Op.perform (ht : HashTable K (Contents V)) :
    Op K V → Option (Outcome V × HashTable K (Contents V))
  | set key value allocated => some (.void, hashTableSet keys ht key value allocated)
  | ref key thunk succeed => (hashTableRef keys ht key thunk succeed).map fun outcome => (outcome, ht)
  | «exists» key => some (.boolean (hashTableExists keys ht key), ht)
  | delete key => some (.void, hashTableDelete keys ht key)
  | updateDefault key func default allocated =>
    (hashTableUpdateDefault keys ht key func default allocated).map fun ht => (.void, ht)

/-- A sequence of operations. -/
def runOps (ht : HashTable K (Contents V)) :
    List (Op K V) → Option (List (Outcome V) × HashTable K (Contents V))
  | [] => some ([], ht)
  | op :: ops => do
      let (outcome, ht) ← op.perform keys ht
      let (outcomes, ht) ← runOps ht ops
      some (outcome :: outcomes, ht)

end ChibiScheme.Hash
