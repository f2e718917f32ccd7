import ChibiScheme.Lib.Stateful
import ChibiScheme.Numeric.Division

/-!
# Numbers in the heap

A number is a fixnum or a pointer to a flonum, a bignum, a ratio or a complex
number.  The parts of a ratio and of a complex number are numbers themselves and
may be shared: the routines of the tower copy pointers and negate objects in
place, so the model keeps the heap.

Objects are numbered in the order they are allocated and never move.  What a
routine allocates and drops again before it returns is left out; digit arrays
are therefore computed on contents, and only the object a routine returns or
stores is allocated.

Floating point is a parameter: the operations the tower applies to flonums, over
an arbitrary type.
-/

namespace ChibiScheme

open Stateful

/-- The part of `sexp` the numeric routines distinguish. -/
inductive Val where
  | fixnum (n : Fixnum)
  | ptr (addr : ℕ)
  | exception (message : String)
  | void
deriving DecidableEq

/-- A numeric object. -/
inductive Obj (F : Type) where
  | flonum (x : F)
  | bignum (b : Bignum)
  | ratio (numerator denominator : Val)
  | complex (real imag : Val)

/-- The objects by address. -/
abbrev Heap (F : Type) := List (Obj F)

/-- Every bignum is short enough for the `int`s of the source. -/
def Heap.FitsInt {F : Type} (h : Heap F) : Prop :=
  ∀ bn : Bignum, Obj.bignum bn ∈ h → bn.FitsInt

/-- A routine of the numeric tower.  It has no result where C's behaviour is
undefined: a field read off an object of the wrong type, a division by zero. -/
abbrev NumM (F : Type) := StateT (Heap F) Option

/-- The floating point operations of the tower. -/
structure FlonumOps (F : Type) where
  /-- `sexp_fixnum_to_double` -/
  ofFixnum : Fixnum → F
  /-- `sexp_bignum_to_double` -/
  ofBignum : Bignum → F
  /-- `sexp_ratio_to_double`, of a numerator and a denominator -/
  ofRatio : ExactInt → ExactInt → F
  add : F → F → F
  sub : F → F → F
  mul : F → F → F
  div : F → F → F
  neg : F → F
  /-- `f < g` -/
  lt : F → F → Bool
  /-- `f == g` -/
  eq : F → F → Bool
  zero : F
  isinf : F → Bool
  isnan : F → Bool
  trunc : F → F
  /-- `sexp_double_to_bignum` -/
  toBignum : F → Bignum
  /-- `sexp_inexact_to_exact` of a finite flonum, as numerator and denominator -/
  toExact : F → ExactInt × ExactInt

/-- The classes `sexp_number_type` returns, in its order. -/
inductive NumType where
  | not
  | fix
  | flo
  | big
  | rat
  | cpx
deriving DecidableEq

/-- The number of a class in the dispatch tables. -/
def NumType.code : NumType → ℕ
  | not => 0
  | fix => 1
  | flo => 2
  | big => 3
  | rat => 4
  | cpx => 5

section

variable {F : Type}

/-! ## Access to objects -/

/-- A new object, at the end of the heap. -/
def alloc (object : Obj F) : NumM F Val := fun h => some (.ptr h.length, h ++ [object])

/-- The object a value points to; reading through a value that is no pointer to
an object is undefined. -/
def readObj (v : Val) : NumM F (Obj F) := fun h =>
  match v with
  | .ptr addr => (h[addr]?).map (·, h)
  | _ => none

/-- Overwrite the object a value points to. -/
def writeObj (v : Val) (object : Obj F) : NumM F Unit := fun h =>
  match v with
  | .ptr addr => if addr < h.length then some ((), h.set addr object) else none
  | _ => none

/-- A routine without a result. -/
def undefined {α : Type} : NumM F α := fun _ => none

/-- The object a value points to, if it does point to one. -/
def Heap.lookup (h : Heap F) : Val → Option (Obj F)
  | .ptr addr => h[addr]?
  | _ => none

theorem Heap.ptr_of_lookup {h : Heap F} {v : Val} {object : Obj F}
    (hlookup : h.lookup v = some object) : ∃ addr, v = .ptr addr := by
  cases v with
  | ptr addr => exact ⟨addr, rfl⟩
  | _ => cases hlookup

/-- The contents of a fixnum or bignum; the routines that need them are undefined
on other values. -/
def Heap.integer? (h : Heap F) : Val → Option ExactInt
  | .fixnum n => some (.fixnum n)
  | v =>
    match h.lookup v with
    | some (.bignum b) => some (.bignum b)
    | _ => none

/-- The integer of a value. -/
def readInt (v : Val) : NumM F ExactInt := fun h => (h.integer? v).map (·, h)

/-- Box an integer, allocating when it is a bignum. -/
def allocInt : ExactInt → NumM F Val
  | .fixnum n => pure (.fixnum n)
  | .bignum b => alloc (.bignum b)

/-- Box what an integer row of a table returned. -/
def allocResult : Option IntResult → NumM F Val
  | some (.integer n) => allocInt n
  | some (.exception message) => pure (.exception message)
  | some .void => pure .void
  | none => undefined

/-- `sexp_number_type` -/
def numberType (v : Val) : NumM F NumType := fun h =>
  let type := match v with
    | .fixnum _ => .fix
    | _ =>
      match h.lookup v with
      | some (.flonum _) => .flo
      | some (.bignum _) => .big
      | some (.ratio _ _) => .rat
      | some (.complex _ _) => .cpx
      | none => .not
  some (type, h)

/-- `sexp_ratio_numerator` and `sexp_ratio_denominator` -/
def readRatio (v : Val) : NumM F (Val × Val) := do
  match ← readObj v with
  | .ratio num den => pure (num, den)
  | _ => undefined

/-- `sexp_complex_real` and `sexp_complex_imag` -/
def readComplex (v : Val) : NumM F (Val × Val) := do
  match ← readObj v with
  | .complex real imag => pure (real, imag)
  | _ => undefined

/-- `sexp_flonum_value` -/
def readFlonum (v : Val) : NumM F F := do
  match ← readObj v with
  | .flonum x => pure x
  | _ => undefined

/-- `sexp_make_ratio` -/
def sexpMakeRatio (num den : Val) : NumM F Val := alloc (.ratio num den)

/-- `sexp_make_complex` -/
def sexpMakeComplex (real imag : Val) : NumM F Val := alloc (.complex real imag)

/-- `sexp_make_flonum` -/
def sexpMakeFlonum (x : F) : NumM F Val := alloc (.flonum x)

/-! ## Negation in place

The macros change a bignum or flonum object where it is and a fixnum in the
variable or field that holds it; each returns what the variable holds then. -/

/-- `sexp_exact_negativep` -/
def sexpExactNegativep (v : Val) : NumM F Bool := fun h =>
  let negative := match h.integer? v with
    | some (.fixnum n) => decide (n.val < 0)
    | some (.bignum b) => decide (b.sign = .neg)
    | none => false
  some (negative, h)

/-- `sexp_negate_exact` -/
def sexpNegateExact (v : Val) : NumM F Val := fun h =>
  match v with
  | .fixnum n => some (.fixnum (sexpFxNeg n), h)
  | .ptr addr =>
    match h[addr]? with
    | some (.bignum b) => some (v, h.set addr (.bignum b.negate))
    | _ => some (v, h)
  | _ => some (v, h)

/-- `sexp_negate` -/
def sexpNegate (flo : FlonumOps F) (v : Val) : NumM F Val := fun h =>
  match h.lookup v with
  | some (.flonum x) => (writeObj v (.flonum (flo.neg x)) h).map fun out => (v, out.2)
  | _ => sexpNegateExact v h

/-- `sexp_negate_maybe_ratio` -/
def sexpNegateMaybeRatio (flo : FlonumOps F) (v : Val) : NumM F Val := do
  match ← numberType v with
  | .rat =>
    let (num, den) ← readRatio v
    let num ← sexpNegateExact num
    writeObj v (.ratio num den)
    pure v
  | _ => sexpNegate flo v

/-- `sexp_bignum_normalize` of a value. -/
def normalizeVal (v : Val) : NumM F Val := fun h =>
  match h.integer? v with
  | some (.bignum b) =>
    match sexpBignumNormalize b with
    | .fixnum n => some (.fixnum n, h)
    | .bignum _ => some (v, h)
  | _ => some (v, h)

end

end ChibiScheme
