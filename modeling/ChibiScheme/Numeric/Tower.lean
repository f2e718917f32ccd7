import ChibiScheme.Numeric.Heap

/-!
# The numeric tower

The dispatch tables of `sexp_add`, `sexp_sub`, `sexp_mul`, `sexp_div`,
`sexp_quotient`, `sexp_remainder` and `sexp_compare`, and the ratio and complex
routines they fall through to.

The routines call each other: a complex product multiplies, subtracts and adds
parts, a ratio sum multiplies and adds numerators and denominators.  Each call
goes to parts of the numbers it was given, so the recursion is as deep as
numbers nest.  A table is written over the routines for the parts (`Arith`), and
`arith depth` stacks `depth` of them; a complex number with ratio parts nests
three deep.
-/

namespace ChibiScheme

open Stateful

/-- The seven entry points. -/
structure Arith (F : Type) where
  add : Val → Val → NumM F Val
  sub : Val → Val → NumM F Val
  mul : Val → Val → NumM F Val
  div : Val → Val → NumM F Val
  quotient : Val → Val → NumM F Val
  remainder : Val → Val → NumM F Val
  compare : Val → Val → NumM F Val

variable {F : Type} (flo : FlonumOps F) (inner : Arith F)

/-- `SEXP_ZERO` -/
def Val.zero : Val := .fixnum sexpZero

/-- `SEXP_ONE` -/
def Val.one : Val := .fixnum sexpOne

/-- `sexp_type_exception(ctx, NULL, SEXP_NUMBER, x)` -/
def numberException : NumM F Val := pure (.exception "invalid type, expected Number")

/-- `sexp_type_exception(ctx, NULL, SEXP_FIXNUM, x)` -/
def fixnumException : NumM F Val := pure (.exception "invalid type, expected Integer")

/-- `sexp_to_double`, of a value that is a real number. -/
def sexpToDouble (v : Val) : NumM F F := do
  match ← numberType v with
  | .flo => readFlonum v
  | .rat =>
    let (num, den) ← readRatio v
    let num ← readInt num
    let den ← readInt den
    pure (flo.ofRatio num den)
  | .fix | .big =>
    match ← readInt v with
    | .fixnum n => pure (flo.ofFixnum n)
    | .bignum b => pure (flo.ofBignum b)
  | _ => pure flo.zero

/-- A row that applies a floating point operation to both operands. -/
def flonumRow (op : F → F → F) (a b : Val) : NumM F Val := do
  let x ← sexpToDouble flo a
  let y ← sexpToDouble flo b
  sexpMakeFlonum (op x y)

/-- A row that applies an integer operation to both operands. -/
def integerRow (op : ExactInt → ExactInt → ExactInt) (a b : Val) : NumM F Val := do
  let x ← readInt a
  let y ← readInt b
  allocInt (op x y)

/-! ## Ratios -/

/-- Negate the numerator, then the denominator. -/
def negateRatioParts (rat : Val) : NumM F Unit := do
  let (num, den) ← readRatio rat
  let num ← sexpNegate flo num
  writeObj rat (.ratio num den)
  let den ← sexpNegate flo den
  writeObj rat (.ratio num den)

/-- The sign adjustment `sexp_ratio_normalize` makes at its start and at its end.
A numerator that is the least fixnum is promoted, so that negating it does not
overflow. -/
def makeDenominatorPositive (rat : Val) : NumM F Unit := do
  let (num, den) ← readRatio rat
  if ← sexpExactNegativep den then
    if num = .fixnum (sexpMakeFixnum sexpMinFixnum) then
      let num ← alloc (.bignum (sexpFixnumToBignum (sexpMakeFixnum sexpMinFixnum)))
      writeObj rat (.ratio num den)
      negateRatioParts flo rat
    else negateRatioParts flo rat

/-- The loop of `sexp_ratio_normalize`: the last nonzero remainder, or the
exception a remainder returned. -/
def gcdLoop : ℕ → Val → Val → NumM F Val
  | 0, _, _ => undefined
  | fuel + 1, num, den =>
    if den = .zero then pure num
    else do
      let tmp ← inner.remainder num den
      match tmp with
      | .exception message => pure (.exception message)
      | _ => gcdLoop fuel den tmp

/-- The end of `sexp_ratio_normalize`: divide both parts, adjust the sign again
and demote the parts that became small. -/
def reduceRatio (rat num den divisor : Val) : NumM F Val := do
  let reducedDen ← inner.quotient den divisor
  writeObj rat (.ratio num reducedDen)
  let reducedNum ← inner.quotient num divisor
  writeObj rat (.ratio reducedNum reducedDen)
  makeDenominatorPositive flo rat
  let (num, den) ← readRatio rat
  let num ← normalizeVal num
  writeObj rat (.ratio num den)
  let den ← normalizeVal den
  writeObj rat (.ratio num den)
  pure (if den = .one then num else rat)

/-- `sexp_ratio_normalize`; the loop runs on fuel from the denominator. -/
def sexpRatioNormalize (rat : Val) : NumM F Val := do
  makeDenominatorPositive flo rat
  let (num, den) ← readRatio rat
  if den = .zero then pure (.exception "zero denominator in ratio")
  else if num = .zero then pure .zero
  else
    let fuel := (← readInt den).toInt.natAbs + 2
    match ← gcdLoop inner fuel num den with
    | .exception message => pure (.exception message)
    | divisor => reduceRatio flo inner rat num den divisor

/-- `sexp_ratio_add` -/
def sexpRatioAdd (a b : Val) : NumM F Val := do
  let (anum, aden) ← readRatio a
  let (bnum, bden) ← readRatio b
  let num ← inner.mul anum bden
  let den ← inner.mul bnum aden
  let num ← inner.add num den
  let den ← inner.mul aden bden
  let res ← sexpMakeRatio num den
  sexpRatioNormalize flo inner res

/-- `sexp_ratio_mul` -/
def sexpRatioMul (a b : Val) : NumM F Val := do
  let (anum, aden) ← readRatio a
  let (bnum, bden) ← readRatio b
  let num ← inner.mul anum bnum
  let den ← inner.mul aden bden
  let res ← sexpMakeRatio num den
  sexpRatioNormalize flo inner res

/-- `sexp_ratio_div` -/
def sexpRatioDiv (a b : Val) : NumM F Val := do
  let (anum, aden) ← readRatio a
  let (bnum, bden) ← readRatio b
  let num ← inner.mul anum bden
  let den ← inner.mul aden bnum
  let res ← sexpMakeRatio num den
  sexpRatioNormalize flo inner res

/-- `sexp_ratio_compare` -/
def sexpRatioCompare (a b : Val) : NumM F Val := do
  let (anum, aden) ← readRatio a
  let (bnum, bden) ← readRatio b
  let a2 ← inner.mul anum bden
  let b2 ← inner.mul bnum aden
  inner.compare a2 b2

/-! ## Complex numbers -/

/-- `sexp_complex_normalize` -/
def sexpComplexNormalize (cpx : Val) : NumM F Val := do
  match ← numberType cpx with
  | .cpx =>
    let (real, imag) ← readComplex cpx
    pure (if imag = .zero then real else cpx)
  | _ => pure cpx

/-- A copy of a flonum or bignum part; other parts are shared. -/
def copyPart (v : Val) : NumM F Val := do
  match ← numberType v with
  | .flo => sexpMakeFlonum (← readFlonum v)
  | .big => allocInt (← readInt v)
  | _ => pure v

/-- `sexp_complex_copy`: the new object takes the parts as they are, and the
copies of the parts are stored back into the object that was copied. -/
def sexpComplexCopy (a : Val) : NumM F Val := do
  let (real, imag) ← readComplex a
  let res ← sexpMakeComplex real imag
  let real ← copyPart real
  writeObj a (.complex real imag)
  let imag ← copyPart imag
  writeObj a (.complex real imag)
  pure res

/-- Both parts in place with their signs changed. -/
def negateParts (cpx : Val) : NumM F Unit := do
  let (real, imag) ← readComplex cpx
  let real ← sexpNegateMaybeRatio flo real
  writeObj cpx (.complex real imag)
  let imag ← sexpNegateMaybeRatio flo imag
  writeObj cpx (.complex real imag)

/-- `sexp_complex_add` -/
def sexpComplexAdd (a b : Val) : NumM F Val := do
  let (areal, aimag) ← readComplex a
  let (breal, bimag) ← readComplex b
  let real ← inner.add areal breal
  let imag ← inner.add aimag bimag
  let res ← sexpMakeComplex real imag
  sexpComplexNormalize res

/-- `sexp_complex_sub` -/
def sexpComplexSub (a b : Val) : NumM F Val := do
  let tmp ← sexpComplexCopy b
  negateParts flo tmp
  sexpComplexAdd inner a tmp

/-- `sexp_complex_mul` -/
def sexpComplexMul (a b : Val) : NumM F Val := do
  let (areal, aimag) ← readComplex a
  let (breal, bimag) ← readComplex b
  let real ← inner.mul areal breal
  let res ← inner.mul aimag bimag
  let real ← inner.sub real res
  let imag ← inner.mul areal bimag
  let res ← inner.mul aimag breal
  let imag ← inner.add imag res
  let res ← sexpMakeComplex real imag
  sexpComplexNormalize res

/-- `sexp_complex_div` -/
def sexpComplexDiv (a b : Val) : NumM F Val := do
  let (areal, aimag) ← readComplex a
  let (breal, bimag) ← readComplex b
  let denom ← inner.mul breal breal
  let res ← inner.mul bimag bimag
  let denom ← inner.add denom res
  let real ← inner.mul areal breal
  let res ← inner.mul aimag bimag
  let real ← inner.add real res
  let real ← inner.div real denom
  let imag ← inner.mul aimag breal
  let res ← inner.mul areal bimag
  let imag ← inner.sub imag res
  let imag ← inner.div imag denom
  let res ← sexpMakeComplex real imag
  sexpComplexNormalize res

/-! ## The dispatch tables -/

/-- Order two operands by class, as `sexp_add` and `sexp_mul` do; the flag says
whether they were swapped. -/
def orderByType (a b : Val) (ta tb : NumType) : Val × Val × NumType × NumType × Bool :=
  if ta.code > tb.code then (b, a, tb, ta, true) else (a, b, ta, tb, false)

/-- `sexp_add` -/
def addTable (a b : Val) : NumM F Val := do
  let (a, b, ta, tb, _) := orderByType a b (← numberType a) (← numberType b)
  match ta, tb with
  | .not, _ => numberException
  | .fix, .fix | .fix, .big | .big, .big => integerRow addInteger a b
  | .fix, .flo => if a = .zero then pure b else flonumRow flo flo.add a b
  | .flo, .flo | .flo, .big | .flo, .rat => flonumRow flo flo.add a b
  | .fix, .rat | .big, .rat => sexpRatioAdd flo inner (← sexpMakeRatio a .one) b
  | .rat, .rat => sexpRatioAdd flo inner a b
  | .fix, .cpx | .flo, .cpx | .big, .cpx | .rat, .cpx =>
    sexpComplexAdd inner (← sexpMakeComplex a .zero) b
  | .cpx, .cpx => sexpComplexAdd inner a b
  | _, _ => pure .void

/-- The copy of a ratio that a subtraction negates. -/
def negatedCopy (b : Val) : NumM F Val := do
  let (num, den) ← readRatio b
  let tmp2 ← sexpMakeRatio num den
  if (← numberType num) = .big then
    writeObj tmp2 (.ratio (← allocInt (← readInt num)) den)
  let (num, den) ← readRatio tmp2
  writeObj tmp2 (.ratio (← sexpNegateExact num) den)
  pure tmp2

/-- The ratio row of `sexp_sub`: add a negated copy of the second operand. -/
def subRatio (a b : Val) (negatep : Bool) : NumM F Val := do
  let tmp2 ← negatedCopy b
  let r ← sexpRatioAdd flo inner a tmp2
  if negatep then sexpNegateMaybeRatio flo r else pure r

/-- The negation after a subtraction with the operands exchanged. -/
def negateResult (r : Val) : NumM F Val := do
  if (← numberType r) = .cpx then
    let r ← sexpComplexCopy r
    negateParts flo r
    pure r
  else sexpNegateMaybeRatio flo r

/-- The complex row of `sexp_sub`. -/
def subComplex (a b : Val) (negatep : Bool) : NumM F Val := do
  let r ← sexpComplexSub flo inner a b
  if negatep then negateResult flo r else pure r

/-- `sexp_sub` -/
def subTable (a b : Val) : NumM F Val := do
  match ← numberType a, ← numberType b with
  | .not, _ | _, .not => numberException
  | .fix, .fix | .fix, .big | .big, .fix | .big, .big => integerRow subInteger a b
  | .fix, .flo =>
    if a = .zero then
      let x ← readFlonum b
      sexpMakeFlonum (flo.neg x)
    else flonumRow flo flo.sub a b
  | .flo, .fix | .flo, .flo | .flo, .big | .big, .flo | .flo, .rat | .rat, .flo =>
    flonumRow flo flo.sub a b
  | .rat, .fix | .rat, .big => subRatio flo inner (← sexpMakeRatio b .one) a true
  | .fix, .rat | .big, .rat => subRatio flo inner (← sexpMakeRatio a .one) b false
  | .rat, .rat => subRatio flo inner a b false
  -- here the flonum made of the ratio is passed on without being made complex
  | .rat, .cpx => subComplex flo inner (← sexpMakeFlonum (← sexpToDouble flo a)) b false
  | .cpx, .rat =>
    let b ← sexpMakeFlonum (← sexpToDouble flo b)
    subComplex flo inner (← sexpMakeComplex b .zero) a true
  | .cpx, .flo | .cpx, .fix | .cpx, .big =>
    subComplex flo inner (← sexpMakeComplex b .zero) a true
  | .flo, .cpx | .fix, .cpx | .big, .cpx =>
    subComplex flo inner (← sexpMakeComplex a .zero) b false
  | .cpx, .cpx => subComplex flo inner a b false

/-- `sexp_mul` -/
def mulTable (a b : Val) : NumM F Val := do
  let (x, y, tx, ty, swapped) := orderByType a b (← numberType a) (← numberType b)
  match tx, ty with
  -- a row the table does not have: the variable still holds what the swap left in it
  | .not, .cpx => pure (if swapped then a else .void)
  | .not, _ => numberException
  | .fix, .fix | .fix, .big | .big, .big => integerRow mulInteger x y
  | .fix, .flo => if x = .zero then pure x else flonumRow flo flo.mul x y
  | .flo, .flo | .flo, .big | .flo, .rat => flonumRow flo flo.mul x y
  | .fix, .rat | .big, .rat => sexpRatioMul flo inner (← sexpMakeRatio x .one) y
  | .rat, .rat => sexpRatioMul flo inner x y
  | .fix, .cpx | .flo, .cpx | .big, .cpx | .rat, .cpx =>
    sexpComplexMul inner (← sexpMakeComplex x .zero) y
  | .cpx, .cpx => sexpComplexMul inner x y
  | _, _ => pure .void

/-- `sexp_div` -/
def divTable (a b : Val) : NumM F Val := do
  match ← numberType a, ← numberType b with
  | .not, .cpx | .cpx, .not => pure .void
  | .not, _ | _, .not => numberException
  | .fix, .fix | .fix, .big | .big, .fix | .big, .big =>
    sexpRatioNormalize flo inner (← sexpMakeRatio a b)
  | .fix, .flo | .flo, .fix | .flo, .flo | .flo, .big | .big, .flo | .flo, .rat | .rat, .flo =>
    flonumRow flo flo.div a b
  | .rat, .fix | .rat, .big => sexpRatioDiv flo inner a (← sexpMakeRatio b .one)
  | .fix, .rat | .big, .rat => sexpRatioDiv flo inner (← sexpMakeRatio a .one) b
  | .rat, .rat => sexpRatioDiv flo inner a b
  | .cpx, .rat =>
    let b ← sexpMakeFlonum (← sexpToDouble flo b)
    sexpComplexDiv inner a (← sexpMakeComplex b .zero)
  | .cpx, .flo | .cpx, .fix | .cpx, .big => sexpComplexDiv inner a (← sexpMakeComplex b .zero)
  | .rat, .cpx =>
    let a ← sexpMakeFlonum (← sexpToDouble flo a)
    sexpComplexDiv inner (← sexpMakeComplex a .zero) b
  | .flo, .cpx | .fix, .cpx | .big, .cpx => sexpComplexDiv inner (← sexpMakeComplex a .zero) b
  | .cpx, .cpx => sexpComplexDiv inner a b

/-- `sexp_to_inexact` -/
def sexpToInexact (v : Val) : NumM F Val := do
  match ← numberType v with
  | .fix | .big => sexpMakeFlonum (← sexpToDouble flo v)
  | _ => pure v

/-- `sexp_bignum_normalize(sexp_double_to_bignum(ctx, f))` -/
def exactInteger (x : F) : NumM F Val := allocInt (sexpBignumNormalize (flo.toBignum x))

/-- The common shape of `sexp_quotient` and `sexp_remainder`; `isInteger` is the
test a flonum operand has to pass. -/
def divisionTable (op : ExactInt → ExactInt → Option IntResult)
    (self : Val → Val → NumM F Val) (isInteger : F → Bool) (a b : Val) : NumM F Val := do
  match ← numberType a, ← numberType b with
  | .not, .rat | .not, .cpx | .rat, .not | .cpx, .not | .rat, .cpx => pure .void
  | .not, _ | _, .not => fixnumException
  | .flo, .fix | .flo, .flo | .flo, .big | .flo, .rat =>
    let x ← readFlonum a
    if isInteger x then sexpToInexact flo (← self (← exactInteger flo x) b)
    else fixnumException
  | .rat, .fix | .rat, .big | .rat, .rat | .flo, .cpx | .cpx, _ => fixnumException
  | .fix, .flo | .big, .flo | .rat, .flo =>
    let y ← readFlonum b
    if isInteger y then sexpToInexact flo (← self a (← exactInteger flo y))
    else fixnumException
  | .fix, .rat | .big, .rat | .fix, .cpx | .big, .cpx => fixnumException
  | .fix, .fix | .fix, .big | .big, .fix | .big, .big =>
    allocResult (op (← readInt a) (← readInt b))

/-- `sexp_quotient` -/
def quotientTable (a b : Val) : NumM F Val :=
  if b = .one then pure a
  else divisionTable flo quotientInteger inner.quotient (fun x => flo.eq x (flo.trunc x)) a b

/-- `sexp_remainder` -/
def remainderTable (a b : Val) : NumM F Val :=
  if b = .one then pure .zero
  else
    divisionTable flo remainderInteger inner.remainder
      (fun x => !flo.isinf x && flo.eq x (flo.trunc x)) a b

/-- `sexp_inexact_to_exact` of a finite flonum. -/
def inexactToExact (x : F) : NumM F Val := do
  let (num, den) := flo.toExact x
  if den = .fixnum sexpOne then allocInt num
  else
    let num ← allocInt num
    let den ← allocInt den
    sexpMakeRatio num den

/-- The rows of `sexp_compare` with a flonum and an exact number: infinities are
decided by their sign. -/
def compareFlonum (x : F) (positive negative : Val) (finite : NumM F Val) : NumM F Val :=
  if flo.isinf x then pure (if flo.lt flo.zero x then positive else negative)
  else if flo.isnan x then pure (.exception "can't compare NaN")
  else finite

/-- The rows of `sexp_compare` for operands in the order of their classes. -/
def compareOrdered (a b : Val) : NumM F Val := do
  let one : Val := .fixnum (sexpMakeFixnum 1)
  let negOne : Val := .fixnum (sexpMakeFixnum (-1))
  match ← numberType a, ← numberType b with
  | .not, .not | .not, .fix | .not, .flo | .not, .big => numberException
  | .cpx, .cpx | .fix, .cpx | .flo, .cpx | .big, .cpx | .rat, .cpx => numberException
  | .fix, .fix | .fix, .big | .big, .big =>
    pure (.fixnum (compareInteger (← readInt a) (← readInt b)))
  | .fix, .flo =>
    let y ← readFlonum b
    compareFlonum flo y negOne one (do inner.compare a (← inexactToExact flo y))
  | .flo, .flo =>
    let x ← readFlonum a
    let y ← readFlonum b
    if flo.isnan x || flo.isnan y then pure (.exception "can't compare NaN")
    else pure (if flo.lt x y then negOne else if flo.eq x y then .zero else one)
  | .flo, .big =>
    let x ← readFlonum a
    compareFlonum flo x one negOne (do
      match ← readInt b with
      | .bignum y => pure (.fixnum (sexpMakeFixnum (sexpBignumCompare (flo.toBignum x) y)))
      | .fixnum _ => undefined)
  | .flo, .rat =>
    let x ← readFlonum a
    compareFlonum flo x one negOne (do inner.compare (← inexactToExact flo x) b)
  | .fix, .rat | .big, .rat => sexpRatioCompare inner (← sexpMakeRatio a .one) b
  | .rat, .rat => sexpRatioCompare inner a b
  | _, _ => pure (.exception "unknown comparison")

/-- `sexp_compare` -/
def compareTable (a b : Val) : NumM F Val := do
  if (← numberType a).code > (← numberType b).code then
    match ← compareOrdered flo inner b a with
    | .exception message => pure (.exception message)
    | r => sexpNegate flo r
  else compareOrdered flo inner a b

/-- The tower for numbers nested `depth` deep. -/
def arith : ℕ → Arith F
  | 0 => ⟨fun _ _ => undefined, fun _ _ => undefined, fun _ _ => undefined, fun _ _ => undefined,
      fun _ _ => undefined, fun _ _ => undefined, fun _ _ => undefined⟩
  | depth + 1 =>
    { add := addTable flo (arith depth)
      sub := subTable flo (arith depth)
      mul := mulTable flo (arith depth)
      div := divTable flo (arith depth)
      quotient := quotientTable flo (arith depth)
      remainder := remainderTable flo (arith depth)
      compare := compareTable flo (arith depth) }

end ChibiScheme
