import ChibiScheme.SyntaxRules.Code
import Mathlib.Logic.Function.Iterate

/-!
# `syntax-rules-transformer`

The two compilers of `syntax-rules`: `expand-pattern` turns a pattern into code that takes a
form apart, in continuation passing style over the pattern, and `expand-template` turns a
template into code that builds the expansion.  Generated names come from a counter.
-/

namespace ChibiScheme.SyntaxRules

variable {ι : Type} [DecidableEq ι]

/-- What a `syntax-rules` form says besides its clauses, and what its transformer is called
with. -/
structure Rules (ι : Type) where
  ellipsis : ι
  ellipsisSpecified : Bool
  lits : List ι
  underscore : ι
  compare : Compare ι
  /-- The text of `identifier->symbol`. -/
  symbolName : ι → String

/-- Generation: the counter of `next-symbol`, and the texts of errors. -/
abbrev Gen (α : Type) := StateT ℕ (Except String) α

theorem Gen.bind_ok {α β : Type} {x : Gen α} {f : α → Gen β} {a : α} {c c' : ℕ}
    (h : x c = .ok (a, c')) : (x >>= f) c = f a c' := by
  show (x c >>= fun p => f p.1 p.2) = _
  rw [h]
  rfl

namespace Rules

variable (s : Rules ι)

/-! ## Ellipses -/

/-- `ellipsis-mark?`: no form is one when the ellipsis is among the literals. -/
def ellipsisMark (x : Form ι) : Bool :=
  let isLiteral :=
    if s.ellipsisSpecified then decide (s.ellipsis ∈ s.lits)
    else s.lits.any fun l => s.compare.same (.ident s.ellipsis) (.ident l)
  if isLiteral then false
  else if s.ellipsisSpecified then
    match x with
    | .ident y => s.ellipsis = y
    | _ => false
  else s.compare.same (.ident s.ellipsis) x

/-- `ellipsis?`: a pair whose second element is an ellipsis. -/
def isEllipsis (x : Form ι) : Bool :=
  x.isPair && x.cdr.isPair && s.ellipsisMark x.cdr.car

/-- `ellipsis-escape?`. -/
def isEscape (x : Form ι) : Bool :=
  x.isPair && s.ellipsisMark x.car

theorem ident_of_ellipsisMark {x : Form ι} (h : s.ellipsisMark x = true) :
    x.isIdent = true := by
  cases x with
  | ident y => rfl
  | _ =>
    simp only [ellipsisMark] at h
    split at h
    · simp at h
    · split at h
      · simp at h
      · exact s.compare.ident_of_same_left _ _ h

attribute [local simp] isEllipsis in
theorem isEllipsis_pair {a d : Form ι} (h : s.isEllipsis (.pair a d) = true) :
    ∃ y rest, d = .pair (.ident y) rest ∧ s.ellipsisMark (.ident y) = true := by
  cases d with
  | pair m rest =>
    have hmark : s.ellipsisMark m = true := by
      simpa [isEllipsis, Form.isPair, Form.car, Form.cdr] using h
    cases m with
    | ident y => exact ⟨y, rest, rfl, hmark⟩
    | _ => simpa [Form.isIdent] using s.ident_of_ellipsisMark hmark
  | _ => simp [isEllipsis, Form.isPair, Form.cdr] at h

/-- `ellipsis-depth` -/
def ellipsisDepth : Form ι → ℕ
  | .pair a d => if s.isEllipsis (.pair a d) then 1 + ellipsisDepth d else 0
  | _ => 0

/-- `ellipsis-tail` -/
def ellipsisTail : Form ι → Form ι
  | .pair a d => if s.isEllipsis (.pair a d) then ellipsisTail d else d
  | _ => .nil

/-- The identifier is `_`. -/
def isUnderscore (x : ι) : Bool :=
  s.compare.same (.ident x) (.ident s.underscore)

/-- Whether an identifier of a pattern is a pattern variable. -/
def isVariable (x : ι) : Bool :=
  !(decide (x ∈ s.lits) || s.isUnderscore x)

/-! ## Sizes -/

mutual

/-- The number of ellipses that more elements follow.  `expand-pattern` turns
`(p ... . tail)` into a pattern with one such ellipsis less. -/
def inner : Form ι → ℕ
  | .pair a (.pair m rest) =>
    inner a + inner (.pair m rest) + if s.ellipsisMark m && !rest.isNull then 1 else 0
  | .pair a d => inner a + inner d
  | .vec vs => innerAll vs
  | _ => 0

/-- The same of the elements of a vector. -/
def innerAll : List (Form ι) → ℕ
  | v :: m :: vs =>
    inner v + innerAll (m :: vs) + if s.ellipsisMark m && !vs.isEmpty then 1 else 0
  | [v] => inner v
  | [] => 0

end

theorem inner_ofList (vs : List (Form ι)) : s.inner (.ofList vs) = s.innerAll vs := by
  induction vs with
  | nil => rfl
  | cons v vs ih =>
    cases vs with
    | nil => simp [inner, innerAll]
    | cons m vs =>
      have hempty : (Form.ofList vs).isNull = vs.isEmpty := by cases vs <;> rfl
      simp only [Form.ofList_cons] at ih
      simp [inner, innerAll, ih, hempty]

theorem inner_car_le (a d : Form ι) : s.inner a ≤ s.inner (.pair a d) := by
  cases d with
  | pair m rest => simp only [inner]; omega
  | _ => simp [inner]

theorem inner_cdr_le (a d : Form ι) : s.inner d ≤ s.inner (.pair a d) := by
  cases d with
  | pair m rest => simp only [inner]; omega
  | _ => simp [inner]

theorem inner_regroup {a d : Form ι} (hellipsis : s.isEllipsis (.pair a d) = true)
    (htail : d.cdr.isNull = false) :
    s.inner (.pair d.cdr (.pair (.pair a (.pair d.car .nil)) .nil)) < s.inner (.pair a d) := by
  obtain ⟨y, rest, rfl, hmark⟩ := s.isEllipsis_pair hellipsis
  have hrest := s.inner_cdr_le (.ident y) rest
  have hgroup : s.ellipsisMark (.pair a (.pair (.ident y) .nil)) = false := by
    by_contra hnot
    have hident := s.ident_of_ellipsisMark (by simpa using hnot)
    simp [Form.isIdent] at hident
  have hnull : rest.isNull = false := htail
  have hbefore : s.inner (.pair a (.pair (.ident y) rest))
      = s.inner a + s.inner (.pair (.ident y) rest) + 1 := by
    simp [inner, hmark, hnull]
  have hafter : s.inner (.pair rest (.pair (.pair a (.pair (.ident y) .nil)) .nil))
      = s.inner rest + s.inner a := by
    simp [inner, hgroup, hmark, Form.isNull]
  show s.inner (.pair rest (.pair (.pair a (.pair (.ident y) .nil)) .nil)) < _
  omega

theorem measure_lt {a b : Form ι} (hinner : s.inner a ≤ s.inner b)
    (hsize : sizeOf a < sizeOf b) :
    Prod.Lex (· < ·) (· < ·) (s.inner a, sizeOf a) (s.inner b, sizeOf b) := by
  rcases Nat.lt_or_eq_of_le hinner with hlt | heq
  · exact .left _ _ hlt
  · rw [heq]
    exact .right _ hsize

/-! ## Variables -/

/-- `all-vars`: the variables of a pattern in front of `vars`, each with its depth. -/
def allVars (x : Form ι) (dim : ℕ) (vars : List (ι × ℕ)) : List (ι × ℕ) :=
  match x with
  | .ident y => if s.isVariable y then (y, dim) :: vars else vars
  | .pair a d =>
    if s.isEllipsis (.pair a d) then allVars a (dim + 1) (allVars d.cdr dim vars)
    else allVars a dim (allVars d dim vars)
  | .vec vs => allVars (.ofList vs) dim vars
  | _ => vars
  termination_by sizeOf x
  decreasing_by
    · have hcdr := Form.sizeOf_cdr_le d
      simp only [Form.pair.sizeOf_spec]
      omega
    · simp only [Form.pair.sizeOf_spec]
      omega
    · simp only [Form.pair.sizeOf_spec]
      omega
    · simp only [Form.pair.sizeOf_spec]
      omega
    · rw [Form.sizeOf_ofList, Form.vec.sizeOf_spec]
      omega

/-- `free-vars`: the identifiers of a template that `vars` gives a depth of at least `dim`, in
front of `free`. -/
def freeVars (x : Form ι) (vars : List (ι × ℕ)) (dim : ℕ) (free : List ι) : List ι :=
  match x with
  | .ident y =>
    let deep :=
      match vars.find? fun cell => cell.1 = y with
      | some cell => decide (dim ≤ cell.2)
      | none => false
    if decide (y ∉ free) && deep then y :: free else free
  | .pair a d => freeVars a vars dim (freeVars d vars dim free)
  | .vec vs => freeVars (.ofList vs) vars dim free
  | _ => free
  termination_by sizeOf x
  decreasing_by
    · simp only [Form.pair.sizeOf_spec]
      omega
    · simp only [Form.pair.sizeOf_spec]
      omega
    · rw [Form.sizeOf_ofList, Form.vec.sizeOf_spec]
      omega

/-! ## `expand-pattern` -/

/-- `next-symbol` -/
def nextSymbol (stem : String) : Gen (Var ι) := do
  let count ← get
  set (count + 1)
  return .gen stem (count + 1)

/-- The names of the lists that the loop of an ellipsis collects, one for each variable. -/
def listNames : List (ι × ℕ) → Gen (List (Var ι))
  | [] => return []
  | x :: xs => do
      let l ← nextSymbol (s.symbolName x.1 ++ "-ls")
      let ls ← listNames xs
      return l :: ls

/-- The code for a pattern with elements behind the ellipsis: the loop leaves the last `count`
elements of the list `v` in `ls` and collects those in front of them in `res`. -/
def tailCode (v lp : Var ι) (count : ℕ) (matched : Code ι) : Code ι :=
  .letVars [(.len, .prim₁ .lengthStar (.var v))]
    (.both (.prim₂ .ge (.var .len) (.datum (.num count)))
      (.letLoop lp
        [(.ls, .var v), (.i, .prim₂ .sub (.var .len) (.datum (.num count))), (.res, .quote .nil)]
        (.ite (.prim₂ .ge (.datum (.num 0)) (.var .i))
          matched
          (.call lp
            [.prim₁ .cdr (.var .ls), .prim₂ .sub (.var .i) (.datum (.num 1)),
              .consSource (.prim₁ .car (.var .ls)) (.var .res) (.var .ls)]))))

/-- The call that goes on with the next item of an ellipsis. -/
def againCode (w lp : Var ι) (newVars : List (ι × ℕ)) (lsVars : List (Var ι)) : Code ι :=
  .call lp (.prim₁ .cdr (.var w) ::
    List.zipWith (fun x l => .prim₂ .cons (.var (.user x.1)) (.var l)) newVars lsVars)

/-- The body of the loop that matches an ellipsis. -/
def loopBody (w : Var ι) (newVars : List (ι × ℕ)) (lsVars : List (Var ι))
    (once rest : Code ι) : Code ι :=
  .ite (.prim₁ .isNull (.var w))
    (.letVars
      (List.zipWith (fun x l => (.user x.1, .prim₁ .reverse (.var l))) newVars lsVars)
      rest)
    (.both (.prim₁ .isPair (.var w)) once)

/-- The code for a pattern that ends with an ellipsis. -/
def loopCode (v w lp : Var ι) (newVars : List (ι × ℕ)) (lsVars : List (Var ι))
    (once rest : Code ι) : Code ι :=
  .letLoop lp ((w, .var v) :: lsVars.map fun l => (l, .quote .nil))
    (loopBody w newVars lsVars once rest)

/-- The loop of `expand-pattern`: code that matches the value of `x` with the pattern `p`, whose
variables have depth `dim`, and goes on with the code that `k` makes from all variables. -/
def expandLp (p : Form ι) (x : Code ι) (dim : ℕ) (vars : List (ι × ℕ))
    (k : List (ι × ℕ) → Gen (Code ι)) : Gen (Code ι) := do
  let v ← nextSymbol "v."
  let body ← (
    match p with
    | .ident y =>
      if s.ellipsisMark (.ident y) then
        throw "bad ellipsis"
      else if y ∈ s.lits then do
        let rest ← k vars
        return .both (.prim₂ .compare (.var v) (.rename y)) rest
      else if s.isUnderscore y then
        k vars
      else do
        let rest ← k ((y, dim) :: vars)
        return .letVars [(.user y, .var v)] rest
    | .pair a d =>
      if _ : s.isEllipsis (.pair a d) = true then
        if _ : d.cdr.isNull = false then
          if d.cdr.cars.any fun x => x.isIdent && s.ellipsisMark x then
            throw "multiple ellipses"
          else do
            let lp ← nextSymbol "lp."
            let matched ← expandLp (.pair d.cdr (.pair (.pair a (.pair d.car .nil)) .nil))
              (.prim₂ .cons (.var .ls)
                (.prim₂ .cons (.prim₁ .reverse (.var .res)) (.quote .nil)))
              dim vars k
            return tailCode v lp d.cdr.lengthStar matched
        else
          match a.name? with
          | some y => do
              let rest ← k ((y, dim + 1) :: vars)
              return .both (.prim₁ .isList (.var v)) (.letVars [(.user y, .var v)] rest)
          | none => do
              let w ← nextSymbol "w."
              let lp ← nextSymbol "lp."
              let newVars := s.allVars a (dim + 1) []
              let lsVars ← s.listNames newVars
              let once ← expandLp a (.prim₁ .car (.var w)) (dim + 1) [] fun _ =>
                return againCode w lp newVars lsVars
              let rest ← k (newVars ++ vars)
              return loopCode v w lp newVars lsVars once rest
      else do
        let both ← expandLp a (.prim₁ .car (.var v)) dim vars fun vars =>
          expandLp d (.prim₁ .cdr (.var v)) dim vars k
        return .both (.prim₁ .isPair (.var v)) both
    | .vec vs => do
        let all ← expandLp (.ofList vs) (.prim₁ .vectorToList (.var v)) dim vars k
        return .both (.prim₁ .isVector (.var v)) all
    | .nil => do
        let rest ← k vars
        return .both (.prim₁ .isNull (.var v)) rest
    | .atom b => do
        let rest ← k vars
        return .both (.prim₂ .equal (.var v) (.datum b)) rest)
  return .letVars [(v, x)] body
  termination_by (s.inner p, sizeOf p)
  decreasing_by
    · exact .left _ _ (s.inner_regroup (by assumption) (by assumption))
    · exact s.measure_lt (s.inner_car_le a d) (by simp only [Form.pair.sizeOf_spec]; omega)
    · exact s.measure_lt (s.inner_cdr_le a d) (by simp only [Form.pair.sizeOf_spec]; omega)
    · exact s.measure_lt (s.inner_car_le a d) (by simp only [Form.pair.sizeOf_spec]; omega)
    · refine s.measure_lt (Nat.le_of_eq (s.inner_ofList vs)) ?_
      rw [Form.sizeOf_ofList, Form.vec.sizeOf_spec]
      omega

/-! ### One step of `expand-pattern` -/

section Steps

variable {s : Rules ι} {x : Code ι} {dim : ℕ} {vars : List (ι × ℕ)}
  {k : List (ι × ℕ) → Gen (Code ι)} {c c' : ℕ} {rest : Code ι}

omit [DecidableEq ι] in
attribute [local simp] expandLp in
theorem nextSymbol_run (stem : String) (c : ℕ) :
    (nextSymbol stem : Gen (Var ι)) c = .ok (.gen stem (c + 1), c + 1) := rfl

theorem run_literal {y : ι} (hmark : s.ellipsisMark (.ident y) = false) (hlit : y ∈ s.lits)
    (hk : k vars (c + 1) = .ok (rest, c')) :
    s.expandLp (.ident y) x dim vars k c = .ok (.letVars [(.gen "v." (c + 1), x)]
      (.both (.prim₂ .compare (.var (.gen "v." (c + 1))) (.rename y)) rest), c') := by
  rw [expandLp, Gen.bind_ok (nextSymbol_run "v." c)]
  simp only [hmark, hlit, if_true, Bool.false_eq_true, if_false]
  rw [Gen.bind_ok (Gen.bind_ok hk)]
  rfl

theorem run_underscore {y : ι} (hmark : s.ellipsisMark (.ident y) = false) (hlit : y ∉ s.lits)
    (hunder : s.isUnderscore y = true) (hk : k vars (c + 1) = .ok (rest, c')) :
    s.expandLp (.ident y) x dim vars k c =
      .ok (.letVars [(.gen "v." (c + 1), x)] rest, c') := by
  rw [expandLp, Gen.bind_ok (nextSymbol_run "v." c)]
  simp only [hmark, hlit, hunder, if_true, Bool.false_eq_true, if_false]
  rw [Gen.bind_ok hk]
  rfl

theorem run_variable {y : ι} (hmark : s.ellipsisMark (.ident y) = false) (hlit : y ∉ s.lits)
    (hunder : s.isUnderscore y = false) (hk : k ((y, dim) :: vars) (c + 1) = .ok (rest, c')) :
    s.expandLp (.ident y) x dim vars k c = .ok (.letVars [(.gen "v." (c + 1), x)]
      (.letVars [(.user y, .var (.gen "v." (c + 1)))] rest), c') := by
  rw [expandLp, Gen.bind_ok (nextSymbol_run "v." c)]
  simp only [hmark, hlit, hunder, Bool.false_eq_true, if_false]
  rw [Gen.bind_ok (Gen.bind_ok hk)]
  rfl

theorem run_pair {a d : Form ι} (hellipsis : s.isEllipsis (.pair a d) = false)
    (hboth : s.expandLp a (.prim₁ .car (.var (.gen "v." (c + 1)))) dim vars
      (fun vars => s.expandLp d (.prim₁ .cdr (.var (.gen "v." (c + 1)))) dim vars k) (c + 1)
        = .ok (rest, c')) :
    s.expandLp (.pair a d) x dim vars k c = .ok (.letVars [(.gen "v." (c + 1), x)]
      (.both (.prim₁ .isPair (.var (.gen "v." (c + 1)))) rest), c') := by
  rw [expandLp, Gen.bind_ok (nextSymbol_run "v." c)]
  simp only [hellipsis, Bool.false_eq_true, dite_false]
  rw [Gen.bind_ok (Gen.bind_ok hboth)]
  rfl

theorem run_tail {a tail : Form ι} {m : ι} (hmark : s.ellipsisMark (.ident m) = true)
    (htail : tail.isNull = false)
    (hone : (tail.cars.any fun x => x.isIdent && s.ellipsisMark x) = false)
    (hmatched : s.expandLp (.pair tail (.pair (.pair a (.pair (.ident m) .nil)) .nil))
      (.prim₂ .cons (.var .ls) (.prim₂ .cons (.prim₁ .reverse (.var .res)) (.quote .nil)))
      dim vars k (c + 2) = .ok (rest, c')) :
    s.expandLp (.pair a (.pair (.ident m) tail)) x dim vars k c =
      .ok (.letVars [(.gen "v." (c + 1), x)]
        (tailCode (.gen "v." (c + 1)) (.gen "lp." (c + 2)) tail.lengthStar rest), c') := by
  have hellipsis : s.isEllipsis (.pair a (.pair (.ident m) tail)) = true := by
    simp [isEllipsis, Form.isPair, Form.cdr, Form.car, hmark]
  rw [expandLp, Gen.bind_ok (nextSymbol_run "v." c)]
  simp only [hellipsis, Form.cdr, Form.car, htail, hone, Bool.false_eq_true, dite_true, if_false]
  refine Gen.bind_ok (a := tailCode (.gen "v." (c + 1)) (.gen "lp." (c + 2)) tail.lengthStar rest) ?_
  rw [Gen.bind_ok (nextSymbol_run "lp." (c + 1))]
  exact Gen.bind_ok hmatched

theorem run_shortcut {y m : ι} (hmark : s.ellipsisMark (.ident m) = true)
    (hk : k ((y, dim + 1) :: vars) (c + 1) = .ok (rest, c')) :
    s.expandLp (.pair (.ident y) (.pair (.ident m) .nil)) x dim vars k c =
      .ok (.letVars [(.gen "v." (c + 1), x)]
        (.both (.prim₁ .isList (.var (.gen "v." (c + 1))))
          (.letVars [(.user y, .var (.gen "v." (c + 1)))] rest)), c') := by
  have hellipsis : s.isEllipsis (.pair (.ident y) (.pair (.ident m) .nil)) = true := by
    simp [isEllipsis, Form.isPair, Form.cdr, Form.car, hmark]
  rw [expandLp, Gen.bind_ok (nextSymbol_run "v." c)]
  simp only [hellipsis, Form.cdr, Form.isNull, Form.name?, dite_true, Bool.true_eq_false]
  rw [Gen.bind_ok (Gen.bind_ok hk)]
  rfl

theorem run_loop {a : Form ι} {m : ι} {lsVars : List (Var ι)} {c₁ c₂ : ℕ} {once : Code ι}
    (hmark : s.ellipsisMark (.ident m) = true) (hname : a.name? = none)
    (hnames : s.listNames (s.allVars a (dim + 1) []) (c + 3) = .ok (lsVars, c₁))
    (honce : s.expandLp a (.prim₁ .car (.var (.gen "w." (c + 2)))) (dim + 1) []
      (fun _ => pure (againCode (.gen "w." (c + 2)) (.gen "lp." (c + 3))
        (s.allVars a (dim + 1) []) lsVars)) c₁ = .ok (once, c₂))
    (hk : k (s.allVars a (dim + 1) [] ++ vars) c₂ = .ok (rest, c')) :
    s.expandLp (.pair a (.pair (.ident m) .nil)) x dim vars k c =
      .ok (.letVars [(.gen "v." (c + 1), x)]
        (loopCode (.gen "v." (c + 1)) (.gen "w." (c + 2)) (.gen "lp." (c + 3))
          (s.allVars a (dim + 1) []) lsVars once rest), c') := by
  have hellipsis : s.isEllipsis (.pair a (.pair (.ident m) .nil)) = true := by
    simp [isEllipsis, Form.isPair, Form.cdr, Form.car, hmark]
  rw [expandLp, Gen.bind_ok (nextSymbol_run "v." c)]
  simp only [hellipsis, Form.cdr, Form.isNull, hname, dite_true, Bool.true_eq_false, dite_false]
  refine Gen.bind_ok (a := loopCode (.gen "v." (c + 1)) (.gen "w." (c + 2)) (.gen "lp." (c + 3))
    (s.allVars a (dim + 1) []) lsVars once rest) ?_
  rw [Gen.bind_ok (nextSymbol_run "w." (c + 1)), Gen.bind_ok (nextSymbol_run "lp." (c + 2)),
    Gen.bind_ok hnames, Gen.bind_ok honce, Gen.bind_ok hk]
  rfl

omit [DecidableEq ι] in
theorem listNames_run (xs : List (ι × ℕ)) (c : ℕ) :
    ∃ ls, s.listNames xs c = .ok (ls, c + xs.length) ∧ ls.length = xs.length ∧ ls.Nodup ∧
      ∀ l ∈ ls, ∃ stem n, l = Var.gen stem n ∧ c < n ∧ n ≤ c + xs.length := by
  induction xs generalizing c with
  | nil => exact ⟨[], rfl, rfl, List.nodup_nil, by simp⟩
  | cons x xs ih =>
    obtain ⟨ls, hrun, hlen, hnodup, hnew⟩ := ih (c + 1)
    refine ⟨.gen (s.symbolName x.1 ++ "-ls") (c + 1) :: ls, ?_, by simp [hlen], ?_, ?_⟩
    · rw [listNames, Gen.bind_ok (nextSymbol_run _ c), Gen.bind_ok hrun, List.length_cons,
        show c + 1 + xs.length = c + (xs.length + 1) by omega]
      rfl
    · refine List.nodup_cons.mpr ⟨fun hmem => ?_, hnodup⟩
      obtain ⟨stem, n, heq, hlt, _⟩ := hnew _ hmem
      have hcount : c + 1 = n := (Var.gen.inj heq).2
      omega
    · intro l hmem
      rcases List.mem_cons.mp hmem with rfl | hin
      · exact ⟨_, c + 1, rfl, by omega, by simp⟩
      · obtain ⟨stem, n, heq, hlt, hle⟩ := hnew l hin
        exact ⟨stem, n, heq, by omega, by rw [List.length_cons]; omega⟩

theorem run_vec {vs : List (Form ι)}
    (hall : s.expandLp (.ofList vs) (.prim₁ .vectorToList (.var (.gen "v." (c + 1)))) dim vars k
      (c + 1) = .ok (rest, c')) :
    s.expandLp (.vec vs) x dim vars k c = .ok (.letVars [(.gen "v." (c + 1), x)]
      (.both (.prim₁ .isVector (.var (.gen "v." (c + 1)))) rest), c') := by
  rw [expandLp, Gen.bind_ok (nextSymbol_run "v." c)]
  simp only
  rw [Gen.bind_ok (Gen.bind_ok hall)]
  rfl

theorem run_nil (hk : k vars (c + 1) = .ok (rest, c')) :
    s.expandLp .nil x dim vars k c = .ok (.letVars [(.gen "v." (c + 1), x)]
      (.both (.prim₁ .isNull (.var (.gen "v." (c + 1)))) rest), c') := by
  rw [expandLp, Gen.bind_ok (nextSymbol_run "v." c)]
  simp only
  rw [Gen.bind_ok (Gen.bind_ok hk)]
  rfl

theorem run_atom {b : Atom} (hk : k vars (c + 1) = .ok (rest, c')) :
    s.expandLp (.atom b) x dim vars k c = .ok (.letVars [(.gen "v." (c + 1), x)]
      (.both (.prim₂ .equal (.var (.gen "v." (c + 1))) (.datum b)) rest), c') := by
  rw [expandLp, Gen.bind_ok (nextSymbol_run "v." c)]
  simp only
  rw [Gen.bind_ok (Gen.bind_ok hk)]
  rfl

end Steps

/-! ## `expand-template` -/

theorem sizeOf_ellipsisTail_lt (a d : Form ι) :
    sizeOf (s.ellipsisTail (.pair a d)) < sizeOf (Form.pair a d) := by
  induction d using Form.spine_induction generalizing a with
  | hpair b e ih =>
    rw [ellipsisTail]
    split
    · have hrest := ih b
      simp only [Form.pair.sizeOf_spec] at hrest ⊢
      omega
    · simp only [Form.pair.sizeOf_spec]
      omega
  | hend d hpair =>
    have hnot : s.isEllipsis (.pair a d) = false := by
      simp [isEllipsis, Form.cdr, hpair]
    rw [ellipsisTail, hnot]
    simp only [Bool.false_eq_true, if_false, Form.pair.sizeOf_spec]
    omega

/-- The loop of `expand-template`: code that builds the instance of the template `t` below `dim`
ellipses, from the variables `vars` with their depths.  The source looks for one more shortcut,
where the code of the subtemplate is `eq?` to the first element of `vars`; this is a pair and
never code. -/
def templateLp (vars : List (ι × ℕ)) (t : Form ι) (dim : ℕ) (ellEsc : Bool) :
    Except String (Code ι) :=
  match t with
  | .ident y =>
    match vars.find? fun cell => y = cell.1 with
    | some cell => if cell.2 ≤ dim then return .var (.user y) else throw "too few ...'s"
    | none => return .rename y
  | .pair a d =>
    if s.isEscape (.pair a d) && !ellEsc then
      if d.isPair && d.cdr.isNull then templateLp vars d.car dim true
      else templateLp vars d dim true
    else if s.isEllipsis (.pair a d) && !ellEsc then
      let depth := s.ellipsisDepth (.pair a d)
      let ellDim := dim + depth
      let ellVars := freeVars a vars ellDim []
      if ellVars.isEmpty then
        throw "too many ...'s"
      else if d.cdr.isNull && a.isIdent then
        templateLp vars a ellDim ellEsc
      else do
        let once ← templateLp vars a ellDim ellEsc
        let nest := Code.map (ellVars.map .user) once (ellVars.map fun x => .var (.user x))
        let many := (Code.prim₁ .applyAppend)^[depth - 1] nest
        let tail := s.ellipsisTail (.pair a d)
        if tail.isNull then
          return many
        else do
          let rest ← templateLp vars tail dim ellEsc
          return .prim₂ .append many rest
    else do
      let car ← templateLp vars a dim ellEsc
      let cdr ← templateLp vars d dim ellEsc
      return .consSource car cdr (.quote (.pair a d))
  | .vec vs => do
      let all ← templateLp vars (.ofList vs) dim ellEsc
      return .prim₁ .listToVector all
  | .nil => return .quote .nil
  | .atom b => return .datum b
  termination_by sizeOf t
  decreasing_by
    · have hcar := Form.sizeOf_car_le d
      simp only [Form.pair.sizeOf_spec]
      omega
    · simp only [Form.pair.sizeOf_spec]
      omega
    · simp only [Form.pair.sizeOf_spec]
      omega
    · simp only [Form.pair.sizeOf_spec]
      omega
    · exact s.sizeOf_ellipsisTail_lt a d
    · simp only [Form.pair.sizeOf_spec]
      omega
    · simp only [Form.pair.sizeOf_spec]
      omega
    · rw [Form.sizeOf_ofList, Form.vec.sizeOf_spec]
      omega

/-- `expand-template` -/
def expandTemplate (tmpl : Form ι) (vars : List (ι × ℕ)) : Except String (Code ι) :=
  s.templateLp vars tmpl 0 false

/-- `expand-pattern`.  The keyword in front of a pattern is not matched unless some pattern of the
macro is not a pair. -/
def expandPattern (fullMatch : Bool) (pat tmpl : Form ι) : Gen (Code ι) :=
  s.expandLp (if fullMatch then pat else pat.cdr)
    (if fullMatch then .var .expr else .prim₁ .cdr (.var .expr)) 0 [] fun vars => do
      let code ← s.expandTemplate tmpl vars
      return .prim₂ .cons code (.quote .no)

end Rules

end ChibiScheme.SyntaxRules
