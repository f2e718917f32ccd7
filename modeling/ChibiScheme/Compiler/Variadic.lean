import ChibiScheme.Compiler.Generate

/-!
# Inlined variadic primitives

An application of `+`, `<` and their like to any number of arguments is compiled in line.  The
arguments are pushed so that the first operand is on top, and then a sequence of binary opcodes
combines them.  The arithmetic opcodes fold the stack.  The comparisons keep copies of the two
operands that the next comparison needs, and `AND` joins the results, which also drops the copies:
this reads the operands themselves as truth values.
-/

namespace ChibiScheme.Compiler

open Vm List

variable {ε : Type}

/-! ## The opcodes -/

/-- An opcode of the class of arithmetic. -/
def arithmeticOpcode (code : Vm.Op) (numArgs : ℕ) (variadic inverse : Bool) (data : OpcodeData)
    (self : Vm.Val) : OpcodeInfo :=
  ⟨.arithmetic, code, numArgs, variadic, false, false, false, inverse, false, data, .null, self⟩

/-- An opcode of the class of comparisons. -/
def comparisonOpcode (code : Vm.Op) (inverse : Bool) (self : Vm.Val) : OpcodeInfo :=
  ⟨.arithmeticCmp, code, 2, true, false, false, false, inverse, false, .null, .null, self⟩

/-- The rows of `opcodes.c` with the two classes, for an opcode object `self`. -/
def variadicOpcodes (self : Vm.Val) : List OpcodeInfo :=
  [arithmeticOpcode .add 0 true false (.value (.fixnum 0)) self,
   arithmeticOpcode .mul 0 true false (.value (.fixnum 1)) self,
   arithmeticOpcode .sub 1 true true (.value (.fixnum 0)) self,
   arithmeticOpcode .div 1 true true (.value (.fixnum 1)) self,
   arithmeticOpcode .quotient 2 false false .null self,
   arithmeticOpcode .remainder 2 false false .null self,
   comparisonOpcode .lt false self, comparisonOpcode .le false self,
   comparisonOpcode .lt true self, comparisonOpcode .le true self,
   comparisonOpcode .eqn false self,
   comparisonOpcode .scLt false self, comparisonOpcode .scLe false self,
   comparisonOpcode .scLt true self, comparisonOpcode .scLe true self]

/-- The argument counts for which `analyze` keeps the opcode in the operator position. -/
def inlines (op : OpcodeInfo) (count : ℕ) : Prop :=
  op.numArgs ≤ count ∧ (count ≤ op.numArgs ∨ op.variadic)

/-! ## The machine on its operands -/

/-- The operations of the number tower, each of which may raise an exception, and the machine word
of an object.  `sexp_compare` has no order for an object that is not a number. -/
structure Numbers (ε : Type) where
  arith : Vm.Op → Vm.Val → Vm.Val → Except ε Vm.Val
  compare : Vm.Op → Vm.Val → Vm.Val → Except ε Bool
  word : Vm.Val → ℤ
  compare_false : ∀ code v w, v = .imm .false ∨ w = .imm .false → compare code v w ≠ .ok true

/-- `sexp_make_boolean`. -/
def makeBoolean (b : Bool) : Vm.Val :=
  .imm (if b then .true else .false)

/-- `sexp_truep` -/
def truep (v : Vm.Val) : Bool :=
  decide (v ≠ .imm .false)

namespace Numbers

/-- A binary comparison; string cursors are compared by their words and are not checked. -/
def comparison (m : Numbers ε) : Vm.Op → Vm.Val → Vm.Val → Except ε Bool
  | .scLt, v, w => .ok (decide (m.word v < m.word w))
  | .scLe, v, w => .ok (decide (m.word v ≤ m.word w))
  | code, v, w => m.compare code v w

/-- One instruction on the stack, its top first; `none` for the instructions not needed here. -/
def exec (m : Numbers ε) : Vm.Instr → List Vm.Val → Option (Except ε (List Vm.Val))
  | ⟨.push, [.obj v]⟩, stack => some (.ok (v :: stack))
  | ⟨.stackRef, [.num n]⟩, stack => (stack[n.toNat - 1]?).map fun v => .ok (v :: stack)
  | ⟨.and, []⟩, v :: w :: stack => some (.ok (makeBoolean (truep v && truep w) :: stack))
  | ⟨code, []⟩, v :: w :: stack =>
    match code with
    | .add | .sub | .mul | .div | .quotient | .remainder =>
      some ((m.arith code v w).map (· :: stack))
    | .lt | .le | .eqn | .scLt | .scLe =>
      some ((m.comparison code v w).map fun b => makeBoolean b :: stack)
    | _ => none
  | _, _ => none

/-- Straight-line code. -/
def run (m : Numbers ε) : List Vm.Instr → List Vm.Val → Option (Except ε (List Vm.Val))
  | [], stack => some (.ok stack)
  | i :: rest, stack =>
    match m.exec i stack with
    | some (.ok stack) => run m rest stack
    | other => other

end Numbers

/-! ## What the primitives compute -/

/-- The operands of an arithmetic primitive: its default stands before too few arguments. -/
def withDefault (op : OpcodeInfo) (values : List Vm.Val) : List Vm.Val :=
  match takesDefault op values.length, op.data with
  | true, .value d => d :: values
  | _, _ => values

/-- An operation on values from the left. -/
def leftFold (f : Vm.Val → Vm.Val → Except ε Vm.Val) : List Vm.Val → Option (Except ε Vm.Val)
  | [] => none
  | v :: vs => some (vs.foldlM f v)

/-- The neighbours of a list. -/
def adjacent (values : List Vm.Val) : List (Vm.Val × Vm.Val) :=
  values.zip values.tail

/-- All the comparisons are made, also after a false one. -/
def conjunction : List (Except ε Bool) → Except ε Bool
  | [] => .ok true
  | r :: rs => do
    let b ← r
    let c ← conjunction rs
    return b && c

/-- The comparisons over the adjacent pairs: an inverse primitive swaps its two operands, and
starts with the last pair. -/
def comparisons (m : Numbers ε) (op : OpcodeInfo) (values : List Vm.Val) : List (Except ε Bool) :=
  if op.inverse then
    ((adjacent values).map fun p => m.comparison op.code p.2 p.1).reverse
  else (adjacent values).map fun p => m.comparison op.code p.1 p.2

/-- What `AND` adds to the comparisons of string cursors: with more than two arguments each of
them counts as a truth value. -/
def operandsTrue (op : OpcodeInfo) (values : List Vm.Val) : Bool :=
  if op.code = .scLt ∨ op.code = .scLe then decide (values.length ≤ 2) || values.all truep
  else true

/-- The fold of the arguments, or the conjunction of the comparisons. -/
def variadicResult (m : Numbers ε) (op : OpcodeInfo) (values : List Vm.Val) :
    Option (Except ε Vm.Val) :=
  if op.opClass = .arithmetic then leftFold (m.arith op.code) (withDefault op values)
  else some ((conjunction (comparisons m op values)).map fun b =>
    makeBoolean (b && operandsTrue op values))

/-! ## Straight-line code -/

@[simp] theorem truep_makeBoolean (b : Bool) : truep (makeBoolean b) = b := by
  cases b <;> rfl

namespace Numbers

variable (m : Numbers ε)

theorem run_cons_map {α : Type} {i : Vm.Instr} {rest : List Vm.Instr} {stack : List Vm.Val}
    {r : Except ε α} {f : α → List Vm.Val} :
    m.exec i stack = some (r.map f) → m.run (i :: rest) stack =
      match r with
      | .ok x => m.run rest (f x)
      | .error e => some (.error e) := by
  intro hexec
  rw [run, hexec]
  cases r <;> rfl

/-! ## Arithmetic -/

theorem exec_arith {code : Vm.Op}
    (hcode : code ∈ [.add, .mul, .sub, .div, .quotient, .remainder]) (v w : Vm.Val)
    (stack : List Vm.Val) :
    m.exec ⟨code, []⟩ (v :: w :: stack) = some ((m.arith code v w).map (· :: stack)) := by
  simp only [mem_cons, not_mem_nil, or_false] at hcode
  rcases hcode with rfl | rfl | rfl | rfl | rfl | rfl <;> rfl

theorem run_replicate {code : Vm.Op}
    (hcode : code ∈ [.add, .mul, .sub, .div, .quotient, .remainder]) (v : Vm.Val)
    (vs below : List Vm.Val) :
    m.run (replicate vs.length ⟨code, []⟩) (v :: (vs ++ below)) =
      some ((vs.foldlM (m.arith code) v).map (· :: below)) := by
  induction vs generalizing v with
  | nil => rfl
  | cons w vs ih =>
    have hexec := m.exec_arith hcode v w (vs ++ below)
    rw [length_cons, replicate_succ, cons_append, m.run_cons_map hexec, foldlM_cons]
    cases m.arith code v w with
    | ok x => exact ih x
    | error e => rfl

/-! ## Comparisons -/

theorem exec_compare {code : Vm.Op} (hcode : code ∈ [.lt, .le, .eqn, .scLt, .scLe]) (v w : Vm.Val)
    (stack : List Vm.Val) :
    m.exec ⟨code, []⟩ (v :: w :: stack) =
      some ((m.comparison code v w).map fun b => makeBoolean b :: stack) := by
  simp only [mem_cons, not_mem_nil, or_false] at hcode
  rcases hcode with rfl | rfl | rfl | rfl | rfl <;> rfl

theorem run_and (b : Bool) (v : Vm.Val) (stack : List Vm.Val) (rest : List Vm.Instr) :
    m.run (⟨.and, []⟩ :: rest) (makeBoolean b :: v :: stack) =
      m.run rest (makeBoolean (b && truep v) :: stack) := by
  simp [run, exec]

/-- What the loop of the generator emits in one turn. -/
def comparePair (code : Vm.Op) : List Vm.Instr :=
  [⟨.stackRef, [.num 3]⟩, ⟨.stackRef, [.num 3]⟩, ⟨code, []⟩, ⟨.and, []⟩, ⟨.and, []⟩]

/-- A comparison of all neighbours. -/
def overPairs (code : Vm.Op) (values : List Vm.Val) : Except ε Bool :=
  conjunction ((adjacent values).map fun p => m.comparison code p.1 p.2)

theorem overPairs_cons (code : Vm.Op) (v w : Vm.Val) (vs : List Vm.Val) :
    m.overPairs code (v :: w :: vs) = (do
      let b ← m.comparison code v w
      let c ← m.overPairs code (w :: vs)
      return b && c) := rfl

theorem run_comparePair {code : Vm.Op} (hcode : code ∈ [.lt, .le, .eqn, .scLt, .scLe]) (t : Bool)
    (v w : Vm.Val) (stack : List Vm.Val) (rest : List Vm.Instr) :
    m.run (comparePair code ++ rest) (makeBoolean t :: v :: w :: stack) =
      match m.comparison code v w with
      | .ok b => m.run rest (makeBoolean (t && b && truep v) :: w :: stack)
      | .error e => some (.error e) := by
  have hexec := m.exec_compare hcode v w (makeBoolean t :: v :: w :: stack)
  have hcopies : m.run (comparePair code ++ rest) (makeBoolean t :: v :: w :: stack) =
      m.run (⟨code, []⟩ :: ⟨.and, []⟩ :: ⟨.and, []⟩ :: rest)
        (v :: w :: makeBoolean t :: v :: w :: stack) := rfl
  rw [hcopies, m.run_cons_map hexec]
  cases m.comparison code v w with
  | error e => rfl
  | ok b => simp [run, exec, Bool.and_comm]

theorem run_compareRest {code : Vm.Op} (hcode : code ∈ [.lt, .le, .eqn, .scLt, .scLe]) (t : Bool)
    (v : Vm.Val) (vs below : List Vm.Val) :
    m.run ((replicate vs.length (comparePair code)).flatten ++ [⟨.and, []⟩])
        (makeBoolean t :: v :: (vs ++ below)) =
      some ((m.overPairs code (v :: vs)).map fun b =>
        makeBoolean (t && b && (v :: vs).all truep) :: below) := by
  induction vs generalizing t v with
  | nil => simp [run, exec, overPairs, adjacent, conjunction, Except.map]
  | cons w vs ih =>
    rw [length_cons, replicate_succ, flatten_cons, append_assoc, cons_append,
      m.run_comparePair hcode, m.overPairs_cons]
    cases m.comparison code v w with
    | error e => rfl
    | ok b =>
      refine (ih (t && b && truep v) w).trans ?_
      simp only [bind, Except.bind]
      cases m.overPairs code (w :: vs) with
      | error e => rfl
      | ok c =>
        simp only [Except.map, pure, Except.pure, all_cons]
        congr 4
        ac_rfl

theorem comparison_ne_true {code : Vm.Op} (hcode : ¬ (code = .scLt ∨ code = .scLe))
    {v w : Vm.Val} (hfalse : v = .imm .false ∨ w = .imm .false) : m.comparison code v w ≠ .ok true := by
  have hcompare : m.comparison code v w = m.compare code v w := by
    unfold comparison
    split <;> simp_all
  rw [hcompare]
  exact m.compare_false code v w hfalse

theorem all_truep {code : Vm.Op} (hcode : ¬ (code = .scLt ∨ code = .scLe)) (v w : Vm.Val)
    (vs : List Vm.Val) (htrue : m.overPairs code (v :: w :: vs) = .ok true) :
    (v :: w :: vs).all truep = true := by
  induction vs generalizing v w with
  | nil =>
    have hpair : m.comparison code v w = .ok true := by
      rw [m.overPairs_cons] at htrue
      cases hb : m.comparison code v w <;>
        simp_all [overPairs, adjacent, conjunction, bind, Except.bind, pure, Except.pure]
    have hne := fun hfalse => m.comparison_ne_true hcode hfalse hpair
    simp_all [truep]
  | cons x vs ih =>
    rw [m.overPairs_cons] at htrue
    cases hb : m.comparison code v w with
    | error e => simp [hb, bind, Except.bind] at htrue
    | ok b =>
      cases hc : m.overPairs code (w :: x :: vs) with
      | error e => simp [hb, hc, bind, Except.bind] at htrue
      | ok c =>
        simp only [hb, hc, bind, Except.bind, pure, Except.pure, Except.ok.injEq,
          Bool.and_eq_true] at htrue
        obtain ⟨rfl, rfl⟩ := htrue
        have hv : v ≠ .imm .false :=
          fun hfalse => m.comparison_ne_true hcode (.inl hfalse) hb
        simpa [truep, hv] using ih w x hc

/-- The comparison of two operands, or of more. -/
def compareCode (code : Vm.Op) (count : ℕ) : List Vm.Instr :=
  if 2 < count then
    [⟨.stackRef, [.num 2]⟩, ⟨.stackRef, [.num 2]⟩, ⟨code, []⟩, ⟨.and, []⟩] ++
      ((replicate (count - 2) (comparePair code)).flatten ++ [⟨.and, []⟩])
  else [⟨code, []⟩]

theorem run_compareCode {code : Vm.Op} (hcode : code ∈ [.lt, .le, .eqn, .scLt, .scLe])
    (v w : Vm.Val) (vs below : List Vm.Val) :
    m.run (compareCode code (vs.length + 2)) (v :: w :: (vs ++ below)) =
      some ((m.overPairs code (v :: w :: vs)).map fun b =>
        makeBoolean (b && (decide (vs = []) || (v :: w :: vs).all truep)) :: below) := by
  cases vs with
  | nil =>
    have hexec := m.exec_compare hcode v w below
    rw [compareCode, if_neg (by simp), nil_append, m.run_cons_map hexec, m.overPairs_cons]
    cases m.comparison code v w <;>
      simp [run, overPairs, adjacent, conjunction, bind, Except.bind, pure, Except.pure, Except.map]
  | cons x vs =>
    have hexec := m.exec_compare hcode v w (v :: w :: (x :: vs ++ below))
    have hcopies : m.run (compareCode code ((x :: vs).length + 2))
        (v :: w :: (x :: vs ++ below)) =
        m.run (⟨code, []⟩ :: ⟨.and, []⟩ ::
          ((replicate (x :: vs).length (comparePair code)).flatten ++ [⟨.and, []⟩]))
          (v :: w :: v :: w :: (x :: vs ++ below)) := by
      rw [compareCode, if_pos (by simp)]
      rfl
    rw [hcopies, m.run_cons_map hexec, m.overPairs_cons]
    cases m.comparison code v w with
    | error e => rfl
    | ok b =>
      have hand := m.run_and b v (w :: (x :: vs ++ below))
      refine (hand _).trans ((m.run_compareRest hcode (b && truep v) w (x :: vs) below).trans ?_)
      simp only [bind, Except.bind]
      cases m.overPairs code (w :: x :: vs) with
      | error e => rfl
      | ok c =>
        simp only [Except.map, pure, Except.pure, all_cons, reduceCtorEq, decide_false,
          Bool.false_or]
        congr 4
        ac_rfl

end Numbers

/-! ## The generator -/

theorem emitTimes_code (code : Vm.Op) (n : ℕ) (g : GenState) :
    (emitTimes code n g).code = g.code ++ replicate n ⟨code, []⟩ := by
  induction n generalizing g with
  | zero => simp [emitTimes]
  | succ n ih =>
    rw [emitTimes, ih, replicate_succ]
    simp [GenState.emit]

theorem compareRest_code (code : Vm.Op) (n : ℕ) (g : GenState) :
    (compareRest code n g).code =
      g.code ++ (replicate n (Numbers.comparePair code)).flatten := by
  induction n generalizing g with
  | zero => simp [compareRest]
  | succ n ih =>
    rw [compareRest, ih, replicate_succ]
    simp [GenState.emit, Numbers.comparePair]

/-- The arguments are pushed in order for an inverse comparison, else from the last one. -/
def generateOperands (config : Config) (scope : Scope) (op : OpcodeInfo) (args : List Ast)
    (g : GenState) : GenState :=
  if op.inverse && decide (op.opClass ≠ .arithmetic) then generateForward config scope args g
  else generateBackward config scope args g

/-- The operands in the order of the stack. -/
def operandStack (op : OpcodeInfo) (values : List Vm.Val) : List Vm.Val :=
  if op.inverse && decide (op.opClass ≠ .arithmetic) then values.reverse else values

@[simp] theorem operandStack_length (op : OpcodeInfo) (values : List Vm.Val) :
    (operandStack op values).length = values.length := by
  unfold operandStack
  split <;> simp

theorem adjacent_append (values : List Vm.Val) (v w : Vm.Val) :
    adjacent (values ++ [v, w]) = adjacent (values ++ [v]) ++ [(v, w)] := by
  induction values with
  | nil => rfl
  | cons x xs ih => cases xs <;> simp_all [adjacent]

theorem adjacent_reverse (values : List Vm.Val) :
    adjacent values.reverse = ((adjacent values).map Prod.swap).reverse := by
  induction values with
  | nil => rfl
  | cons v vs ih =>
    cases vs with
    | nil => rfl
    | cons w vs =>
      have hcons : adjacent (v :: w :: vs) = (v, w) :: adjacent (w :: vs) := rfl
      rw [reverse_cons, reverse_cons, append_assoc, cons_append, nil_append, adjacent_append,
        ← reverse_cons, ih, hcons, map_cons, reverse_cons]
      rfl

theorem overPairs_operandStack (m : Numbers ε) (code : Vm.Op) (inverse : Bool) (self : Vm.Val)
    (values : List Vm.Val) :
    m.overPairs code (operandStack (comparisonOpcode code inverse self) values) =
      conjunction (comparisons m (comparisonOpcode code inverse self) values) := by
  cases inverse with
  | false => rfl
  | true =>
    simp only [operandStack, comparisons, comparisonOpcode, Numbers.overPairs, Bool.true_and,
      ne_eq, reduceCtorEq, not_false_eq_true, decide_true, if_true, adjacent_reverse, map_reverse,
      map_map]
    rfl

/-- The code of an application computes the result of the primitive: code before the arguments,
the code of the arguments, and code that finds their values on the stack and leaves one value in
their place. -/
def Computes (m : Numbers ε) (config : Config) (scope : Scope) (op : OpcodeInfo)
    (args : List Ast) (g : GenState) : Prop :=
  ∃ g' before after, g'.code = g.code ++ before ∧
    (generate config scope (.opcodeApp (.plain op) args) g).code =
      (generateOperands config scope op args g').code ++ after ∧
    ∀ values below, values.length = args.length → ∃ base result,
      m.run before below = some (.ok base) ∧ variadicResult m op values = some result ∧
      m.run after (operandStack op values ++ base) = some (result.map (· :: below))

section

variable (m : Numbers ε) (config : Config) (scope : Scope) (self : Vm.Val) (args : List Ast)
  (g : GenState) {code : Vm.Op}

theorem overPairs_operandsTrue (inverse : Bool) (v w : Vm.Val) (vs values : List Vm.Val)
    (hstack : operandStack (comparisonOpcode code inverse self) values = v :: w :: vs) :
    ((m.overPairs code (v :: w :: vs)).map fun b =>
        makeBoolean (b && (decide (vs = []) || (v :: w :: vs).all truep))) =
      (m.overPairs code (v :: w :: vs)).map fun b =>
        makeBoolean (b && operandsTrue (comparisonOpcode code inverse self) values) := by
  by_cases hcursor : code = .scLt ∨ code = .scLe
  · have hlength : values.length = vs.length + 2 := by
      have := congrArg length hstack
      unfold operandStack at this
      split at this <;> simpa using this
    have hall : (v :: w :: vs).all truep = values.all truep := by
      rw [← hstack]
      unfold operandStack
      split <;> simp
    simp [operandsTrue, comparisonOpcode, hcursor, hall, hlength]
  · have hnumbers : operandsTrue (comparisonOpcode code inverse self) values = true :=
      if_neg hcursor
    rw [hnumbers]
    cases hpairs : m.overPairs code (v :: w :: vs) with
    | error e => rfl
    | ok c =>
      cases c with
      | false => rfl
      | true => simp [Except.map, m.all_truep hcursor v w vs hpairs]

theorem computes_comparison (hcode : code ∈ [.lt, .le, .eqn, .scLt, .scLe]) (inverse : Bool)
    (hcount : 2 ≤ args.length) :
    Computes m config scope (comparisonOpcode code inverse self) args g := by
  have hgenerate : (generate config scope (.opcodeApp (.plain (comparisonOpcode code inverse self))
      args) g).code =
      (generateOperands config scope (comparisonOpcode code inverse self) args
        (g.setTailp false)).code ++ Numbers.compareCode code args.length := by
    cases inverse <;> by_cases hmany : 2 < args.length <;>
      simp [generate, generateOpcodeApp, opcodeAppWith, comparisonOpcode, takesDefault,
        finishOpcodeApp, emitOperator, generateOperands, GenState.incDepth, GenState.emit,
        compareRest_code, Numbers.compareCode, hmany]
  refine ⟨g.setTailp false, [], Numbers.compareCode code args.length, by simp [GenState.setTailp],
    hgenerate, fun values below hlength => ⟨below, _, rfl, rfl, ?_⟩⟩
  have hmany := (operandStack_length (comparisonOpcode code inverse self) values).trans hlength
  match hstack : operandStack (comparisonOpcode code inverse self) values with
  | [] | [_] =>
    rw [hstack] at hmany
    simp only [length_nil, length_cons] at hmany
    omega
  | v :: w :: vs =>
    have hmap : ∀ (r : Except ε Bool) (f : Bool → Vm.Val),
        r.map (fun b => f b :: below) = (r.map f).map (· :: below) := by
      intro r f
      cases r <;> rfl
    have htrue := overPairs_operandsTrue m self inverse v w vs values hstack
    have hpairs := overPairs_operandStack m code inverse self values
    rw [hstack] at hmany hpairs
    rw [← hmany, cons_append, cons_append, ← hpairs]
    exact (m.run_compareCode hcode v w vs below).trans (congrArg some ((hmap _ _).trans
      (congrArg (Except.map (· :: below)) htrue)))

theorem generate_arithmetic (code : Vm.Op) (numArgs : ℕ) (variadic inverse : Bool)
    (data : OpcodeData) :
    let op := arithmeticOpcode code numArgs variadic inverse data self
    let defaultp := takesDefault op args.length
    let pushed := generateBackward config scope args
      (if defaultp && !inverse then pushDefault op (g.setTailp false) else g.setTailp false)
    (generate config scope (.opcodeApp (.plain op) args) g).code =
      (if defaultp && inverse then pushInverseDefault op pushed else pushed).code ++
        replicate ((if defaultp then args.length + 1 else args.length) - 1) ⟨code, []⟩ := by
  intro op defaultp pushed
  rw [← emitTimes_code]
  simp only [generate, generateOpcodeApp, opcodeAppWith]
  cases inverse <;> rfl

theorem computes_arithmetic (hcode : code ∈ [.add, .mul, .sub, .div, .quotient, .remainder])
    {numArgs : ℕ} {variadic inverse : Bool} {data : OpcodeData}
    (hdata : data = .null ∧ 0 < numArgs ∨
      (∃ d, data = .value d) ∧ (inverse ∨ numArgs = 0) ∧ variadic)
    (hcount : inlines (arithmeticOpcode code numArgs variadic inverse data self) args.length) :
    Computes m config scope (arithmeticOpcode code numArgs variadic inverse data self) args g := by
  have hstack : ∀ values,
      operandStack (arithmeticOpcode code numArgs variadic inverse data self) values = values := by
    intro values
    simp [operandStack, arithmeticOpcode]
  have hfold : ∀ values, variadicResult m
      (arithmeticOpcode code numArgs variadic inverse data self) values =
      leftFold (m.arith code)
        (withDefault (arithmeticOpcode code numArgs variadic inverse data self) values) :=
    fun values => if_pos rfl
  have hgenerate := generate_arithmetic config scope self args g code numArgs variadic inverse data
  have hcode' : ∀ n v vs below, vs.length = n →
      m.run (replicate n ⟨code, []⟩) (v :: (vs ++ below)) =
        some ((vs.foldlM (m.arith code) v).map (· :: below)) := by
    rintro n v vs below rfl
    exact m.run_replicate hcode v vs below
  by_cases hdefault : takesDefault (arithmeticOpcode code numArgs variadic inverse data self)
    args.length = true
  · obtain ⟨hnull, -⟩ | ⟨⟨d, rfl⟩, hinverse, rfl⟩ := hdata
    · simp [takesDefault, arithmeticOpcode, hnull] at hdefault
    cases inverse with
    | true =>
      -- the default lies above the arguments, so it is the first operand
      refine ⟨g.setTailp false, [], ⟨.push, [.obj d]⟩ :: replicate args.length ⟨code, []⟩,
        by simp [GenState.setTailp], ?_, fun values below hlength =>
          ⟨below, values.foldlM (m.arith code) d, rfl, ?_, ?_⟩⟩
      · rw [hgenerate, hdefault]
        simp [generateOperands, pushInverseDefault, arithmeticOpcode, GenState.emit,
          GenState.emitPush, GenState.incDepth]
      · rw [hfold, withDefault, hlength, hdefault]
        rfl
      · rw [hstack]
        exact hcode' _ d values below hlength
    | false =>
      have hzero : numArgs = 0 := by simpa using hinverse
      have hempty : args = [] := by
        simpa [takesDefault, arithmeticOpcode, hzero] using hdefault
      subst hempty
      refine ⟨pushDefault (arithmeticOpcode code numArgs true false (.value d) self)
        (g.setTailp false), [⟨.push, [.obj d]⟩], [], by
          simp [pushDefault, arithmeticOpcode, GenState.emitPush, GenState.emit, GenState.incDepth,
            GenState.setTailp], ?_, fun values below hlength => ⟨d :: below, .ok d, rfl, ?_, ?_⟩⟩
      · rw [hgenerate, hdefault]
        simp [generateOperands, arithmeticOpcode]
      · rw [hfold, withDefault, hlength, hdefault, length_eq_zero_iff.mp hlength]
        rfl
      · rw [hstack, length_eq_zero_iff.mp hlength]
        rfl
  · have hpos : 0 < args.length := by
      have hle : numArgs ≤ args.length := hcount.1
      obtain ⟨-, hpos⟩ | ⟨⟨d, rfl⟩, -, rfl⟩ := hdata
      · omega
      · refine Nat.pos_of_ne_zero fun hzero => hdefault ?_
        have hnumArgs : numArgs = 0 := by omega
        simp [takesDefault, arithmeticOpcode, hzero, hnumArgs]
    refine ⟨g.setTailp false, [], replicate (args.length - 1) ⟨code, []⟩,
      by simp [GenState.setTailp], ?_, fun values below hlength => ?_⟩
    · rw [hgenerate, Bool.eq_false_iff.mpr hdefault]
      simp [generateOperands, arithmeticOpcode]
    · cases values with
      | nil => simp [← hlength] at hpos
      | cons v vs =>
        refine ⟨below, vs.foldlM (m.arith code) v, rfl, ?_, ?_⟩
        · rw [hfold, withDefault, hlength, Bool.eq_false_iff.mpr hdefault]
          rfl
        · rw [hstack]
          exact hcode' _ v vs below (by simp [← hlength])

end

/-- Every primitive of the two classes, with every argument count that is compiled in line. -/
theorem generate_variadic (m : Numbers ε) (config : Config) (scope : Scope) (self : Vm.Val)
    {op : OpcodeInfo} (hop : op ∈ variadicOpcodes self) (args : List Ast)
    (hcount : inlines op args.length) (g : GenState) : Computes m config scope op args g := by
  simp only [variadicOpcodes, mem_cons, not_mem_nil, or_false] at hop
  rcases hop with rfl | rfl | rfl | rfl | rfl | rfl | rfl | rfl | rfl | rfl | rfl | rfl | rfl |
    rfl | rfl
  iterate 6
    · exact computes_arithmetic m config scope self args g (by simp) (by simp) hcount
  all_goals exact computes_comparison m config scope self args g (by simp) _ hcount.1

/-- Numbers that are fixnums only, with the words of fixnums, of `#f` and of string cursors. -/
def fixnumNumbers : Numbers Unit where
  arith
    | .add, .fixnum a, .fixnum b => .ok (.fixnum (a + b))
    | .sub, .fixnum a, .fixnum b => .ok (.fixnum (a - b))
    | .mul, .fixnum a, .fixnum b => .ok (.fixnum (a * b))
    | _, _, _ => .error ()
  compare
    | .lt, .fixnum a, .fixnum b => .ok (decide (a < b))
    | .le, .fixnum a, .fixnum b => .ok (decide (a ≤ b))
    | .eqn, .fixnum a, .fixnum b => .ok (decide (a = b))
    | _, _, _ => .error ()
  word
    | .fixnum a => 2 * a + 1
    | .imm .false => 62
    | .imm (.other bits) => bits
    | _ => 0
  compare_false := by
    intro code v w hfalse
    obtain rfl | rfl := hfalse <;> split <;> simp_all

/-- The compilation of `(- 9 3 2)`, which leaves 4. -/
theorem generate_variadic_sub :
    Computes fixnumNumbers ⟨fun _ => false, false⟩ none
      (arithmeticOpcode .sub 1 true true (.value (.fixnum 0)) (.object 0))
      [.const (.fixnum 9), .const (.fixnum 3), .const (.fixnum 2)] ⟨[], 0, 0, false, []⟩ ∧
    leftFold (fixnumNumbers.arith .sub) [.fixnum 9, .fixnum 3, .fixnum 2] =
      some (.ok (.fixnum 4)) :=
  ⟨generate_variadic _ _ _ (.object 0) (by simp [variadicOpcodes]) _ ⟨by decide, .inr rfl⟩ _, rfl⟩

/-- `(string-cursor<? #f c d)` is false for the cursors at 8 and 9, although the word of `#f` is
below that of `c`, and that of `c` below that of `d`. -/
theorem generate_stringCursor_false :
    let op := comparisonOpcode .scLt false (.object 0)
    let values := [.imm .false, .imm (.other 66), .imm (.other 74)]
    inlines op values.length ∧
      comparisons fixnumNumbers op values = [.ok true, .ok true] ∧
      fixnumNumbers.run (generate ⟨fun _ => false, false⟩ none
        (.opcodeApp (.plain op) (values.map .const)) ⟨[], 0, 0, false, []⟩).code [] =
          some (.ok [.imm .false]) := by
  refine ⟨⟨by decide, .inr rfl⟩, rfl, ?_⟩
  simp [generate, generateOpcodeApp]
  rfl

end ChibiScheme.Compiler
