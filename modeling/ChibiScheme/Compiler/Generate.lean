import ChibiScheme.Compiler.Ast

/-!
# Code generation

The generator of `vm.c`, with the state that its context carries: the instructions emitted so far,
the operand depth and its recorded maximum, the tail position flag, and the bytecode objects of
the lambdas already compiled.  The bytecode object of a lambda is named by the lambda, which is
compiled once.
-/

namespace ChibiScheme.Compiler

open Vm

/-- What the generator reads of the global state: which global cells are still undefined, and
whether tail calls are switched off. -/
structure Config where
  undefined : ℕ → Bool
  noTailCalls : Bool

/-- The fields of the compilation context that change. -/
structure GenState where
  code : List Vm.Instr
  depth : ℤ
  maxDepth : ℤ
  tailp : Bool
  bytecodes : List (ℕ × Bytecode)

/-- The lambda being compiled with its free variables, none at top level. -/
abbrev Scope := Option (LambdaInfo × List Ref)

namespace GenState

/-- `sexp_emit` with the words that follow it. -/
def emit (g : GenState) (op : Vm.Op) (words : List Word) : GenState :=
  { g with code := g.code ++ [⟨op, words⟩] }

/-- `sexp_inc_context_depth`. -/
def incDepth (g : GenState) (off : ℤ) : GenState :=
  { g with
    depth := g.depth + off
    maxDepth := if g.maxDepth < g.depth + off then g.depth + off else g.maxDepth }

/-- `sexp_emit_push`. -/
def emitPush (g : GenState) (v : Vm.Val) : GenState :=
  (g.emit .push [.obj v]).incDepth 1

/-- `sexp_context_patch_label` for the jump that is instruction number `index`: its word is the
distance from the word itself to the current position. -/
def patchLabel (g : GenState) (index : ℕ) (op : Vm.Op) : GenState :=
  let label := codeSize (g.code.take index) + 1
  { g with code := g.code.set index ⟨op, [.num (codeSize g.code - label)]⟩ }

/-- The words emitted after the operator belong to the last instruction. -/
def appendWords (g : GenState) (words : List Word) : GenState :=
  match g.code.getLast? with
  | none => g
  | some i => { g with code := g.code.dropLast ++ [{ i with words := i.words ++ words }] }

/-- `sexp_context_tailp` -/
def setTailp (g : GenState) (tailp : Bool) : GenState :=
  { g with tailp := tailp }

end GenState

/-! ## Variables -/

/-- The index of a free variable in the closure: the number of entries before the first match. -/
def closureIndex (fv : List Ref) (r : Ref) : ℕ :=
  fv.findIdx (Ref.same r)

/-- `generate_non_global_ref` of a variable bound by `loc`, in the body of `scope`. -/
def generateNonGlobalRef (scope : Scope) (r : Ref) (loc : LambdaInfo) (unboxp : Bool)
    (g : GenState) : GenState :=
  let g := match scope with
    | some (l, fv) =>
      if loc.id = l.id then g.emit .localRef [.num (l.paramIndex r.name)]
      else g.emit .closureRef [.num (closureIndex fv r)]
    | none => g.emit .closureRef [.num 0]
  let g := if unboxp && decide (r.name ∈ loc.sv) then g.emit .cdr [] else g
  g.incDepth 1

/-- `generate_ref` -/
def generateRef (config : Config) (scope : Scope) (r : Ref) (unboxp : Bool) (g : GenState) :
    GenState :=
  match r.loc with
  | .global cell =>
    if unboxp then
      g.emit (if config.undefined cell then .globalRef else .globalKnownRef) [.obj (.pair cell)]
    else g.emitPush (.pair cell)
  | .lambda loc =>
    match scope with
    | none => g.emitPush (.imm .void)
    | some _ => generateNonGlobalRef scope r loc unboxp g

/-- The store of `generate_set`: global cells and boxes are set through the pair, any other
variable in its slot. -/
def storeValue (config : Config) (scope : Scope) (r : Ref) (g : GenState) : GenState :=
  match r.loc with
  | .global cell =>
    let g := if config.undefined cell then (generateRef config scope r true g).emit .drop []
      else g
    (g.emitPush (.pair cell)).emit .setCdr []
  | .lambda loc =>
    if r.name ∈ loc.sv then (generateRef config scope r false g).emit .setCdr []
    else g.emit .localSet [.num (loc.paramIndex r.name)]

/-- The part of `generate_set` after the value. -/
def generateStore (config : Config) (scope : Scope) (r : Ref) (g : GenState) : GenState :=
  ((storeValue config scope r g).emitPush (.imm .void)).incDepth 1

/-! ## Sequences -/

/-- The expressions whose value `generate_seq` does not compute: literals and immediates. -/
def Ast.skipped : Ast → Bool
  | .lit _ => true
  | .const v => !v.pointerp
  | _ => false

/-- `generate_drop_prev`: the push that ends an assignment is taken back, any other value is
dropped. -/
def generateDropPrev (prev : Ast) (g : GenState) : GenState :=
  let takeBack : Bool := match prev with
    | .opcodeApp op _ => decide (op.info.code = .push)
    | .set _ _ => true
    | .lit _ => true
    | .const v => decide (v = .imm .void)
    | _ => false
  if takeBack then { g with code := g.code.dropLast } else g.emit .drop []

/-! ## Applications of opcodes -/

/-- The word of a `data` field. -/
def dataWords : OpcodeData → List Word
  | .null => []
  | .opcode v => [.obj v]
  | .value (.fixnum n) => [.num n]
  | .value v => [.obj v]

/-- Is the default of an optional argument to be pushed? -/
def takesDefault (op : OpcodeInfo) (numArgs : ℕ) : Bool :=
  decide (op.opClass ≠ .parameter) && decide (numArgs = op.numArgs) && op.variadic &&
    decide (op.data ≠ .null)

/-- The default of an optional argument, pushed below the arguments. -/
def pushDefault (op : OpcodeInfo) (g : GenState) : GenState :=
  let g := match op.optParam, op.data with
    | true, .opcode v => (g.emit .parameterRef [.obj v]).emit .cdr []
    | _, .opcode v => g.emitPush v
    | _, .value v => g.emitPush v
    | _, .null => g
  g.incDepth 1

/-- The default of an opcode whose operands are inverted. -/
def pushInverseDefault (op : OpcodeInfo) (g : GenState) : GenState :=
  let g := match op.data with
    | .opcode v => g.emitPush v
    | .value v => g.emitPush v
    | .null => g
  let g := if op.optParam then g.emit .cdr [] else g
  g.incDepth 1

/-- The loop for comparisons of more than two arguments. -/
def compareRest (code : Vm.Op) : ℕ → GenState → GenState
  | 0, g => g
  | n + 1, g =>
    compareRest code n (((((g.emit .stackRef [.num 3]).emit .stackRef [.num 3]).emit
      code []).emit .and []).emit .and [])

/-- Emit an opcode `n` times. -/
def emitTimes (code : Vm.Op) : ℕ → GenState → GenState
  | 0, g => g
  | n + 1, g => emitTimes code n (g.emit code [])

/-- The words after the operator, for the classes that emit it once. -/
def operatorWords (op : OpcodeInfo) : List Word :=
  match op.opClass with
  | .foreign => [.opcode op]
  | .typePredicate | .getter | .setter => dataWords op.data ++ dataWords op.data2
  | .constructor => if op.code = .make then dataWords op.data ++ dataWords op.data2 else []
  | _ => []

/-- The operator call itself, for every class but parameters. -/
def emitOperator (op : OpcodeInfo) (numArgs : ℕ) (g : GenState) : GenState :=
  match op.opClass with
  | .arithmetic => emitTimes op.code (numArgs - 1) g
  | .arithmeticCmp =>
    if 2 < numArgs then
      let g := (((g.emit .stackRef [.num 2]).emit .stackRef [.num 2]).emit op.code []).emit .and []
      (compareRest op.code (numArgs - 2) g).emit .and []
    else g.emit op.code []
  | _ => g.emit op.code (operatorWords op)

/-- The use of a parameter: its cell is read, or set to the value that was generated. -/
def emitParameter (op : OpcodeInfo) (numArgs : ℕ) (g : GenState) : GenState :=
  let g := g.emit .parameterRef [.obj op.self]
  if numArgs = 0 then g.emit .cdr []
  else (g.emit .setCdr []).emitPush (.imm .void)

/-- The end of `generate_opcode_app`: static parameters, the void result and the depth. -/
def finishOpcodeApp (op : OpcodeInfo) (numArgs : ℕ) (statics : List Word) (g : GenState) :
    GenState :=
  let g := if op.staticParam then g.appendWords statics else g
  let g := if op.returnsVoid && decide (op.opClass ≠ .foreign) then g.emitPush (.imm .void) else g
  g.incDepth (-((numArgs : ℤ) - 1))

/-- `generate_opcode_app` on an opcode object.  `forward` and `backward` generate the arguments in
order and in reverse order, `value` what a parameter is set to. -/
def opcodeAppWith (info : OpcodeInfo) (numArgs : ℕ) (statics : List Word)
    (forward backward value : GenState → GenState) (g : GenState) : GenState :=
  if info.tailCall && !g.tailp then g.emitPush (.imm .void)
  else
    let g := g.setTailp false
    let defaultp := takesDefault info numArgs
    let g := if defaultp && !info.inverse then pushDefault info g else g
    let g :=
      if decide (info.opClass ≠ .parameter) && !info.staticParam then
        (if info.inverse && decide (info.opClass ≠ .arithmetic) then forward g else backward g)
      else g
    let g := if defaultp && info.inverse then pushInverseDefault info g else g
    let count := if defaultp then numArgs + 1 else numArgs
    let g :=
      if info.opClass = .parameter then
        emitParameter info count (if 0 < count then value g else g)
      else emitOperator info count g
    finishOpcodeApp info count statics g

/-- `generate_opcode_app`.  A parameter is set to its first argument, or to the application of its
converter to it. -/
def generateOpcodeApp : Opcode → ℕ → List Word → (GenState → GenState) →
    (GenState → GenState) → (GenState → GenState) → GenState → GenState
  | .plain info, numArgs, statics, forward, backward, first =>
    opcodeAppWith info numArgs statics forward backward first
  | .convertedBy info procedure, numArgs, statics, forward, backward, first =>
    opcodeAppWith info numArgs statics forward backward fun g =>
      (((first g).emitPush procedure).emit .call [.num 1]).incDepth (-1)
  | .convertedByOpcode info converter, numArgs, statics, forward, backward, first =>
    opcodeAppWith info numArgs statics forward backward
      (generateOpcodeApp converter 1 (statics.take 1) first first first)

/-! ## Lambdas -/

/-- The flags of the procedure. -/
def LambdaInfo.flags (l : LambdaInfo) : ℤ :=
  match l.rest with
  | none => 0
  | some _ => if l.restUnused then 3 else 1

/-- Push the undefined object once for each local variable. -/
def reserveLocals : ℕ → GenState → GenState
  | 0, g => g
  | n + 1, g => reserveLocals n (g.emitPush (.imm .undef))

/-- Put each assigned variable into a box: a pair of its value and its name. -/
def boxVariables (l : LambdaInfo) : List ℕ → GenState → GenState
  | [], g => g
  | name :: rest, g =>
    let k := l.paramIndex name
    boxVariables l rest ((((g.emit .localRef [.num k]).emitPush (.object name)).emit
      .cons []).emit .localSet [.num k])

/-- A fresh context for the body of a lambda, after the prologue. -/
def lambdaPrologue (l : LambdaInfo) (bytecodes : List (ℕ × Bytecode)) : GenState :=
  let g : GenState := ⟨[], 0, 0, true, bytecodes⟩
  boxVariables l l.sv (reserveLocals l.locals.length g)

/-- `sexp_complete_bytecode`, kept under the identity of the lambda. -/
def completeBytecode (id : ℕ) (g : GenState) : List (ℕ × Bytecode) :=
  g.bytecodes ++ [(id, ⟨(g.emit .ret []).code, g.maxDepth.toNat⟩)]

/-- Store each free variable into the closure vector.  A free variable is never global. -/
def closeVariables (scope : Scope) : ℕ → List Ref → GenState → GenState
  | _, [], g => g
  | k, r :: rest, g =>
    let g := match r.loc with
      | .lambda loc => generateNonGlobalRef scope r loc false g
      | .global _ => (g.emit .closureRef [.num 0]).incDepth 1
    let g := (((g.emitPush (.fixnum k)).emit .stackRef [.num 3]).emit .vectorSet []).incDepth (-1)
    closeVariables scope (k + 1) rest g

/-- The end of `generate_lambda`: a literal procedure, or the instructions that make a closure. -/
def makeClosure (scope : Scope) (l : LambdaInfo) (fv : List Ref) (g : GenState) : GenState :=
  if fv = [] then
    g.emitPush (.proc
      { variadic := l.flags % 2 = 1, unusedRest := l.flags / 2 % 2 = 1,
        numArgs := l.params.length, code := l.id, vars := none })
  else
    let g := (((g.emitPush (.imm .void)).emitPush (.fixnum fv.length)).emit
      .makeVector []).incDepth (-1)
    (closeVariables scope 0 fv g).emit .makeProcedure
      [.num l.flags, .num l.params.length, .code l.id]

/-! ## The generator -/

/-- The operand that is read from the expression itself. -/
def Ast.staticWord : Ast → Word
  | .lit (.fixnum n) => .num n
  | .const (.fixnum n) => .num n
  | _ => .num 0

mutual

/-- `sexp_generate`. -/
def generate (config : Config) (scope : Scope) : Ast → GenState → GenState
  | .lit v, g => g.emitPush v
  | .const v, g => g.emitPush v
  | .ref r, g => generateRef config scope r true g
  | .set r value, g =>
    generateStore config scope r (generate config scope value (g.setTailp false))
  | .cnd test pass fail, g =>
    let tailp := g.tailp
    let g := (generate config scope test (g.setTailp false)).setTailp tailp
    let jump1 := g.code.length
    let g := (g.emit .jumpUnless [.num 0]).incDepth (-1)
    let g := (generate config scope pass g).setTailp tailp
    let jump2 := g.code.length
    let g := (g.emit .jump [.num 0]).incDepth (-1)
    let g := g.patchLabel jump1 .jumpUnless
    let g := generate config scope fail g
    g.patchLabel jump2 .jump
  | .seq first last, g =>
    let tailp := g.tailp
    let g := (generateFirst config scope first (g.setTailp false)).setTailp tailp
    generate config scope last g
  | .lambda info body, g =>
    let fv := lambdaFv info body
    let inner := generate config (some (info, fv)) body (lambdaPrologue info g.bytecodes)
    makeClosure scope info fv { g with bytecodes := completeBytecode info.id inner }
  | .app fn args, g =>
    let tailp := g.tailp
    let g := generateBackward config scope args (g.setTailp false)
    let g := generate config scope fn g
    let g := g.emit (if tailp && !config.noTailCalls then .tailCall else .call)
      [.num args.length]
    (g.setTailp tailp).incDepth (-args.length)
  | .opcodeApp op args, g =>
    generateOpcodeApp op args.length (args.map Ast.staticWord)
      (generateForward config scope args) (generateBackward config scope args)
      (generateFirstArg config scope args) g

/-- The expressions of a sequence before the last one. -/
def generateFirst (config : Config) (scope : Scope) : List Ast → GenState → GenState
  | [], g => g
  | x :: rest, g =>
    let g :=
      if x.skipped then g
      else (generateDropPrev x (generate config scope x g)).incDepth (-1)
    generateFirst config scope rest g

/-- The expressions from the first to the last. -/
def generateForward (config : Config) (scope : Scope) : List Ast → GenState → GenState
  | [], g => g
  | x :: rest, g => generateForward config scope rest (generate config scope x g)

/-- The arguments from the last to the first. -/
def generateBackward (config : Config) (scope : Scope) : List Ast → GenState → GenState
  | [], g => g
  | x :: rest, g => generate config scope x (generateBackward config scope rest g)

/-- The first expression only. -/
def generateFirstArg (config : Config) (scope : Scope) : List Ast → GenState → GenState
  | [], g => g
  | x :: _, g => generate config scope x g

end

/-- A top-level expression compiled into the bytecode of a procedure without parameters, as
`sexp_compile_op` does. -/
def compileTop (config : Config) (id : ℕ) (x : Ast) : List (ℕ × Bytecode) :=
  completeBytecode id (generate config none x ⟨[], 0, 0, true, []⟩)

end ChibiScheme.Compiler
