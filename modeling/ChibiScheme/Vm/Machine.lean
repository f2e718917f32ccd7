import ChibiScheme.Vm.Instr

/-!
# The virtual machine

This file models the loop of `sexp_apply` for the instructions that move values, make and read
objects, call, return and jump, with the stack as the code keeps it: an array object that the
context names, that `sexp_grow_stack` replaces by a larger one, and that the loop reaches through
its local variable `stack`.

`step` is one turn of the loop.  It is `none` where the loop leaves the modelled part: at `DONE`,
where an instruction raises an exception, and at the instructions that compute (arithmetic,
predicates, input and output, foreign calls).
-/

namespace ChibiScheme.Vm

/-- A stack. -/
structure StackObj where
  length : ℕ
  data : ℕ → Val

/-- A pair. -/
structure PairObj where
  car : Val
  cdr : Val
  immutable : Bool
  deriving DecidableEq, Repr

/-- A vector. -/
structure VectorObj where
  items : List Val
  immutable : Bool
  deriving DecidableEq, Repr

/-- The state of the loop: the objects it can reach, the fields of the context it uses and its
local variables.  `bc` and `cp` always follow `self`, so they are read from it.  `updates` records
the pair cells that `SET_CDR` has written, the oldest first; the machine never reads it. -/
structure State where
  pairs : List PairObj
  vectors : List VectorObj
  bytecodes : ℕ → Option Bytecode
  resumeccBytecode : ℕ
  stackObjs : ℕ → StackObj
  stackCount : ℕ
  contextStack : ℕ
  contextTop : ℕ
  stack : ℕ
  top : ℕ
  fp : ℤ
  ip : ℕ
  self : Procedure
  updates : List (ℕ × Val)

namespace State

/-- `stack[i]`. -/
def slot (s : State) (i : ℕ) : Val :=
  (s.stackObjs s.stack).data i

/-- `stack[i] = v`. -/
def write (s : State) (i : ℕ) (v : Val) : State :=
  let target := s.stackObjs s.stack
  let written : StackObj := { target with data := Function.update target.data i v }
  { s with stackObjs := Function.update s.stackObjs s.stack written }

/-- `sexp_stack_length` -/
def stackLength (s : State) : ℕ :=
  (s.stackObjs s.contextStack).length

/-- `_ARG1`, `_ARG2` and so on. -/
def arg (s : State) (n : ℕ) : Val :=
  s.slot (s.top - n)

/-- `_ARG1 = v` and so on. -/
def setArg (s : State) (n : ℕ) (v : Val) : State :=
  s.write (s.top - n) v

/-- `_PUSH(v)`. -/
def push (s : State) (v : Val) : State :=
  { s.write s.top v with top := s.top + 1 }

/-- `top -= n`. -/
def drop (s : State) (n : ℕ) : State :=
  { s with top := s.top - n }

/-- `ip += n * sizeof(sexp)`. -/
def skip (s : State) (n : ℕ) : State :=
  { s with ip := s.ip + 8 * n }

/-- `sexp_cons`. -/
def cons (s : State) (car cdr : Val) : State × Val :=
  ({ s with pairs := s.pairs ++ [⟨car, cdr, false⟩] }, .pair s.pairs.length)

/-- `sexp_make_vector` followed by the stores that fill it. -/
def makeVector (s : State) (items : List Val) : State × ℕ :=
  ({ s with vectors := s.vectors ++ [⟨items, false⟩] }, s.vectors.length)

end State

/-- `sexp_unbox_fixnum`. -/
def unboxFixnum : Val → Option ℤ
  | .fixnum n => some n
  | _ => none

/-- A value used as the running procedure. -/
def asProcedure : Val → Option Procedure
  | .proc p => some p
  | _ => none

/-! ## The stack object -/

/-- The size of the next stack, `none` when `sexp_grow_stack` gives up.  `limit` is
`SEXP_MAX_STACK_SIZE`, with `none` for a machine without a limit. -/
def grownSize (limit : Option ℕ) (size minSize : ℕ) : Option ℕ :=
  let newSize := if size * 2 < minSize then minSize else size * 2
  match limit with
  | none => some newSize
  | some maxSize =>
    if maxSize < newSize then (if size = maxSize then none else some maxSize)
    else some newSize

/-- `sexp_grow_stack`: a new stack object with the slots up to one above the context's top.
The slots above are written before they are read; the model fills them with the void object. -/
def growStack (limit : Option ℕ) (s : State) (minSize : ℕ) : Option State :=
  match grownSize limit s.stackLength minSize with
  | none => none
  | some newSize =>
    let old := (s.stackObjs s.contextStack).data
    let data := fun i => if i ≤ s.contextTop + 1 then old i else .imm .void
    some { s with
      stackObjs := Function.update s.stackObjs s.stackCount ⟨newSize, data⟩
      stackCount := s.stackCount + 1
      contextStack := s.stackCount }

/-- `sexp_ensure_stack`, with the reload of the local variable `stack`. -/
def ensureStack (limit : Option ℕ) (s : State) (n : ℕ) : Option State :=
  if s.stackLength ≤ s.top + n then
    match growStack limit { s with contextTop := s.top } n with
    | none => none
    | some grown => some { grown with stack := grown.contextStack }
  else some s

/-- `sexp_save_stack`. -/
def saveStack (s : State) (newTop : ℕ) : State × ℕ :=
  s.makeVector ((List.range newTop).map s.slot)

/-- The items in front of what was there. -/
def copyOver (items : List Val) (data : ℕ → Val) : ℕ → Val :=
  fun i => items.getD i (data i)

/-- `sexp_restore_stack`.  The copy goes to the stack object of the context. -/
def restoreStack (limit : Option ℕ) (s : State) (items : List Val) : Option State := do
  let s ← (if s.stackLength ≤ items.length + 64 then growStack limit s (items.length + 64)
    else some s)
  let target := s.stackObjs s.contextStack
  some { s with
    stackObjs := Function.update s.stackObjs s.contextStack
      { target with data := copyOver items target.data }
    contextTop := items.length }

/-! ## Calls -/

/-- The arguments beyond the fixed ones are collected into a list in the slot of the last one,
and the slots above are moved down over the others.  `i` arguments, `j` of them extra. -/
def collectRest (s : State) (i j : ℕ) : State :=
  let base := s.top - i - 1
  let (s, last) := s.cons (s.slot base) (.imm .null)
  let s := s.write base last
  let s := (List.range (j - 1)).foldl (fun s k =>
    let (s, p) := s.cons (s.slot (base + 1 + k)) (s.slot base)
    s.write base p) s
  let s := (List.range (i - j + 1)).foldl (fun s k =>
    s.write (base + 1 + k) (s.slot (base + j + k))) s
  s.drop (j - 1)

/-- A variadic procedure called without extra arguments: the stack is shifted up and the rest
argument set to the empty list. -/
def shiftRest (s : State) (i : ℕ) : State :=
  let s := (List.range (i + 1)).foldl (fun s k => s.write (s.top - k) (s.slot (s.top - k - 1))) s
  let s := s.write (s.top - i - 1) (.imm .null)
  { s with top := s.top + 1 }

/-- The frame that `make_call` pushes over the slot of the procedure, and the jump. -/
def enterFrame (s : State) (p : Procedure) (i returnIp : ℕ) : State :=
  let s := s.setArg 1 (.fixnum i)
  let s := s.write s.top (.fixnum returnIp)
  let s := s.write (s.top + 1) (.proc s.self)
  let s := s.write (s.top + 2) (.fixnum s.fp)
  { s with top := s.top + 3, self := p, ip := 0, fp := s.top - 1 }

/-- `make_call`: call `callee` with `i` arguments and return to `returnIp`, which the source
writes as `ip+sizeof(sexp)`. -/
def makeCall (limit : Option ℕ) (s : State) (callee : Val) (i returnIp : ℕ) : Option State := do
  let s := { s with contextTop := s.top }
  let p ← asProcedure callee
  let bc ← s.bytecodes p.code
  if i < p.numArgs then none
  else
    let s ← ensureStack limit s (bc.maxDepth + 64)
    let j := i - p.numArgs
    if 0 < j then
      if p.variadic then
        if p.unusedRest then some (enterFrame s p i returnIp)
        else some (enterFrame (collectRest s i j) p (i - (j - 1)) returnIp)
      else none
    else if p.variadic && !p.unusedRest then some (enterFrame (shiftRest s i) p (i + 1) returnIp)
    else some (enterFrame s p i returnIp)

/-- `SEXP_OP_TAIL_CALL`: the new arguments replace the frame. -/
def tailCall (limit : Option ℕ) (s : State) (i : ℕ) : Option State := do
  let callee := s.arg 1
  let previousFp ← unboxFixnum (s.slot (s.fp + 3).toNat)
  let j ← unboxFixnum (s.slot s.fp.toNat)
  let self ← asProcedure (s.slot (s.fp + 2).toNat)
  let returnIp ← unboxFixnum (s.slot (s.fp + 1).toNat)
  let s := { s with self := self }
  let base := (s.fp - j).toNat
  let s := (List.range i).foldl (fun s k => s.write (base + k) (s.slot (s.top - 1 - i + k))) s
  let s := { s with top := base + i }
  let s := { s.push callee with fp := previousFp }
  makeCall limit s callee i returnIp.toNat

/-- `SEXP_OP_RET`. -/
def ret (s : State) : Option State := do
  let i ← unboxFixnum (s.slot s.fp.toNat)
  let s := s.write (s.fp - i).toNat (s.arg 1)
  let self ← asProcedure (s.slot (s.fp + 2).toNat)
  let returnIp ← unboxFixnum (s.slot (s.fp + 1).toNat)
  let previousFp ← unboxFixnum (s.slot (s.fp + 3).toNat)
  some { s with top := (s.fp - i).toNat + 1, self := self, ip := returnIp.toNat, fp := previousFp }

/-! ## Continuations -/

/-- The frame that `SEXP_OP_CALLCC` writes above the operand. -/
def callccFrame (s : State) : State :=
  let s := s.write s.top (.fixnum 1)
  let s := s.write (s.top + 1) (.fixnum s.ip)
  let s := s.write (s.top + 2) (.proc s.self)
  let s := s.write (s.top + 3) (.fixnum s.fp)
  { s with contextTop := s.top }

/-- The vectors of a continuation: the saved stack, and a vector with it as its one item. -/
def capture (s : State) : State :=
  let (s, holder) := s.makeVector [.imm .undef]
  let (s, saved) := saveStack s (s.top + 4)
  { s with vectors := s.vectors.set holder ⟨[.vector saved], false⟩ }

/-- The procedure that `SEXP_OP_CALLCC` makes in the state `s`. -/
def continuationOf (s : State) : Procedure :=
  { variadic := false
    unusedRest := false
    numArgs := 1
    code := s.resumeccBytecode
    vars := some s.vectors.length }

/-- `SEXP_OP_CALLCC`: the stack is saved with the frame, and the operand is called with the
procedure that restores it. -/
def callcc (limit : Option ℕ) (s : State) : Option State :=
  let framed := callccFrame s
  let captured := (capture framed).setArg 1 (.proc (continuationOf s))
  makeCall limit { captured with top := captured.top + 1 } (framed.arg 1) 1 s.ip

/-- The elements of a vector. -/
def vectorItems (s : State) : Val → Option (List Val)
  | .vector a => (s.vectors[a]?).map VectorObj.items
  | _ => none

/-- The slot `k` of the variables of the running procedure. -/
def closureSlot (s : State) (k : ℕ) : Option Val := do
  let holder ← s.self.vars
  let vars ← vectorItems s (.vector holder)
  vars[k]?

/-- `SEXP_OP_RESUMECC`.  After `sexp_restore_stack` the loop goes on reading its local variable
`stack`, which is not reloaded here. -/
def resumecc (limit : Option ℕ) (s : State) : Option State := do
  let s := { s with contextTop := s.top }
  let value := s.slot (s.fp - 1).toNat
  let saved ← closureSlot s 0
  let items ← vectorItems s saved
  let s ← restoreStack limit s items
  let s := { s with top := s.contextTop }
  let fp ← unboxFixnum (s.arg 1)
  let self ← asProcedure (s.arg 2)
  let ip ← unboxFixnum (s.arg 3)
  let s := { s with fp := fp, self := self, ip := ip.toNat, top := s.top - 4 }
  some (s.setArg 1 value)

/-! ## Objects -/

/-- `sexp_cdr` of a value, `none` for a value that is not a pair. -/
def pairOf (s : State) : Val → Option PairObj
  | .pair a => s.pairs[a]?
  | _ => none

/-- `SEXP_OP_SET_CDR`. -/
def setCdr (s : State) : Option State :=
  match s.arg 1 with
  | .pair a =>
    match s.pairs[a]? with
    | some p =>
      if p.immutable then none
      else
        let v := s.arg 2
        some ({ s with
          pairs := s.pairs.set a { p with cdr := v }
          updates := s.updates ++ [(a, v)] }.drop 2)
    | none => none
  | _ => none

/-- `SEXP_OP_SET_CAR`. -/
def setCar (s : State) : Option State :=
  match s.arg 1 with
  | .pair a =>
    match s.pairs[a]? with
    | some p =>
      if p.immutable then none
      else some ({ s with pairs := s.pairs.set a { p with car := s.arg 2 } }.drop 2)
    | none => none
  | _ => none

/-- `SEXP_OP_VECTOR_REF`. -/
def vectorRef (s : State) : Option State :=
  match s.arg 1, s.arg 2 with
  | .vector a, .fixnum i =>
    match s.vectors[a]? with
    | some v =>
      if i < 0 then none
      else (v.items[i.toNat]?).map fun x => (s.setArg 2 x).drop 1
    | none => none
  | _, _ => none

/-- `SEXP_OP_VECTOR_SET`. -/
def vectorSet (s : State) : Option State :=
  match s.arg 1, s.arg 2 with
  | .vector a, .fixnum i =>
    match s.vectors[a]? with
    | some v =>
      if v.immutable || decide (i < 0) || decide ((v.items.length : ℤ) ≤ i) then none
      else some ({ s with
        vectors := s.vectors.set a { v with items := v.items.set i.toNat (s.arg 3) } }.drop 3)
    | none => none
  | _, _ => none

/-- `SEXP_OP_MAKE_VECTOR`. -/
def makeVectorOp (s : State) : Option State :=
  match s.arg 1 with
  | .fixnum n =>
    if n < 0 then none
    else
      let fill := s.arg 2
      let (s, a) := s.makeVector (List.replicate n.toNat fill)
      some ((s.setArg 2 (.vector a)).drop 1)
  | _ => none

/-- `sexp_make_procedure` on the flags word, the number of parameters, the bytecode and the
variables. -/
def makeProcedure (flags numArgs : ℤ) (code : ℕ) (vars : Val) : Val :=
  .proc
    { variadic := flags % 2 = 1
      unusedRest := flags / 2 % 2 = 1
      numArgs := numArgs.toNat
      code := code
      vars := match vars with
        | .vector a => some a
        | _ => none }

/-! ## The loop -/

/-- The instruction `i`, with `ip` already past the opcode byte. -/
def exec (limit : Option ℕ) (i : Instr) (s : State) : Option State :=
  match i.op, i.words with
  | .noop, [] => some s
  | .resumecc, [] => resumecc limit s
  | .callcc, [] => callcc limit s
  | .tailCall, [.num n] => tailCall limit s n.toNat
  | .call, [.num n] => makeCall limit s (s.arg 1) n.toNat (s.ip + 8)
  | .jumpUnless, [.num offset] =>
    if s.arg 1 = .imm .false then some { s.drop 1 with ip := (s.ip + offset).toNat }
    else some ((s.drop 1).skip 1)
  | .jump, [.num offset] => some { s with ip := (s.ip + offset).toNat }
  | .push, [.obj v] => some ((s.push v).skip 1)
  | .drop, [] => some (s.drop 1)
  | .globalRef, [.obj cell] => do
      let p ← pairOf s cell
      if p.cdr = .imm .undef then none else some ((s.push p.cdr).skip 1)
  | .globalKnownRef, [.obj cell] => do
      let p ← pairOf s cell
      some ((s.push p.cdr).skip 1)
  | .stackRef, [.num n] => some ((s.push (s.slot ((s.top : ℤ) - n).toNat)).skip 1)
  | .localRef, [.num k] => some ((s.push (s.slot (s.fp - 1 - k).toNat)).skip 1)
  | .localSet, [.num k] => some (((s.drop 1).write (s.fp - 1 - k).toNat (s.arg 1)).skip 1)
  | .closureRef, [.num k] => (closureSlot s k.toNat).map fun v => (s.push v).skip 1
  | .vectorRef, [] => vectorRef s
  | .vectorSet, [] => vectorSet s
  | .makeProcedure, [.num flags, .num numArgs, .code bc] =>
    some ((s.setArg 1 (makeProcedure flags numArgs bc (s.arg 1))).skip 3)
  | .makeVector, [] => makeVectorOp s
  | .car, [] => (pairOf s (s.arg 1)).map fun p => s.setArg 1 p.car
  | .cdr, [] => (pairOf s (s.arg 1)).map fun p => s.setArg 1 p.cdr
  | .setCar, [] => setCar s
  | .setCdr, [] => setCdr s
  | .cons, [] =>
    let (s, p) := s.cons (s.arg 1) (s.arg 2)
    some ((s.setArg 2 p).drop 1)
  | .ret, [] => ret s
  | _, _ => none

/-- The instruction the loop is about to run. -/
def currentInstr (s : State) : Option Instr := do
  let bc ← s.bytecodes s.self.code
  fetch bc.data s.ip

/-- One turn of the loop. -/
def step (limit : Option ℕ) (s : State) : Option State := do
  let i ← currentInstr s
  exec limit i { s with ip := s.ip + 1 }

end ChibiScheme.Vm
