import Mathlib

/-!
# Values and instructions of the virtual machine

The words the machine moves are `sexp` values.  Pairs and vectors are mutable and are named by
their address; a procedure is never written after it is made, so it is given by its contents,
with its bytecode object and its variable vector named by their identity.

An instruction is one opcode byte followed by the operand words that the generator emits after
it, so its size in bytes is fixed by the number of its words.
-/

namespace ChibiScheme.Vm

/-- The immediate objects: those the generator and the machine use, and every other one
(characters, immediate symbols and so on) by its bits. -/
inductive Imm where
  | false
  | true
  | null
  | void
  | undef
  | other (bits : ℕ)
  deriving DecidableEq, Repr

/-- A procedure object: its flags, its number of parameters, its bytecode and its variables. -/
structure Procedure where
  variadic : Bool
  unusedRest : Bool
  numArgs : ℕ
  code : ℕ
  vars : Option ℕ
  deriving DecidableEq, Repr

/-- A value.  `object` stands for every object that no modelled instruction looks into:
symbols, strings, flonums, opcodes and the like. -/
inductive Val where
  | fixnum (n : ℤ)
  | imm (i : Imm)
  | object (id : ℕ)
  | pair (address : ℕ)
  | vector (address : ℕ)
  | proc (procedure : Procedure)
  deriving DecidableEq, Repr

/-- `sexp_pointerp`. -/
def Val.pointerp : Val → Bool
  | .fixnum _ => false
  | .imm _ => false
  | _ => true

/-- The opcodes, `enum sexp_opcode_names` without the two that the build leaves out. -/
inductive Op where
  | noop | raise | resumecc | callcc | apply1 | tailCall | call
  | fcall0 | fcall1 | fcall2 | fcall3 | fcall4 | fcalln
  | jumpUnless | jump | push | drop
  | globalRef | globalKnownRef | parameterRef | stackRef | localRef | localSet
  | closureRef | closureVars
  | vectorRef | vectorSet | vectorLength | bytesRef | bytesSet | bytesLength
  | stringRef | stringSet | stringLength
  | stringCursorNext | stringCursorPrev | stringCursorEnd
  | makeProcedure | makeVector | makeException | and
  | nullp | fixnump | symbolp | charp | eofp | typep
  | make | slotRef | slotSet | isa | slotnRef | slotnSet
  | car | cdr | setCar | setCdr | cons
  | add | sub | mul | div | quotient | remainder | lt | le | eqn | eq
  | char2int | int2char | charUpcase | charDowncase
  | writeChar | writeString | readChar | peekChar
  | yield | ret | done | scp | scLt | scLe
  deriving DecidableEq, Repr

/-- `enum sexp_opcode_classes`. -/
inductive OpcodeClass where
  | generic | typePredicate | predicate | arithmetic | arithmeticCmp | io
  | constructor | getter | setter | parameter | foreign
  deriving DecidableEq, Repr

/-- The `data` field of an opcode: absent, an opcode object (the parameter whose value is the
default of an optional argument) or any other object. -/
inductive OpcodeData where
  | null
  | opcode (v : Val)
  | value (v : Val)
  deriving DecidableEq, Repr

/-- The fields of an opcode object that the generator and the machine read. -/
structure OpcodeInfo where
  opClass : OpcodeClass
  code : Op
  numArgs : ℕ
  variadic : Bool
  optParam : Bool
  staticParam : Bool
  tailCall : Bool
  inverse : Bool
  returnsVoid : Bool
  data : OpcodeData
  data2 : OpcodeData
  self : Val
  deriving DecidableEq, Repr

/-- An operand of an instruction. -/
inductive Word where
  | obj (v : Val)
  | num (n : ℤ)
  | code (id : ℕ)
  | opcode (info : OpcodeInfo)
  deriving DecidableEq, Repr

/-- An opcode byte with its operand words. -/
structure Instr where
  op : Op
  words : List Word
  deriving DecidableEq, Repr

/-- The number of bytes an instruction takes: `sizeof(sexp)` is eight. -/
def Instr.size (i : Instr) : ℕ :=
  1 + 8 * i.words.length

/-- The number of bytes a sequence of instructions takes. -/
def codeSize (code : List Instr) : ℕ :=
  (code.map Instr.size).sum

/-- The instruction whose opcode byte is at offset `ip`. -/
def fetch : List Instr → ℕ → Option Instr
  | [], _ => none
  | i :: rest, ip =>
    if ip = 0 then some i
    else if ip < i.size then none
    else fetch rest (ip - i.size)

/-- A bytecode object: its instructions and the depth the generator recorded. -/
structure Bytecode where
  data : List Instr
  maxDepth : ℕ
  deriving DecidableEq, Repr

theorem Instr.size_pos (i : Instr) : 0 < i.size := by
  unfold Instr.size
  omega

@[simp] theorem codeSize_nil : codeSize [] = 0 := rfl

@[simp] theorem codeSize_cons (i : Instr) (rest : List Instr) :
    codeSize (i :: rest) = i.size + codeSize rest := by
  simp [codeSize]

@[simp] theorem codeSize_append (before after : List Instr) :
    codeSize (before ++ after) = codeSize before + codeSize after := by
  simp [codeSize]

theorem fetch_append (before : List Instr) (i : Instr) (after : List Instr) :
    fetch (before ++ i :: after) (codeSize before) = some i := by
  induction before with
  | nil => simp [fetch]
  | cons first rest ih =>
    have hpos := first.size_pos
    simp only [List.cons_append, codeSize_cons, fetch]
    rw [if_neg (by omega), if_neg (by omega)]
    simpa using ih

theorem fetch_mem {code : List Instr} {ip : ℕ} {i : Instr} (hfetch : fetch code ip = some i) :
    i ∈ code := by
  induction code generalizing ip with
  | nil => simp [fetch] at hfetch
  | cons first rest ih =>
    simp only [fetch] at hfetch
    split at hfetch
    · simp_all
    · split at hfetch
      · cases hfetch
      · exact List.mem_cons_of_mem _ (ih hfetch)

end ChibiScheme.Vm
