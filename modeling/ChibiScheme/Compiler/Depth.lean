import ChibiScheme.Compiler.Generate
import ChibiScheme.Vm.Depth

/-!
# Stack discipline of the generated code

The generator keeps the operand depth by hand.  This file compares what it records with what the
instructions do.  For programs in which every construct is counted, each piece of generated code
raises the stack by one slot on every path that falls through, and the recorded maximum bounds the
depth at every instruction, so the check at call time covers every push of the body.
-/

namespace ChibiScheme.Compiler

open Vm List

/-! ## The constructs that are counted -/

/-- The instructions that work on the operand stack alone, without words of the code that say
where to go or what to address. -/
def isOperator : Vm.Op → Bool
  | .jump | .jumpUnless | .push | .drop | .call | .tailCall | .stackRef | .localRef | .localSet
  | .closureRef | .globalRef | .globalKnownRef | .parameterRef | .makeProcedure => false
  | _ => true

/-- The number of operands on the stack when the operator runs. -/
def operandCount (info : OpcodeInfo) (numArgs : ℕ) : ℕ :=
  if takesDefault info numArgs then numArgs + 1 else numArgs

/-- The result of the opcode is replaced by a void. -/
def pushesVoid (info : OpcodeInfo) : Bool :=
  info.returnsVoid && decide (info.opClass ≠ .foreign)

/-- The operator takes the operands that are pushed for it and leaves one value, counting the void
object that the generator adds, or does not come back. -/
def OperatorCounted (info : OpcodeInfo) (count : ℕ) : Prop :=
  isOperator info.code ∧
    match info.opClass with
    | .arithmetic => info.returnsVoid = false ∧ 1 ≤ count ∧
        topChange ⟨info.code, []⟩ = some (-1)
    | .arithmeticCmp => info.returnsVoid = false ∧ count = 2 ∧
        topChange ⟨info.code, []⟩ = some (-1)
    | _ => topChange ⟨info.code, operatorWords info⟩ = none ∨
        topChange ⟨info.code, operatorWords info⟩ =
          some (1 - (count : ℤ) - if pushesVoid info then 1 else 0)

/-- An application of the opcode to `numArgs` arguments is counted. -/
def OpcodeCounted : Opcode → ℕ → Prop
  | op, numArgs =>
    op.info.code ≠ .push ∧ (op.info.staticParam = true → numArgs = 0) ∧
      if op.info.opClass = .parameter then
        op.info.returnsVoid = false ∧ numArgs ≤ 2 ∧
          match op with
          | .convertedByOpcode _ converter => 0 < numArgs → OpcodeCounted converter 1
          | _ => True
      else OperatorCounted op.info (operandCount op.info numArgs)

mutual

/-- The program uses only constructs whose depth the generator counts: no global variable is
read, no closure captures exactly one variable, and every opcode takes the operands that are
pushed for it. -/
def Counted : Ast → Prop
  | .lit _ => True
  | .const _ => True
  | .ref r =>
    match r.loc with
    | .lambda _ => True
    | .global _ => False
  | .set _ value => Counted value
  | .cnd test pass fail => Counted test ∧ Counted pass ∧ Counted fail
  | .seq first last => CountedAll first ∧ Counted last
  | .lambda info body => Counted body ∧ (lambdaFv info body).length ≠ 1
  | .app fn args => Counted fn ∧ CountedAll args
  | .opcodeApp op args => OpcodeCounted op args.length ∧ CountedAll args

/-- Every expression of the list is counted. -/
def CountedAll : List Ast → Prop
  | [] => True
  | x :: rest => Counted x ∧ CountedAll rest

end

/-! ## Straight-line code -/

/-- The instruction falls through and changes the depth by `k`. -/
structure Plain (i : Vm.Instr) (k : ℤ) : Prop where
  successors : ∀ ip depth, successors i ip depth = [(ip + i.size, depth + k)]
  forward : i.Forward

variable {i : Vm.Instr}

theorem forward_of_ne (hjump : i.op ≠ .jump) (hunless : i.op ≠ .jumpUnless) : i.Forward := by
  intro distance hop
  rcases hop with hop | hop
  · exact absurd hop hjump
  · exact absurd hop hunless

theorem successors_of_ne (hjump : i.op ≠ .jump) (hunless : i.op ≠ .jumpUnless) (ip : ℕ) (depth : ℤ) :
    successors i ip depth = match topChange i with
      | none => []
      | some change => [(ip + i.size, depth + change)] := by
  unfold successors
  split
  · contradiction
  · contradiction
  · rfl

variable {k : ℤ}

theorem plain_of_topChange (hjump : i.op ≠ .jump) (hunless : i.op ≠ .jumpUnless)
    (hchange : topChange i = some k) : Plain i k :=
  ⟨fun ip depth => by rw [successors_of_ne hjump hunless, hchange], forward_of_ne hjump hunless⟩

variable {d m : ℤ}

theorem flow_cons {e : ℤ} {rest : List Vm.Instr} (hplain : Plain i k) (hd : d ≤ m)
    (hrest : FlowOk rest (d + k) e m) : FlowOk (i :: rest) d e m :=
  hrest.cons hplain.successors hplain.forward hd

theorem flow_singleton (hplain : Plain i k) (hd : d ≤ m) (hk : d + k ≤ m) :
    FlowOk [i] d (d + k) m :=
  FlowOk.instr hplain.successors hplain.forward hd hk

/-! ## What a part of the generator emits -/

/-- The bytecode keeps the operand depth within the recorded maximum. -/
def Safe (bc : Bytecode) : Prop :=
  ∃ e, FlowOk bc.data 0 e bc.maxDepth

/-- From `g` to `g'` code has been emitted that changes the depth by `k`, and the recorded depth
has kept up with it. -/
structure Emitted (k : ℤ) (g g' : GenState) : Prop where
  code : ∃ c, g'.code = g.code ++ c ∧
    ∀ d m, d ≤ g.depth → g'.maxDepth ≤ m → FlowOk c d (d + k) m
  depth : g.depth + k ≤ g'.depth
  max : g.maxDepth ≤ g'.maxDepth
  below : g'.depth ≤ g'.maxDepth
  bytecodes : (∀ b ∈ g.bytecodes, Safe b.2) → ∀ b ∈ g'.bytecodes, Safe b.2

/-- The recorded maximum is above the recorded depth. -/
abbrev GenOk (g : GenState) : Prop :=
  g.depth ≤ g.maxDepth

theorem incDepth_maxDepth (g : GenState) (off : ℤ) :
    g.maxDepth ≤ (g.incDepth off).maxDepth ∧ g.depth + off ≤ (g.incDepth off).maxDepth := by
  simp only [GenState.incDepth]
  split <;> constructor <;> omega

variable {g g' : GenState}

theorem Emitted.trans {l : ℤ} {g'' : GenState} (h1 : Emitted k g g') (h2 : Emitted l g' g'') :
    Emitted (k + l) g g'' := by
  obtain ⟨c1, hcode1, hflow1⟩ := h1.code
  obtain ⟨c2, hcode2, hflow2⟩ := h2.code
  have hdepth1 := h1.depth
  have hdepth2 := h2.depth
  have hmax2 := h2.max
  refine ⟨⟨c1 ++ c2, ?_, ?_⟩, by omega, Int.le_trans h1.max h2.max, h2.below,
    fun hg => h2.bytecodes (h1.bytecodes hg)⟩
  · rw [hcode2, hcode1, append_assoc]
  · intro d m hd hm
    have hsecond := hflow2 (d + k) m (by omega) hm
    rw [Int.add_assoc] at hsecond
    exact (hflow1 d m hd (by omega)).append hsecond

theorem Emitted.of_code (c : List Vm.Instr) (hcode : g'.code = g.code ++ c)
    (hflow : ∀ d m, d ≤ g.depth → g'.maxDepth ≤ m → FlowOk c d (d + k) m)
    (hdepth : g.depth + k ≤ g'.depth) (hmax : g.maxDepth ≤ g'.maxDepth)
    (hbelow : g'.depth ≤ g'.maxDepth) (hbytecodes : g'.bytecodes = g.bytecodes) :
    Emitted k g g' :=
  ⟨⟨c, hcode, hflow⟩, hdepth, hmax, hbelow, fun hg => by rw [hbytecodes]; exact hg⟩

theorem Emitted.setTailp (hg : GenOk g) (tailp : Bool) : Emitted 0 g (g.setTailp tailp) := by
  refine Emitted.of_code [] (by simp [GenState.setTailp]) ?_ (by simp [GenState.setTailp])
    (Int.le_refl _) hg rfl
  intro d m hd hm
  have hm' : g.maxDepth ≤ m := hm
  simpa using FlowOk.nil (Int.le_trans hd (Int.le_trans hg hm'))

variable {op : Vm.Op} {words : List Word}

theorem Emitted.instr (hg : GenOk g) {off : ℤ} (hplain : Plain ⟨op, words⟩ k) (hoff : k ≤ off) :
    Emitted k g ((g.emit op words).incDepth off) := by
  obtain ⟨hmax, hdepth⟩ := incDepth_maxDepth (g.emit op words) off
  simp only [GenState.emit] at hmax hdepth
  refine Emitted.of_code [⟨op, words⟩] rfl ?_ ?_ hmax hdepth rfl
  · intro d m hd hm
    simp only [GenState.emit] at hm
    exact flow_singleton hplain (by omega) (by omega)
  · simp only [GenState.emit, GenState.incDepth]
    omega

theorem Emitted.unrecorded (hg : GenOk g) (hplain : Plain ⟨op, words⟩ k) (hk : k ≤ 0) :
    Emitted k g (g.emit op words) := by
  refine Emitted.of_code [⟨op, words⟩] rfl ?_ ?_ (Int.le_refl _) hg rfl
  · intro d m hd hm
    simp only [GenState.emit] at hm
    exact flow_singleton hplain (by omega) (by omega)
  · simp only [GenState.emit]
    omega

theorem Emitted.incDepth (hg : GenOk g) (hk : 0 ≤ k) : Emitted 0 g (g.incDepth k) := by
  obtain ⟨hmax, hdepth⟩ := incDepth_maxDepth g k
  refine Emitted.of_code [] (by simp [GenState.incDepth]) ?_ ?_ hmax hdepth rfl
  · intro d m hd hm
    simpa using FlowOk.nil (show d ≤ m by omega)
  · simp only [GenState.incDepth]
    omega

theorem plain_push (v : Vm.Val) : Plain ⟨.push, [.obj v]⟩ 1 :=
  plain_of_topChange (by simp) (by simp) rfl

theorem emitPush_emitted (hg : GenOk g) (v : Vm.Val) : Emitted 1 g (g.emitPush v) :=
  Emitted.instr hg (plain_push v) (Int.le_refl _)

/-! ## Variables -/

theorem ref_emitted (hg : GenOk g) (unbox : Bool) (hplain : Plain ⟨op, words⟩ 1) :
    Emitted 1 g ((if unbox then (g.emit op words).emit .cdr [] else g.emit op words).incDepth 1) := by
  cases unbox with
  | false => exact Emitted.instr hg hplain (Int.le_refl _)
  | true =>
    obtain ⟨hmax, hdepth⟩ := incDepth_maxDepth ((g.emit op words).emit .cdr []) 1
    simp only [GenState.emit] at hmax hdepth
    refine Emitted.of_code [⟨op, words⟩, ⟨.cdr, []⟩] ?_ ?_ ?_ hmax hdepth rfl
    · simp [GenState.emit, GenState.incDepth]
    · intro d m hd hm
      simp only [GenState.emit, if_true] at hm
      have hcdr : Plain ⟨.cdr, []⟩ 0 := plain_of_topChange (by simp) (by simp) rfl
      refine flow_cons hplain (by omega) ?_
      simpa using flow_singleton hcdr (show d + 1 ≤ m by omega) (by omega)
    · simp [GenState.emit, GenState.incDepth]

theorem generateNonGlobalRef_emitted (hg : GenOk g) (scope : Scope) (r : Ref) (loc : LambdaInfo)
    (unboxp : Bool) :
    Emitted 1 g (generateNonGlobalRef scope r loc unboxp g) := by
  have hlocal : ∀ k, Plain ⟨.localRef, [.num k]⟩ 1 := fun k =>
    plain_of_topChange (by simp) (by simp) rfl
  have hclosure : ∀ k, Plain ⟨.closureRef, [.num k]⟩ 1 := fun k =>
    plain_of_topChange (by simp) (by simp) rfl
  unfold generateNonGlobalRef
  cases scope with
  | none => exact ref_emitted hg _ (hclosure _)
  | some inner =>
    simp only
    by_cases hloc : loc.id = inner.1.id
    · simp only [hloc, if_true]
      exact ref_emitted hg _ (hlocal _)
    · simp only [hloc, if_false]
      exact ref_emitted hg _ (hclosure _)

theorem generateRef_emitted (hg : GenOk g) (config : Config) (scope : Scope) {r : Ref}
    {loc : LambdaInfo} (hloc : r.loc = .lambda loc) (unboxp : Bool) :
    Emitted 1 g (generateRef config scope r unboxp g) := by
  unfold generateRef
  rw [hloc]
  cases scope with
  | none => exact emitPush_emitted hg _
  | some inner => exact generateNonGlobalRef_emitted hg _ _ _ _

theorem storeValue_emitted (hg : GenOk g) (config : Config) (scope : Scope) (r : Ref) :
    Emitted (-1) g (storeValue config scope r g) := by
  have hset : Plain ⟨.setCdr, []⟩ (-2) := plain_of_topChange (by simp) (by simp) rfl
  unfold storeValue
  cases hloc : r.loc with
  | global cell =>
    by_cases hundefined : config.undefined cell
    · -- the reference that checks for an undefined variable is not recorded, but the push of
      -- the cell after it is
      have hread : Plain ⟨.globalRef, [.obj (.pair cell)]⟩ 1 :=
        plain_of_topChange (by simp) (by simp) rfl
      have hdrop : Plain ⟨.drop, []⟩ (-1) := plain_of_topChange (by simp) (by simp) rfl
      let checked := (g.emit .globalRef [.obj (.pair cell)]).emit .drop []
      obtain ⟨hmax, hdepth⟩ := incDepth_maxDepth (checked.emit .push [.obj (.pair cell)]) 1
      refine Emitted.of_code [⟨.globalRef, [.obj (.pair cell)]⟩, ⟨.drop, []⟩,
        ⟨.push, [.obj (.pair cell)]⟩, ⟨.setCdr, []⟩] ?_ ?_ ?_ ?_ ?_ ?_
      · simp [generateRef, hloc, hundefined, GenState.emit, GenState.emitPush, GenState.incDepth]
      · intro d m hd hm
        simp only [generateRef, hloc, hundefined, if_true] at hm
        have hm' : g.depth + 1 ≤ m := Int.le_trans hdepth hm
        refine flow_cons hread (by omega) (flow_cons hdrop (by omega) ?_)
        refine flow_cons (plain_push _) (by omega) ?_
        have hlast := flow_singleton hset (show d + 1 ≤ m by omega) (by omega)
        rw [show d + 1 + -1 + 1 = d + 1 by omega, show d + -1 = d + 1 + -2 by omega]
        exact hlast
      · simp only [generateRef, hloc, hundefined, if_true, GenState.emit, GenState.emitPush,
          GenState.incDepth]
        omega
      · simp only [generateRef, hloc, hundefined, if_true]
        exact hmax
      · simp only [generateRef, hloc, hundefined, if_true]
        exact hdepth
      · simp [generateRef, hloc, hundefined, GenState.emit, GenState.emitPush, GenState.incDepth]
    · simp only [hundefined]
      have hpush := emitPush_emitted hg (.pair cell)
      have hstore := hpush.trans (Emitted.unrecorded hpush.below hset (by omega))
      exact hstore
  | lambda loc =>
    simp only
    split
    · have href := generateRef_emitted hg config scope hloc false
      exact href.trans (Emitted.unrecorded href.below hset (by omega))
    · exact Emitted.unrecorded hg (plain_of_topChange (by simp) (by simp) rfl) (by omega)

/-! ## Applications of opcodes -/

theorem plain_parameterRef (v : Vm.Val) : Plain ⟨.parameterRef, [.obj v]⟩ 1 :=
  plain_of_topChange (by simp) (by simp) rfl

variable {info : OpcodeInfo}

theorem pushDefault_emitted (hg : GenOk g) (hdata : info.data ≠ .null) :
    Emitted 1 g (pushDefault info g) := by
  have hpush : ∀ v, Emitted 1 g ((g.emitPush v).incDepth 1) := fun v =>
    (emitPush_emitted hg v).trans
      (Emitted.incDepth (emitPush_emitted hg v).below (show (0 : ℤ) ≤ 1 by omega))
  unfold pushDefault
  cases hcase : info.data with
  | null => exact absurd hcase hdata
  | opcode v =>
    cases info.optParam with
    | true => exact ref_emitted hg true (plain_parameterRef v)
    | false => exact hpush v
  | value v =>
    cases info.optParam with
    | true => exact hpush v
    | false => exact hpush v

theorem pushInverseDefault_emitted (hg : GenOk g) (hdata : info.data ≠ .null) :
    Emitted 1 g (pushInverseDefault info g) := by
  have hcdr : Plain ⟨.cdr, []⟩ 0 := plain_of_topChange (by simp) (by simp) rfl
  have hpush : ∀ v, Emitted 1 g
      ((if info.optParam then (g.emitPush v).emit .cdr [] else g.emitPush v).incDepth 1) := by
    intro v
    have hvalue := emitPush_emitted hg v
    have hunboxed : Emitted 1 g
        (if info.optParam then (g.emitPush v).emit .cdr [] else g.emitPush v) := by
      split
      · exact hvalue.trans (Emitted.unrecorded hvalue.below hcdr (Int.le_refl _))
      · exact hvalue
    exact hunboxed.trans (Emitted.incDepth hunboxed.below (show (0 : ℤ) ≤ 1 by omega))
  unfold pushInverseDefault
  cases hcase : info.data with
  | null => exact absurd hcase hdata
  | opcode v => exact hpush v
  | value v => exact hpush v

theorem isOperator_ne {code : Vm.Op} (h : isOperator code = true) :
    (Vm.Instr.mk code words).op ≠ .jump ∧ (Vm.Instr.mk code words).op ≠ .jumpUnless := by
  constructor <;> (rintro rfl; cases h)

theorem flow_replicate (hplain : Plain i (-1)) (n : ℕ) (hd : d ≤ m) :
    FlowOk (List.replicate n i) d (d + -n) m := by
  induction n generalizing d with
  | zero => simpa using FlowOk.nil hd
  | succ n ih =>
    have hrest := ih (show d + -1 ≤ m by omega)
    rw [show d + -1 + -(n : ℤ) = d + -((n + 1 : ℕ) : ℤ) by omega] at hrest
    exact flow_cons hplain hd hrest

theorem emitTimes_eq (code : Vm.Op) (n : ℕ) (g : GenState) :
    emitTimes code n g = { g with code := g.code ++ List.replicate n ⟨code, []⟩ } := by
  induction n generalizing g with
  | zero => simp [emitTimes]
  | succ n ih => simp [emitTimes, ih, GenState.emit, replicate_succ]

theorem appendWords_nil (g : GenState) : g.appendWords [] = g := by
  unfold GenState.appendWords
  cases hlast : g.code.getLast? with
  | none => rfl
  | some i =>
    have hne : g.code ≠ [] := by
      intro hnil
      simp [hnil] at hlast
    rw [getLast?_eq_some_getLast hne] at hlast
    cases hlast
    simp only [append_nil]
    rw [dropLast_concat_getLast hne]

variable {count : ℕ} {statics : List Word}

theorem finish_emitted {h : GenState}
    (hstatics : info.staticParam = true → statics = []) {c : List Vm.Instr}
    (hcode : h.code = g.code ++ c) (hdepth : h.depth = g.depth) (hmax : h.maxDepth = g.maxDepth)
    (hbytecodes : h.bytecodes = g.bytecodes)
    (hk : k + (if pushesVoid info then 1 else 0) = 1 - count)
    (hflow : ∀ d m, d ≤ g.depth → g.maxDepth ≤ m → g.depth + k ≤ m → FlowOk c d (d + k) m) :
    Emitted (1 - count) g (finishOpcodeApp info count statics h) := by
  have hwords : (if info.staticParam then h.appendWords statics else h) = h := by
    split
    · rename_i hstatic
      rw [hstatics hstatic, appendWords_nil]
    · rfl
  unfold finishOpcodeApp
  simp only [hwords]
  cases hvoid : pushesVoid info with
  | false =>
    have hfalse : (info.returnsVoid && decide (info.opClass ≠ .foreign)) = false := hvoid
    simp only [hfalse, hvoid] at hk ⊢
    have hk' : k = 1 - count := by simpa using hk
    subst hk'
    obtain ⟨hinc, hinc'⟩ := incDepth_maxDepth h (-((count : ℤ) - 1))
    simp only [Bool.false_eq_true, if_false]
    refine Emitted.of_code c hcode ?_ ?_ ?_ ?_ hbytecodes
    · intro d m hd hm
      exact hflow d m hd (by omega) (by omega)
    · simp only [GenState.incDepth]
      omega
    · omega
    · simpa [GenState.incDepth] using hinc'
  | true =>
    have htrue : (info.returnsVoid && decide (info.opClass ≠ .foreign)) = true := hvoid
    simp only [htrue, hvoid, if_true] at hk ⊢
    have hk' : k = -count := by omega
    subst hk'
    obtain ⟨hpush, hpush'⟩ := incDepth_maxDepth (h.emit .push [.obj (.imm .void)]) 1
    obtain ⟨hinc, hinc'⟩ := incDepth_maxDepth (h.emitPush (.imm .void)) (-((count : ℤ) - 1))
    simp only [GenState.emitPush] at hinc hinc' ⊢
    have hinner : ((h.emit .push [.obj (.imm .void)]).incDepth 1).depth = h.depth + 1 := rfl
    have hemit : (h.emit .push [.obj (.imm .void)]).maxDepth = h.maxDepth := rfl
    refine Emitted.of_code (c ++ [⟨.push, [.obj (.imm .void)]⟩]) ?_ ?_ ?_ ?_ ?_ hbytecodes
    · simp [GenState.incDepth, GenState.emit, hcode]
    · intro d m hd hm
      have hoperator := hflow d m hd (by omega) (by omega)
      have hlast := flow_singleton (plain_push (.imm .void)) (d := d + -count) (m := m)
        (by omega) (by omega)
      rw [show d + (1 - (count : ℤ)) = d + -count + 1 by omega]
      exact hoperator.append hlast
    · simp only [GenState.incDepth, GenState.emit]
      omega
    · omega
    · simp only [GenState.incDepth, GenState.emit] at hinc' ⊢
      omega

theorem operator_emitted (hg : GenOk g) (hstatics : info.staticParam = true → statics = [])
    (hparameter : info.opClass ≠ .parameter) (hcounted : OperatorCounted info count) :
    Emitted (1 - count) g (finishOpcodeApp info count statics (emitOperator info count g)) := by
  obtain ⟨hoperator, hclass⟩ := hcounted
  have hne : ∀ words, (Vm.Instr.mk info.code words).op ≠ .jump ∧
      (Vm.Instr.mk info.code words).op ≠ .jumpUnless := fun words => isOperator_ne hoperator
  have hbinary : topChange ⟨info.code, []⟩ = some (-1) → Plain ⟨info.code, []⟩ (-1) :=
    plain_of_topChange (hne []).1 (hne []).2
  -- the classes that emit their operator once
  have hsingle : (topChange ⟨info.code, operatorWords info⟩ = none ∨
      topChange ⟨info.code, operatorWords info⟩ =
        some (1 - (count : ℤ) - if pushesVoid info then 1 else 0)) →
      Emitted (1 - count) g
        (finishOpcodeApp info count statics (g.emit info.code (operatorWords info))) := by
    intro hchange
    refine finish_emitted (k := 1 - count - if pushesVoid info then 1 else 0)
      (c := [⟨info.code, operatorWords info⟩]) hstatics rfl rfl rfl rfl (by omega) ?_
    intro d m hd hm hk
    rcases hchange with hnone | hsome
    · refine FlowOk.leaves ?_ (forward_of_ne (hne _).1 (hne _).2) (by omega)
      intro ip depth
      rw [successors_of_ne (hne _).1 (hne _).2, hnone]
    · exact flow_singleton (plain_of_topChange (hne _).1 (hne _).2 hsome) (by omega) (by omega)
  unfold emitOperator
  cases hcase : info.opClass with
  | arithmetic =>
    simp only [hcase] at hclass ⊢
    obtain ⟨hvoid, hcount, hchange⟩ := hclass
    rw [emitTimes_eq]
    have hnotVoid : pushesVoid info = false := by simp [pushesVoid, hvoid]
    refine finish_emitted (k := 1 - count) (c := List.replicate (count - 1) ⟨info.code, []⟩)
      hstatics rfl rfl rfl rfl (by simp [hnotVoid]) ?_
    intro d m hd hm hk
    have hflow := flow_replicate (hbinary hchange) (count - 1) (show d ≤ m by omega)
    rw [show d + -((count - 1 : ℕ) : ℤ) = d + (1 - count) by omega] at hflow
    exact hflow
  | arithmeticCmp =>
    simp only [hcase] at hclass ⊢
    obtain ⟨hvoid, rfl, hchange⟩ := hclass
    have hnotVoid : pushesVoid info = false := by simp [pushesVoid, hvoid]
    rw [if_neg (by omega)]
    refine finish_emitted (k := -1) (c := [⟨info.code, []⟩]) hstatics rfl rfl rfl rfl
      (by simp [hnotVoid]) ?_
    intro d m hd hm hk
    exact flow_singleton (hbinary hchange) (by omega) (by omega)
  | parameter => exact absurd hcase hparameter
  | _ =>
    simp only [hcase] at hclass ⊢
    exact hsingle hclass

/-- The use of a parameter: without an argument its value is pushed, with one or two the value
that was generated is stored. -/
theorem parameter_emitted (hstatics : info.staticParam = true → statics = [])
    (hvoid : info.returnsVoid = false) (hcount : count ≤ 2) :
    Emitted (if count = 0 then 1 else 0) g
      (finishOpcodeApp info count statics (emitParameter info count g)) := by
  have hnotVoid : pushesVoid info = false := by simp [pushesVoid, hvoid]
  have hcdr : Plain ⟨.cdr, []⟩ 0 := plain_of_topChange (by simp) (by simp) rfl
  have hset : Plain ⟨.setCdr, []⟩ (-2) := plain_of_topChange (by simp) (by simp) rfl
  unfold emitParameter
  by_cases hzero : count = 0
  · subst hzero
    simp only [if_true]
    have hfinish : Emitted (1 - (0 : ℕ)) g _ := finish_emitted (k := 1)
      (c := [⟨.parameterRef, [.obj info.self]⟩, ⟨.cdr, []⟩]) hstatics
      (h := (g.emit .parameterRef [.obj info.self]).emit .cdr [])
      (by simp [GenState.emit]) rfl rfl rfl (by simp [hnotVoid]) (by
        intro d m hd hm hk
        refine flow_cons (plain_parameterRef _) (by omega) ?_
        simpa using flow_singleton hcdr (show d + 1 ≤ m by omega) (by omega))
    simpa using hfinish
  · simp only [hzero, if_false]
    let stored := (g.emit .parameterRef [.obj info.self]).emit .setCdr []
    obtain ⟨hpush, hpush'⟩ := incDepth_maxDepth (stored.emit .push [.obj (.imm .void)]) 1
    have hemit : (stored.emit .push [.obj (.imm .void)]).maxDepth = g.maxDepth := rfl
    have hdepth : (stored.emit .push [.obj (.imm .void)]).depth = g.depth := rfl
    have hwords : (if info.staticParam then (stored.emitPush (.imm .void)).appendWords statics
        else stored.emitPush (.imm .void)) = stored.emitPush (.imm .void) := by
      split
      · rename_i hstatic
        rw [hstatics hstatic, appendWords_nil]
      · rfl
    have hfalse : (info.returnsVoid && decide (info.opClass ≠ .foreign)) = false := hnotVoid
    unfold finishOpcodeApp
    simp only [stored] at hwords
    simp only [hwords, hfalse, Bool.false_eq_true, if_false]
    obtain ⟨hinc, hinc'⟩ := incDepth_maxDepth (stored.emitPush (.imm .void)) (-((count : ℤ) - 1))
    have hinner : (stored.emitPush (.imm .void)).depth = g.depth + 1 := rfl
    simp only [GenState.emitPush] at hinc hinc' hinner
    refine Emitted.of_code [⟨.parameterRef, [.obj info.self]⟩, ⟨.setCdr, []⟩,
      ⟨.push, [.obj (.imm .void)]⟩] ?_ ?_ ?_ ?_ ?_ rfl
    · simp [GenState.emit, GenState.emitPush, GenState.incDepth]
    · intro d m hd hm
      have hm' : g.depth + 1 ≤ m := by
        refine Int.le_trans ?_ hm
        refine Int.le_trans ?_ hinc
        omega
      refine flow_cons (plain_parameterRef _) (by omega) (flow_cons hset (by omega) ?_)
      have hlast := flow_singleton (plain_push (.imm .void)) (d := d + 1 + -2) (m := m) (by omega)
        (by omega)
      rw [show d + 1 + -2 + 1 = d + 0 by omega] at hlast
      exact hlast
    · simp only [GenState.emit, GenState.emitPush, GenState.incDepth]
      omega
    · refine Int.le_trans ?_ hinc
      omega
    · simp only [GenState.emitPush]
      refine Int.le_trans ?_ hinc'
      simp only [GenState.incDepth]
      exact Int.le_refl _

variable {n : ℕ}

theorem operands_emitted (hg : GenOk g) {forward backward : GenState → GenState}
    (hparameter : info.opClass ≠ .parameter) (hstatic : info.staticParam = true → n = 0)
    (hforward : ∀ g, GenOk g → Emitted n g (forward g))
    (hbackward : ∀ g, GenOk g → Emitted n g (backward g)) :
    let defaultp := takesDefault info n
    let g1 := if defaultp && !info.inverse then pushDefault info g else g
    let g2 := if decide (info.opClass ≠ .parameter) && !info.staticParam then
        (if info.inverse && decide (info.opClass ≠ .arithmetic) then forward g1 else backward g1)
      else g1
    Emitted (operandCount info n) g
      (if defaultp && info.inverse then pushInverseDefault info g2 else g2) := by
  intro defaultp g1 g2
  have hdata : defaultp = true → info.data ≠ .null := by
    intro hdefault
    simp only [defaultp, takesDefault, Bool.and_eq_true, decide_eq_true_eq] at hdefault
    exact hdefault.2
  have harguments : ∀ h, GenOk h → Emitted n h
      (if decide (info.opClass ≠ .parameter) && !info.staticParam then
        (if info.inverse && decide (info.opClass ≠ .arithmetic) then forward h else backward h)
      else h) := by
    intro h hh
    split
    · split
      · exact hforward h hh
      · exact hbackward h hh
    · rename_i hskipped
      have hzero : n = 0 := by
        refine hstatic ?_
        simpa [hparameter] using hskipped
      subst hzero
      simpa [GenState.setTailp] using Emitted.setTailp hh h.tailp
  cases hdefault : defaultp with
  | false =>
    have hcount : operandCount info n = n := by
      simp only [operandCount]
      rw [show takesDefault info n = false from hdefault]
      rfl
    have hg1 : g1 = g := by simp [g1, hdefault]
    rw [hcount]
    simp only [Bool.false_and, Bool.false_eq_true, if_false, g2, hg1]
    exact harguments g hg
  | true =>
    have hcount : operandCount info n = n + 1 := by
      simp only [operandCount]
      rw [show takesDefault info n = true from hdefault]
      rfl
    rw [hcount]
    cases hinverse : info.inverse with
    | false =>
      have hg1 : g1 = pushDefault info g := by simp [g1, hdefault, hinverse]
      have hpushed := pushDefault_emitted hg (hdata hdefault)
      have hall := hpushed.trans (harguments _ hpushed.below)
      simp only [Bool.and_false, Bool.false_eq_true, if_false, g2, hg1]
      rw [Int.add_comm] at hall
      exact hall
    | true =>
      have hg1 : g1 = g := by simp [g1, hinverse]
      have hargs := harguments g hg
      simp only [Bool.and_true, if_true, g2, hg1]
      exact hargs.trans (pushInverseDefault_emitted hargs.below (hdata hdefault))

theorem opcodeAppWith_emitted (hg : GenOk g)
    {forward backward value : GenState → GenState}
    (hstatic : info.staticParam = true → n = 0) (hstatics : n = 0 → statics = [])
    (hcounted : if info.opClass = .parameter then info.returnsVoid = false ∧ n ≤ 2
      else OperatorCounted info (operandCount info n))
    (hforward : ∀ g, GenOk g → Emitted n g (forward g))
    (hbackward : ∀ g, GenOk g → Emitted n g (backward g))
    (hvalue : info.opClass = .parameter → 0 < n → ∀ g, GenOk g → Emitted 1 g (value g)) :
    Emitted 1 g (opcodeAppWith info n statics forward backward value g) := by
  have hwords : info.staticParam = true → statics = [] := fun h => hstatics (hstatic h)
  have htail := Emitted.setTailp hg false
  unfold opcodeAppWith
  split
  · exact emitPush_emitted hg _
  by_cases hparameter : info.opClass = .parameter
  · rw [if_pos hparameter] at hcounted
    have hdefault : takesDefault info n = false := by simp [takesDefault, hparameter]
    simp only [hdefault, hparameter, ne_eq, not_true_eq_false, decide_false, Bool.false_and,
      Bool.false_eq_true, if_false, if_true]
    by_cases hzero : n = 0
    · subst hzero
      have hread := parameter_emitted (g := g.setTailp false) hwords hcounted.1 hcounted.2
      simpa using htail.trans hread
    · rw [if_pos (by omega)]
      have hset := htail.trans (hvalue hparameter (by omega) _ htail.below)
      have hstore := parameter_emitted (g := value (g.setTailp false)) hwords
        hcounted.1 hcounted.2
      rw [if_neg hzero] at hstore
      simpa using hset.trans hstore
  · rw [if_neg hparameter] at hcounted
    have hoperands := htail.trans
      (operands_emitted htail.below hparameter hstatic hforward hbackward)
    have hall := hoperands.trans
      (operator_emitted hoperands.below hwords hparameter hcounted)
    rw [show (0 : ℤ) + operandCount info n + (1 - operandCount info n) = 1 by omega] at hall
    simp only [hparameter, if_false]
    exact hall

theorem opcodeCounted_info {op : Opcode} (h : OpcodeCounted op n) :
    (op.info.staticParam = true → n = 0) ∧
      if op.info.opClass = .parameter then op.info.returnsVoid = false ∧ n ≤ 2
      else OperatorCounted op.info (operandCount op.info n) := by
  unfold OpcodeCounted at h
  obtain ⟨-, hstatic, hclass⟩ := h
  refine ⟨hstatic, ?_⟩
  by_cases hparameter : op.info.opClass = .parameter
  · rw [if_pos hparameter] at hclass ⊢
    exact ⟨hclass.1, hclass.2.1⟩
  · rw [if_neg hparameter] at hclass ⊢
    exact hclass

theorem generateOpcodeApp_emitted (op : Opcode) :
    ∀ (n : ℕ) (statics : List Word) (forward backward first : GenState → GenState)
      (g : GenState), GenOk g → OpcodeCounted op n → (n = 0 → statics = []) →
      (∀ g, GenOk g → Emitted n g (forward g)) → (∀ g, GenOk g → Emitted n g (backward g)) →
      (0 < n → ∀ g, GenOk g → Emitted 1 g (first g)) →
      Emitted 1 g (generateOpcodeApp op n statics forward backward first g) := by
  induction op with
  | plain info =>
    intro n statics forward backward first g hg hcounted hstatics hforward hbackward hfirst
    obtain ⟨hstatic, hclass⟩ := opcodeCounted_info hcounted
    exact opcodeAppWith_emitted hg hstatic hstatics hclass hforward hbackward (fun _ => hfirst)
  | convertedBy info procedure =>
    intro n statics forward backward first g hg hcounted hstatics hforward hbackward hfirst
    obtain ⟨hstatic, hclass⟩ := opcodeCounted_info hcounted
    refine opcodeAppWith_emitted hg hstatic hstatics hclass hforward hbackward ?_
    intro _ hn g hg
    have hcall : Plain ⟨.call, [.num 1]⟩ (-1) := plain_of_topChange (by simp) (by simp) rfl
    have hargument := hfirst hn g hg
    have hoperator := hargument.trans (emitPush_emitted hargument.below procedure)
    exact hoperator.trans (Emitted.instr hoperator.below hcall (Int.le_refl _))
  | convertedByOpcode info converter ih =>
    intro n statics forward backward first g hg hcounted hstatics hforward hbackward hfirst
    obtain ⟨hstatic, hclass⟩ := opcodeCounted_info hcounted
    refine opcodeAppWith_emitted hg hstatic hstatics hclass hforward hbackward ?_
    intro hparameter hn g hg
    have hone : ∀ g, GenOk g → Emitted (1 : ℕ) g (first g) := by simpa using hfirst hn
    have hconverter : OpcodeCounted converter 1 := by
      unfold OpcodeCounted at hcounted
      have hrest := hcounted.2.2
      rw [if_pos (show (Opcode.convertedByOpcode info converter).info.opClass = .parameter from
        hparameter)] at hrest
      exact hrest.2.2 hn
    exact ih 1 _ first first first g hg hconverter (by omega) hone hone (fun _ => hfirst hn)

/-! ## Conditionals and sequences -/

theorem patchLabel_code (g : GenState) {before after : List Vm.Instr}
    (hcode : g.code = before ++ ⟨op, [.num 0]⟩ :: after) :
    g.patchLabel before.length op =
      { g with code := before ++ ⟨op, [.num (codeSize after + 8 : ℕ)]⟩ :: after } := by
  have htake : g.code.take before.length = before := by rw [hcode, take_left]
  have hset : ∀ i, g.code.set before.length i = before ++ i :: after := by
    intro i
    rw [hcode, set_append_right _ _ (Nat.le_refl _)]
    simp
  have hdistance : (codeSize g.code : ℤ) - (codeSize before + 1 : ℕ) =
      (codeSize after + 8 : ℕ) := by
    rw [hcode, codeSize_append, codeSize_cons]
    simp only [Vm.Instr.size, length_cons, length_nil]
    omega
  unfold GenState.patchLabel
  simp only [htake, hset, hdistance]

theorem conditional_emitted {g1 g2 g3 : GenState} (tailp : Bool) (htest : Emitted 1 g g1)
    (hpass : Emitted 1 (((g1.setTailp tailp).emit .jumpUnless [.num 0]).incDepth (-1)) g2)
    (hfail : Emitted 1 ((((g2.setTailp tailp).emit .jump [.num 0]).incDepth (-1)).patchLabel
      g1.code.length .jumpUnless) g3) :
    Emitted 1 g (g3.patchLabel g2.code.length .jump) := by
  obtain ⟨c1, hcode1, hflow1⟩ := htest.code
  obtain ⟨c2, hcode2, hflow2⟩ := hpass.code
  obtain ⟨c3, hcode3, hflow3⟩ := hfail.code
  have hcode2' : g2.code = g1.code ++ ⟨.jumpUnless, [.num 0]⟩ :: c2 := by
    rw [hcode2]
    simp [GenState.incDepth, GenState.emit, GenState.setTailp]
  have hcode2'' : (((g2.setTailp tailp).emit .jump [.num 0]).incDepth (-1)).code =
      g1.code ++ ⟨.jumpUnless, [.num 0]⟩ :: (c2 ++ [⟨.jump, [.num 0]⟩]) := by
    simp [GenState.incDepth, GenState.emit, GenState.setTailp, hcode2']
  have hpatched := patchLabel_code _ hcode2''
  rw [hpatched] at hcode3 hflow3
  have hsize : codeSize (c2 ++ [⟨.jump, [.num 0]⟩]) + 8 = codeSize c2 + 17 := by
    simp only [codeSize_append, codeSize_cons, codeSize_nil, Vm.Instr.size, length_cons, length_nil]
  simp only [hsize] at hcode3
  have hcode3' : g3.code = (g1.code ++ ⟨.jumpUnless, [.num (codeSize c2 + 17 : ℕ)]⟩ :: c2) ++
      ⟨.jump, [.num 0]⟩ :: c3 := by
    rw [hcode3]
    simp
  have hlength : g2.code.length =
      (g1.code ++ ⟨.jumpUnless, [.num (codeSize c2 + 17 : ℕ)]⟩ :: c2).length := by
    rw [hcode2']
    simp
  rw [hlength, patchLabel_code g3 hcode3']
  have hdepth1 := htest.depth
  have hdepth2 := hpass.depth
  have hdepth3 := hfail.depth
  have hmax1 := htest.max
  have hmax2 := hpass.max
  have hmax3 := hfail.max
  have hbelow1 := htest.below
  have hinc1 := (incDepth_maxDepth ((g1.setTailp tailp).emit .jumpUnless [.num 0]) (-1)).1
  have hinc2 := (incDepth_maxDepth ((g2.setTailp tailp).emit .jump [.num 0]) (-1)).1
  rw [hpatched] at hdepth3 hmax3
  simp only [GenState.incDepth, GenState.emit, GenState.setTailp] at hinc1 hdepth2 hmax2 hflow2
  simp only [GenState.incDepth, GenState.emit, GenState.setTailp] at hinc2 hdepth3 hmax3 hflow3
  have hbytecodes := hfail.bytecodes
  rw [hpatched] at hbytecodes
  refine ⟨⟨c1 ++ ⟨.jumpUnless, [.num (codeSize c2 + 17 : ℕ)]⟩ ::
    (c2 ++ ⟨.jump, [.num (codeSize c3 + 8 : ℕ)]⟩ :: c3), ?_, ?_⟩, ?_, ?_, hfail.below,
    fun hg => hbytecodes (hpass.bytecodes (htest.bytecodes hg))⟩
  · simp [hcode1]
  · intro d m hd hm
    have hm' : g3.maxDepth ≤ m := hm
    have hthen := hflow2 d m (by omega) (by omega)
    have helse := hflow3 d m (by omega) (by omega)
    have hbranches := FlowOk.conditional hthen helse (show d + 1 ≤ m by omega)
    exact (hflow1 d m hd (by omega)).append hbranches
  · simp only
    omega
  · simp only
    omega

theorem dropped_emitted {prev : Ast} (hvalue : Emitted 1 g g')
    (hdrop : generateDropPrev prev g' = g'.emit .drop []) :
    Emitted 0 g ((generateDropPrev prev g').incDepth (-1)) := by
  have hplain : Plain ⟨.drop, []⟩ (-1) := plain_of_topChange (by simp) (by simp) rfl
  rw [hdrop]
  exact hvalue.trans (Emitted.instr hvalue.below hplain (Int.le_refl _))

theorem taken_back_emitted (config : Config) (scope : Scope) (r : Ref) (value : Ast)
    (hvalue : Emitted 1 g g') :
    Emitted 0 g
      ((generateDropPrev (.set r value) (generateStore config scope r g')).incDepth (-1)) := by
  have hstored := hvalue.trans (storeValue_emitted hvalue.below config scope r)
  let stored := storeValue config scope r g'
  have hcode : ((generateDropPrev (.set r value) (generateStore config scope r g')).incDepth
      (-1)).code = stored.code := by
    simp [generateDropPrev, generateStore, GenState.emitPush, GenState.emit, GenState.incDepth,
      stored]
  have hdepth : ((generateDropPrev (.set r value) (generateStore config scope r g')).incDepth
      (-1)).depth = stored.depth + 1 := by
    simp only [generateDropPrev, generateStore, GenState.emitPush, GenState.emit,
      GenState.incDepth, if_true, stored]
    omega
  have hpush := (incDepth_maxDepth (stored.emit .push [.obj (.imm .void)]) 1).1
  have hinc := incDepth_maxDepth (stored.emitPush (.imm .void)) 1
  have hlast := incDepth_maxDepth
    (generateDropPrev (.set r value) (generateStore config scope r g')) (-1)
  have hsame : (generateDropPrev (.set r value) (generateStore config scope r g')).maxDepth =
      ((stored.emitPush (.imm .void)).incDepth 1).maxDepth := by
    simp [generateDropPrev, generateStore, stored]
  have hstart : (stored.emit .push [.obj (.imm .void)]).maxDepth = stored.maxDepth := rfl
  have hpushed : (stored.emitPush (.imm .void)).maxDepth =
      ((stored.emit .push [.obj (.imm .void)]).incDepth 1).maxDepth := rfl
  have hraised : (stored.emitPush (.imm .void)).depth = stored.depth + 1 := rfl
  obtain ⟨c, hstoredCode, hflow⟩ := hstored.code
  have hstoredDepth : g.depth ≤ stored.depth := by
    have hbound := hstored.depth
    simp only [stored]
    omega
  have hstoredMax : g.maxDepth ≤ stored.maxDepth := hstored.max
  refine ⟨⟨c, by rw [hcode]; exact hstoredCode, ?_⟩, by omega, by omega, by omega, ?_⟩
  · intro d m hd hm
    exact hflow d m hd (show stored.maxDepth ≤ m by omega)
  · intro hg
    have hkept : ((generateDropPrev (.set r value) (generateStore config scope r g')).incDepth
        (-1)).bytecodes = stored.bytecodes := by
      simp [generateDropPrev, generateStore, GenState.emitPush, GenState.emit, GenState.incDepth,
        stored]
    rw [hkept]
    exact hstored.bytecodes hg

/-- Only assignments end in a push that is taken back: literals and constants are skipped, and no
opcode that is counted is itself a push. -/
theorem generateDropPrev_drops {x : Ast} (hcounted : Counted x) (hskipped : x.skipped = false)
    (hset : ∀ r value, x ≠ .set r value) (g : GenState) :
    generateDropPrev x g = g.emit .drop [] := by
  cases x with
  | lit v => cases hskipped
  | const v =>
    have hne : v ≠ .imm .void := by
      rintro rfl
      cases hskipped
    simp [generateDropPrev, hne]
  | set r value => exact absurd rfl (hset r value)
  | opcodeApp op args =>
    simp only [Counted] at hcounted
    have hne : op.info.code ≠ .push := by
      have hopcode := hcounted.1
      unfold OpcodeCounted at hopcode
      exact hopcode.1
    simp [generateDropPrev, hne]
  | _ => rfl

/-! ## Calls -/

theorem call_emitted (tailp inTail : Bool) (n : ℕ) (hoperands : Emitted (n + 1) g g') :
    Emitted 1 g (((g'.emit (if inTail then .tailCall else .call) [.num n]).setTailp tailp).incDepth
      (-n)) := by
  obtain ⟨c, hcode, hflow⟩ := hoperands.code
  have hdepth := hoperands.depth
  have hmax := hoperands.max
  have hinc := incDepth_maxDepth
    ((g'.emit (if inTail then .tailCall else .call) [.num n]).setTailp tailp) (-n)
  have hbelow := hoperands.below
  simp only [GenState.emit, GenState.setTailp] at hinc
  refine ⟨⟨c ++ [⟨if inTail then .tailCall else .call, [.num n]⟩], ?_, ?_⟩, ?_, ?_, ?_,
    hoperands.bytecodes⟩
  · simp [GenState.emit, GenState.setTailp, GenState.incDepth, hcode]
  · intro d m hd hm
    have hm' : g'.maxDepth ≤ m := Int.le_trans hinc.1 hm
    refine (hflow d m hd hm').append ?_
    cases inTail with
    | true =>
      refine FlowOk.leaves (fun _ _ => rfl) (forward_of_ne (by simp) (by simp)) (by omega)
    | false =>
      have hplain : Plain ⟨.call, [.num n]⟩ (-n) := plain_of_topChange (by simp) (by simp) rfl
      have hcall := flow_singleton hplain (show d + (n + 1) ≤ m by omega) (by omega)
      rw [show d + ((n : ℤ) + 1) + -n = d + 1 by omega] at hcall
      exact hcall
  · simp only [GenState.emit, GenState.setTailp, GenState.incDepth]
    omega
  · simp only [GenState.emit, GenState.setTailp]
    omega
  · refine Int.le_trans ?_ hinc.2
    simp only [GenState.emit, GenState.setTailp, GenState.incDepth]
    omega

/-! ## Lambdas -/

theorem reserveLocals_emitted (n : ℕ) (hg : GenOk g) : Emitted n g (reserveLocals n g) := by
  induction n generalizing g with
  | zero => simpa [GenState.setTailp, reserveLocals] using Emitted.setTailp hg g.tailp
  | succ n ih =>
    have hpush := emitPush_emitted hg (.imm .undef)
    have hall := hpush.trans (ih hpush.below)
    rw [show (1 : ℤ) + n = (n + 1 : ℕ) by omega] at hall
    exact hall

theorem boxVariables_flow (l : LambdaInfo) (sv : List ℕ) (g : GenState) :
    ∃ c, (boxVariables l sv g).code = g.code ++ c ∧
      (∀ d m, d ≤ m → (sv ≠ [] → d + 2 ≤ m) → FlowOk c d d m) ∧
      (boxVariables l sv g).depth = g.depth + sv.length ∧
      g.maxDepth ≤ (boxVariables l sv g).maxDepth ∧
      (GenOk g → GenOk (boxVariables l sv g)) ∧
      (boxVariables l sv g).bytecodes = g.bytecodes := by
  induction sv generalizing g with
  | nil =>
    refine ⟨[], by simp [boxVariables], fun d m hd _ => FlowOk.nil hd, by simp [boxVariables],
      Int.le_refl _, id, rfl⟩
  | cons name rest ih =>
    have hread : ∀ k, Plain ⟨.localRef, [.num k]⟩ 1 := fun k =>
      plain_of_topChange (by simp) (by simp) rfl
    have hwrite : ∀ k, Plain ⟨.localSet, [.num k]⟩ (-1) := fun k =>
      plain_of_topChange (by simp) (by simp) rfl
    have hcons : Plain ⟨.cons, []⟩ (-1) := plain_of_topChange (by simp) (by simp) rfl
    let k := l.paramIndex name
    let boxed := (((g.emit .localRef [.num k]).emitPush (.object name)).emit .cons []).emit
      .localSet [.num k]
    obtain ⟨c, hcode, hflow, hdepth, hmax, hok, hbytecodes⟩ := ih boxed
    have hinc := incDepth_maxDepth
      ((g.emit .localRef [.num k]).emit .push [.obj (.object name)]) 1
    have hstart : g.maxDepth ≤ boxed.maxDepth := hinc.1
    refine ⟨[⟨.localRef, [.num k]⟩, ⟨.push, [.obj (.object name)]⟩, ⟨.cons, []⟩,
      ⟨.localSet, [.num k]⟩] ++ c, ?_, ?_, ?_, Int.le_trans hstart hmax, ?_, hbytecodes⟩
    · simp only [boxVariables]
      rw [hcode]
      simp [boxed, GenState.emit, GenState.emitPush, GenState.incDepth]
    · intro d m hd hpeak
      have hpeak' := hpeak (cons_ne_nil _ _)
      have hrest := hflow d m hd (fun _ => hpeak')
      refine flow_cons (hread k) hd (flow_cons (plain_push _) (by omega) ?_)
      refine flow_cons hcons (by omega) (flow_cons (hwrite k) (by omega) ?_)
      rw [show d + 1 + 1 + -1 + -1 = d by omega]
      exact hrest
    · simp only [boxVariables, length_cons]
      have hboxed : boxed.depth = g.depth + 1 := rfl
      rw [hdepth, hboxed]
      omega
    · intro hg
      exact hok hinc.2

theorem body_safe {l : LambdaInfo} {bytecodes : List (ℕ × Bytecode)} {inner : GenState}
    (hbody : Emitted 1 (lambdaPrologue l bytecodes) inner) :
    Safe ⟨(inner.emit .ret []).code, inner.maxDepth.toNat⟩ := by
  let fresh : GenState := ⟨[], 0, 0, true, bytecodes⟩
  have hfresh : GenOk fresh := Int.le_refl _
  have hprologue : lambdaPrologue l bytecodes =
      boxVariables l l.sv (reserveLocals l.locals.length fresh) := rfl
  rw [hprologue] at hbody
  have hlocals := reserveLocals_emitted l.locals.length hfresh
  obtain ⟨c1, hcode1, hflow1⟩ := hlocals.code
  obtain ⟨c2, hcode2, hflow2, hdepth2, hmax2, -, -⟩ :=
    boxVariables_flow l l.sv (reserveLocals l.locals.length fresh)
  obtain ⟨c3, hcode3, hflow3⟩ := hbody.code
  have hdepth1 := hlocals.depth
  have hdepth3 := hbody.depth
  have hmax3 := hbody.max
  have hbelow := hbody.below
  have hfreshDepth : fresh.depth = 0 := rfl
  have hcode : (inner.emit .ret []).code = c1 ++ (c2 ++ (c3 ++ [⟨.ret, []⟩])) := by
    simp only [GenState.emit, hcode3]
    rw [hcode2, hcode1]
    simp [fresh]
  refine ⟨0, ?_⟩
  simp only
  rw [hcode]
  have hm : inner.maxDepth ≤ (inner.maxDepth.toNat : ℤ) := Int.self_le_toNat _
  have hlast : FlowOk [⟨.ret, []⟩] ((l.locals.length : ℤ) + 1) 0 inner.maxDepth.toNat :=
    FlowOk.leaves (fun _ _ => rfl) (forward_of_ne (by simp) (by simp)) (by omega)
  have hbodyFlow := hflow3 (l.locals.length : ℤ) inner.maxDepth.toNat (by omega) hm
  have hboxes := hflow2 (l.locals.length : ℤ) inner.maxDepth.toNat (by omega) (by
    intro hne
    have hpos := length_pos_iff.mpr hne
    omega)
  have hreserve := hflow1 0 inner.maxDepth.toNat (Int.le_refl _) (by omega)
  rw [Int.zero_add] at hreserve
  exact hreserve.append (hboxes.append (hbodyFlow.append hlast))

/-- Storing the captured variables: each store takes three slots above the vector, and leaves the
recorded depth one higher. -/
theorem closeVariables_flow (scope : Scope) (fv : List Ref) (k : ℕ) (g : GenState) (hg : GenOk g) :
    ∃ c, (closeVariables scope k fv g).code = g.code ++ c ∧
      (∀ d m, d ≤ g.depth → (closeVariables scope k fv g).maxDepth ≤ m → (fv ≠ [] → d + 3 ≤ m) →
        FlowOk c d d m) ∧
      g.depth + fv.length ≤ (closeVariables scope k fv g).depth ∧
      g.maxDepth ≤ (closeVariables scope k fv g).maxDepth ∧
      (fv ≠ [] → g.depth + fv.length + 1 ≤ (closeVariables scope k fv g).maxDepth) ∧
      GenOk (closeVariables scope k fv g) ∧
      ((∀ b ∈ g.bytecodes, Safe b.2) →
        ∀ b ∈ (closeVariables scope k fv g).bytecodes, Safe b.2) := by
  induction fv generalizing g k with
  | nil =>
    refine ⟨[], by simp [closeVariables], ?_, by simp [closeVariables], Int.le_refl _,
      fun h => absurd rfl h, hg, id⟩
    intro d m hd hm _
    simp only [closeVariables] at hm
    exact FlowOk.nil (by omega)
  | cons r rest ih =>
    -- one turn pushes the variable and its index and sets the slot
    have hindex : Plain ⟨.stackRef, [.num 3]⟩ 1 := plain_of_topChange (by simp) (by simp) rfl
    have hset : Plain ⟨.vectorSet, []⟩ (-3) := plain_of_topChange (by simp) (by simp) rfl
    obtain ⟨g1, hnext, href⟩ : ∃ g1, closeVariables scope k (r :: rest) g =
        closeVariables scope (k + 1) rest ((((g1.emitPush (.fixnum k)).emit .stackRef
          [.num 3]).emit .vectorSet []).incDepth (-1)) ∧ Emitted 1 g g1 := by
      cases hloc : r.loc with
      | lambda loc =>
        refine ⟨_, ?_, generateNonGlobalRef_emitted hg scope r loc false⟩
        simp only [closeVariables, hloc]
      | global cell =>
        have hread : Plain ⟨.closureRef, [.num 0]⟩ 1 :=
          plain_of_topChange (by simp) (by simp) rfl
        refine ⟨_, ?_, Emitted.instr hg hread (Int.le_refl 1)⟩
        simp only [closeVariables, hloc]
    obtain ⟨stored, hstoredEq⟩ : ∃ stored, stored = (((g1.emitPush (.fixnum k)).emit .stackRef
      [.num 3]).emit .vectorSet []).incDepth (-1) := ⟨_, rfl⟩
    rw [← hstoredEq] at hnext
    obtain ⟨c1, hcode1, hflow1⟩ := href.code
    have hdepth1 := href.depth
    have hmax1 := href.max
    have hpush := incDepth_maxDepth (g1.emit .push [.obj (.fixnum k)]) 1
    have hpop := incDepth_maxDepth
      (((g1.emitPush (.fixnum k)).emit .stackRef [.num 3]).emit .vectorSet []) (-1)
    have hstoredDepth : stored.depth = g1.depth := by
      simp only [hstoredEq, GenState.emitPush, GenState.emit, GenState.incDepth]
      omega
    have hpushed : ((g1.emitPush (.fixnum k)).emit .stackRef [.num 3]).maxDepth =
        ((g1.emit .push [.obj (.fixnum k)]).incDepth 1).maxDepth := rfl
    simp only [GenState.emit] at hpush hpop hpushed
    have hstoredMax : g1.depth + 1 ≤ stored.maxDepth ∧ g1.maxDepth ≤ stored.maxDepth :=
      hstoredEq ▸ ⟨Int.le_trans hpush.2 hpop.1, Int.le_trans hpush.1 hpop.1⟩
    have hstored : GenOk stored := by
      simp only [GenOk]
      omega
    obtain ⟨c, hcode, hflow, hdepth, hmax, hpeak, hok, hbytecodes⟩ := ih (k + 1) stored hstored
    have hkept : stored.bytecodes = g1.bytecodes := by
      rw [hstoredEq]
      rfl
    rw [hkept] at hbytecodes
    rw [hnext]
    refine ⟨c1 ++ ([⟨.push, [.obj (.fixnum k)]⟩, ⟨.stackRef, [.num 3]⟩, ⟨.vectorSet, []⟩] ++ c),
      ?_, ?_, ?_, by omega, ?_, hok, fun hg => hbytecodes (href.bytecodes hg)⟩
    · rw [hcode]
      simp [hstoredEq, GenState.emit, GenState.emitPush, GenState.incDepth, hcode1]
    · intro d m hd hm hroom
      have hroom' := hroom (cons_ne_nil _ _)
      have hrest := hflow d m (by omega) hm (fun _ => hroom')
      refine (hflow1 d m hd (by omega)).append ?_
      refine flow_cons (plain_push _) (by omega) (flow_cons hindex (by omega) ?_)
      refine flow_cons hset (by omega) ?_
      rw [show d + 1 + 1 + 1 + -3 = d by omega]
      exact hrest
    · rw [length_cons]
      omega
    · intro _
      rw [length_cons]
      cases rest with
      | nil =>
        simp only [closeVariables, length_nil]
        omega
      | cons next more =>
        have hmore := hpeak (cons_ne_nil _ _)
        omega

/-- A closure over no variable or over two or more.  The stores of a single one go a slot above
the recorded depth. -/
theorem makeClosure_emitted (scope : Scope) (l : LambdaInfo) {fv : List Ref} (hg : GenOk g)
    (hone : fv.length ≠ 1) : Emitted 1 g (makeClosure scope l fv g) := by
  unfold makeClosure
  by_cases hnil : fv = []
  · rw [if_pos hnil]
    exact emitPush_emitted hg _
  · rw [if_neg hnil]
    have hpos := length_pos_iff.mpr hnil
    have hmake : Plain ⟨.makeVector, []⟩ (-1) := plain_of_topChange (by simp) (by simp) rfl
    have hprocedure : ∀ words, Plain ⟨.makeProcedure, words⟩ 0 := fun words =>
      plain_of_topChange (by simp) (by simp) rfl
    have hvoid := emitPush_emitted hg (.imm .void)
    have hcount := hvoid.trans (emitPush_emitted hvoid.below (.fixnum fv.length))
    have hvector : Emitted 1 g _ := hcount.trans (Emitted.instr hcount.below hmake (Int.le_refl _))
    generalize (((g.emitPush (.imm .void)).emitPush (.fixnum fv.length)).emit .makeVector
      []).incDepth (-1) = vector at hvector ⊢
    obtain ⟨c1, hcode1, hflow1⟩ := hvector.code
    have hdepth1 := hvector.depth
    have hmax1 := hvector.max
    obtain ⟨c, hcode, hflow, hdepth, hmax, hpeak, hok, hbytecodes⟩ :=
      closeVariables_flow scope fv 0 _ hvector.below
    have hpeak' := hpeak hnil
    change Emitted 1 g ((closeVariables scope 0 fv vector).emit .makeProcedure
      [.num l.flags, .num l.params.length, .code l.id])
    generalize closeVariables scope 0 fv vector = closed at *
    refine ⟨⟨c1 ++ (c ++ [⟨.makeProcedure, [.num l.flags, .num l.params.length,
      .code l.id]⟩]), ?_, ?_⟩, ?_, ?_, ?_, fun hg => hbytecodes (hvector.bytecodes hg)⟩
    · simp [GenState.emit, hcode, hcode1]
    · intro d m hd hm
      simp only [GenState.emit] at hm
      refine (hflow1 d m hd (by omega)).append ?_
      refine (hflow (d + 1) m (by omega) hm (fun _ => by omega)).append ?_
      simpa using flow_singleton (hprocedure _) (show d + 1 ≤ m by omega) (by omega)
    · simp only [GenState.emit]
      omega
    · simp only [GenState.emit]
      omega
    · exact hok

/-! ## The whole generator -/

theorem countedAll_mem {xs : List Ast} (h : CountedAll xs) : ∀ x ∈ xs, Counted x := by
  induction xs with
  | nil =>
    intro x hx
    cases hx
  | cons head tail ih =>
    simp only [CountedAll] at h
    intro x hx
    rcases mem_cons.mp hx with rfl | hmem
    · exact h.1
    · exact ih h.2 x hmem

section Parts

variable {config : Config} {scope : Scope}

/-- The expression raises the stack by one slot, and by none when its value is dropped. -/
structure PartEmitted (config : Config) (scope : Scope) (x : Ast) : Prop where
  value : ∀ g, GenOk g → Emitted 1 g (generate config scope x g)
  dropped : ∀ g, GenOk g → x.skipped = false →
    Emitted 0 g ((generateDropPrev x (generate config scope x g)).incDepth (-1))

theorem partEmitted_of {x : Ast} (hcounted : Counted x) (hset : ∀ r value, x ≠ .set r value)
    (hvalue : ∀ g, GenOk g → Emitted 1 g (generate config scope x g)) :
    PartEmitted config scope x := by
  refine ⟨hvalue, ?_⟩
  intro g hg hskipped
  exact dropped_emitted (hvalue g hg) (generateDropPrev_drops hcounted hskipped hset _)

variable {xs : List Ast}

theorem generateFirst_emitted (hparts : ∀ x ∈ xs, PartEmitted config scope x) :
    ∀ g, GenOk g → Emitted 0 g (generateFirst config scope xs g) := by
  induction xs with
  | nil =>
    intro g hg
    simpa [GenState.setTailp, generateFirst] using Emitted.setTailp hg g.tailp
  | cons x rest ih =>
    intro g hg
    have hrest := ih (fun y hy => hparts y (mem_cons_of_mem _ hy))
    simp only [generateFirst]
    cases hskipped : x.skipped with
    | true =>
      simp only [if_true]
      exact hrest g hg
    | false =>
      have hx := (hparts x mem_cons_self).dropped g hg hskipped
      simp only [Bool.false_eq_true, if_false]
      exact hx.trans (hrest _ hx.below)

theorem generateForward_emitted (hparts : ∀ x ∈ xs, PartEmitted config scope x) :
    ∀ g, GenOk g → Emitted xs.length g (generateForward config scope xs g) := by
  induction xs with
  | nil =>
    intro g hg
    simpa [GenState.setTailp, generateForward] using Emitted.setTailp hg g.tailp
  | cons x rest ih =>
    intro g hg
    have hx := (hparts x mem_cons_self).value g hg
    have hall := hx.trans (ih (fun y hy => hparts y (mem_cons_of_mem _ hy)) _ hx.below)
    simp only [generateForward]
    rw [show (1 : ℤ) + rest.length = (x :: rest).length by simp; omega] at hall
    exact hall

theorem generateBackward_emitted (hparts : ∀ x ∈ xs, PartEmitted config scope x) :
    ∀ g, GenOk g → Emitted xs.length g (generateBackward config scope xs g) := by
  induction xs with
  | nil =>
    intro g hg
    simpa [GenState.setTailp, generateBackward] using Emitted.setTailp hg g.tailp
  | cons x rest ih =>
    intro g hg
    have hrest := ih (fun y hy => hparts y (mem_cons_of_mem _ hy)) g hg
    have hall := hrest.trans ((hparts x mem_cons_self).value _ hrest.below)
    simp only [generateBackward]
    rw [show (rest.length : ℤ) + 1 = (x :: rest).length by simp] at hall
    exact hall

end Parts

theorem lambda_emitted {config : Config} {info : LambdaInfo} {body : Ast}
    (scope : Scope) (hg : GenOk g) (hone : (lambdaFv info body).length ≠ 1)
    (hbody : ∀ inner, GenOk inner →
      Emitted 1 inner (generate config (some (info, lambdaFv info body)) body inner)) :
    Emitted 1 g (generate config scope (.lambda info body) g) := by
  have hfresh : GenOk ⟨[], 0, 0, true, g.bytecodes⟩ := Int.le_refl _
  have hlocals := reserveLocals_emitted info.locals.length hfresh
  obtain ⟨-, -, -, -, -, hok, hkept⟩ :=
    boxVariables_flow info info.sv (reserveLocals info.locals.length ⟨[], 0, 0, true, g.bytecodes⟩)
  have hinner := hbody (lambdaPrologue info g.bytecodes) (hok hlocals.below)
  have hsafe := body_safe hinner
  let bytecodes := completeBytecode info.id
    (generate config (some (info, lambdaFv info body)) body (lambdaPrologue info g.bytecodes))
  have hcompiled : GenOk { g with bytecodes := bytecodes } := hg
  have hclosure := makeClosure_emitted scope info hcompiled hone
  obtain ⟨c, hcode, hflow⟩ := hclosure.code
  simp only [generate]
  refine ⟨⟨c, hcode, hflow⟩, hclosure.depth, hclosure.max, hclosure.below, ?_⟩
  intro hall
  refine hclosure.bytecodes ?_
  intro b hb
  simp only [bytecodes, completeBytecode] at hb
  rcases mem_append.mp hb with hearlier | hnew
  · refine hinner.bytecodes ?_ b hearlier
    simp only [lambdaPrologue]
    rw [hkept]
    exact hlocals.bytecodes hall
  · rw [mem_singleton] at hnew
    rw [hnew]
    exact hsafe

/-- The stack discipline of the generator: what a counted program emits raises the stack by one
slot, and the recorded depth keeps up with it. -/
theorem generate_emitted (config : Config) (x : Ast) :
    ∀ scope : Scope, Counted x → PartEmitted config scope x := by
  induction x using Ast.induction with
  | lit v =>
    intro scope hcounted
    refine partEmitted_of hcounted (by simp) ?_
    intro g hg
    exact emitPush_emitted hg v
  | const v =>
    intro scope hcounted
    refine partEmitted_of hcounted (by simp) ?_
    intro g hg
    exact emitPush_emitted hg v
  | ref r =>
    intro scope hcounted
    refine partEmitted_of hcounted (by simp) ?_
    intro g hg
    simp only [Counted] at hcounted
    cases hloc : r.loc with
    -- a global is not counted, so there is no such case
    | global cell => simp [hloc] at hcounted
    | lambda loc =>
      simp only [generate]
      exact generateRef_emitted hg config scope hloc true
  | set r value ih =>
    intro scope hcounted
    simp only [Counted] at hcounted
    have hvalue : ∀ g, GenOk g →
        Emitted 1 g (generate config scope value (g.setTailp false)) := by
      intro g hg
      have htail := Emitted.setTailp hg false
      exact htail.trans ((ih scope hcounted).value _ htail.below)
    refine ⟨?_, ?_⟩
    · intro g hg
      have hstored := (hvalue g hg).trans
        (storeValue_emitted (hvalue g hg).below config scope r)
      have hpushed := hstored.trans (emitPush_emitted hstored.below (.imm .void))
      simp only [generate, generateStore]
      exact hpushed.trans (Emitted.incDepth hpushed.below (show (0 : ℤ) ≤ 1 by omega))
    · intro g hg _
      simp only [generate]
      exact taken_back_emitted config scope r value (hvalue g hg)
  | cnd test pass fail ihTest ihPass ihFail =>
    intro scope hcounted
    refine partEmitted_of hcounted (by simp) ?_
    intro g hg
    simp only [Counted] at hcounted
    have htail := Emitted.setTailp hg false
    have htest := htail.trans ((ihTest scope hcounted.1).value _ htail.below)
    have hall := conditional_emitted g.tailp htest
      ((ihPass scope hcounted.2.1).value _ (incDepth_maxDepth _ _).2)
      ((ihFail scope hcounted.2.2).value (GenState.patchLabel _ _ _) (incDepth_maxDepth _ _).2)
    simp only [generate]
    exact hall
  | seq first last ihFirst ihLast =>
    intro scope hcounted
    refine partEmitted_of hcounted (by simp) ?_
    intro g hg
    simp only [Counted] at hcounted
    have htail := Emitted.setTailp hg false
    have hfirst := htail.trans (generateFirst_emitted
      (fun x hx => ihFirst x hx scope (countedAll_mem hcounted.1 x hx)) _ htail.below)
    have htail' := hfirst.trans (Emitted.setTailp hfirst.below g.tailp)
    simp only [generate]
    exact htail'.trans ((ihLast scope hcounted.2).value _ htail'.below)
  | lambda info body ih =>
    intro scope hcounted
    refine partEmitted_of hcounted (by simp) ?_
    intro g hg
    simp only [Counted] at hcounted
    exact lambda_emitted scope hg hcounted.2
      (ih (some (info, lambdaFv info body)) hcounted.1).value
  | app fn args ihFn ihArgs =>
    intro scope hcounted
    refine partEmitted_of hcounted (by simp) ?_
    intro g hg
    simp only [Counted] at hcounted
    have htail := Emitted.setTailp hg false
    have hargs := htail.trans (generateBackward_emitted
      (fun x hx => ihArgs x hx scope (countedAll_mem hcounted.2 x hx)) _ htail.below)
    have hoperands := hargs.trans ((ihFn scope hcounted.1).value _ hargs.below)
    rw [show (0 : ℤ) + args.length + 1 = args.length + 1 by omega] at hoperands
    simp only [generate]
    exact call_emitted g.tailp (g.tailp && !config.noTailCalls) args.length hoperands
  | opcodeApp op args ih =>
    intro scope hcounted
    refine partEmitted_of hcounted (by simp) ?_
    intro g hg
    simp only [Counted] at hcounted
    have hparts : ∀ x ∈ args, PartEmitted config scope x :=
      fun x hx => ih x hx scope (countedAll_mem hcounted.2 x hx)
    simp only [generate]
    refine generateOpcodeApp_emitted op args.length _ _ _ _ g hg hcounted.1 ?_
      (generateForward_emitted hparts) (generateBackward_emitted hparts) ?_
    · intro hzero
      rw [length_eq_zero_iff.mp hzero]
      rfl
    · intro hpos g hg
      cases args with
      | nil => cases hpos
      | cons x rest => exact (hparts x mem_cons_self).value g hg

end ChibiScheme.Compiler
