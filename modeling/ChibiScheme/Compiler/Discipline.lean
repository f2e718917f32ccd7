import ChibiScheme.Compiler.Depth
import ChibiScheme.Vm.CallCheck

/-!
# The check at call time covers the body

The generator's bookkeeping and the machine's single check put together: for counted programs no
push of a compiled body is written past the end of the stack, as long as the stack that the check
makes is large enough.  Reading a global variable is not counted at all, so without that condition
the difference between the recorded and the real depth has no bound.
-/

namespace ChibiScheme.Compiler

open Vm Relation List

/-! ## Paths at another depth -/

theorem successors_raise (i : Vm.Instr) (ip : ℕ) (depth off : ℤ) {next : ℕ × ℤ}
    (hnext : next ∈ successors i ip depth) :
    (next.1, next.2 + off) ∈ successors i ip (depth + off) := by
  unfold successors at hnext ⊢
  split at hnext
  · simp only [mem_cons, not_mem_nil, or_false] at hnext ⊢
    rcases hnext with rfl | rfl
    · exact Or.inl (Prod.ext rfl (by simp only; omega))
    · exact Or.inr (Prod.ext rfl (by simp only; omega))
  · rw [mem_singleton] at hnext ⊢
    rw [hnext]
  · cases hchange : topChange i with
    | none =>
      rw [hchange] at hnext
      cases hnext
    | some change =>
      rw [hchange] at hnext
      simp only [mem_singleton] at hnext ⊢
      subst hnext
      exact Prod.ext rfl (by simp only; omega)

theorem depthReach_raise {code : List Vm.Instr} {start point : ℕ × ℤ} (off : ℤ)
    (hreach : DepthReach code start point) :
    DepthReach code (start.1, start.2 + off) (point.1, point.2 + off) := by
  induction hreach with
  | refl => exact ReflTransGen.refl
  | tail _ hstep ih =>
    obtain ⟨i, hfetch, hnext⟩ := hstep
    exact ih.tail ⟨i, hfetch, successors_raise i _ _ off hnext⟩

/-! ## Compiled programs -/

theorem compileTop_safe (config : Config) (id : ℕ) {x : Ast} (hcounted : Counted x) :
    ∀ b ∈ compileTop config id x, Safe b.2 := by
  have hfresh : GenOk ⟨[], 0, 0, true, []⟩ := Int.le_refl _
  have hbody := (generate_emitted config x none hcounted).value _ hfresh
  intro b hb
  simp only [compileTop, completeBytecode] at hb
  rcases mem_append.mp hb with hinner | htop
  · refine hbody.bytecodes ?_ b hinner
    intro b hb
    cases hb
  · rw [mem_singleton] at htop
    rw [htop]
    exact body_safe (l := ⟨id, [], none, false, [], []⟩) hbody

/-- Stack discipline.  The code generated for a counted program raises the stack by one slot on
every path that falls through, the recorded depth bounds the depth at every instruction of every
compiled body, and where the check at the call has room no push of the body, until it leaves its
frame, is written past the end of the stack. -/
theorem stack_discipline (config : Config) {x : Ast} (hcounted : Counted x) :
    (∀ scope g, g.depth ≤ g.maxDepth → ∃ c, (generate config scope x g).code = g.code ++ c ∧
      ∀ d k, DepthReach c (0, d) (codeSize c, k) → k = d + 1) ∧
    ∀ id, ∀ b ∈ compileTop config id x,
      (∀ ip k, DepthReach b.2.data (0, 0) (ip, k) → k ≤ b.2.maxDepth) ∧
      ∀ limit s p n returnIp t u, s.bytecodes p.code = some b.2 →
        HasRoom limit s (b.2.maxDepth + 64) → makeCall limit s (.proc p) n returnIp = some t →
        ReflTransGen (FrameStep limit) t u →
        ∀ i, currentInstr u = some i → topChange i = some 1 → u.top < u.stackLength := by
  refine ⟨?_, ?_⟩
  · intro scope g hg
    have hemitted := (generate_emitted config x scope hcounted).value g hg
    obtain ⟨c, hcode, hflow⟩ := hemitted.code
    refine ⟨c, hcode, ?_⟩
    intro d k hreach
    have hraised := depthReach_raise (g.depth - d) hreach
    simp only at hraised
    rw [show d + (g.depth - d) = g.depth by omega] at hraised
    have hexit := ((hflow g.depth _ (Int.le_refl _) (Int.le_refl _)).reach hraised).2 rfl
    omega
  · intro id b hb
    obtain ⟨e, hflow⟩ := compileTop_safe config id hcounted b hb
    have hbound : ∀ ip k, DepthReach b.2.data (0, 0) (ip, k) → k ≤ b.2.maxDepth :=
      fun ip k hreach => (hflow.reach hreach).1
    refine ⟨hbound, ?_⟩
    intro limit s p n returnIp t u hbc hroom hcall hrun i _ _
    have hentered := makeCall_entered hbc hroom hcall
    have hbelow := entered_push_below hentered hbc hbound hrun
    omega

/-! ## Running one call -/

/-- Every global is defined, and tail calls are made. -/
def knownGlobals : Config where
  undefined := fun _ => false
  noTailCalls := false

/-- `(lambda (a b) (if a (set! a b) b))`. -/
def assignOrReturn : Ast :=
  let l : LambdaInfo := ⟨1, [10, 11], none, false, [], [10]⟩
  let a : Ref := ⟨10, .lambda l⟩
  let b : Ref := ⟨11, .lambda l⟩
  .lambda l (.cnd (.ref a) (.set a (.ref b)) (.ref b))

theorem assignOrReturn_counted : Counted assignOrReturn := by
  have hclosed : (lambdaFv ⟨1, [10, 11], none, false, [], [10]⟩
      (.cnd (.ref ⟨10, .lambda ⟨1, [10, 11], none, false, [], [10]⟩⟩)
        (.set ⟨10, .lambda ⟨1, [10, 11], none, false, [], [10]⟩⟩
          (.ref ⟨11, .lambda ⟨1, [10, 11], none, false, [], [10]⟩⟩))
        (.ref ⟨11, .lambda ⟨1, [10, 11], none, false, [], [10]⟩⟩))).length ≠ 1 := by decide
  simp only [assignOrReturn, Counted]
  exact ⟨⟨trivial, trivial, trivial⟩, hclosed⟩

/-- A procedure that assigns a variable or returns. -/
def assignOrReturnCode : Bytecode where
  data := [⟨.localRef, [.num 0]⟩, ⟨.push, [.obj (.object 10)]⟩, ⟨.cons, []⟩,
    ⟨.localSet, [.num 0]⟩, ⟨.localRef, [.num 0]⟩, ⟨.cdr, []⟩, ⟨.jumpUnless, [.num 45]⟩,
    ⟨.localRef, [.num 1]⟩, ⟨.localRef, [.num 0]⟩, ⟨.setCdr, []⟩, ⟨.push, [.obj (.imm .void)]⟩,
    ⟨.jump, [.num 17]⟩, ⟨.localRef, [.num 1]⟩, ⟨.ret, []⟩]
  maxDepth := 5

/-- The procedure of that code. -/
def assignOrReturnProcedure : Procedure where
  variadic := false
  unusedRest := false
  numArgs := 2
  code := 1
  vars := none

/-- A machine with both operands and the procedure on a stack of 1024 slots. -/
def beforeCall : State where
  pairs := []
  vectors := []
  bytecodes := fun id => if id = 1 then some assignOrReturnCode else none
  resumeccBytecode := 0
  stackObjs := fun _ => ⟨1024, fun i => if i = 2 then .proc assignOrReturnProcedure else .fixnum i⟩
  stackCount := 1
  contextStack := 0
  contextTop := 0
  stack := 0
  top := 3
  fp := 0
  ip := 0
  self := assignOrReturnProcedure
  updates := []

/-- The first push of the body is below the end of the stack. -/
theorem stack_discipline_assignOrReturn :
    ∃ t, makeCall none beforeCall (.proc assignOrReturnProcedure) 2 0 = some t ∧
      t.top < t.stackLength := by
  have hmem : (1, assignOrReturnCode) ∈ compileTop knownGlobals 0 assignOrReturn := by decide
  have hbody := (stack_discipline knownGlobals assignOrReturn_counted).2 0 _ hmem
  refine ⟨_, rfl, ?_⟩
  exact hbody.2 none beforeCall assignOrReturnProcedure 2 0 _ _ rfl (Or.inl (by decide)) rfl
    ReflTransGen.refl ⟨.localRef, [.num 0]⟩ rfl rfl

/-! ## Reading a global variable is not counted -/

/-- A reference to a global. -/
def globalVariable : Ast :=
  .ref ⟨0, .global 0⟩

/-- `(lambda () (x x ... x))` with `n` operands. -/
def globalCall (n : ℕ) : Ast :=
  .lambda ⟨1, [], none, false, [], []⟩ (.app globalVariable (List.replicate n globalVariable))

/-- The instruction that reads a known global. -/
def readGlobal : Vm.Instr :=
  ⟨.globalKnownRef, [.obj (.pair 0)]⟩

theorem generateBackward_globals (scope : Scope) (n : ℕ) (g : GenState) :
    generateBackward knownGlobals scope (List.replicate n globalVariable) g =
      { g with code := g.code ++ List.replicate n readGlobal } := by
  induction n with
  | zero => simp [generateBackward]
  | succ n ih =>
    simp only [replicate_succ, generateBackward, ih]
    simp [globalVariable, generate, generateRef, knownGlobals, GenState.emit, readGlobal,
      ← replicate_succ, replicate_succ']

theorem freeVarsList_globals (n : ℕ) (fv : List Ref) :
    freeVarsList (List.replicate n globalVariable) fv = fv := by
  induction n with
  | zero => rfl
  | succ n ih => simpa [replicate_succ, freeVarsList, globalVariable, freeVars] using ih

theorem globalCall_bytecode (n : ℕ) :
    (1, (⟨List.replicate (n + 1) readGlobal ++ [⟨.tailCall, [.num n]⟩, ⟨.ret, []⟩], 0⟩ : Bytecode)) ∈
      compileTop knownGlobals 0 (globalCall n) := by
  have hclosed : lambdaFv ⟨1, [], none, false, [], []⟩
      (.app globalVariable (List.replicate n globalVariable)) = [] := by
    simp [lambdaFv, freeVars, globalVariable]
    rw [← globalVariable, freeVarsList_globals]
    rfl
  simp only [compileTop, completeBytecode, globalCall, generate, hclosed, makeClosure, if_true,
    lambdaPrologue, reserveLocals, boxVariables, length_nil, generateBackward_globals,
    GenState.setTailp]
  refine mem_append_left _ (mem_append_right _ ?_)
  rw [mem_singleton]
  have hdepth : ¬ (n : ℤ) < 0 := by omega
  simp [globalVariable, generate, generateRef, knownGlobals, GenState.emit, GenState.incDepth,
    readGlobal, replicate_succ', hdepth]

theorem readGlobal_reach (n : ℕ) (rest : List Vm.Instr) :
    DepthReach (List.replicate n readGlobal ++ rest) (0, 0) (9 * n, n) := by
  have hsize : ∀ k, codeSize (List.replicate k readGlobal) = 9 * k := by
    intro k
    simp [codeSize, readGlobal, Vm.Instr.size]
    omega
  have hpaths : ∀ k, k ≤ n →
      DepthReach (List.replicate n readGlobal ++ rest) (0, 0) (9 * k, k) := by
    intro k
    induction k with
    | zero =>
      intro _
      exact ReflTransGen.refl
    | succ k ih =>
      intro hk
      have hcode : List.replicate n readGlobal ++ rest = List.replicate k readGlobal ++
          readGlobal :: (List.replicate (n - k - 1) readGlobal ++ rest) := by
        rw [← cons_append, ← replicate_succ, ← append_assoc, replicate_append_replicate]
        congr 2
        omega
      have hfetch := fetch_append (List.replicate k readGlobal) readGlobal
        (List.replicate (n - k - 1) readGlobal ++ rest)
      rw [← hcode, hsize] at hfetch
      refine (ih (by omega)).tail ⟨readGlobal, hfetch, ?_⟩
      exact mem_singleton.mpr (Prod.ext (by simp [readGlobal, Vm.Instr.size]; omega) (by simp))
  exact hpaths n (Nat.le_refl _)

/-- A hundred operands that are global variables take a hundred slots, which is past the margin of
the check, and none of them is recorded. -/
theorem global_operands_uncounted :
    ∃ b ∈ compileTop knownGlobals 0 (globalCall 100),
      b.2.maxDepth = 0 ∧ DepthReach b.2.data (0, 0) (909, 101) :=
  ⟨_, globalCall_bytecode 100, rfl, readGlobal_reach 101 _⟩

end ChibiScheme.Compiler
