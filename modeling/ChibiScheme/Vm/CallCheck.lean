import ChibiScheme.Vm.Depth

/-!
# The stack check at a call

`make_call` checks once that the recorded depth of the callee, with a margin for the frame, fits
on the stack.  If the body keeps its operand depth within what was recorded, nothing that it pushes
until it leaves its frame is written past the end of the stack.
-/

namespace ChibiScheme.Vm

open Relation Option

variable {limit : Option ℕ} {s t : State}

/-! ## Entering the callee -/

/-- The check at the call finds `need` slots free, or the stack that replaces the old one has
them.  `sexp_grow_stack` is asked for `need` slots in all, not for `need` above the top. -/
def HasRoom (limit : Option ℕ) (s : State) (need : ℕ) : Prop :=
  s.top + need < s.stackLength ∨
    ∀ newSize, grownSize limit s.stackLength need = some newSize → s.top + need ≤ newSize

/-- There is room after the check. -/
theorem ensureStack_spec {need : ℕ} (hroom : HasRoom limit s need)
    (hensure : ensureStack limit s need = some t) :
    t.top = s.top ∧ t.bytecodes = s.bytecodes ∧ s.top + need ≤ t.stackLength := by
  unfold ensureStack at hensure
  split at hensure
  · rename_i hfull
    simp only [growStack] at hensure
    split at hensure
    · cases hensure
    rename_i grown hgrown
    cases hensure
    split at hgrown
    · cases hgrown
    rename_i newSize hsize
    cases hgrown
    refine ⟨rfl, rfl, ?_⟩
    rcases hroom with hroom | hroom
    · omega
    · have hfits := hroom newSize hsize
      simpa [State.stackLength] using hfits
  · cases hensure
    exact ⟨rfl, rfl, by omega⟩

theorem foldl_kept {α : Type} (body : State → α → State) (ks : List α)
    (hbody : ∀ s k, (body s k).top = s.top ∧ (body s k).bytecodes = s.bytecodes ∧
      (body s k).stackLength = s.stackLength) (s : State) :
    (ks.foldl body s).top = s.top ∧ (ks.foldl body s).bytecodes = s.bytecodes ∧
      (ks.foldl body s).stackLength = s.stackLength := by
  induction ks generalizing s with
  | nil => exact ⟨rfl, rfl, rfl⟩
  | cons k rest ih =>
    obtain ⟨htop, hbytecodes, hlength⟩ := ih (body s k)
    obtain ⟨htop', hbytecodes', hlength'⟩ := hbody s k
    exact ⟨htop.trans htop', hbytecodes.trans hbytecodes', hlength.trans hlength'⟩

theorem collectRest_kept (s : State) (i j : ℕ) :
    (collectRest s i j).top ≤ s.top ∧ (collectRest s i j).bytecodes = s.bytecodes ∧
      (collectRest s i j).stackLength = s.stackLength := by
  let start := (s.cons (s.slot (s.top - i - 1)) (.imm .null)).1.write (s.top - i - 1)
    (s.cons (s.slot (s.top - i - 1)) (.imm .null)).2
  have hstart : start.top = s.top ∧ start.bytecodes = s.bytecodes ∧
      start.stackLength = s.stackLength :=
    ⟨rfl, rfl, State.stackLength_write _ _ _⟩
  let link := fun (s' : State) (k : ℕ) =>
    let pair := s'.cons (s'.slot (s.top - i - 1 + 1 + k)) (s'.slot (s.top - i - 1))
    pair.1.write (s.top - i - 1) pair.2
  have hfirst := foldl_kept link (List.range (j - 1))
    (fun s' k => ⟨rfl, rfl, State.stackLength_write _ _ _⟩) start
  have hsecond := foldl_kept (fun (s' : State) (k : ℕ) =>
    s'.write (s.top - i - 1 + 1 + k) (s'.slot (s.top - i - 1 + j + k))) (List.range (i - j + 1))
    (fun s' k => ⟨rfl, rfl, State.stackLength_write _ _ _⟩)
    ((List.range (j - 1)).foldl link start)
  obtain ⟨htop, hbytecodes, hlength⟩ := hsecond
  refine ⟨?_, hbytecodes.trans (hfirst.2.1.trans hstart.2.1),
    hlength.trans (hfirst.2.2.trans hstart.2.2)⟩
  refine Nat.le_trans (Nat.sub_le _ _) ?_
  exact Nat.le_of_eq (htop.trans (hfirst.1.trans hstart.1))

theorem shiftRest_kept (s : State) (i : ℕ) :
    (shiftRest s i).top = s.top + 1 ∧ (shiftRest s i).bytecodes = s.bytecodes ∧
      (shiftRest s i).stackLength = s.stackLength := by
  have hloop := foldl_kept (fun (s : State) (k : ℕ) =>
    s.write (s.top - k) (s.slot (s.top - k - 1))) (List.range (i + 1))
    (fun s' k => ⟨rfl, rfl, State.stackLength_write _ _ _⟩) s
  refine ⟨by rw [← hloop.1]; rfl, hloop.2.1, ?_⟩
  rw [← hloop.2.2]
  exact State.stackLength_write _ _ _

/-- The callee starts in a frame of its own at depth zero. -/
structure Entered (s : State) (p : Procedure) (need : ℕ) (t : State) : Prop where
  self : t.self = p
  ip : t.ip = 0
  depth : t.depth = 0
  bytecodes : t.bytecodes = s.bytecodes
  room : t.top + need ≤ t.stackLength + 4

variable {p : Procedure}

theorem enterFrame_entered {i returnIp need : ℕ} (hbytecodes : t.bytecodes = s.bytecodes)
    (hroom : t.top + need ≤ t.stackLength + 1) :
    Entered s p need (enterFrame t p i returnIp) := by
  refine ⟨rfl, rfl, ?_, hbytecodes, ?_⟩
  · simp only [State.depth, enterFrame, State.setArg, State.write]
    omega
  · let framed := (((t.setArg 1 (.fixnum i)).write t.top (.fixnum returnIp)).write (t.top + 1)
      (.proc t.self)).write (t.top + 2) (.fixnum t.fp)
    have hframed : framed.stackLength = t.stackLength := by simp [framed]
    have hlength : (enterFrame t p i returnIp).stackLength = t.stackLength := hframed
    rw [hlength]
    simp only [enterFrame, State.setArg, State.write]
    omega

variable {bc : Bytecode}

theorem makeCall_entered {i returnIp : ℕ} (hbc : s.bytecodes p.code = some bc)
    (hroom : HasRoom limit s (bc.maxDepth + 64))
    (hcall : makeCall limit s (.proc p) i returnIp = some t) :
    Entered s p (bc.maxDepth + 64) t := by
  simp only [makeCall, asProcedure, bind_eq_bind, bind_some] at hcall
  rw [show ({ s with contextTop := s.top } : State).bytecodes = s.bytecodes from rfl, hbc,
    bind_some] at hcall
  split at hcall
  · cases hcall
  obtain ⟨ensured, hensured, hcall⟩ := bind_eq_some_iff.mp hcall
  have hroom' : HasRoom limit { s with contextTop := s.top } (bc.maxDepth + 64) := hroom
  obtain ⟨htop, hbytecodes, hlength⟩ := ensureStack_spec hroom' hensured
  have htop' : ensured.top = s.top := htop
  split at hcall
  · split at hcall
    · split at hcall
      · cases hcall
        exact enterFrame_entered hbytecodes (by omega)
      · cases hcall
        obtain ⟨hcollected, hkept, hsize⟩ := collectRest_kept ensured i (i - p.numArgs)
        exact enterFrame_entered (hkept.trans hbytecodes) (by omega)
    · cases hcall
  · split at hcall
    · cases hcall
      obtain ⟨hshifted, hkept, hsize⟩ := shiftRest_kept ensured i
      exact enterFrame_entered (hkept.trans hbytecodes) (by omega)
    · cases hcall
      exact enterFrame_entered hbytecodes (by omega)

/-! ## Running the body -/

/-- A step of a body between its entry and the moment it leaves its frame: an instruction of the
machine that finds its operands, or any other instruction seen from the frame, such as a call
together with the run of the callee up to its return. -/
inductive FrameStep (limit : Option ℕ) (s t : State) : Prop where
  | own (i : Instr) (hcurrent : currentInstr s = some i) (hstays : i.op.leavesFrame = false)
      (hoperands : ∀ k, topChange i = some k → 0 ≤ s.top + k) (hstep : step limit s = some t)
  | other (i : Instr) (hcurrent : currentInstr s = some i) (hsame : SameFrame s t)
      (hsuccessor : (t.ip, t.depth) ∈ successors i s.ip s.depth)
      (hlength : s.stackLength ≤ t.stackLength)

theorem FrameStep.spec (hstep : FrameStep limit s t) :
    SameFrame s t ∧ s.stackLength ≤ t.stackLength ∧
      ∃ i, currentInstr s = some i ∧ (t.ip, t.depth) ∈ successors i s.ip s.depth := by
  cases hstep with
  | own i hcurrent hstays hoperands hstep =>
    simp only [step, bind_eq_bind, hcurrent, bind_some] at hstep
    obtain ⟨hsame, hsuccessor, hlength⟩ := exec_successors hstays hoperands hstep
    exact ⟨hsame, Nat.le_of_eq hlength.symm, i, hcurrent, hsuccessor⟩
  | other i hcurrent hsame hsuccessor hlength => exact ⟨hsame, hlength, i, hcurrent, hsuccessor⟩

theorem frameRun_reach (hbc : s.bytecodes s.self.code = some bc)
    (hrun : ReflTransGen (FrameStep limit) s t) :
    SameFrame s t ∧ s.stackLength ≤ t.stackLength ∧
      DepthReach bc.data (s.ip, s.depth) (t.ip, t.depth) := by
  induction hrun with
  | refl => exact ⟨⟨rfl, rfl, rfl⟩, Nat.le_refl _, ReflTransGen.refl⟩
  | tail _ hstep ih =>
    rename_i middle last _
    obtain ⟨hsame, hlength, hreach⟩ := ih
    obtain ⟨hsame', hlength', i, hcurrent, hsuccessor⟩ := hstep.spec
    have hfetch : fetch bc.data middle.ip = some i := by
      have hcode : middle.bytecodes middle.self.code = some bc := by
        rw [hsame.bytecodes, hsame.self]
        exact hbc
      simpa [currentInstr, hcode] using hcurrent
    refine ⟨⟨hsame'.fp.trans hsame.fp, hsame'.self.trans hsame.self,
      hsame'.bytecodes.trans hsame.bytecodes⟩, Nat.le_trans hlength hlength', ?_⟩
    exact hreach.tail ⟨i, hfetch, hsuccessor⟩

theorem entered_push_below {u : State} (hentered : Entered s p (bc.maxDepth + 64) t)
    (hbc : s.bytecodes p.code = some bc)
    (hsafe : ∀ ip k, DepthReach bc.data (0, 0) (ip, k) → k ≤ bc.maxDepth)
    (hrun : ReflTransGen (FrameStep limit) t u) : u.top + 60 ≤ u.stackLength := by
  have hcode : t.bytecodes t.self.code = some bc := by
    rw [hentered.bytecodes, hentered.self]
    exact hbc
  obtain ⟨hsame, hlength, hreach⟩ := frameRun_reach hcode hrun
  rw [hentered.ip, hentered.depth] at hreach
  have hdepth := hsafe _ _ hreach
  have hstart := hentered.depth
  have hroom := hentered.room
  simp only [State.depth, hsame.fp] at hdepth hstart
  omega

end ChibiScheme.Vm
