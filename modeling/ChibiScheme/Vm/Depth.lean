import ChibiScheme.Vm.Machine

/-!
# Operand depth along the control flow

What each instruction does to `top`, read off the cases of `sexp_apply`, and the depths that the
paths through a piece of code can reach.  `FlowOk code d e m` says that every path that enters
`code` with operand depth `d` stays at depth at most `m`, and leaves at the end, if it does, with
depth `e`.
-/

namespace ChibiScheme.Vm

open Relation List Option

/-- The change of `top` when the instruction falls through, `none` when control leaves the code:
a tail call, a return and the like.  A call is taken with the return from it, so it replaces its
operator and operands by the result. -/
def topChange (i : Instr) : Option ℤ :=
  match i.op with
  | .resumecc | .apply1 | .tailCall | .ret | .done => none
  | .call =>
    match i.words with
    | [.num n] => some (-n)
    | _ => none
  | .fcalln =>
    match i.words with
    | [.opcode op] => some (1 - (op.numArgs + if op.variadic then 1 else 0))
    | _ => none
  | .noop | .raise | .callcc | .fcall1 | .jump | .closureVars | .vectorLength | .bytesLength
  | .stringLength | .stringCursorEnd | .makeProcedure | .nullp | .fixnump | .symbolp | .charp
  | .eofp | .typep | .slotRef | .car | .cdr | .char2int | .int2char | .charUpcase | .charDowncase
  | .readChar | .peekChar | .yield | .scp => some 0
  | .fcall0 | .push | .globalRef | .globalKnownRef | .parameterRef | .stackRef | .localRef
  | .closureRef | .make => some 1
  | .fcall2 | .jumpUnless | .drop | .localSet | .vectorRef | .bytesRef | .stringRef
  | .stringCursorNext | .stringCursorPrev | .makeVector | .and | .isa | .cons | .add | .sub | .mul
  | .div | .quotient | .remainder | .lt | .le | .eqn | .eq | .writeChar | .scLt | .scLe =>
    some (-1)
  | .fcall3 | .slotSet | .slotnRef | .setCar | .setCdr | .writeString => some (-2)
  | .fcall4 | .vectorSet | .bytesSet | .stringSet => some (-3)
  | .makeException | .slotnSet => some (-4)

/-- Where control can go from the instruction `i` at `ip`, and with which depth. -/
def successors (i : Instr) (ip : ℕ) (depth : ℤ) : List (ℕ × ℤ) :=
  match i.op, i.words with
  | .jumpUnless, [.num offset] =>
    [((ip + 1 + offset).toNat, depth - 1), (ip + i.size, depth - 1)]
  | .jump, [.num offset] => [((ip + 1 + offset).toNat, depth)]
  | _, _ =>
    match topChange i with
    | none => []
    | some change => [(ip + i.size, depth + change)]

/-- One step along the control flow. -/
def DepthStep (code : List Instr) (a b : ℕ × ℤ) : Prop :=
  ∃ i, fetch code a.1 = some i ∧ b ∈ successors i a.1 a.2

/-- Some steps of the code, with depths. -/
abbrev DepthReach (code : List Instr) : ℕ × ℤ → ℕ × ℤ → Prop :=
  ReflTransGen (DepthStep code)

/-! ## The length of the stack -/

namespace State

variable (s : State)

@[simp] theorem stackLength_write (i : ℕ) (v : Val) :
    (s.write i v).stackLength = s.stackLength := by
  by_cases hsame : s.contextStack = s.stack
  · simp [stackLength, write, hsame]
  · simp [stackLength, write, hsame]

@[simp] theorem stackLength_setArg (n : ℕ) (v : Val) : (s.setArg n v).stackLength = s.stackLength :=
  stackLength_write s _ v

@[simp] theorem stackLength_push (v : Val) : (s.push v).stackLength = s.stackLength :=
  stackLength_write s _ v

end State

/-! ## The machine takes these steps -/

/-- The operand depth above the frame of the running procedure. -/
def State.depth (s : State) : ℤ :=
  s.top - (s.fp + 4)

/-- The instructions that leave the frame and come back, or do not. -/
def Op.leavesFrame : Op → Bool
  | .call | .tailCall | .callcc | .resumecc | .ret => true
  | _ => false

/-- The registers that decide which code runs are kept. -/
structure SameFrame (s t : State) : Prop where
  fp : t.fp = s.fp
  self : t.self = s.self
  bytecodes : t.bytecodes = s.bytecodes

theorem fallsThrough {i : Instr} {k : ℤ} {s t : State}
    (hsuccessors : ∀ ip depth, successors i ip depth = [(ip + i.size, depth + k)])
    (hsame : SameFrame s t) (hip : t.ip = s.ip + i.size) (htop : (t.top : ℤ) = s.top + k)
    (hlength : t.stackLength = s.stackLength) :
    SameFrame s t ∧ (t.ip, t.depth) ∈ successors i s.ip s.depth ∧
      t.stackLength = s.stackLength := by
  refine ⟨hsame, ?_, hlength⟩
  rw [hsuccessors, mem_singleton, hip]
  simp only [State.depth, hsame.fp, htop, Prod.mk.injEq, true_and]
  omega

theorem exec_successors {limit : Option ℕ} {i : Instr} {s t : State}
    (hstays : i.op.leavesFrame = false) (hdepth : ∀ k, topChange i = some k → 0 ≤ s.top + k)
    (hexec : exec limit i { s with ip := s.ip + 1 } = some t) :
    SameFrame s t ∧ (t.ip, t.depth) ∈ successors i s.ip s.depth ∧
      t.stackLength = s.stackLength := by
  obtain ⟨op, words⟩ := i
  simp only [exec] at hexec
  split at hexec
  case h_2 => cases hstays
  case h_3 => cases hstays
  case h_4 => cases hstays
  case h_5 => cases hstays
  case h_25 => cases hstays
  case h_26 => cases hexec
  case h_6 =>
    have hpos := hdepth (-1) rfl
    have hdrop : ((s.top - 1 : ℕ) : ℤ) - (s.fp + 4) = s.top - (s.fp + 4) - 1 := by omega
    split at hexec
    · cases hexec
      exact ⟨⟨rfl, rfl, rfl⟩, mem_cons.mpr (Or.inl (Prod.ext rfl hdrop)), rfl⟩
    · cases hexec
      exact ⟨⟨rfl, rfl, rfl⟩, mem_cons_of_mem _ (mem_singleton.mpr
        (Prod.ext (by simp [State.drop, State.skip, Instr.size]) hdrop)), rfl⟩
  case h_7 =>
    cases hexec
    exact ⟨⟨rfl, rfl, rfl⟩, mem_singleton.mpr rfl, rfl⟩
  case h_1 =>
    cases hexec
    exact fallsThrough (fun _ _ => rfl) ⟨rfl, rfl, rfl⟩ rfl (by simp) rfl
  case h_8 =>
    cases hexec
    exact fallsThrough (fun _ _ => rfl) ⟨rfl, rfl, rfl⟩ rfl rfl (State.stackLength_push _ _)
  case h_9 =>
    have hpos := hdepth (-1) rfl
    cases hexec
    exact fallsThrough (fun _ _ => rfl) ⟨rfl, rfl, rfl⟩ rfl (by simp only [State.drop]; omega) rfl
  case h_10 =>
    obtain ⟨p, hp, hexec⟩ := bind_eq_some_iff.mp hexec
    split at hexec
    · cases hexec
    · cases hexec
      exact fallsThrough (fun _ _ => rfl) ⟨rfl, rfl, rfl⟩ rfl rfl (State.stackLength_push _ _)
  case h_11 =>
    obtain ⟨p, hp, hexec⟩ := bind_eq_some_iff.mp hexec
    cases hexec
    exact fallsThrough (fun _ _ => rfl) ⟨rfl, rfl, rfl⟩ rfl rfl (State.stackLength_push _ _)
  case h_12 =>
    cases hexec
    exact fallsThrough (fun _ _ => rfl) ⟨rfl, rfl, rfl⟩ rfl rfl (State.stackLength_push _ _)
  case h_13 =>
    cases hexec
    exact fallsThrough (fun _ _ => rfl) ⟨rfl, rfl, rfl⟩ rfl rfl (State.stackLength_push _ _)
  case h_14 =>
    have hpos := hdepth (-1) rfl
    cases hexec
    exact fallsThrough (fun _ _ => rfl) ⟨rfl, rfl, rfl⟩ rfl
      (by simp only [State.drop, State.write, State.skip]; omega) (State.stackLength_write _ _ _)
  case h_15 =>
    obtain ⟨v, hv, rfl⟩ := map_eq_some_iff.mp hexec
    exact fallsThrough (fun _ _ => rfl) ⟨rfl, rfl, rfl⟩ rfl rfl (State.stackLength_push _ _)
  case h_16 =>
    have hpos := hdepth (-1) rfl
    simp only [vectorRef] at hexec
    split at hexec
    · split at hexec
      · split at hexec
        · cases hexec
        · obtain ⟨x, hx, rfl⟩ := map_eq_some_iff.mp hexec
          exact fallsThrough (fun _ _ => rfl) ⟨rfl, rfl, rfl⟩ rfl
            (by simp only [State.drop, State.setArg, State.write]; omega)
            (State.stackLength_setArg _ _ _)
      · cases hexec
    · cases hexec
  case h_17 =>
    have hpos := hdepth (-3) rfl
    simp only [vectorSet] at hexec
    split at hexec
    · split at hexec
      · split at hexec
        · cases hexec
        · cases hexec
          exact fallsThrough (fun _ _ => rfl) ⟨rfl, rfl, rfl⟩ rfl
            (by simp only [State.drop]; omega) rfl
      · cases hexec
    · cases hexec
  case h_18 =>
    cases hexec
    exact fallsThrough (fun _ _ => rfl) ⟨rfl, rfl, rfl⟩ rfl (by simp [State.setArg, State.write,
      State.skip]) (State.stackLength_setArg _ _ _)
  case h_19 =>
    have hpos := hdepth (-1) rfl
    simp only [makeVectorOp] at hexec
    split at hexec
    · split at hexec
      · cases hexec
      · cases hexec
        exact fallsThrough (fun _ _ => rfl) ⟨rfl, rfl, rfl⟩ rfl
          (by simp only [State.drop, State.setArg, State.write, State.makeVector]; omega)
          (State.stackLength_setArg _ _ _)
    · cases hexec
  case h_20 =>
    obtain ⟨p, hp, rfl⟩ := map_eq_some_iff.mp hexec
    exact fallsThrough (fun _ _ => rfl) ⟨rfl, rfl, rfl⟩ rfl (by simp [State.setArg, State.write])
      (State.stackLength_setArg _ _ _)
  case h_21 =>
    obtain ⟨p, hp, rfl⟩ := map_eq_some_iff.mp hexec
    exact fallsThrough (fun _ _ => rfl) ⟨rfl, rfl, rfl⟩ rfl (by simp [State.setArg, State.write])
      (State.stackLength_setArg _ _ _)
  case h_22 =>
    have hpos := hdepth (-2) rfl
    simp only [setCar] at hexec
    split at hexec
    · split at hexec
      · split at hexec
        · cases hexec
        · cases hexec
          exact fallsThrough (fun _ _ => rfl) ⟨rfl, rfl, rfl⟩ rfl
            (by simp only [State.drop]; omega) rfl
      · cases hexec
    · cases hexec
  case h_23 =>
    have hpos := hdepth (-2) rfl
    simp only [setCdr] at hexec
    split at hexec
    · split at hexec
      · split at hexec
        · cases hexec
        · cases hexec
          exact fallsThrough (fun _ _ => rfl) ⟨rfl, rfl, rfl⟩ rfl
            (by simp only [State.drop]; omega) rfl
      · cases hexec
    · cases hexec
  case h_24 =>
    have hpos := hdepth (-1) rfl
    cases hexec
    exact fallsThrough (fun _ _ => rfl) ⟨rfl, rfl, rfl⟩ rfl
      (by simp only [State.drop, State.setArg, State.write, State.cons]; omega)
      (State.stackLength_setArg _ _ _)

/-! ## The flow through a piece of code -/

/-- The instruction does not jump back. -/
def Instr.Forward (i : Instr) : Prop :=
  ∀ distance, i.op = .jump ∨ i.op = .jumpUnless → i.words = [.num distance] → 0 ≤ distance

/-- A set of points that the paths from the start at depth `d` cannot leave: all of them are at
depth at most `m`, and the end is reached at depth `e` only. -/
structure FlowSet (code : List Instr) (d e m : ℤ) (points : ℕ → ℤ → Prop) : Prop where
  start : points 0 d
  bound : ∀ ip k, points ip k → k ≤ m
  inside : ∀ ip k, points ip k → ip ≤ codeSize code
  exit : ∀ k, points (codeSize code) k → k = e
  closed : ∀ ip k, points ip k → ip < codeSize code →
    ∃ i, fetch code ip = some i ∧ ∀ next ∈ successors i ip k, points next.1 next.2
  forward : ∀ i ∈ code, i.Forward

/-- Every path that enters at depth `d` stays at depth at most `m` and leaves at depth `e`. -/
def FlowOk (code : List Instr) (d e m : ℤ) : Prop :=
  ∃ points, FlowSet code d e m points

theorem fetch_append_left {before after : List Instr} {ip : ℕ} {i : Instr}
    (hfetch : fetch before ip = some i) : fetch (before ++ after) ip = some i := by
  induction before generalizing ip with
  | nil => simp [fetch] at hfetch
  | cons first rest ih =>
    simp only [cons_append, fetch] at hfetch ⊢
    split
    · simp_all
    rename_i hpos
    simp only [hpos, if_false] at hfetch
    split
    · simp_all
    · rename_i hlt
      simp only [hlt, if_false] at hfetch
      exact ih hfetch

theorem fetch_append_right (before after : List Instr) (ip : ℕ) :
    fetch (before ++ after) (codeSize before + ip) = fetch after ip := by
  induction before with
  | nil => simp
  | cons first rest ih =>
    have hpos := first.size_pos
    simp only [cons_append, codeSize_cons, fetch]
    rw [if_neg (by omega), if_neg (by omega)]
    rw [show first.size + codeSize rest + ip - first.size = codeSize rest + ip by omega]
    exact ih

theorem fetch_lt {code : List Instr} {ip : ℕ} {i : Instr} (hfetch : fetch code ip = some i) :
    ip < codeSize code := by
  induction code generalizing ip with
  | nil => simp [fetch] at hfetch
  | cons first rest ih =>
    have hpos := first.size_pos
    simp only [fetch] at hfetch
    rw [codeSize_cons]
    split at hfetch
    · omega
    · split at hfetch
      · cases hfetch
      · have hrest := ih hfetch
        omega

theorem successors_shift (i : Instr) (offset ip : ℕ) (depth : ℤ) {next : ℕ × ℤ}
    (hnext : next ∈ successors i (offset + ip) depth)
    (hforward : i.Forward) :
    ∃ before ∈ successors i ip depth, next = (offset + before.1, before.2) := by
  unfold successors at hnext ⊢
  split at hnext
  · rename_i distance hop hwords
    have hnonneg := hforward distance (Or.inr hop) hwords
    simp only [mem_cons, not_mem_nil, or_false] at hnext
    rcases hnext with rfl | rfl
    · exact ⟨_, mem_cons_self, Prod.ext (by simp only; omega) rfl⟩
    · exact ⟨_, mem_cons_of_mem _ mem_cons_self, Prod.ext (by simp only; omega) rfl⟩
  · rename_i distance hop hwords
    have hnonneg := hforward distance (Or.inl hop) hwords
    rw [mem_singleton] at hnext
    subst hnext
    exact ⟨_, mem_cons_self, Prod.ext (by simp only; omega) rfl⟩
  · cases hchange : topChange i with
    | none =>
      rw [hchange] at hnext
      cases hnext
    | some change =>
      rw [hchange] at hnext
      simp only [mem_singleton] at hnext
      subst hnext
      exact ⟨_, mem_cons_self, Prod.ext (by simp only; omega) rfl⟩

namespace FlowOk

variable {code before after : List Instr} {d e f m : ℤ}

theorem forward (h : FlowOk code d e m) : ∀ i ∈ code, i.Forward := by
  obtain ⟨points, hpoints⟩ := h
  exact hpoints.forward

theorem nil (hd : d ≤ m) : FlowOk [] d d m := by
  refine ⟨fun ip k => ip = 0 ∧ k = d, ⟨⟨rfl, rfl⟩, ?_, ?_, ?_, ?_, by simp⟩⟩
  · rintro ip k ⟨-, rfl⟩
    exact hd
  · rintro ip k ⟨rfl, -⟩
    exact Nat.zero_le _
  · rintro k ⟨-, rfl⟩
    rfl
  · rintro ip k ⟨rfl, -⟩ hlt
    exact absurd hlt (Nat.lt_irrefl 0)

/-- Pieces of code in sequence: the points are those of the first piece before its end and those
of the second one, moved. -/
theorem append (h1 : FlowOk before d e m) (h2 : FlowOk after e f m) :
    FlowOk (before ++ after) d f m := by
  obtain ⟨points1, hp1⟩ := h1
  obtain ⟨points2, hp2⟩ := h2
  let points : ℕ → ℤ → Prop := fun ip k =>
    (ip < codeSize before ∧ points1 ip k) ∨
      (codeSize before ≤ ip ∧ points2 (ip - codeSize before) k)
  have henter : ∀ ip k, points1 ip k → points ip k := by
    intro ip k hk
    by_cases hlt : ip < codeSize before
    · exact Or.inl ⟨hlt, hk⟩
    · have hend : ip = codeSize before := Nat.le_antisymm (hp1.inside ip k hk) (by omega)
      subst hend
      have hdepth := hp1.exit k hk
      subst hdepth
      exact Or.inr ⟨Nat.le_refl _, by simpa using hp2.start⟩
  refine ⟨points, henter 0 d hp1.start, ?_, ?_, ?_, ?_, ?_⟩
  · rintro ip k (⟨-, hk⟩ | ⟨-, hk⟩)
    · exact hp1.bound ip k hk
    · exact hp2.bound _ k hk
  · rintro ip k (⟨hlt, -⟩ | ⟨-, hk⟩)
    · rw [codeSize_append]
      omega
    · have hle := hp2.inside _ k hk
      rw [codeSize_append]
      omega
  · rintro k (⟨hlt, -⟩ | ⟨-, hk⟩)
    · rw [codeSize_append] at hlt
      omega
    · rw [codeSize_append, Nat.add_sub_cancel_left] at hk
      exact hp2.exit k hk
  · rintro ip k (⟨hlt, hk⟩ | ⟨hle, hk⟩) hsize
    · obtain ⟨i, hfetch, hnext⟩ := hp1.closed ip k hk hlt
      exact ⟨i, fetch_append_left hfetch, fun next hmem => henter _ _ (hnext next hmem)⟩
    · rw [codeSize_append] at hsize
      obtain ⟨i, hfetch, hnext⟩ := hp2.closed _ k hk (by omega)
      have hip : ip = codeSize before + (ip - codeSize before) := by omega
      refine ⟨i, ?_, ?_⟩
      · rw [hip, fetch_append_right]
        exact hfetch
      · intro next hmem
        rw [hip] at hmem
        obtain ⟨point, hpoint, rfl⟩ := successors_shift i _ _ k hmem
          (hp2.forward i (fetch_mem hfetch))
        exact Or.inr ⟨Nat.le_add_right _ _, by simpa using hnext point hpoint⟩
  · intro i hi
    rcases mem_append.mp hi with hleft | hright
    · exact hp1.forward i hleft
    · exact hp2.forward i hright

theorem instr {i : Instr} {k : ℤ}
    (hsuccessors : ∀ ip depth, successors i ip depth = [(ip + i.size, depth + k)])
    (hforward : i.Forward) (hd : d ≤ m) (hk : d + k ≤ m) : FlowOk [i] d (d + k) m := by
  have hpos := i.size_pos
  refine ⟨fun ip depth => (ip = 0 ∧ depth = d) ∨ (ip = i.size ∧ depth = d + k),
    Or.inl ⟨rfl, rfl⟩, ?_, ?_, ?_, ?_, by simpa using hforward⟩
  · rintro ip depth (⟨-, rfl⟩ | ⟨-, rfl⟩)
    · exact hd
    · exact hk
  · rintro ip depth (⟨rfl, -⟩ | ⟨rfl, -⟩)
    · exact Nat.zero_le _
    · simp
  · rintro depth (⟨hzero, -⟩ | ⟨-, rfl⟩)
    · simp only [codeSize_cons, codeSize_nil] at hzero
      omega
    · rfl
  · rintro ip depth (⟨rfl, rfl⟩ | ⟨rfl, rfl⟩) hsize
    · refine ⟨i, by simp [fetch], ?_⟩
      intro next hnext
      rw [hsuccessors, mem_singleton] at hnext
      subst hnext
      exact Or.inr ⟨Nat.zero_add _, rfl⟩
    · simp at hsize

theorem leaves {i : Instr} (hsuccessors : ∀ ip depth, successors i ip depth = [])
    (hforward : i.Forward) (hd : d ≤ m) : FlowOk [i] d e m := by
  have hpos := i.size_pos
  refine ⟨fun ip depth => ip = 0 ∧ depth = d, ⟨rfl, rfl⟩, ?_, ?_, ?_, ?_, by simpa using hforward⟩
  · rintro ip depth ⟨-, rfl⟩
    exact hd
  · rintro ip depth ⟨rfl, -⟩
    exact Nat.zero_le _
  · rintro depth ⟨hzero, -⟩
    simp only [codeSize_cons, codeSize_nil] at hzero
    omega
  · rintro ip depth ⟨rfl, -⟩ -
    refine ⟨i, by simp [fetch], ?_⟩
    intro next hnext
    rw [hsuccessors] at hnext
    cases hnext

theorem cons {i : Instr} {k : ℤ} {rest : List Instr} (h : FlowOk rest (d + k) e m)
    (hsuccessors : ∀ ip depth, successors i ip depth = [(ip + i.size, depth + k)])
    (hforward : i.Forward) (hd : d ≤ m) : FlowOk (i :: rest) d e m := by
  have hk : d + k ≤ m := by
    obtain ⟨points, hpoints⟩ := h
    exact hpoints.bound 0 _ hpoints.start
  exact (FlowOk.instr hsuccessors hforward hd hk).append h

/-- The code of a conditional after its test: both branches start below the value of the test and
end at the same depth. -/
theorem conditional {pass fail : List Instr} (hpass : FlowOk pass d e m)
    (hfail : FlowOk fail d e m) (hd : d + 1 ≤ m) :
    FlowOk (⟨.jumpUnless, [.num (codeSize pass + 17 : ℕ)]⟩ ::
      (pass ++ ⟨.jump, [.num (codeSize fail + 8 : ℕ)]⟩ :: fail)) (d + 1) e m := by
  have hforwardPass := hpass.forward
  have hforwardFail := hfail.forward
  obtain ⟨points1, hp1⟩ := hpass
  obtain ⟨points2, hp2⟩ := hfail
  let total := codeSize pass + codeSize fail + 18
  -- the test, the pass branch with the jump that ends it, the fail branch, the end
  let points : ℕ → ℤ → Prop := fun ip k =>
    (ip = 0 ∧ k = d + 1) ∨ (9 ≤ ip ∧ ip ≤ codeSize pass + 9 ∧ points1 (ip - 9) k) ∨
      (codeSize pass + 18 ≤ ip ∧ points2 (ip - (codeSize pass + 18)) k) ∨
      (ip = total ∧ k = e ∧ k ≤ m)
  have hsize : codeSize (⟨.jumpUnless, [.num (codeSize pass + 17 : ℕ)]⟩ ::
      (pass ++ ⟨.jump, [.num (codeSize fail + 8 : ℕ)]⟩ :: fail)) = total := by
    simp only [codeSize_cons, codeSize_append, Instr.size, length_cons, length_nil, total]
    omega
  refine ⟨points, Or.inl ⟨rfl, rfl⟩, ?_, ?_, ?_, ?_, ?_⟩
  · rintro ip k (⟨-, rfl⟩ | ⟨-, -, hk⟩ | ⟨-, hk⟩ | ⟨-, -, hk⟩)
    · exact hd
    · exact hp1.bound _ k hk
    · exact hp2.bound _ k hk
    · exact hk
  · rintro ip k (⟨rfl, -⟩ | ⟨-, hle, -⟩ | ⟨hle, hk⟩ | ⟨rfl, -, -⟩)
    · exact Nat.zero_le _
    · rw [hsize]
      simp only [total]
      omega
    · have hin := hp2.inside _ k hk
      rw [hsize]
      simp only [total]
      omega
    · exact Nat.le_of_eq hsize.symm
  · rw [hsize]
    rintro k (⟨hzero, -⟩ | ⟨-, hle, -⟩ | ⟨hle, hk⟩ | ⟨-, hk, -⟩)
    · simp only [total] at hzero
      omega
    · simp only [total] at hle
      omega
    · rw [show total - (codeSize pass + 18) = codeSize fail by simp only [total]; omega] at hk
      exact hp2.exit k hk
    · exact hk
  · rw [hsize]
    rintro ip k (⟨rfl, rfl⟩ | ⟨hge, hle, hk⟩ | ⟨hge, hk⟩ | ⟨rfl, -, -⟩) hlt
    · -- the jump over the pass branch, or into it
      refine ⟨_, rfl, ?_⟩
      intro next hnext
      simp only [successors, Instr.size, mem_cons, not_mem_nil, or_false,
        length_cons, length_nil] at hnext
      rcases hnext with rfl | rfl
      · refine Or.inr (Or.inr (Or.inl ⟨?_, ?_⟩))
        · simp only
          omega
        · rw [show ((((0 : ℕ) : ℤ) + 1 + ((codeSize pass + 17 : ℕ) : ℤ)).toNat -
            (codeSize pass + 18)) = 0 by omega]
          simpa using hp2.start
      · exact Or.inr (Or.inl ⟨by simp, by simp, by simpa using hp1.start⟩)
    · by_cases hend : ip = codeSize pass + 9
      · -- the jump at the end of the pass branch
        subst hend
        have hk' : points1 (codeSize pass) k := by simpa using hk
        have hdepth := hp1.exit k hk'
        have hbound := hp1.bound _ k hk'
        refine ⟨⟨.jump, [.num (codeSize fail + 8 : ℕ)]⟩, ?_, ?_⟩
        · have hfetch := fetch_append
            (⟨.jumpUnless, [.num (codeSize pass + 17 : ℕ)]⟩ :: pass)
            ⟨.jump, [.num (codeSize fail + 8 : ℕ)]⟩ fail
          rw [codeSize_cons, show Instr.size ⟨.jumpUnless, [.num (codeSize pass + 17 : ℕ)]⟩ = 9
            from rfl, Nat.add_comm 9] at hfetch
          exact hfetch
        · intro next hnext
          simp only [successors, mem_cons, not_mem_nil, or_false] at hnext
          subst hnext
          refine Or.inr (Or.inr (Or.inr ⟨?_, hdepth, hbound⟩))
          simp only [total]
          omega
      · obtain ⟨i, hfetch, hnext⟩ := hp1.closed _ k hk (by omega)
        have hip : ip = 9 + (ip - 9) := by omega
        refine ⟨i, ?_, ?_⟩
        · have hmoved := fetch_append_right [⟨.jumpUnless, [.num (codeSize pass + 17 : ℕ)]⟩]
            (pass ++ ⟨.jump, [.num (codeSize fail + 8 : ℕ)]⟩ :: fail) (ip - 9)
          rw [fetch_append_left hfetch] at hmoved
          rw [hip]
          exact hmoved
        · intro next hmem
          rw [hip] at hmem
          obtain ⟨point, hpoint, rfl⟩ := successors_shift i _ _ k hmem
            (hforwardPass i (fetch_mem hfetch))
          have hin := hp1.inside _ _ (hnext point hpoint)
          refine Or.inr (Or.inl ⟨by simp, by simp only; omega, ?_⟩)
          simpa using hnext point hpoint
    · obtain ⟨i, hfetch, hnext⟩ := hp2.closed _ k hk (by simp only [total] at hlt; omega)
      have hip : ip = codeSize pass + 18 + (ip - (codeSize pass + 18)) := by omega
      refine ⟨i, ?_, ?_⟩
      · have hmoved := fetch_append_right (⟨.jumpUnless, [.num (codeSize pass + 17 : ℕ)]⟩ ::
          (pass ++ [⟨.jump, [.num (codeSize fail + 8 : ℕ)]⟩])) fail (ip - (codeSize pass + 18))
        rw [hfetch] at hmoved
        rw [← hmoved]
        congr 1
        · simp
        · simp only [codeSize_cons, codeSize_append, codeSize_nil, Instr.size, length_cons,
            length_nil]
          omega
      · intro next hmem
        rw [hip] at hmem
        obtain ⟨point, hpoint, rfl⟩ := successors_shift i _ _ k hmem
          (hforwardFail i (fetch_mem hfetch))
        exact Or.inr (Or.inr (Or.inl ⟨Nat.le_add_right _ _, by simpa using hnext point hpoint⟩))
    · exact absurd hlt (Nat.lt_irrefl _)
  · intro i hi
    simp only [mem_cons, mem_append] at hi
    rcases hi with rfl | hpass | rfl | hfail
    · intro distance _ hwords
      cases hwords
      exact Int.natCast_nonneg _
    · exact hforwardPass i hpass
    · intro distance _ hwords
      cases hwords
      exact Int.natCast_nonneg _
    · exact hforwardFail i hfail

theorem reach (h : FlowOk code d e m) {ip : ℕ} {k : ℤ}
    (hreach : DepthReach code (0, d) (ip, k)) : k ≤ m ∧ (ip = codeSize code → k = e) := by
  obtain ⟨points, hpoints⟩ := h
  have hall : ∀ point, DepthReach code (0, d) point → points point.1 point.2 := by
    intro point hpath
    induction hpath with
    | refl => exact hpoints.start
    | tail _ hstep ih =>
      obtain ⟨i, hfetch, hnext⟩ := hstep
      obtain ⟨j, hfetch', hclosed⟩ := hpoints.closed _ _ ih (fetch_lt hfetch)
      cases hfetch.symm.trans hfetch'
      exact hclosed _ hnext
  have hpoint := hall (ip, k) hreach
  refine ⟨hpoints.bound ip k hpoint, ?_⟩
  rintro rfl
  exact hpoints.exit k hpoint

end FlowOk

end ChibiScheme.Vm
