import ChibiScheme.Vm.Machine

/-!
# The room that `sexp_ensure_stack` makes

The check compares the slots in use and those to come with the length of the stack, but the stack
is grown for the slots to come alone.
-/

namespace ChibiScheme.Vm

open Function

/-- `SEXP_MAX_STACK_SIZE` -/
def sexpMaxStackSize : ℕ := 1024 * 1000

/-- What is left after the check: room for `n` values above the top, and the values below it. -/
structure Ensured (s : State) (n : ℕ) (t : State) : Prop where
  top : t.top = s.top
  room : t.top + n < t.stackLength
  contents : ∀ i < s.top,
    (t.stackObjs t.contextStack).data i = (s.stackObjs s.contextStack).data i

/-- The values fit into the stack, or into one of twice its length within the maximum, or the
stack cannot grow any more. -/
def RoomSafe (s : State) (n : ℕ) : Prop :=
  s.top + n < s.stackLength ∨ s.stackLength = sexpMaxStackSize ∨
    s.top + n < 2 * s.stackLength ∧ s.top + n < sexpMaxStackSize

/-- A stack that has reached its maximum is not grown; `n` plays a part only where it is more than
twice the old length. -/
theorem grownSize_eq (size n : ℕ) : grownSize (some sexpMaxStackSize) size n =
    if size = sexpMaxStackSize then none else some (min (max (2 * size) n) sexpMaxStackSize) := by
  unfold grownSize sexpMaxStackSize
  simp only
  split_ifs
  all_goals
    first
    | rfl
    | omega
    | exact congrArg some (by omega)

/-- What the check leaves has the room if and only if twice the length is enough for it. -/
theorem ensureStack_iff (s : State) (n : ℕ) :
    (∀ t, ensureStack (some sexpMaxStackSize) s n = some t → Ensured s n t) ↔ RoomSafe s n := by
  unfold ensureStack RoomSafe
  by_cases hroom : s.top + n < s.stackLength
  · rw [if_neg (Nat.not_le.mpr hroom)]
    refine iff_of_true (fun t heq => ?_) (.inl hroom)
    cases heq
    exact ⟨rfl, hroom, fun i hi => rfl⟩
  · rw [if_pos (Nat.not_lt.mp hroom), or_iff_right hroom]
    have hlength : ({ s with contextTop := s.top } : State).stackLength = s.stackLength := rfl
    rw [growStack, hlength, grownSize_eq]
    by_cases hmax : s.stackLength = sexpMaxStackSize
    · rw [if_pos hmax]
      exact iff_of_true (fun t heq => by cases heq) (.inl hmax)
    · rw [if_neg hmax, or_iff_right hmax]
      simp only [Option.some.injEq, forall_eq']
      constructor
      · rintro ⟨-, hlt, -⟩
        simp only [State.stackLength, update_self] at hlt hroom ⊢
        omega
      · intro hlt
        refine ⟨rfl, ?_, fun i hi => ?_⟩
        · simp only [State.stackLength, update_self] at hlt ⊢
          omega
        · simp only [update_self]
          rw [if_pos (by omega)]

/-- A machine with a stack of 1024 slots. -/
def smallStack : State :=
  ⟨[], [], fun _ => none, 0, fun _ => ⟨1024, fun _ => .imm .void⟩, 1, 0, 0, 0, 100, 0, 0,
    ⟨false, false, 0, 0, none⟩, []⟩

/-- `apply` with a list of 2936 arguments makes a stack of 3000 slots. -/
theorem ensureStack_apply :
    ¬ ∀ t, ensureStack (some sexpMaxStackSize) smallStack (2936 + 64) = some t →
      Ensured smallStack (2936 + 64) t := by
  intro hall
  obtain ⟨t, hrun, htop, hlength⟩ : ∃ t,
      ensureStack (some sexpMaxStackSize) smallStack (2936 + 64) = some t ∧
        t.top = 100 ∧ t.stackLength = 3000 := ⟨_, rfl, rfl, rfl⟩
  have hlt := (hall t hrun).room
  omega

end ChibiScheme.Vm
