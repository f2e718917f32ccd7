import Mathlib.Data.List.Basic

/-!
# Block-wise iteration

A message is cut into blocks of one size, and a function takes the blocks into a state one after the
other.
-/

namespace Blocks

open List

variable {A H : Type*} (size : ℕ) (compress : List A → H → H)

/-- The first `count` blocks of a message. -/
def iterate : ℕ → List A → H → H
  | 0, _, h => h
  | count + 1, l, h => iterate count (l.drop size) (compress (l.take size) h)

variable {size compress}

theorem iterate_add (m n : ℕ) (l : List A) (h : H) :
    iterate size compress (m + n) l h =
      iterate size compress n (l.drop (size * m)) (iterate size compress m l h) := by
  induction m generalizing l h with
  | zero => rw [Nat.zero_add, Nat.mul_zero, drop_zero, iterate]
  | succ m ih =>
    rw [Nat.add_right_comm, iterate, iterate, ih, drop_drop, Nat.mul_succ, Nat.add_comm size]

theorem iterate_one (l : List A) (h : H) :
    iterate size compress 1 l h = compress (l.take size) h := rfl

theorem iterate_congr {count : ℕ} {l l' : List A} (h : H)
    (heq : l.take (size * count) = l'.take (size * count)) :
    iterate size compress count l h = iterate size compress count l' h := by
  induction count generalizing l l' h with
  | zero => rfl
  | succ count ih =>
    have hle : size ≤ size * (count + 1) := Nat.le_mul_of_pos_right size (Nat.succ_pos count)
    have hfirst : l.take size = l'.take size := by
      have htake := congrArg (List.take size) heq
      rwa [take_take, take_take, Nat.min_eq_left hle] at htake
    have hrest : (l.drop size).take (size * count) = (l'.drop size).take (size * count) := by
      have hdrop := congrArg (List.drop size) heq
      rwa [drop_take, drop_take, Nat.mul_succ, Nat.add_sub_cancel] at hdrop
    rw [iterate, iterate, hfirst, ih _ hrest]

/-- A hash that only keeps its blocks. -/
def record (block : List A) (blocks : List (List A)) : List (List A) :=
  blocks ++ [block]

theorem flatten_iterate_record (count : ℕ) (l : List A) (blocks : List (List A)) :
    (iterate size record count l blocks).flatten = blocks.flatten ++ l.take (size * count) := by
  induction count generalizing l blocks with
  | zero => rw [iterate, Nat.mul_zero, take_zero, append_nil]
  | succ count ih =>
    have htake : l.take (size * (count + 1)) =
        l.take size ++ (l.drop size).take (size * count) := by
      rw [Nat.mul_succ, Nat.add_comm, take_add]
    rw [iterate, ih, record, flatten_append, flatten_singleton, htake, append_assoc]

theorem foldl_iterate_record (count : ℕ) (l : List A) (blocks : List (List A)) (h : H) :
    (iterate size record count l blocks).foldl (fun h block => compress block h) h =
      iterate size compress count l (blocks.foldl (fun h block => compress block h) h) := by
  induction count generalizing l blocks with
  | zero => rfl
  | succ count ih =>
    rw [iterate, ih, record, foldl_append, iterate]
    rfl

end Blocks
