import Mathlib.Data.Nat.BitIndices
import Mathlib.Data.Nat.Bitwise
import Mathlib.Data.List.Perm.Subperm
import Mathlib.Data.Nat.Size

/-!
# The lowest bit

The bitwise conjunction of a number with its predecessor clears the lowest bit.
-/

namespace Bits

theorem bit_true_land_pred (m : ℕ) : Nat.bit true m &&& (Nat.bit true m - 1) = Nat.bit false m := by
  have hpred : Nat.bit true m - 1 = Nat.bit false m := by
    simp only [Nat.bit_true, Nat.bit_false]
    omega
  rw [hpred, Nat.land_bit, Nat.and_self]
  rfl

theorem bit_false_land_pred {m : ℕ} (hm : m ≠ 0) :
    Nat.bit false m &&& (Nat.bit false m - 1) = Nat.bit false (m &&& (m - 1)) := by
  have hpred : Nat.bit false m - 1 = Nat.bit true (m - 1) := by
    simp only [Nat.bit_true, Nat.bit_false]
    omega
  rw [hpred, Nat.land_bit]
  rfl

theorem bitIndices_eq_cons {n : ℕ} (hn : n ≠ 0) :
    ∃ k, n.bitIndices = k :: (n &&& (n - 1)).bitIndices ∧ n - (n &&& (n - 1)) = 2 ^ k := by
  induction n using Nat.binaryRec with
  | zero => exact absurd rfl hn
  | bit b m ih =>
    cases b with
    | true =>
      refine ⟨0, ?_, ?_⟩
      · rw [bit_true_land_pred, Nat.bitIndices_bit_true, Nat.bitIndices_bit_false]
      · rw [bit_true_land_pred]
        simp only [Nat.bit_true, Nat.bit_false]
        omega
    | false =>
      have hm : m ≠ 0 := fun h => hn (by rw [h]; rfl)
      obtain ⟨k, hindices, hsub⟩ := ih hm
      refine ⟨k + 1, ?_, ?_⟩
      · rw [bit_false_land_pred hm, Nat.bitIndices_bit_false, Nat.bitIndices_bit_false, hindices,
          List.map_cons]
      · rw [bit_false_land_pred hm]
        simp only [Nat.bit_false]
        rw [pow_succ, ← hsub]
        omega

theorem length_bitIndices_le_size (n : ℕ) : n.bitIndices.length ≤ n.size := by
  have hnodup : n.bitIndices.Nodup := Nat.bitIndices_nodup
  have hsub : n.bitIndices ⊆ List.range n.size := by
    intro i hi
    rw [List.mem_range, Nat.lt_size]
    exact Nat.two_pow_le_of_mem_bitIndices hi
  have hle := (hnodup.subperm hsub).length_le
  rwa [List.length_range] at hle

end Bits
