import Mathlib.Data.Nat.Size
import Mathlib.Tactic.Ring

set_option autoImplicit false

/-! # Bit lengths of integers

How the bit length of a result is bounded by the bit lengths of the operands. -/

namespace AgenticExecution

/-- The number of binary digits of an integer, the sign aside. -/
def bitLength (n : Int) : Nat := n.natAbs.size

theorem bitLength_le {n : Int} {k : Nat} : bitLength n ≤ k ↔ n.natAbs < 2 ^ k := Nat.size_le

theorem natAbs_lt_bitLength (n : Int) : n.natAbs < 2 ^ bitLength n := bitLength_le.1 le_rfl

theorem bitLength_mono {m n : Int} (h : m.natAbs ≤ n.natAbs) : bitLength m ≤ bitLength n :=
  bitLength_le.2 (h.trans_lt (natAbs_lt_bitLength n))

@[simp] theorem bitLength_neg (n : Int) : bitLength (-n) = bitLength n := by
  unfold bitLength
  rw [Int.natAbs_neg]

@[simp] theorem bitLength_natAbs (n : Int) : bitLength n.natAbs = bitLength n := rfl

@[simp] theorem bitLength_two_pow (k : Nat) : bitLength (2 ^ k) = k + 1 := by
  unfold bitLength
  rw [Int.natAbs_pow]
  exact Nat.size_pow

/-- What stays below the product of the successors fits into the digits of both. -/
theorem bitLength_le_add {n a b : Int} (h : n.natAbs < (a.natAbs + 1) * (b.natAbs + 1)) :
    bitLength n ≤ bitLength a + bitLength b := by
  rw [bitLength_le, pow_add]
  exact h.trans_le (Nat.mul_le_mul (natAbs_lt_bitLength a) (natAbs_lt_bitLength b))

theorem bitLength_add_le (a b : Int) : bitLength (a + b) ≤ bitLength a + bitLength b := by
  refine bitLength_le_add ?_
  calc (a + b).natAbs ≤ a.natAbs + b.natAbs := Int.natAbs_add_le a b
    _ < a.natAbs * b.natAbs + a.natAbs + b.natAbs + 1 := by omega
    _ = (a.natAbs + 1) * (b.natAbs + 1) := by ring

theorem bitLength_sub_le (a b : Int) : bitLength (a - b) ≤ bitLength a + bitLength b := by
  rw [sub_eq_add_neg, ← bitLength_neg b]
  exact bitLength_add_le a (-b)

theorem bitLength_mul_le (a b : Int) : bitLength (a * b) ≤ bitLength a + bitLength b := by
  refine bitLength_le_add ?_
  rw [Int.natAbs_mul]
  exact Nat.mul_lt_mul'' (Nat.lt_succ_self _) (Nat.lt_succ_self _)

theorem bitLength_fdiv_le (a b : Int) : bitLength (a.fdiv b) ≤ bitLength a :=
  bitLength_mono (Int.natAbs_fdiv_le_natAbs a b)

theorem natAbs_fmod_le (a : Int) {b : Int} (hb : b ≠ 0) : (a.fmod b).natAbs ≤ b.natAbs := by
  obtain hneg | hpos := lt_or_gt_of_ne hb
  · have hlow := Int.fmod_nonneg_of_pos (-a) (Int.neg_pos_of_neg hneg)
    have hhigh := Int.fmod_lt_of_pos (-a) (Int.neg_pos_of_neg hneg)
    rw [Int.neg_fmod_neg] at hlow hhigh
    omega
  · have hlow := Int.fmod_nonneg_of_pos a hpos
    have hhigh := Int.fmod_lt_of_pos a hpos
    omega

theorem bitLength_fmod_le (a : Int) {b : Int} (hb : b ≠ 0) : bitLength (a.fmod b) ≤ bitLength b :=
  bitLength_mono (natAbs_fmod_le a hb)

/-- The one more digit is for the exponent `0`. -/
theorem bitLength_pow_le (a : Int) (k : Nat) : bitLength (a ^ k) ≤ k * bitLength a + 1 := by
  rw [bitLength_le, Int.natAbs_pow, pow_succ, mul_comm k, pow_mul]
  have hbase : a.natAbs ^ k ≤ (2 ^ bitLength a) ^ k :=
    Nat.pow_le_pow_left (natAbs_lt_bitLength a).le k
  have hpos : 0 < (2 ^ bitLength a) ^ k := Nat.pow_pos (Nat.two_pow_pos _)
  omega

end AgenticExecution
