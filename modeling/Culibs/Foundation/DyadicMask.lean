import Culibs.Foundation.DyadicBlock
import Mathlib.Data.Nat.Bitwise

/-! The mask arithmetic on machine words that addresses dyadic blocks. All
facts hold for every word width `w` and are stated with the unsigned values. -/

namespace Culibs.DyadicBlock

open BitVec
open Nat (mul_comm two_pow_pos)

variable {w : Nat}

/-- The bits of `k` from its lowest set bit downwards, all ones for zero. -/
def lowMask (k : BitVec w) : BitVec w := k ^^^ (k - 1)

private theorem xor_pred (t m : Nat) :
    (2 ^ t * (2 * m + 1)) ^^^ (2 ^ t * (2 * m + 1) - 1) = 2 ^ (t + 1) - 1 := by
  induction t with
  | zero =>
    have halves : (2 * m + 1 ^^^ 2 * m) / 2 = 0 := by
      rw [Nat.xor_div_two, show (2 * m + 1) / 2 = m by omega, show 2 * m / 2 = m by omega, Nat.xor_self]
    have parity : (2 * m + 1 ^^^ 2 * m) % 2 = 1 := by
      rw [Nat.xor_mod_two_eq_one]; omega
    simp only [pow_zero, one_mul, Nat.add_sub_cancel]
    omega
  | succ t ih =>
    have pos : 0 < 2 ^ t * (2 * m + 1) := mul_pos (two_pow_pos t) (by omega)
    have double : 2 ^ (t + 1) * (2 * m + 1) = 2 * (2 ^ t * (2 * m + 1)) := by ring
    rw [double]
    generalize 2 ^ t * (2 * m + 1) = k at ih pos
    have halves : (2 * k ^^^ (2 * k - 1)) / 2 = k ^^^ (k - 1) := by
      rw [Nat.xor_div_two]
      congr 1 <;> omega
    have parity : (2 * k ^^^ (2 * k - 1)) % 2 = 1 := by
      rw [Nat.xor_mod_two_eq_one]; omega
    have := two_pow_pos t
    omega

theorem toNat_lowMask (k : BitVec w) (nonzero : k ≠ 0) :
    ∃ t m, t < w ∧ k.toNat = 2 ^ t * (2 * m + 1) ∧ rad w k.toNat = 2 ^ t ∧
      (lowMask k).toNat = 2 ^ (t + 1) - 1 := by
  have pos : 0 < k.toNat := by
    rcases eq_zero_or_pos k.toNat with zero | pos
    · exact absurd (eq_of_toNat_eq (by simpa using zero)) nonzero
    · exact pos
  obtain ⟨t, m, bound, multiple, radius⟩ := odd_multiple pos k.isLt
  refine ⟨t, m, bound, multiple, radius, ?_⟩
  have wide : 1 < 2 ^ w := Nat.one_lt_two_pow (by omega)
  have pred : (k - 1).toNat = k.toNat - 1 := by
    have one : (1 : BitVec w).toNat = 1 := by simp [Nat.mod_eq_of_lt wide]
    rw [toNat_sub_of_le (by rw [le_def, one]; exact pos), one]
  rw [lowMask, toNat_xor, pred, multiple, xor_pred]

@[simp] theorem lowMask_zero : lowMask 0#w = BitVec.allOnes w := by
  simp [lowMask, neg_one_eq_allOnes]

/-- Clearing a low mask compares the quotients by the size of the mask. -/
theorem and_not_mask_eq_iff (a b m : BitVec w) (mask : m.toNat = 2 ^ s - 1) :
    a &&& ~~~m = b &&& ~~~m ↔ a.toNat / 2 ^ s = b.toNat / 2 ^ s := by
  have bit (i : Nat) : m.getLsbD i = decide (i < s) := by
    rw [← testBit_toNat, mask, Nat.testBit_two_pow_sub_one]
  constructor
  · intro same
    apply Nat.eq_of_testBit_eq
    intro i
    have at_i := congrArg (fun x : BitVec w => x.getLsbD (i + s)) same
    rw [Nat.testBit_div_two_pow, Nat.testBit_div_two_pow, testBit_toNat, testBit_toNat]
    by_cases inside : i + s < w
    · simpa only [getLsbD_and, getLsbD_not, bit, inside, decide_true,
        Nat.not_lt_of_le (Nat.le_add_left s i), decide_false, Bool.not_false, Bool.and_true]
        using at_i
    · rw [getLsbD_of_ge _ _ (by omega), getLsbD_of_ge _ _ (by omega)]
  · intro same
    apply eq_of_getLsbD_eq
    intro i inside
    simp only [getLsbD_and, getLsbD_not, bit]
    by_cases low : i < s
    · simp [low]
    · have at_i := congrArg (fun x : Nat => x.testBit (i - s)) same
      simp only [Nat.testBit_div_two_pow, testBit_toNat] at at_i
      rw [Nat.sub_add_cancel (by omega)] at at_i
      rw [at_i]

theorem toNat_and_mask (a m : BitVec w) (mask : m.toNat = 2 ^ s - 1) :
    (a &&& m).toNat = a.toNat % 2 ^ s := by
  rw [toNat_and, mask, Nat.and_two_pow_sub_one_eq_mod]

theorem toNat_and_not_mask (a m : BitVec w) (mask : m.toNat = 2 ^ s - 1) :
    (a &&& ~~~m).toNat = 2 ^ s * (a.toNat / 2 ^ s) := by
  apply Nat.eq_of_testBit_eq
  intro i
  have bit : m.getLsbD i = decide (i < s) := by
    rw [← testBit_toNat, mask, Nat.testBit_two_pow_sub_one]
  rw [testBit_toNat, Nat.testBit_two_pow_mul, Nat.testBit_div_two_pow, testBit_toNat, getLsbD_and, getLsbD_not, bit]
  by_cases low : i < s
  · simp [low]
  · have cancel : i - s + s = i := Nat.sub_add_cancel (by omega)
    by_cases inside : i < w
    · simp [low, Nat.le_of_not_lt low, cancel, inside]
    · simp [Nat.le_of_not_lt low, cancel, getLsbD_of_ge _ _ (Nat.le_of_not_lt inside)]

private theorem div_eq_iff_block :
    (2 ^ t * (2 * m + 1)) / 2 ^ (t + 1) = a / 2 ^ (t + 1) ↔
      2 ^ (t + 1) * m ≤ a ∧ a < 2 ^ (t + 1) * (m + 1) := by
  have quotient : (2 ^ t * (2 * m + 1)) / 2 ^ (t + 1) = m := by
    rw [Nat.pow_succ, ← Nat.div_div_eq_div_mul, Nat.mul_div_cancel_left _ (Nat.two_pow_pos t)]
    omega
  rw [quotient, eq_comm, Nat.div_eq_iff (Nat.two_pow_pos _), Nat.mul_comm m,
    show 2 ^ (t + 1) * (m + 1) = 2 ^ (t + 1) * m + 2 ^ (t + 1) by ring]
  have := two_pow_pos (t + 1)
  omega

theorem same_block_iff (k a : BitVec w) :
    k &&& ~~~(lowMask k) = a &&& ~~~(lowMask k) ↔ lo w k.toNat ≤ a.toNat ∧ a.toNat < hi w k.toNat := by
  by_cases zero : k = 0
  · subst zero
    simp [a.isLt]
  · obtain ⟨t, m, bound, multiple, _, mask⟩ := toNat_lowMask k zero
    rw [and_not_mask_eq_iff _ _ _ mask, multiple, div_eq_iff_block, (block_of_first_bits bound).1,
      (block_of_first_bits bound).2]

theorem under_mask_eq_zero_iff (k a : BitVec w) (start : lo w k.toNat ≤ a.toNat)
    (stop : a.toNat < hi w k.toNat) : a &&& lowMask k = 0 ↔ a.toNat = lo w k.toNat := by
  by_cases zero : k = 0
  · subst zero
    simp [toNat_eq]
  obtain ⟨t, m, bound, multiple, _, mask⟩ := toNat_lowMask k zero
  rw [multiple, (block_of_first_bits bound).1] at start
  rw [multiple, (block_of_first_bits bound).2] at stop
  rw [multiple, (block_of_first_bits bound).1, toNat_eq, toNat_and_mask _ _ mask]
  have quotient : a.toNat / 2 ^ (t + 1) = m :=
    (Nat.div_eq_iff (Nat.two_pow_pos _)).mpr (by
      rw [Nat.mul_comm m]
      rw [show 2 ^ (t + 1) * (m + 1) = 2 ^ (t + 1) * m + 2 ^ (t + 1) by ring] at stop
      omega)
  have division := Nat.div_add_mod a.toNat (2 ^ (t + 1))
  rw [quotient] at division
  simp only [ofNat_eq_ofNat, toNat_ofNat, Nat.zero_mod]
  omega

theorem toNat_or_mask (a m : BitVec w) (mask : m.toNat = 2 ^ s - 1) :
    (a ||| m).toNat = 2 ^ s * (a.toNat / 2 ^ s) + (2 ^ s - 1) := by
  have split : a ||| m = (a &&& ~~~m) ||| m := by
    apply eq_of_getLsbD_eq
    intro i inside
    simp only [getLsbD_or, getLsbD_and, getLsbD_not, inside]
    cases a.getLsbD i <;> simp
  rw [split, toNat_or, toNat_and_not_mask _ _ mask, mask,
    ← Nat.two_pow_add_eq_or_of_lt (Nat.sub_lt (two_pow_pos _) (by omega))]

theorem toNat_block_start (k : BitVec w) (nonzero : k ≠ 0) :
    (k &&& ~~~(lowMask k)).toNat = lo w k.toNat := by
  obtain ⟨t, m, bound, multiple, _, mask⟩ := toNat_lowMask k nonzero
  rw [toNat_and_not_mask _ _ mask, multiple, (block_of_first_bits bound).1]
  congr 1
  rw [Nat.pow_succ, ← Nat.div_div_eq_div_mul, Nat.mul_div_cancel_left _ (two_pow_pos t)]
  omega

theorem toNat_block_end (k : BitVec w) : (k ||| lowMask k).toNat = hi w k.toNat - 1 := by
  by_cases zero : k = 0
  · subst zero
    simp
  obtain ⟨t, m, bound, multiple, _, mask⟩ := toNat_lowMask k zero
  have quotient : (2 ^ t * (2 * m + 1)) / 2 ^ (t + 1) = m := by
    rw [Nat.pow_succ, ← Nat.div_div_eq_div_mul, Nat.mul_div_cancel_left _ (two_pow_pos t)]
    omega
  rw [toNat_or_mask _ _ mask, multiple, (block_of_first_bits bound).2, quotient, Nat.mul_add, mul_one]
  have := two_pow_pos (t + 1)
  omega

theorem toNat_or_pred (k : BitVec w) : (k ||| (k - 1)).toNat = hi w k.toNat - 1 := by
  rw [← toNat_block_end]
  congr 1
  apply eq_of_getLsbD_eq
  intro i _
  simp only [lowMask, getLsbD_or, getLsbD_xor]
  cases k.getLsbD i <;> simp

theorem first_difference (less : a < b) :
    ∃ q, a / 2 ^ ((a ^^^ b).log2 + 1) = q ∧ b / 2 ^ ((a ^^^ b).log2 + 1) = q ∧
      2 ^ ((a ^^^ b).log2 + 1) * q ≤ a ∧ a < 2 ^ (a ^^^ b).log2 * (2 * q + 1) ∧
      2 ^ (a ^^^ b).log2 * (2 * q + 1) ≤ b ∧ b < 2 ^ ((a ^^^ b).log2 + 1) * (q + 1) := by
  have nonzero : a ^^^ b ≠ 0 := by
    intro zero
    have := Nat.xor_eq_zero_iff.mp zero
    omega
  have upper : (a ^^^ b) / 2 ^ ((a ^^^ b).log2 + 1) = 0 := Nat.div_eq_of_lt Nat.lt_log2_self
  have lower : (a ^^^ b) / 2 ^ (a ^^^ b).log2 ≠ 0 := by
    have := Nat.div_pos (Nat.log2_self_le nonzero) (two_pow_pos _)
    omega
  generalize (a ^^^ b).log2 = n at *
  rw [Nat.xor_div_two_pow, Nat.xor_eq_zero_iff] at upper
  rw [Nat.xor_div_two_pow, Ne, Nat.xor_eq_zero_iff] at lower
  have order := Nat.div_le_div_right (c := 2 ^ n) (le_of_lt less)
  have half (x : Nat) : x / 2 ^ (n + 1) = x / 2 ^ n / 2 := by
    rw [pow_succ, Nat.div_div_eq_div_mul]
  have same : a / 2 ^ n / 2 = b / 2 ^ n / 2 := by rw [← half, ← half, upper]
  refine ⟨a / 2 ^ (n + 1), rfl, upper.symm, Nat.mul_div_le _ _, ?_, ?_, ?_⟩
  · rw [mul_comm, ← Nat.div_lt_iff_lt_mul (two_pow_pos n), half]
    omega
  · rw [mul_comm, ← Nat.le_div_iff_mul_le (two_pow_pos n), half]
    omega
  · rw [upper, mul_comm, ← Nat.div_lt_iff_lt_mul (two_pow_pos _)]
    omega

theorem toNat_centre (a d : BitVec w) (bit : n < w) (mask : d.toNat = 2 ^ (n + 1) - 1) :
    ((a &&& ~~~d) ||| ((d >>> 1) + 1)).toNat = 2 ^ n * (2 * (a.toNat / 2 ^ (n + 1)) + 1) ∧
      ((a &&& ~~~d) + ((d >>> 1) + 1)).toNat = 2 ^ n * (2 * (a.toNat / 2 ^ (n + 1)) + 1) := by
  have half : ((d >>> 1) + 1).toNat = 2 ^ n := by
    have small : 2 ^ n < 2 ^ w := Nat.pow_lt_pow_right (by omega) bit
    have one : 1 < 2 ^ w := Nat.one_lt_two_pow (by omega)
    have shifted : d.toNat / 2 = 2 ^ n - 1 := by
      rw [mask, pow_succ]; omega
    have := two_pow_pos n
    rw [toNat_add, toNat_ushiftRight, Nat.shiftRight_one, shifted]
    simp only [ofNat_eq_ofNat, toNat_ofNat, Nat.mod_eq_of_lt one]
    rw [Nat.sub_add_cancel this, Nat.mod_eq_of_lt small]
  have round := toNat_and_not_mask a d mask
  have sum : 2 ^ (n + 1) * (a.toNat / 2 ^ (n + 1)) + 2 ^ n =
      2 ^ n * (2 * (a.toNat / 2 ^ (n + 1)) + 1) := by ring
  constructor
  · rw [toNat_or, round, half,
      ← Nat.two_pow_add_eq_or_of_lt (Nat.pow_lt_pow_right (by omega) (Nat.lt_succ_self n)), sum]
  rw [toNat_add, round, half, sum, Nat.mod_eq_of_lt]
  have below : 2 ^ (n + 1) * (a.toNat / 2 ^ (n + 1) + 1) ≤ 2 ^ w := by
    have split : 2 ^ w = 2 ^ (n + 1) * 2 ^ (w - (n + 1)) := by
      rw [← pow_add]; congr 1; omega
    rw [split]
    apply Nat.mul_le_mul_left
    rw [Nat.succ_le_iff, Nat.div_lt_iff_lt_mul (two_pow_pos _), mul_comm, ← split]
    exact a.isLt
  have : 2 ^ (n + 1) * (a.toNat / 2 ^ (n + 1) + 1) =
    2 ^ n * (2 * (a.toNat / 2 ^ (n + 1)) + 1) + 2 ^ n := by ring
  omega

end Culibs.DyadicBlock
