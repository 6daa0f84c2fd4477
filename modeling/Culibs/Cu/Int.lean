import Culibs.Foundation.DyadicMask

/-! Machine words and the bit functions of `cu/int.h` the containers rely on. -/

namespace Culibs

open List BitVec Nat

/-- `uintptr_t`, `cu_word_t` and `size_t` on a 64-bit platform. -/
abbrev Word := BitVec 64

namespace Cu

open DyadicBlock

/-- `cu_uint64_dcover`, the instance of `cu_uintptr_dcover`: all bits from the
uppermost set bit downwards. -/
def uintptrDcover (x : Word) : Word :=
  let x := x ||| (x >>> 1)
  let x := x ||| (x >>> 2)
  let x := x ||| (x >>> 4)
  let x := x ||| (x >>> 8)
  let x := x ||| (x >>> 16)
  x ||| (x >>> 32)

/-- After some of the shifts, a bit is set when one of the `n` bits from there
upwards was set at the start. -/
private def Smeared (n : Nat) (x y : Word) : Prop :=
  ∀ i, y.getLsbD i = true ↔ ∃ j < n, x.getLsbD (i + j) = true

private theorem Smeared.start (x : Word) : Smeared 1 x x := by
  intro i
  simp

private theorem Smeared.double (smeared : Smeared n x y) :
    Smeared (n + n) x (y ||| (y >>> n)) := by
  intro i
  rw [getLsbD_or, getLsbD_ushiftRight, Bool.or_eq_true, smeared i, smeared (n + i)]
  constructor
  · rintro (⟨j, bound, set⟩ | ⟨j, bound, set⟩)
    · exact ⟨j, by omega, set⟩
    · exact ⟨n + j, by omega, by rwa [show i + (n + j) = n + i + j by omega]⟩
  · rintro ⟨j, bound, set⟩
    by_cases low : j < n
    · exact .inl ⟨j, low, set⟩
    · exact .inr ⟨j - n, by omega, by rwa [show n + i + (j - n) = i + j by omega]⟩

private theorem smeared_dcover (x : Word) : Smeared 64 x (uintptrDcover x) :=
  (Smeared.start x).double.double.double.double.double.double

/-- The downwards cover of a nonzero word is the mask up to its highest bit. -/
theorem toNat_uintptrDcover (x : Word) (nonzero : x.toNat ≠ 0) :
    (uintptrDcover x).toNat = 2 ^ (x.toNat.log2 + 1) - 1 := by
  apply eq_of_testBit_eq
  intro i
  rw [testBit_two_pow_sub_one, testBit_toNat, Bool.eq_iff_iff, smeared_dcover x i, decide_eq_true_iff]
  constructor
  · rintro ⟨j, _, set⟩
    have := (le_log2 nonzero).mpr (ge_two_pow_of_testBit set)
    omega
  · intro bound
    have top : x.toNat.log2 < 64 := (log2_lt nonzero).mpr x.isLt
    refine ⟨x.toNat.log2 - i, by omega, ?_⟩
    rw [show i + (x.toNat.log2 - i) = x.toNat.log2 by omega]
    exact testBit_log2 nonzero

theorem dcover_xor (less : a.toNat < b.toNat) :
    ∃ n q, n < 64 ∧ (uintptrDcover (a ^^^ b)).toNat = 2 ^ (n + 1) - 1 ∧
      a.toNat / 2 ^ (n + 1) = q ∧ b.toNat / 2 ^ (n + 1) = q ∧
      2 ^ (n + 1) * q ≤ a.toNat ∧ a.toNat < 2 ^ n * (2 * q + 1) ∧
      2 ^ n * (2 * q + 1) ≤ b.toNat ∧ b.toNat < 2 ^ (n + 1) * (q + 1) := by
  have nonzero : (a ^^^ b).toNat ≠ 0 := by
    rw [toNat_xor, Ne, Nat.xor_eq_zero_iff]
    omega
  obtain ⟨q, bounds⟩ := first_difference less
  refine ⟨(a.toNat ^^^ b.toNat).log2, q, ?_, ?_, bounds⟩
  · rw [← toNat_xor]
    exact (log2_lt nonzero).mpr (a ^^^ b).isLt
  · rw [toNat_uintptrDcover _ nonzero, toNat_xor]

/-- Joining two words in order gives the centre of the smallest block with them
in its halves. Only the bits above the difference of the words go into the key,
so either word can provide them. -/
theorem join_words (less : k0.toNat < k1.toNat) :
    ∃ j : Word, (∀ a : Word, a = k0 ∨ a = k1 →
        (a &&& ~~~(uintptrDcover (k0 ^^^ k1))) ||| ((uintptrDcover (k0 ^^^ k1) >>> 1) + 1) = j ∧
        (a &&& ~~~(uintptrDcover (k0 ^^^ k1))) + ((uintptrDcover (k0 ^^^ k1) >>> 1) + 1) = j) ∧
      (k0 ||| uintptrDcover (k0 ^^^ k1)).toNat = hi 64 j.toNat - 1 ∧
      lo 64 j.toNat ≤ k0.toNat ∧ k0.toNat < j.toNat ∧ j.toNat ≤ k1.toNat ∧
      k1.toNat < hi 64 j.toNat := by
  obtain ⟨n, q, bit, mask, quotient0, quotient1, start, left, middle, stop⟩ := dcover_xor less
  generalize uintptrDcover (k0 ^^^ k1) = d at mask ⊢
  have centre := (toNat_centre k0 d bit mask).1
  rw [quotient0] at centre
  have block := block_of_first_bits (q := q) bit
  refine ⟨(k0 &&& ~~~d) ||| ((d >>> 1) + 1), ?_, ?_, ?_⟩
  · intro a either
    have same : a.toNat / 2 ^ (n + 1) = q := by rcases either with rfl | rfl <;> assumption
    constructor <;> apply eq_of_toNat_eq
    · rw [(toNat_centre a d bit mask).1, (toNat_centre k0 d bit mask).1, same, quotient0]
    · rw [(toNat_centre a d bit mask).2, (toNat_centre k0 d bit mask).1, same, quotient0]
  · rw [toNat_or_mask _ _ mask, quotient0, centre, block.2, Nat.mul_add]
    have := Nat.two_pow_pos (n + 1)
    omega
  · rw [centre]
    omega

/-- `cu_uintptr_min`. -/
def uintptrMin (x y : Word) : Word := if x < y then x else y

/-- `cu_uint64_bit_count`: the number of set bits. -/
def bitCount (x : Word) : Nat := (range 64).countP fun i => x.getLsbD i

theorem bitCount_of_below (bound : t ≤ 64)
    (below : ∀ j < 64, x.getLsbD j = decide (j < t)) : bitCount x = t := by
  rw [bitCount, countP_congr (q := fun j => decide (j < t)) (fun j inside => by
    rw [below j (mem_range.mp inside)])]
  have split : range 64 = range t ++ range' t (64 - t) := by
    rw [range_eq_range', range_eq_range', show 64 = t + (64 - t) by omega,
      show t + (64 - t) - t = 64 - t by omega, ← range'_append_1, zero_add]
  rw [split, countP_append, countP_eq_length.mpr (by simp), countP_eq_zero.mpr ?_]
  · simp
  · intro j mem
    simp only [mem_range'_1] at mem
    simp only [decide_eq_true_iff]
    omega

/-- What `cu_uint64_log2_lowbit` returns for a word that it does not stop at: the index of the lowest set bit. -/
def log2Lowbit (x : Word) : Nat := bitCount (~~~x &&& (x - 1))

/-- `cu_uint64_log2_lowbit`, which stops at `cu_debug_assert(x)` for zero. A caller that has tested the word
for zero takes `log2Lowbit`. -/
def uint64Log2Lowbit (x : Word) : Option Nat := if x = 0 then none else some (log2Lowbit x)

theorem log2Lowbit_spec (x : Word) (nonzero : x ≠ 0) :
    log2Lowbit x < 64 ∧ x.getLsbD (log2Lowbit x) = true ∧
      ∀ j < log2Lowbit x, x.getLsbD j = false := by
  obtain ⟨t, m, bound, multiple, _, mask⟩ := toNat_lowMask x nonzero
  have low (j : Nat) (less : j < t) : x.getLsbD j = false := by
    rw [← testBit_toNat, multiple, Nat.testBit_two_pow_mul]
    simp [Nat.not_le_of_lt less]
  have set : x.getLsbD t = true := by
    rw [← testBit_toNat, multiple, testBit_two_pow_mul]
    simp
  have count : log2Lowbit x = t := by
    refine bitCount_of_below (le_of_lt bound) fun j inside => ?_
    have covered : (lowMask x).getLsbD j = decide (j < t + 1) := by
      rw [← testBit_toNat, mask, testBit_two_pow_sub_one]
    rw [lowMask, getLsbD_xor] at covered
    rw [getLsbD_and, getLsbD_not]
    rcases Nat.lt_trichotomy j t with less | same | more
    · rw [low j less] at covered ⊢
      simpa [inside, less, lt_succ_of_lt less] using covered
    · subst same
      simp [set]
    · have apart : ¬ j < t := by omega
      have apart' : ¬ j < t + 1 := by omega
      simp only [apart', decide_false] at covered
      simp only [apart, decide_false]
      revert covered
      cases x.getLsbD j <;> cases (x - 1).getLsbD j <;> simp
  rw [count]
  exact ⟨bound, set, low⟩

/-- `cu_uint_log2_lowbit`, for an `unsigned int` of 32 bits. -/
def uintLog2Lowbit (x : BitVec 32) : Nat := (range 32).countP fun i => (~~~x &&& (x - 1)).getLsbD i

theorem uintLog2Lowbit_setWidth (nonzero : x.toNat ≠ 0) (small : x.toNat < 2 ^ 32) :
    uintLog2Lowbit (x.setWidth 32) = log2Lowbit x := by
  have one : (1 : Word).toNat = 1 := rfl
  have less : (x - 1).toNat = x.toNat - 1 := by
    rw [toNat_sub_of_le (by rw [le_def]; omega), one]
  have truncated : x.setWidth 32 - 1 = (x - 1).setWidth 32 := by
    apply eq_of_toNat_eq
    rw [toNat_setWidth, less, toNat_sub_of_le, toNat_setWidth]
    · rw [mod_eq_of_lt small, mod_eq_of_lt (by omega)]
      rfl
    · rw [le_def, toNat_setWidth, mod_eq_of_lt small]
      exact one_le_iff_ne_zero.mpr nonzero
  have low (i : Nat) (bound : i < 32) :
      (~~~(x.setWidth 32) &&& (x.setWidth 32 - 1)).getLsbD i = (~~~x &&& (x - 1)).getLsbD i := by
    have bound' : i < 64 := by omega
    rw [truncated]
    simp only [getLsbD_and, getLsbD_not, getLsbD_setWidth, bound, bound', decide_true, Bool.true_and]
  have high (i : Nat) (bound : 32 ≤ i) : (~~~x &&& (x - 1)).getLsbD i = false := by
    rw [getLsbD_and, ← testBit_toNat (x - 1), testBit_lt_two_pow, Bool.and_false]
    exact lt_of_lt_of_le (by omega) (Nat.pow_le_pow_right (by omega) bound)
  have split : range 64 = range 32 ++ range' 32 32 := by decide
  have none : (range' 32 32).countP (fun i => (~~~x &&& (x - 1)).getLsbD i) = 0 := by
    refine countP_eq_zero.mpr fun i inside => ?_
    rw [high i (mem_range'_1.mp inside).1]
    exact Bool.false_ne_true
  rw [log2Lowbit, bitCount, split, countP_append, none]
  exact countP_congr fun i inside => by rw [low i (mem_range.mp inside)]

theorem two_pow_dvd_iff (nonzero : x.toNat ≠ 0) (i : Nat) : 2 ^ i ∣ x.toNat ↔ i ≤ log2Lowbit x := by
  obtain ⟨_, set, low⟩ := log2Lowbit_spec x (fun zero => nonzero (congrArg BitVec.toNat zero))
  rw [dvd_iff_mod_eq_zero]
  constructor
  · intro multiple
    by_contra beyond
    have bit := testBit_mod_two_pow x.toNat i (log2Lowbit x)
    rw [multiple, zero_testBit, testBit_toNat, set, decide_eq_true (by omega)] at bit
    exact absurd bit (by decide)
  · intro within
    refine eq_of_testBit_eq fun j => ?_
    rw [testBit_mod_two_pow, zero_testBit]
    by_cases less : j < i
    · rw [testBit_toNat, low j (by omega), Bool.and_false]
    · rw [decide_eq_false less, Bool.false_and]

variable {bit : Nat}

theorem toNat_one_shiftLeft (bound : bit < 64) : ((1 : Word) <<< bit).toNat = 2 ^ bit := by
  have small : 2 ^ bit < 2 ^ 64 := Nat.pow_lt_pow_right (by omega) bound
  rw [toNat_shiftLeft, Nat.shiftLeft_eq]
  change 1 * 2 ^ bit % 2 ^ 64 = 2 ^ bit
  rw [one_mul, mod_eq_of_lt small]

theorem toNat_and_bit (x : Word) (bound : bit < 64) :
    (x &&& ((1 : Word) <<< bit)).toNat = if x.toNat.testBit bit then 2 ^ bit else 0 := by
  rw [toNat_and, toNat_one_shiftLeft bound, and_two_pow]
  cases x.toNat.testBit bit <;> simp

theorem toNat_clear_bit (x : Word) (bound : bit < 64) :
    (x &&& ~~~((1 : Word) <<< bit)).toNat + (if x.toNat.testBit bit then 2 ^ bit else 0) = x.toNat := by
  have apart : (x &&& ~~~((1 : Word) <<< bit)) &&& (x &&& ((1 : Word) <<< bit)) = 0#64 := by
    ext j inside
    simp only [getElem_and, getElem_not, BitVec.getElem_zero]
    cases x[j] <;> cases ((1 : Word) <<< bit)[j] <;> rfl
  have whole : (x &&& ~~~((1 : Word) <<< bit)) ||| (x &&& ((1 : Word) <<< bit)) = x := by
    ext j inside
    simp only [getElem_or, getElem_and, getElem_not]
    cases x[j] <;> cases ((1 : Word) <<< bit)[j] <;> rfl
  have sum := congrArg BitVec.toNat ((add_eq_or_of_and_eq_zero _ _ apart).trans whole)
  rw [toNat_add_of_and_eq_zero apart, toNat_and_bit x bound] at sum
  exact sum

/-- `cu_size_exp2ceil`: the least power of two that is at least `n`. -/
def sizeExp2ceil (n : Word) : Word := uintptrDcover (n - 1) + 1

theorem toNat_sizeExp2ceil (two : 2 ≤ n.toNat) (bound : n.toNat ≤ 2 ^ 63) :
    (sizeExp2ceil n).toNat = 2 ^ ((n.toNat - 1).log2 + 1) := by
  have one : (1 : Word).toNat = 1 := rfl
  have less : (n - 1).toNat = n.toNat - 1 := by
    rw [toNat_sub_of_le (by rw [le_def]; omega), one]
  have log : (n.toNat - 1).log2 < 63 := (log2_lt (by omega)).mpr (by omega)
  have power : 2 ^ ((n.toNat - 1).log2 + 1) ≤ 2 ^ 63 := Nat.pow_le_pow_right (by decide) log
  have pos := Nat.two_pow_pos ((n.toNat - 1).log2 + 1)
  rw [sizeExp2ceil, toNat_add, toNat_uintptrDcover _ (by omega), less]
  omega

end Cu

end Culibs

/-! The binary logarithms of `cu/int.c`. -/

namespace Culibs.Cu

/-- `_floor_log2_table`, with `0` in the place of the entry `-1` of `0`. -/
def floorLog2Table : List Nat := 0 :: (List.range 8).flatMap fun l => List.replicate (2 ^ l) l

/-- `_uint8_floor_log2`. -/
def uint8FloorLog2 (x : Nat) : Nat := floorLog2Table.getD x 0

/-- `_uint16_floor_log2`. -/
def uint16FloorLog2 (x : Nat) : Nat :=
  if x ≥ 2 ^ 8 then uint8FloorLog2 (x >>> 8) + 8 else uint8FloorLog2 x

/-- `_uint32_floor_log2`. -/
def uint32FloorLog2 (x : Nat) : Nat :=
  if x ≥ 2 ^ 16 then uint16FloorLog2 (x >>> 16) + 16 else uint16FloorLog2 x

/-- `cu_ulong_floor_log2`, which is `cu_uint64_floor_log2`. -/
def ulongFloorLog2 (x : Word) : Nat :=
  if x.toNat ≥ 2 ^ 32 then uint32FloorLog2 (x.toNat >>> 32) + 32 else uint32FloorLog2 x.toNat

variable {x : Nat}

private theorem uint8FloorLog2_eq (bound : x < 2 ^ 8) : uint8FloorLog2 x = x.log2 := by
  revert x
  decide +kernel

theorem log2_of_upper (large : x ≥ 2 ^ k) : x.log2 = (x >>> k).log2 + k := by
  have pos : x ≠ 0 := by
    have := Nat.two_pow_pos k
    omega
  have upper : x >>> k ≠ 0 := by
    rw [Nat.shiftRight_eq_div_pow]
    exact (Nat.div_pos large (Nat.two_pow_pos k)).ne'
  apply (Nat.log2_eq_iff pos).mpr
  have bounds := (Nat.log2_eq_iff upper).mp rfl
  rw [Nat.shiftRight_eq_div_pow] at bounds ⊢
  rw [Nat.le_div_iff_mul_le (Nat.two_pow_pos k), Nat.div_lt_iff_lt_mul (Nat.two_pow_pos k)] at bounds
  constructor
  · rw [pow_add]
    exact bounds.1
  · rw [add_right_comm, pow_add]
    exact bounds.2

theorem uint16FloorLog2_eq (bound : x < 2 ^ 16) : uint16FloorLog2 x = x.log2 := by
  rw [uint16FloorLog2]
  split
  · next large => rw [log2_of_upper large, uint8FloorLog2_eq (by rw [Nat.shiftRight_eq_div_pow]; omega)]
  · next small => exact uint8FloorLog2_eq (by omega)

private theorem uint32FloorLog2_eq (bound : x < 2 ^ 32) : uint32FloorLog2 x = x.log2 := by
  rw [uint32FloorLog2]
  split
  · next large => rw [log2_of_upper large, uint16FloorLog2_eq (by rw [Nat.shiftRight_eq_div_pow]; omega)]
  · next small => exact uint16FloorLog2_eq (by omega)

theorem ulongFloorLog2_eq (x : Word) : ulongFloorLog2 x = x.toNat.log2 := by
  rw [ulongFloorLog2]
  split
  · next large =>
    rw [log2_of_upper large, uint32FloorLog2_eq (by rw [Nat.shiftRight_eq_div_pow]; omega)]
  · next small => exact uint32FloorLog2_eq (by omega)

end Culibs.Cu

/-! The table-driven bit count of `cu/int.c`. -/

namespace Culibs.Cu

/-- `bit_count_table`. -/
def bitCountTable : List Nat :=
  [0, 1, 1, 2, 1, 2, 2, 3, 1, 2, 2, 3, 2, 3, 3, 4, 1, 2, 2, 3, 2, 3, 3, 4, 2, 3, 3, 4, 3, 4, 4, 5,
   1, 2, 2, 3, 2, 3, 3, 4, 2, 3, 3, 4, 3, 4, 4, 5, 2, 3, 3, 4, 3, 4, 4, 5, 3, 4, 4, 5, 4, 5, 5, 6,
   1, 2, 2, 3, 2, 3, 3, 4, 2, 3, 3, 4, 3, 4, 4, 5, 2, 3, 3, 4, 3, 4, 4, 5, 3, 4, 4, 5, 4, 5, 5, 6,
   2, 3, 3, 4, 3, 4, 4, 5, 3, 4, 4, 5, 4, 5, 5, 6, 3, 4, 4, 5, 4, 5, 5, 6, 4, 5, 5, 6, 5, 6, 6, 7,
   1, 2, 2, 3, 2, 3, 3, 4, 2, 3, 3, 4, 3, 4, 4, 5, 2, 3, 3, 4, 3, 4, 4, 5, 3, 4, 4, 5, 4, 5, 5, 6,
   2, 3, 3, 4, 3, 4, 4, 5, 3, 4, 4, 5, 4, 5, 5, 6, 3, 4, 4, 5, 4, 5, 5, 6, 4, 5, 5, 6, 5, 6, 6, 7,
   2, 3, 3, 4, 3, 4, 4, 5, 3, 4, 4, 5, 4, 5, 5, 6, 3, 4, 4, 5, 4, 5, 5, 6, 4, 5, 5, 6, 5, 6, 6, 7,
   3, 4, 4, 5, 4, 5, 5, 6, 4, 5, 5, 6, 5, 6, 6, 7, 4, 5, 5, 6, 5, 6, 6, 7, 5, 6, 6, 7, 6, 7, 7, 8]

/-- `cu_word_bit_count`, which is `cu_uint64_bit_count`: the entries of the eight bytes. -/
def wordBitCount (x : Word) : Nat :=
  ((List.range 8).map fun i => bitCountTable.getD (x.toNat >>> (8 * i) % 256) 0).sum

private theorem bitCountTable_eq_map :
    bitCountTable = (List.range 256).map fun x => (List.range 8).countP fun j => x.testBit j := by
  decide +kernel

private theorem bitCountTable_eq (bound : x < 256) :
    bitCountTable.getD x 0 = (List.range 8).countP fun j => x.testBit j := by
  rw [bitCountTable_eq_map, List.getD_eq_getElem?_getD, List.getElem?_map, List.getElem?_range bound]
  rfl

private theorem countP_bytes (x n : Nat) : (List.range (8 * n)).countP (fun i => x.testBit i) =
    ((List.range n).map fun i => (List.range 8).countP fun j => x.testBit (8 * i + j)).sum := by
  induction n with
  | zero => rfl
  | succ n ih =>
    rw [Nat.mul_succ, List.range_add, List.countP_append, ih, @List.range_succ n, List.map_append, List.sum_append]
    rfl

theorem wordBitCount_eq (x : Word) : wordBitCount x = bitCount x := by
  have bytes := countP_bytes x.toNat 8
  simp only [BitVec.testBit_toNat] at bytes
  rw [bitCount, bytes, wordBitCount]
  congr 1
  apply List.map_congr_left
  intro i _
  rw [bitCountTable_eq (Nat.mod_lt _ (by decide))]
  apply List.countP_congr
  intro j mem
  have inside : j < 8 := List.mem_range.mp mem
  rw [show 256 = 2 ^ 8 by rfl, Nat.testBit_mod_two_pow, Nat.testBit_shiftRight, BitVec.testBit_toNat]
  simp [inside]

end Culibs.Cu
