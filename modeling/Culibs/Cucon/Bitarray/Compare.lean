import Culibs.Cucon.Bitarray.Search
import Culibs.Foundation.Comparison

namespace Culibs.Cu

open DyadicBlock Nat

/-- `cu_word_rcmp` -/
def wordRcmp (w0 w1 : Word) : Int :=
  let d := w0 ^^^ w1
  let m := (d - 1) ^^^ d
  let w0 := w0 &&& m
  let w1 := w1 &&& m
  if w0 < w1 then -1 else if w0 > w1 then 1 else 0

private theorem wordRcmp_self (w : Word) : wordRcmp w w = 0 := by
  simp [wordRcmp]

private theorem wordRcmp_first (agree : ∀ j < t, w0.getLsbD j = w1.getLsbD j)
    (differ : w0.getLsbD t ≠ w1.getLsbD t) : wordRcmp w0 w1 = if w0.getLsbD t then 1 else -1 := by
  have nonzero : w0 ^^^ w1 ≠ 0 := by
    intro zero
    exact differ (by rw [BitVec.xor_eq_zero_iff.mp zero])
  obtain ⟨s, m, _, multiple, _, mask⟩ := toNat_lowMask (w0 ^^^ w1) nonzero
  have lowest (j : Nat) : (w0 ^^^ w1).getLsbD j = (2 ^ s * (2 * m + 1)).testBit j := by
    rw [← BitVec.testBit_toNat, multiple]
  have same : s = t := by
    have atT := lowest t
    have atS := lowest s
    rw [BitVec.getLsbD_xor, testBit_two_pow_mul] at atT atS
    rcases lt_trichotomy s t with less | same | more
    · rw [agree s less] at atS
      simp at atS
    · exact same
    · simp [Nat.not_le_of_lt more, differ] at atT
  subst same
  have covered (j : Nat) : (((w0 ^^^ w1) - 1) ^^^ (w0 ^^^ w1)).getLsbD j = decide (j < s + 1) := by
    rw [BitVec.xor_comm, ← lowMask, ← BitVec.testBit_toNat, mask, testBit_two_pow_sub_one]
  have masked (w : Word) (j : Nat) : (w &&& (((w0 ^^^ w1) - 1) ^^^ (w0 ^^^ w1))).toNat.testBit j =
      (w.getLsbD j && decide (j < s + 1)) := by
    rw [BitVec.testBit_toNat, BitVec.getLsbD_and, covered]
  have beyond (v w : Word) (j : Nat) (after : s < j) :
      (v &&& (((w0 ^^^ w1) - 1) ^^^ (w0 ^^^ w1))).toNat.testBit j =
        (w &&& (((w0 ^^^ w1) - 1) ^^^ (w0 ^^^ w1))).toNat.testBit j := by
    rw [masked, masked, decide_eq_false (by omega), Bool.and_false, Bool.and_false]
  simp only [wordRcmp, BitVec.lt_def, gt_iff_lt]
  cases set : w0.getLsbD s with
  | true =>
    have clear : w1.getLsbD s = false := by
      rw [set] at differ
      exact Bool.eq_false_iff.mpr differ.symm
    have less := lt_of_testBit s (by rw [masked, clear, Bool.false_and]) (by rw [masked, set]; simp)
      (beyond w1 w0)
    rw [if_neg (lt_asymm less), if_pos less, if_pos rfl]
  | false =>
    have set' : w1.getLsbD s = true := by
      rw [set] at differ
      exact eq_true_of_ne_false differ.symm
    have less := lt_of_testBit s (by rw [masked, set, Bool.false_and]) (by rw [masked, set']; simp)
      (beyond w0 w1)
    rw [if_pos less, if_neg Bool.false_ne_true]

end Culibs.Cu

namespace Culibs.Cucon.Bitarray

open Cu BitMemory Comparison

/-- The loop of the comparison over full words. -/
def cmpWords (arr0 arr1 : Memory) : Nat → Nat → Int
  | 0, _ => 0
  | sizew + 1, i =>
    let cmp := wordRcmp (arr0 i) (arr1 i)
    if cmp ≠ 0 then cmp else cmpWords arr0 arr1 sizew (i + 1)

def cmp (ba0 ba1 : Bitarray) : Int :=
  let size0 := ba0.size
  let size1 := ba1.size
  let size := min size0 size1
  let sizew := size / 64
  let rest := size % 64
  let words := cmpWords ba0.arr ba1.arr sizew 0
  let last := if rest ≠ 0 then wordRcmp (ba0.arr sizew) (ba1.arr sizew) else 0
  if words ≠ 0 then words
  else if last ≠ 0 then last
  else if size0 < size1 then -1
  else if size0 > size1 then 1
  else 0

/-- The loop of the test for equality. -/
def eqWords (arr0 arr1 : Memory) : Nat → Nat → Bool
  | 0, _ => true
  | sizew + 1, i => if arr0 i ≠ arr1 i then false else eqWords arr0 arr1 sizew (i + 1)

def eq (ba0 ba1 : Bitarray) : Bool :=
  let size0 := ba0.size
  let size1 := ba1.size
  let sizew := size0 / 64
  let rest := size0 % 64
  if size0 ≠ size1 then false
  else if !eqWords ba0.arr ba1.arr sizew 0 then false
  else if rest ≠ 0 then
    let mask := wordMask rest
    if ba0.arr sizew &&& mask ≠ ba1.arr sizew &&& mask then false else true
  else true

/-- The bits of an array. -/
def bits (ba : Bitarray) : List Bool := (List.range ba.size).map ba.bitAt

/-- `cu_false` before `cu_true` -/
def boolCmp (a b : Bool) : Int := a.toNat - b.toNat

theorem boolCmp_totalOrder : TotalOrder Eq boolCmp where
  swap := by decide
  trans := by decide
  eq_zero := by decide

variable {ba0 ba1 : Bitarray} {sizew i k : Nat}

/-- The first position in which two memories differ. -/
abbrev Differs (ba0 ba1 : Bitarray) (k : Nat) : Prop := First (fun k => ba0.bitAt k ≠ ba1.bitAt k) 0 k

theorem bits_append (ba : Bitarray) (inside : k ≤ ba.size) :
    ba.bits = (List.range k).map ba.bitAt ++ (List.range (ba.size - k)).map fun j => ba.bitAt (k + j) := by
  obtain ⟨rest, total⟩ := Nat.exists_eq_add_of_le inside
  rw [bits, total, List.range_add, List.map_append, List.map_map, Nat.add_sub_cancel_left]
  rfl

theorem range_map_congr (agree : ∀ j < k, ba0.bitAt j = ba1.bitAt j) :
    (List.range k).map ba0.bitAt = (List.range k).map ba1.bitAt :=
  List.map_congr_left fun j mem => agree j (List.mem_range.mp mem)

private theorem lex_of_differs (differs : Differs ba0 ba1 k) (inside0 : k < ba0.size) (inside1 : k < ba1.size) :
    lexList boolCmp ba0.bits ba1.bits = if ba0.bitAt k then 1 else -1 := by
  obtain ⟨rest0, total0⟩ := Nat.exists_eq_add_of_lt inside0
  obtain ⟨rest1, total1⟩ := Nat.exists_eq_add_of_lt inside1
  rw [bits_append ba0 (Nat.le_of_lt inside0), bits_append ba1 (Nat.le_of_lt inside1),
    range_map_congr fun j before => not_not.mp (differs.least j (Nat.zero_le j) before),
    lexList_append fun a => (boolCmp_totalOrder.eq_zero a a).mpr rfl]
  have count0 : ba0.size - k = rest0 + 1 := by omega
  have count1 : ba1.size - k = rest1 + 1 := by omega
  rw [count0, count1, List.range_succ_eq_map, List.range_succ_eq_map, List.map_cons, List.map_cons, lexList,
    add_zero]
  have other := differs.holds
  cases bit0 : ba0.bitAt k <;> cases bit1 : ba1.bitAt k <;> simp_all [andThen, boolCmp]

/-- The order of the bits, if the shorter array is a prefix of the other. -/
theorem lex_of_agree (agree : ∀ j < min ba0.size ba1.size, ba0.bitAt j = ba1.bitAt j) :
    lexList boolCmp ba0.bits ba1.bits =
      if ba0.size < ba1.size then -1 else if ba0.size > ba1.size then 1 else 0 := by
  rw [bits_append ba0 (min_le_left _ ba1.size), bits_append ba1 (min_le_right ba0.size _), range_map_congr agree,
    lexList_append fun a => (boolCmp_totalOrder.eq_zero a a).mpr rfl]
  rcases lt_trichotomy ba0.size ba1.size with less | same | more
  · obtain ⟨extra, total⟩ := Nat.exists_eq_add_of_lt less
    have count0 : ba0.size - min ba0.size ba1.size = 0 := by omega
    have count1 : ba1.size - min ba0.size ba1.size = extra + 1 := by omega
    rw [if_pos less, count0, count1, List.range_succ_eq_map]
    rfl
  · have count0 : ba0.size - min ba0.size ba1.size = 0 := by omega
    have count1 : ba1.size - min ba0.size ba1.size = 0 := by omega
    rw [if_neg (by omega), if_neg (by omega), count0, count1]
    rfl
  · obtain ⟨extra, total⟩ := Nat.exists_eq_add_of_lt more
    have count0 : ba0.size - min ba0.size ba1.size = extra + 1 := by omega
    have count1 : ba1.size - min ba0.size ba1.size = 0 := by omega
    rw [if_neg (by omega), if_pos more, count0, count1, List.range_succ_eq_map]
    rfl

theorem wordRcmp_spec (ba0 ba1 : Bitarray) (i : Nat) :
    (wordRcmp (ba0.arr i) (ba1.arr i) = 0 ∧ ∀ k, i * 64 ≤ k → k < (i + 1) * 64 → ba0.bitAt k = ba1.bitAt k) ∨
      ∃ k, First (fun k => ba0.bitAt k ≠ ba1.bitAt k) (i * 64) k ∧ k < (i + 1) * 64 ∧
        wordRcmp (ba0.arr i) (ba1.arr i) = if ba0.bitAt k then 1 else -1 := by
  have position (ba : Bitarray) {j : Nat} (bound : j < 64) : ba.bitAt (i * 64 + j) = (ba.arr i).getLsbD j := by
    rw [bitAt_eq, bit_word ba.arr i bound]
  have place {k : Nat} (after : i * 64 ≤ k) : i * 64 + (k - i * 64) = k := Nat.add_sub_cancel' after
  by_cases same : ba0.arr i = ba1.arr i
  · refine .inl ⟨by rw [same, wordRcmp_self], fun k after before => ?_⟩
    rw [← place after, position ba0 (by omega), position ba1 (by omega), same]
  have nonzero : ba0.arr i ^^^ ba1.arr i ≠ 0 := fun zero => same (BitVec.xor_eq_zero_iff.mp zero)
  obtain ⟨bound, set, low⟩ := log2Lowbit_spec _ nonzero
  have agree : ∀ j < log2Lowbit (ba0.arr i ^^^ ba1.arr i), (ba0.arr i).getLsbD j = (ba1.arr i).getLsbD j := by
    intro j before
    have := low j before
    rwa [BitVec.getLsbD_xor, bne_eq_false_iff_eq] at this
  rw [BitVec.getLsbD_xor, bne_iff_ne] at set
  refine .inr ⟨i * 64 + log2Lowbit (ba0.arr i ^^^ ba1.arr i), ⟨Nat.le_add_right .., ?_, fun k after before => ?_⟩,
    by omega, ?_⟩
  · rwa [position ba0 bound, position ba1 bound]
  · rw [← place after, position ba0 (by omega), position ba1 (by omega)]
    exact not_not_intro (agree _ (by omega))
  · rw [position ba0 bound]
    exact wordRcmp_first agree set

theorem cmpWords_spec (ba0 ba1 : Bitarray) (sizew i : Nat) :
    (cmpWords ba0.arr ba1.arr sizew i = 0 ∧ ∀ k, i * 64 ≤ k → k < (i + sizew) * 64 → ba0.bitAt k = ba1.bitAt k) ∨
      ∃ k, First (fun k => ba0.bitAt k ≠ ba1.bitAt k) (i * 64) k ∧ k < (i + sizew) * 64 ∧
        cmpWords ba0.arr ba1.arr sizew i = if ba0.bitAt k then 1 else -1 := by
  induction sizew generalizing i with
  | zero => exact .inl ⟨rfl, fun k after before => by omega⟩
  | succ sizew ih =>
    rw [cmpWords]
    rcases wordRcmp_spec ba0 ba1 i with ⟨zero, agree⟩ | ⟨k, first, inside, value⟩
    · rw [zero, if_neg (not_not_intro rfl)]
      rcases ih (i + 1) with ⟨zero', agree'⟩ | ⟨k, first, inside, value⟩
      · refine .inl ⟨zero', fun k after before => ?_⟩
        by_cases here : k < (i + 1) * 64
        · exact agree k after here
        · exact agree' k (by omega) (by omega)
      · refine .inr ⟨k, ⟨by have := first.from_start; omega, first.holds, fun j after before => ?_⟩, by omega, value⟩
        by_cases here : j < (i + 1) * 64
        · exact not_not_intro (agree j after here)
        · exact first.least j (by omega) before
    · have nonzero : wordRcmp (ba0.arr i) (ba1.arr i) ≠ 0 := by
        rw [value]
        split <;> decide
      rw [if_pos nonzero]
      exact .inr ⟨k, first, by omega, value⟩

/-- The number of bits in the words that are compared. -/
def compared (ba0 ba1 : Bitarray) : Nat := (min ba0.size ba1.size + 63) / 64 * 64

private theorem cmp_spec (ba0 ba1 : Bitarray) :
    (∃ k, Differs ba0 ba1 k ∧ k < compared ba0 ba1 ∧ ba0.cmp ba1 = if ba0.bitAt k then 1 else -1) ∨
      (∀ k < compared ba0 ba1, ba0.bitAt k = ba1.bitAt k) ∧
        ba0.cmp ba1 = if ba0.size < ba1.size then -1 else if ba0.size > ba1.size then 1 else 0 := by
  have unit_ne (b : Bool) : (if b then 1 else -1 : Int) ≠ 0 := by
    cases b <;> decide
  rw [cmp, compared]
  rcases cmpWords_spec ba0 ba1 (min ba0.size ba1.size / 64) 0 with ⟨zero, agree⟩ | ⟨k, first, inside, value⟩
  · rw [zero_mul, zero_add] at agree
    simp only [zero, ne_eq, not_true_eq_false, if_false]
    by_cases whole : min ba0.size ba1.size % 64 = 0
    · simp only [whole, not_true_eq_false, if_false]
      exact .inr ⟨fun k before => agree k (Nat.zero_le k) (by omega), trivial⟩
    simp only [whole, not_false_eq_true, if_true]
    rcases wordRcmp_spec ba0 ba1 (min ba0.size ba1.size / 64) with ⟨zero', agree'⟩ | ⟨k, first, inside, value⟩
    · simp only [zero', not_true_eq_false, if_false]
      refine .inr ⟨fun k before => ?_, trivial⟩
      by_cases early : k < min ba0.size ba1.size / 64 * 64
      · exact agree k (Nat.zero_le k) early
      · exact agree' k (by omega) (by omega)
    · simp only [value, unit_ne, not_false_eq_true, if_true]
      refine .inl ⟨k, ⟨Nat.zero_le k, first.holds, fun j _ before => ?_⟩, by omega, rfl⟩
      by_cases early : j < min ba0.size ba1.size / 64 * 64
      · exact not_not_intro (agree j (Nat.zero_le j) early)
      · exact first.least j (by omega) before
  · rw [zero_mul] at first
    simp only [value, unit_ne, ne_eq, not_false_eq_true, if_true]
    exact .inl ⟨k, first, by omega, rfl⟩

theorem low_bits_iff (ba0 ba1 : Bitarray) (i : Nat) (within : rest ≤ 64) :
    (∀ j < rest, (ba0.arr i).getLsbD j = (ba1.arr i).getLsbD j) ↔
      ∀ k, i * 64 ≤ k → k < i * 64 + rest → ba0.bitAt k = ba1.bitAt k := by
  have position (ba : Bitarray) {j : Nat} (bound : j < rest) : ba.bitAt (i * 64 + j) = (ba.arr i).getLsbD j := by
    rw [bitAt_eq, bit_word ba.arr i (lt_of_lt_of_le bound within)]
  constructor
  · intro agree k after before
    have place : i * 64 + (k - i * 64) = k := Nat.add_sub_cancel' after
    rw [← place, position ba0 (by omega), position ba1 (by omega)]
    exact agree _ (by omega)
  · intro agree j bound
    rw [← position ba0 bound, ← position ba1 bound]
    exact agree _ (Nat.le_add_right ..) (by omega)

theorem eqWords_iff (ba0 ba1 : Bitarray) (sizew i : Nat) : eqWords ba0.arr ba1.arr sizew i = true ↔
    ∀ k, i * 64 ≤ k → k < (i + sizew) * 64 → ba0.bitAt k = ba1.bitAt k := by
  induction sizew generalizing i with
  | zero => exact iff_of_true rfl fun k after before => by omega
  | succ sizew ih =>
    have here := low_bits_iff ba0 ba1 i (le_refl 64)
    have word : ba0.arr i = ba1.arr i ↔ ∀ j < 64, (ba0.arr i).getLsbD j = (ba1.arr i).getLsbD j :=
      ⟨fun same j _ => by rw [same], BitVec.eq_of_getLsbD_eq⟩
    rw [eqWords]
    split
    · next differ =>
      rw [ne_eq, word, here] at differ
      refine iff_of_false Bool.false_ne_true fun all => differ fun k after before => all k after (by omega)
    · next same =>
      rw [ne_eq, not_not, word, here] at same
      rw [ih]
      constructor
      · intro later k after before
        by_cases first : k < i * 64 + 64
        · exact same k after first
        · exact later k (by omega) (by omega)
      · exact fun all k after before => all k (by omega) (by omega)

private theorem masked_eq_iff (ba0 ba1 : Bitarray) (i : Nat) (small : rest < 64) :
    ba0.arr i &&& wordMask rest = ba1.arr i &&& wordMask rest ↔
      ∀ k, i * 64 ≤ k → k < i * 64 + rest → ba0.bitAt k = ba1.bitAt k := by
  have masked (w : Word) (j : Nat) : (w &&& wordMask rest).getLsbD j = (w.getLsbD j && decide (j < rest)) := by
    rw [BitVec.getLsbD_and]
    exact congrArg (w.getLsbD j && ·) (BitarraySlice.getLsbD_wordMask small j)
  rw [← low_bits_iff ba0 ba1 i (le_of_lt small)]
  constructor
  · intro same j bound
    have := congrArg (fun w => BitVec.getLsbD w j) same
    simpa only [masked, decide_eq_true bound, Bool.and_true] using this
  · intro agree
    refine BitVec.eq_of_getLsbD_eq fun j _ => ?_
    rw [masked, masked]
    by_cases bound : j < rest
    · rw [agree j bound]
    · rw [decide_eq_false bound, Bool.and_false, Bool.and_false]

theorem bits_eq_iff : ba0.bits = ba1.bits ↔ ba0.size = ba1.size ∧ ∀ k < ba0.size, ba0.bitAt k = ba1.bitAt k := by
  constructor
  · intro same
    have size : ba0.size = ba1.size := by
      have := congrArg List.length same
      simpa only [bits, List.length_map, List.length_range] using this
    refine ⟨size, fun k inside => ?_⟩
    rw [bits, bits, size] at same
    exact List.map_inj_left.mp same k (List.mem_range.mpr (size ▸ inside))
  · rintro ⟨size, agree⟩
    rw [bits, range_map_congr agree, size, bits]

theorem eq_iff (ba0 ba1 : Bitarray) : ba0.eq ba1 = true ↔ ba0.bits = ba1.bits := by
  rw [bits_eq_iff, eq]
  by_cases size : ba0.size = ba1.size
  · have words := eqWords_iff ba0 ba1 (ba0.size / 64) 0
    have last := masked_eq_iff ba0 ba1 (ba0.size / 64) (Nat.mod_lt ba0.size (by decide))
    simp only [← size, ne_eq, not_true_eq_false, if_false, true_and]
    rw [zero_mul, zero_add] at words
    by_cases full : eqWords ba0.arr ba1.arr (ba0.size / 64) 0 = true
    · have agree := words.mp full
      simp only [full, Bool.not_true, Bool.false_eq_true, if_false]
      by_cases whole : ba0.size % 64 = 0
      · simp only [whole, not_true_eq_false, if_false, true_iff]
        exact fun k inside => agree k (Nat.zero_le k) (by omega)
      simp only [whole, not_false_eq_true, if_true, last, ite_not, Bool.if_false_right, Bool.and_true,
        decide_eq_true_eq]
      constructor
      · intro tail k inside
        by_cases early : k < ba0.size / 64 * 64
        · exact agree k (Nat.zero_le k) early
        · exact tail k (by omega) (by omega)
      · exact fun all k _ before => all k (by omega)
    · simp only [Bool.eq_false_iff.mpr full, Bool.not_false, if_true, Bool.false_eq_true, false_iff]
      exact fun all => full (words.mpr fun k _ before => all k (by omega))
  · rw [if_pos size]
    exact iff_of_false Bool.false_ne_true fun both => size both.1

/-- The first difference is not behind the bits of the shorter array, or it is a zero of that array. -/
def TailRight (ba0 ba1 : Bitarray) : Prop :=
  ∀ k, Differs ba0 ba1 k → min ba0.size ba1.size ≤ k → k < compared ba0 ba1 →
    if ba0.bitAt k then ba1.size < ba0.size else ba0.size < ba1.size

private theorem cmp_lex_iff (ba0 ba1 : Bitarray) : ba0.cmp ba1 = lexList boolCmp ba0.bits ba1.bits ↔ TailRight ba0 ba1 := by
  have covers : min ba0.size ba1.size ≤ compared ba0 ba1 := by
    rw [compared]
    omega
  rcases cmp_spec ba0 ba1 with ⟨k, differs, inside, value⟩ | ⟨agree, value⟩
  · have unique {j : Nat} (other : Differs ba0 ba1 j) : j = k := by
      rcases lt_trichotomy j k with less | same | more
      · exact absurd other.holds (differs.least j (Nat.zero_le j) less)
      · exact same
      · exact absurd differs.holds (other.least k (Nat.zero_le k) more)
    rw [value]
    by_cases early : k < min ba0.size ba1.size
    · rw [lex_of_differs differs (by omega) (by omega)]
      exact iff_of_true rfl fun j other late => by have := unique other; omega
    have common : ∀ j < min ba0.size ba1.size, ba0.bitAt j = ba1.bitAt j := fun j before =>
      not_not.mp (differs.least j (Nat.zero_le j) (by omega))
    rw [lex_of_agree common]
    have exactly : TailRight ba0 ba1 ↔ if ba0.bitAt k then ba1.size < ba0.size else ba0.size < ba1.size := by
      constructor
      · exact fun right => right k differs (Nat.le_of_not_lt early) inside
      · intro right j other _ _
        rwa [unique other]
    rw [exactly]
    cases ba0.bitAt k with
    | true =>
      simp only [if_true]
      split
      · exact iff_of_false (by decide) (by omega)
      · split
        · exact iff_of_true rfl (by omega)
        · exact iff_of_false (by decide) (by omega)
    | false =>
      simp only [Bool.false_eq_true, if_false]
      split
      · exact iff_of_true rfl (by omega)
      · split
        · exact iff_of_false (by decide) (by omega)
        · exact iff_of_false (by decide) (by omega)
  · rw [value, lex_of_agree fun j before => agree j (lt_of_lt_of_le before covers)]
    exact iff_of_true rfl fun k differs _ inside => absurd (agree k inside) differs.holds

/-- Exactly when the comparison of two arrays is the lexicographic one and is 0 for equal arrays only. Where this
is so for all arrays of a collection, it is a total order of them. -/
theorem cmp_correct_iff (ba0 ba1 : Bitarray) (S : Set Bitarray) :
    ((ba0.cmp ba1 = lexList boolCmp ba0.bits ba1.bits ∧ (ba0.cmp ba1 = 0 ↔ ba0.eq ba1 = true)) ↔
      TailRight ba0 ba1) ∧
    ((∀ ba0 ∈ S, ∀ ba1 ∈ S, TailRight ba0 ba1) →
      TotalOrder (fun ba0 ba1 : S => ba0.1.eq ba1.1 = true) fun ba0 ba1 : S => ba0.1.cmp ba1.1) := by
  have order := lexList_totalOrder boolCmp_totalOrder
  have zero {ba0 ba1 : Bitarray} (lex : ba0.cmp ba1 = lexList boolCmp ba0.bits ba1.bits) :
      ba0.cmp ba1 = 0 ↔ ba0.eq ba1 = true := by
    rw [lex, order.eq_zero, eq_iff]
  constructor
  · rw [← cmp_lex_iff]
    exact ⟨And.left, fun lex => ⟨lex, zero lex⟩⟩
  intro right
  have lex (ba0 ba1 : S) : ba0.1.cmp ba1.1 = lexList boolCmp ba0.1.bits ba1.1.bits :=
    (cmp_lex_iff _ _).mpr (right _ ba0.2 _ ba1.2)
  refine ⟨fun ba0 ba1 => ?_, fun ba0 ba1 ba2 => ?_, fun ba0 ba1 => zero (lex ba0 ba1)⟩
  · rw [lex, lex]
    exact order.swap _ _
  · rw [lex, lex, lex]
    exact order.trans _ _ _

/-- The first difference is the bit behind the shorter array. -/
theorem cmp_correct_iff_small :
    let short : Bitarray := { cap := 1, size := 2, arr := fun _ => 1 }
    let long : Bitarray := { cap := 1, size := 3, arr := fun _ => 5 }
    (short.cmp long = lexList boolCmp short.bits long.bits ∧ (short.cmp long = 0 ↔ short.eq long = true)) ∧
    TotalOrder (fun ba0 ba1 : ({short, long} : Set Bitarray) => ba0.1.eq ba1.1 = true)
      fun ba0 ba1 : ({short, long} : Set Bitarray) => ba0.1.cmp ba1.1 := by
  intro short long
  have unlike : short.bitAt 2 ≠ long.bitAt 2 := by decide
  have up : TailRight short long := fun k differs tail _ => by
    obtain rfl : k = 2 := le_antisymm (not_lt.mp fun later => differs.least 2 (Nat.zero_le 2) later unlike) tail
    decide
  have down : TailRight long short := fun k differs tail _ => by
    obtain rfl : k = 2 := le_antisymm (not_lt.mp fun later => differs.least 2 (Nat.zero_le 2) later unlike.symm) tail
    decide
  have both := cmp_correct_iff short long {short, long}
  refine ⟨both.1.mpr up, both.2 ?_⟩
  rintro _ (rfl | rfl) _ (rfl | rfl)
  · exact fun k differs => absurd rfl differs.holds
  · exact up
  · exact down
  · exact fun k differs => absurd rfl differs.holds

/-- The comparison does not mask the last word. -/
theorem cmp_unmasked : ∃ ba0 ba1 : Bitarray, ba0.bits = ba1.bits ∧ ba0.eq ba1 = true ∧ ba0.cmp ba1 = -1 :=
  ⟨{ cap := 8, size := 1, arr := fun _ => 1 }, { cap := 8, size := 1, arr := fun _ => 3 }, by decide, by decide,
    by decide⟩

end Culibs.Cucon.Bitarray
