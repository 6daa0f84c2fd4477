import Culibs.Cucon.Ucset.Key

namespace Culibs.Cucon.Ucset

open DyadicBlock BitVec

/-- The bit for the lowest seven bits of `i`. -/
def bit (bitset : Bitset) (i : Nat) : Bool :=
  (bitset (Fin.ofNat 2 (i / 64))).getLsbD (i % 64)

theorem bitsetIndex_eq (key : Word) : bitsetIndex key = Fin.ofNat 2 (key.toNat / 64) := by
  apply Fin.ext
  simp only [bitsetIndex, Fin.ofNat, toNat_and_mask _ _ toNat_bitsetMask]
  omega

theorem getLsbD_bitsetBit (key : Word) (bound : j < 64) :
    (bitsetBit key).getLsbD j = decide (j = key.toNat % 64) := by
  have position : (key &&& bitsetMask).toNat % 64 = key.toNat % 64 := by
    rw [toNat_and_mask _ _ toNat_bitsetMask]
    omega
  rw [bitsetBit, position]
  rw [getLsbD_shiftLeft]
  simp only [bound, decide_true, Bool.true_and]
  by_cases before : j < key.toNat % 64
  · simp [before, ne_of_lt before]
  · have first : (1 : Word).getLsbD (j - key.toNat % 64) = decide (j - key.toNat % 64 = 0) := by
      rw [← testBit_toNat, show (1 : Word).toNat = 2 ^ 1 - 1 by decide, Nat.testBit_two_pow_sub_one, decide_eq_decide]
      omega
    rw [first]
    simp only [before, decide_false, Bool.not_false, Bool.true_and, decide_eq_decide]
    omega

theorem index_eq_iff (a b : Nat) : Fin.ofNat 2 (a / 64) = Fin.ofNat 2 (b / 64) ↔
    a % 128 / 64 = b % 128 / 64 := by
  simp only [Fin.ext_iff, Fin.ofNat]
  omega

variable (bitset : Bitset)

/-- Updating the word of one key by a bit operation touches that bit only. -/
theorem bit_update (key : Word) (i : Nat) (word : Word) (value : Bool)
    (effect : ∀ j < 64, word.getLsbD j =
      if j = key.toNat % 64 then value else (bitset (bitsetIndex key)).getLsbD j) :
    bit (Function.update bitset (bitsetIndex key) word) i =
      if i % 128 = key.toNat % 128 then value else bit bitset i := by
  simp only [bit, Function.update_apply, bitsetIndex_eq, index_eq_iff]
  rw [bitsetIndex_eq] at effect
  by_cases same : i % 128 / 64 = key.toNat % 128 / 64
  · have index := (index_eq_iff i key.toNat).mpr same
    have position : i % 64 = key.toNat % 64 ↔ i % 128 = key.toNat % 128 := by omega
    rw [if_pos same, effect _ (Nat.mod_lt _ (by omega)), index]
    simp only [position]
  · have : ¬ i % 128 = key.toNat % 128 := by omega
    rw [if_neg same, if_neg this]

theorem bit_setBit (key : Word) (i : Nat) :
    bit (setBit bitset key) i = (decide (i % 128 = key.toNat % 128) || bit bitset i) := by
  rw [setBit, bit_update bitset key i _ true]
  · by_cases same : i % 128 = key.toNat % 128 <;> simp [same]
  · intro j bound
    rw [getLsbD_or, getLsbD_bitsetBit key bound]
    by_cases same : j = key.toNat % 64 <;> simp [same]

theorem bit_clear (key : Word) (i : Nat) :
    bit (Function.update bitset (bitsetIndex key)
      (bitset (bitsetIndex key) &&& ~~~(bitsetBit key))) i =
      (!decide (i % 128 = key.toNat % 128) && bit bitset i) := by
  rw [bit_update bitset key i _ false]
  · by_cases same : i % 128 = key.toNat % 128 <;> simp [same]
  · intro j bound
    rw [getLsbD_and, getLsbD_not, getLsbD_bitsetBit key bound]
    by_cases same : j = key.toNat % 64
    · simp [same]
    · simp [same, decide_false, Bool.not_false, bound, decide_true]

theorem word_and_bit (word key : Word) :
    word &&& bitsetBit key = 0 ↔ word.getLsbD (key.toNat % 64) = false := by
  have small : key.toNat % 64 < 64 := Nat.mod_lt _ (by omega)
  constructor
  · intro zero
    have at_key := congrArg (fun x : Word => x.getLsbD (key.toNat % 64)) zero
    rw [getLsbD_and, getLsbD_bitsetBit key small] at at_key
    simpa using at_key
  · intro clear
    apply eq_of_getLsbD_eq
    intro j bound
    rw [getLsbD_and, getLsbD_bitsetBit key bound]
    by_cases same : j = key.toNat % 64 <;> simp [same, clear]

theorem ucleafFind_eq (node : Ucset) (key : Word) :
    ucleafFind node key = bit node.bitset key.toNat := by
  rw [ucleafFind, bit, ← bitsetIndex_eq]
  cases set : (node.bitset (bitsetIndex key)).getLsbD (key.toNat % 64) with
  | false => simpa using (word_and_bit _ _).mpr set
  | true =>
    rw [bne_iff_ne]
    intro zero
    simp [(word_and_bit _ _).mp zero] at set

@[simp] theorem bit_zero (i : Nat) : bit (fun _ => 0#64) i = false := by simp [bit]

@[simp] theorem bit_or (a b : Bitset) (i : Nat) :
    bit (fun j => a j ||| b j) i = (bit a i || bit b i) := by simp [bit]

@[simp] theorem bit_and (a b : Bitset) (i : Nat) :
    bit (fun j => a j &&& b j) i = (bit a i && bit b i) := by simp [bit]

@[simp] theorem bit_and_not (a b : Bitset) (i : Nat) :
    bit (fun j => a j &&& ~~~(b j)) i = (bit a i && !bit b i) := by
  have : i % 64 < 64 := Nat.mod_lt _ (by omega)
  simp only [bit, getLsbD_and, getLsbD_not, this, decide_true, Bool.true_and]

theorem bit_mod (i : Nat) : bit bitset (i % 128) = bit bitset i := by
  have index : Fin.ofNat 2 (i % 128 / 64) = Fin.ofNat 2 (i / 64) := by
    rw [index_eq_iff]; omega
  have position : i % 128 % 64 = i % 64 := by omega
  simp only [bit, index, position]

theorem bitset_ext (same : ∀ i < 128, bit a i = bit b i) : a = b := by
  funext index
  apply eq_of_getLsbD_eq
  intro j bound
  have at_j := same (64 * index.val + j) (by omega)
  have first : Fin.ofNat 2 ((64 * index.val + j) / 64) = index := by
    apply Fin.ext
    simp only [Fin.ofNat]
    omega
  have second : (64 * index.val + j) % 64 = j := by omega
  simpa only [bit, first, second] using at_j

theorem bit_word (w : Fin 2) (bound : j < 64) :
    bit bitset (64 * w.val + j) = (bitset w).getLsbD j := by
  have index : Fin.ofNat 2 ((64 * w.val + j) / 64) = w := by
    apply Fin.ext
    simp only [Fin.ofNat]
    omega
  rw [bit, index, show (64 * w.val + j) % 64 = j by omega]

theorem bit_first (bound : j < 64) : bit bitset j = (bitset 0).getLsbD j := by
  simpa using bit_word bitset 0 bound

theorem bit_second (bound : j < 64) :
    bit bitset (64 + j) = (bitset 1).getLsbD j := by
  simpa using bit_word bitset 1 bound

theorem nonzero_iff :
    (∃ i, bitset i ≠ 0) ↔ ∃ i < 128, bit bitset i = true := by
  constructor
  · intro nonzero
    by_contra none
    have zero : bitset = fun _ => 0#64 := bitset_ext fun i bound => by
      cases value : bit bitset i with
      | false => exact (bit_zero i).symm
      | true => exact absurd ⟨i, bound, value⟩ none
    obtain ⟨i, ne⟩ := nonzero
    exact ne (congrFun zero i)
  · rintro ⟨i, _, set⟩
    refine ⟨Fin.ofNat 2 (i / 64), fun zero => ?_⟩
    rw [bit, zero] at set
    simp at set

end Culibs.Cucon.Ucset
