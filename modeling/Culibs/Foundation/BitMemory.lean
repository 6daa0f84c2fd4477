import Mathlib.Logic.Function.Basic

/-! The bits of a memory of words, and ranges of them that are replaced by the images of others. -/

namespace Culibs.BitMemory

open Function BitVec Nat

variable {w : Nat}

/-- A bit of a memory, by its position from the first bit of word 0. -/
def bit (memory : Nat → BitVec w) (position : Nat) : Bool :=
  (memory (position / w)).getLsbD (position % w)

/-- The bits of a range have other values, and no other bit is changed. -/
def Replaces (memory memory' : Nat → BitVec w) (start length : Nat) (value : Nat → Bool) : Prop :=
  ∀ position, bit memory' position =
    if start ≤ position ∧ position < start + length then value (position - start) else bit memory position

/-- The bits of a range are the images of those of two other ranges before the change. -/
def Images (f : Bool → Bool → Bool) (memory memory' : Nat → BitVec w) (dst src0 src1 length : Nat) : Prop :=
  Replaces memory memory' dst length fun i => f (bit memory (src0 + i)) (bit memory (src1 + i))

/-- Two ranges are equal or have no bit in common. -/
def Apart (src dst length : Nat) : Prop :=
  ∀ i < length, ∀ j < length, src + i = dst + j → i = j

theorem bit_word (memory : Nat → BitVec w) (address : Nat) (bound : j < w) :
    bit memory (address * w + j) = (memory address).getLsbD j := by
  have quotient : (address * w + j) / w = address := by
    rw [Nat.mul_comm, Nat.mul_add_div (Nat.zero_lt_of_lt bound), Nat.div_eq_of_lt bound, Nat.add_zero]
  rw [bit, quotient, Nat.mul_comm, Nat.mul_add_mod, Nat.mod_eq_of_lt bound]

theorem getLsbD_window (low high : BitVec w) (inside : offset ≤ w) (bound : j < w) :
    (low >>> offset ||| high <<< (w - offset)).getLsbD j =
      if offset + j < w then low.getLsbD (offset + j) else high.getLsbD (offset + j - w) := by
  rw [getLsbD_or, getLsbD_ushiftRight, getLsbD_shiftLeft]
  split
  · next within =>
    have before : j < w - offset := by omega
    simp [bound, before]
  · next beyond =>
    have after : ¬ j < w - offset := by omega
    have index : j - (w - offset) = offset + j - w := by omega
    rw [getLsbD_of_ge low _ (Nat.le_of_not_lt beyond), index]
    simp [bound, after]

namespace Apart

variable {src dst length extra : Nat}

theorem refl (position length : Nat) : Apart position position length := by
  intro i _ j _ same
  exact Nat.add_left_cancel same

theorem take (apart : Apart src dst (length + extra)) : Apart src dst length := by
  intro i boundI j boundJ
  exact apart i (Nat.lt_add_right extra boundI) j (Nat.lt_add_right extra boundJ)

theorem drop (apart : Apart src dst (length + extra)) : Apart (src + length) (dst + length) extra := by
  intro i boundI j boundJ same
  have shifted := apart (length + i) (Nat.add_lt_add_left boundI length) (length + j)
    (Nat.add_lt_add_left boundJ length) (by omega)
  exact Nat.add_left_cancel shifted

end Apart

namespace Replaces

variable {memory memory' : Nat → BitVec w} {start length : Nat} {value value' : Nat → Bool}

theorem empty (memory : Nat → BitVec w) (start : Nat) (value : Nat → Bool) : Replaces memory memory start 0 value := by
  intro position
  rw [if_neg]
  omega

theorem congr (replaces : Replaces memory memory' start length value) (same : ∀ i < length, value i = value' i) :
    Replaces memory memory' start length value' := by
  intro position
  rw [replaces position]
  split
  · exact same _ (by omega)
  · rfl

theorem store {address : Nat} {word : BitVec w} (offset : Nat) (within : offset + length ≤ w)
    (bits : ∀ j < w, word.getLsbD j =
      if offset ≤ j ∧ j < offset + length then value (j - offset) else (memory address).getLsbD j) :
    Replaces memory (update memory address word) (address * w + offset) length value := by
  intro position
  rcases Nat.eq_zero_or_pos w with rfl | pos
  · rw [if_neg (by omega), bit, bit, getLsbD_of_ge _ _ (zero_le _), getLsbD_of_ge _ _ (zero_le _)]
  have parts : position / w * w + position % w = position := div_add_mod' position w
  have remainder : position % w < w := mod_lt position pos
  rw [bit, update_apply]
  split
  · next here =>
    rw [here] at parts
    rw [bits _ remainder]
    by_cases inside : offset ≤ position % w ∧ position % w < offset + length
    · rw [if_pos inside, if_pos (by omega)]
      congr 1
      omega
    · rw [if_neg inside, if_neg (by omega), bit, here]
  · next elsewhere =>
    have outside : position / w * w + w ≤ address * w ∨ address * w + w ≤ position / w * w := by
      rcases Nat.lt_or_gt_of_ne elsewhere with below | above
      · left
        simpa only [Nat.succ_mul] using Nat.mul_le_mul_right w (Nat.succ_le_of_lt below)
      · right
        simpa only [Nat.succ_mul] using Nat.mul_le_mul_right w (Nat.succ_le_of_lt above)
    rw [if_neg (by omega), bit]

/-- The bits of a source that come after those that have been replaced are as before. -/
theorem source (replaces : Replaces memory memory' start length value)
    (apart : Apart src start total) (after : length ≤ i) (bound : i < total) :
    bit memory' (src + i) = bit memory (src + i) := by
  rw [replaces, if_neg]
  intro inside
  have same := apart i bound (src + i - start) (by omega) (by omega)
  omega

end Replaces

namespace Images

variable {f : Bool → Bool → Bool} {memory memory1 memory2 : Nat → BitVec w} {dst src0 src1 length extra : Nat}

theorem swap (images : Images (fun x y => f y x) memory memory1 dst src1 src0 length) :
    Images f memory memory1 dst src0 src1 length :=
  images

theorem append (first : Images f memory memory1 dst src0 src1 length)
    (second : Images f memory1 memory2 (dst + length) (src0 + length) (src1 + length) extra)
    (apart0 : Apart src0 dst (length + extra)) (apart1 : Apart src1 dst (length + extra)) :
    Images f memory memory2 dst src0 src1 (length + extra) := by
  intro position
  rw [second position]
  by_cases late : dst + length ≤ position ∧ position < dst + length + extra
  · have index (src : Nat) : src + length + (position - (dst + length)) = src + (position - dst) := by omega
    rw [if_pos late, if_pos (by omega)]
    simp only [index]
    rw [first.source apart0 (by omega) (by omega), first.source apart1 (by omega) (by omega)]
  · rw [if_neg late, first position]
    by_cases early : dst ≤ position ∧ position < dst + length
    · rw [if_pos early, if_pos (by omega)]
    · rw [if_neg early, if_neg (by omega)]

end Images

end Culibs.BitMemory
