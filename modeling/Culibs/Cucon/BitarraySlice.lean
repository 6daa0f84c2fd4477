import Culibs.Cu.Wordarr

/-! Bitwise operations on slices of bit-arrays, `cucon/bitarray_slice.c`. -/

namespace Culibs.Cucon

open Cu BitMemory Function Option Nat
open BitVec (getLsbD_and getLsbD_or)

/-- A range of bits. -/
structure BitarraySlice where
  offset : Nat
  size : Nat
  /-- the address of a word -/
  arr : Nat
  inWord : offset < 64

namespace BitarraySlice

/-- `cucon_bitarray_slice_at` -/
def sliceAt (sl : BitarraySlice) (mem : Memory) (i : Nat) : Bool :=
  let i := i + sl.offset
  (mem (sl.arr + i / 64) >>> (i % 64)).getLsbD 0

def wordMask (c : Nat) : Word := 1 <<< c - 1

/-- An `offset` and an `arr` that are moved on together. -/
structure Cursor where
  offset : Nat
  arr : Nat

def readBits (mem : Memory) (width : Nat) (src : Cursor) : Word × Cursor :=
  let w := mem src.arr >>> src.offset
  if src.offset + width > 64 then
    let arr := src.arr + 1
    (w ||| mem arr <<< (64 - src.offset), ⟨src.offset + width - 64, arr⟩)
  else if src.offset + width = 64 then (w, ⟨0, src.arr + 1⟩)
  else (w, ⟨src.offset + width, src.arr⟩)

/-- `if (val) *dst_arr |= mask; else *dst_arr &= ~mask;` -/
def fillMasked (val : Bool) (mask : Word) (dstArr : Nat) (mem : Memory) : Memory :=
  update mem dstArr (if val then mem dstArr ||| mask else mem dstArr &&& ~~~mask)

/-- The full words and the partial last one, as in the two functions below. -/
def fillRest (val : Bool) (size dstArr : Nat) (mem : Memory) : Memory :=
  let sizew := size / 64
  let mem := wordarrFill sizew dstArr (if val then ~~~0 else 0) mem
  let lastWidth := size % 64
  if lastWidth ≠ 0 then fillMasked val (wordMask lastWidth) (dstArr + sizew) mem else mem

def fill (dst : BitarraySlice) (val : Bool) (mem : Memory) : Memory :=
  if dst.offset ≠ 0 then
    let mask := ~~~wordMask dst.offset
    let firstWidth := 64 - dst.offset
    if firstWidth > dst.size then fillMasked val (mask &&& wordMask (dst.offset + dst.size)) dst.arr mem
    else fillRest val (dst.size - firstWidth) (dst.arr + 1) (fillMasked val mask dst.arr mem)
  else fillRest val dst.size dst.arr mem

/-- `*dst_arr = (*dst_arr & ~mask) | (~*dst_arr & mask);` -/
def notMasked (mask : Word) (dstArr : Nat) (mem : Memory) : Memory :=
  update mem dstArr (mem dstArr &&& ~~~mask ||| ~~~mem dstArr &&& mask)

def notRest (size dstArr : Nat) (mem : Memory) : Memory :=
  let sizew := size / 64
  let mem := mapLoop (fun x => ~~~x) sizew dstArr (.aligned dstArr) mem
  let lastWidth := size % 64
  if lastWidth ≠ 0 then notMasked (wordMask lastWidth) (dstArr + sizew) mem else mem

def updateNot (dst : BitarraySlice) (mem : Memory) : Memory :=
  if dst.offset ≠ 0 then
    let mask := ~~~wordMask dst.offset
    let firstWidth := 64 - dst.offset
    if firstWidth > dst.size then notMasked (mask &&& wordMask (dst.offset + dst.size)) dst.arr mem
    else notRest (dst.size - firstWidth) (dst.arr + 1) (notMasked mask dst.arr mem)
  else notRest dst.size dst.arr mem

def updateBool1f (f : Bool1f) (dst : BitarraySlice) (mem : Memory) : Memory :=
  match f with
  | .ident => mem
  | .false => dst.fill false mem
  | .true => dst.fill true mem
  | .not => dst.updateNot mem

/-- `*dst_arr = (*dst_arr & ~mask) | (y & mask);` -/
def storeMasked (y mask : Word) (dstArr : Nat) (mem : Memory) : Memory :=
  update mem dstArr (mem dstArr &&& ~~~mask ||| y &&& mask)

def copyBool1fRest (f : Bool1f) (size dstArr : Nat) (src0 : Cursor) (mem : Memory) : Memory :=
  let sizew := size / 64
  let mem := wordarrSkewcopyBitimg f sizew dstArr src0.offset src0.arr mem
  let lastWidth := size % 64
  if lastWidth ≠ 0 then
    let (x0, _) := readBits mem lastWidth ⟨src0.offset, src0.arr + sizew⟩
    storeMasked (wordBitimg f x0) (wordMask lastWidth) (dstArr + sizew) mem
  else mem

def copyBool1f (f : Bool1f) (dst src0 : BitarraySlice) (mem : Memory) : Memory :=
  if dst.offset ≠ 0 then
    let mask := ~~~wordMask dst.offset
    let firstWidth := 64 - dst.offset
    let (x0, src0) := readBits mem firstWidth ⟨src0.offset, src0.arr⟩
    let y := wordBitimg f x0 <<< dst.offset
    if firstWidth > dst.size then storeMasked y (mask &&& wordMask (dst.offset + dst.size)) dst.arr mem
    else copyBool1fRest f (dst.size - firstWidth) (dst.arr + 1) src0
      (update mem dst.arr (mem dst.arr &&& ~~~mask ||| y))
  else copyBool1fRest f dst.size dst.arr ⟨src0.offset, src0.arr⟩ mem

def copyBool2fRest (f : Bool2f) (size dstArr : Nat) (src0 src1 : Cursor) (mem : Memory) : Option Memory := do
  let sizew := size / 64
  let mem ← wordarrSkewcopyBitimg2 f sizew dstArr src0.offset src0.arr src1.offset src1.arr mem
  let lastWidth := size % 64
  if lastWidth ≠ 0 then
    let (x0, _) := readBits mem lastWidth ⟨src0.offset, src0.arr + sizew⟩
    let (x1, _) := readBits mem lastWidth ⟨src1.offset, src1.arr + sizew⟩
    let y ← wordBitimg2 f x0 x1
    return storeMasked y (wordMask lastWidth) (dstArr + sizew) mem
  else return mem

def copyBool2f (f : Bool2f) (dst src0 src1 : BitarraySlice) (mem : Memory) : Option Memory := do
  if dst.offset ≠ 0 then
    let mask := ~~~wordMask dst.offset
    let firstWidth := 64 - dst.offset
    let (x0, src0) := readBits mem firstWidth ⟨src0.offset, src0.arr⟩
    let (x1, src1) := readBits mem firstWidth ⟨src1.offset, src1.arr⟩
    let image ← wordBitimg2 f x0 x1
    let y := image <<< dst.offset
    if firstWidth > dst.size then return storeMasked y (mask &&& wordMask (dst.offset + dst.size)) dst.arr mem
    else
      copyBool2fRest f (dst.size - firstWidth) (dst.arr + 1) src0 src1
        (update mem dst.arr (mem dst.arr &&& ~~~mask ||| y))
  else copyBool2fRest f dst.size dst.arr ⟨src0.offset, src0.arr⟩ ⟨src1.offset, src1.arr⟩ mem

def updateBool2f (f : Bool2f) (dst src1 : BitarraySlice) (mem : Memory) : Option Memory :=
  copyBool2f f dst dst src1 mem

theorem getLsbD_wordMask (small : c < 64) (j : Nat) : (wordMask c).getLsbD j = decide (j < c) := by
  have one : 1 ≤ 2 ^ c := Nat.one_le_two_pow
  have fits : 2 ^ c < 2 ^ 64 := Nat.pow_lt_pow_right (by decide) small
  have shifted : (1#64 <<< c).toNat = 2 ^ c := by
    rw [BitVec.toNat_shiftLeft, shiftLeft_eq, BitVec.toNat_ofNat, mod_eq_of_lt (by decide : 1 < 2 ^ 64),
      one_mul, mod_eq_of_lt fits]
  have value : (wordMask c).toNat = 2 ^ c - 1 := by
    change (1#64 <<< c - 1#64).toNat = _
    rw [BitVec.toNat_sub_of_le (by rw [BitVec.le_def, shifted]; exact one), shifted]
    rfl
  rw [← BitVec.testBit_toNat, value, testBit_two_pow_sub_one]

/-- The bits of a mask from `offset` to `offset + length`. -/
def Masks (mask : Word) (offset length : Nat) : Prop :=
  ∀ j < 64, mask.getLsbD j = decide (offset ≤ j ∧ j < offset + length)

variable {width : Nat}

theorem masks_last (small : width < 64) : Masks (wordMask width) 0 width := by
  intro j _
  rw [getLsbD_wordMask small]
  simp

variable {offset : Nat}

theorem masks_first (small : offset < 64) : Masks (~~~wordMask offset) offset (64 - offset) := by
  intro j bound
  rw [getLsbD_bitnot _ bound, getLsbD_wordMask small, ← decide_not, decide_eq_decide]
  omega

theorem masks_within {size : Nat} (small : offset + size < 64) :
    Masks (~~~wordMask offset &&& wordMask (offset + size)) offset size := by
  intro j bound
  rw [getLsbD_and, getLsbD_bitnot _ bound, getLsbD_wordMask (by omega), getLsbD_wordMask small, ← decide_not,
    ← Bool.decide_and, decide_eq_decide]
  omega

variable {mem : Memory} {mask : Word} {offset length dstArr size : Nat}
variable {y : Word} {value : Nat → Bool}

theorem storeMasked_replaces (masks : Masks mask offset length) (within : offset + length ≤ 64)
    (bits : ∀ j, offset ≤ j → j < offset + length → y.getLsbD j = value (j - offset)) :
    Replaces mem (storeMasked y mask dstArr mem) (dstArr * 64 + offset) length value := by
  apply Replaces.store offset within
  intro j bound
  rw [getLsbD_or, getLsbD_and, getLsbD_and, getLsbD_bitnot _ bound, masks j bound]
  split
  · next inside => rw [decide_eq_true inside, bits j inside.1 inside.2, Bool.not_true, Bool.and_false, Bool.and_true,
      Bool.false_or]
  · next outside => rw [decide_eq_false outside, Bool.not_false, Bool.and_true, Bool.and_false, Bool.or_false]

theorem fillMasked_eq (val : Bool) (mask : Word) (dstArr : Nat) (mem : Memory) :
    fillMasked val mask dstArr mem = storeMasked (if val then ~~~0 else 0) mask dstArr mem := by
  rw [fillMasked, storeMasked]
  congr 1
  apply BitVec.eq_of_getLsbD_eq
  intro j bound
  cases val with
  | false => simp [bound]
  | true =>
    simp only [if_true, getLsbD_or, getLsbD_and, getLsbD_bitnot _ bound, getLsbD_zeros]
    cases (mem dstArr).getLsbD j <;> cases mask.getLsbD j <;> rfl

theorem notMasked_eq (mask : Word) (dstArr : Nat) (mem : Memory) :
    notMasked mask dstArr mem = storeMasked (~~~mem dstArr) mask dstArr mem :=
  rfl

/-- The first partial word is written without the mask, since there are no bits below it. -/
theorem storeFirst_eq (small : offset < 64) (image : Word) (dstArr : Nat) (mem : Memory) :
    update mem dstArr (mem dstArr &&& ~~~(~~~wordMask offset) ||| image <<< offset) =
      storeMasked (image <<< offset) (~~~wordMask offset) dstArr mem := by
  congr 2
  apply BitVec.eq_of_getLsbD_eq
  intro j bound
  rw [getLsbD_and, getLsbD_bitnot _ bound, getLsbD_wordMask small, BitVec.getLsbD_shiftLeft]
  cases decide (j < offset) <;> simp

def Cursor.position (src : Cursor) : Nat := src.arr * 64 + src.offset

theorem readBits_spec (mem : Memory) (src : Cursor) (inside : src.offset < 64) (small : width < 64) :
    (∀ j < width, (readBits mem width src).1.getLsbD j = bit mem (src.position + j)) ∧
      (readBits mem width src).2.offset < 64 ∧ (readBits mem width src).2.position = src.position + width := by
  have low (j : Nat) (within : src.offset + j < 64) :
      (mem src.arr >>> src.offset).getLsbD j = bit mem (src.position + j) := by
    rw [BitVec.getLsbD_ushiftRight, Cursor.position, add_assoc, bit_word mem src.arr within]
  rw [readBits]
  split
  · refine ⟨fun j bound => ?_, by simp only []; omega, by simp only [Cursor.position]; omega⟩
    change (mem src.arr >>> src.offset ||| mem (src.arr + 1) <<< (64 - src.offset)).getLsbD j = _
    rw [getLsbD_window _ _ (le_of_lt inside) (lt_trans bound small)]
    split
    · next within => rw [← low j within, BitVec.getLsbD_ushiftRight]
    · next beyond =>
      have index : src.position + j = (src.arr + 1) * 64 + (src.offset + j - 64) := by
        rw [Cursor.position]
        omega
      rw [index, bit_word mem (src.arr + 1) (by omega)]
  · split
    · exact ⟨fun j bound => low j (by omega), zero_lt_succ 63, by simp only [Cursor.position]; omega⟩
    · exact ⟨fun j bound => low j (by omega), by simp only []; omega, by simp only [Cursor.position]; omega⟩

section Parts

variable {f : Bool → Bool → Bool} {mem1 mem2 : Memory} {dst position0 position1 width : Nat}
  (apart0 : Apart position0 dst size) (apart1 : Apart position1 dst size)

include apart0 apart1

theorem first_images (first : Images f mem mem1 dst position0 position1 width) (fits : width ≤ size)
    (rest : Images f mem1 mem2 (dst + width) (position0 + width) (position1 + width) (size - width)) :
    Images f mem mem2 dst position0 position1 size := by
  have parts : width + (size - width) = size := Nat.add_sub_cancel' fits
  rw [← parts] at apart0 apart1 ⊢
  exact first.append rest apart0 apart1

theorem last_images (full : Images f mem mem1 dst position0 position1 (size / 64 * 64))
    (last : size % 64 ≠ 0 → Images f mem1 mem2 (dst + size / 64 * 64) (position0 + size / 64 * 64)
      (position1 + size / 64 * 64) (size % 64)) :
    Images f mem (if size % 64 ≠ 0 then mem2 else mem1) dst position0 position1 size := by
  have parts : size / 64 * 64 + size % 64 = size := div_add_mod' size 64
  by_cases whole : size % 64 = 0
  · rw [if_neg (not_not_intro whole)]
    rw [whole, add_zero] at parts
    rwa [parts] at full
  · rw [if_pos whole]
    rw [← parts] at apart0 apart1
    have images := full.append (last whole) apart0 apart1
    rwa [parts] at images

end Parts

theorem storeLast_replaces (small : width < 64)
    (bits : ∀ j < width, y.getLsbD j = value j) :
    Replaces mem (storeMasked y (wordMask width) (dstArr + sizew) mem) (dstArr * 64 + sizew * 64) width value := by
  rw [← add_mul]
  apply storeMasked_replaces (masks_last small) (by omega)
  intro j _ bound
  exact bits j (by omega)

/-- The position of the first bit. -/
def start (sl : BitarraySlice) : Nat := sl.arr * 64 + sl.offset

theorem start_next (dst : BitarraySlice) : dst.start + (64 - dst.offset) = (dst.arr + 1) * 64 := by
  have inWord := dst.inWord
  rw [start]
  omega

theorem start_aligned (dst : BitarraySlice) (aligned : dst.offset = 0) : dst.start = dst.arr * 64 := by
  rw [start, aligned, add_zero]

section Fill

variable (val : Bool)

theorem getLsbD_filled {j : Nat} (bound : j < 64) : (if val then ~~~0 else 0 : Word).getLsbD j = val := by
  cases val with
  | false => exact getLsbD_zeros j
  | true => exact getLsbD_ones bound

theorem fillRest_images (size dstArr : Nat) (mem : Memory) :
    Images (fun _ _ => val) mem (fillRest val size dstArr mem) (dstArr * 64) (dstArr * 64) (dstArr * 64) size := by
  have full : Images (fun _ _ => val) mem (wordarrFill (size / 64) dstArr (if val then ~~~0 else 0) mem) (dstArr * 64)
      (dstArr * 64) (dstArr * 64) (size / 64 * 64) :=
    wordarrFill_replaces fun j bound => getLsbD_filled val bound
  refine last_images (.refl _ _) (.refl _ _) full fun _ => ?_
  have small : size % 64 < 64 := mod_lt _ (by decide)
  rw [fillMasked_eq]
  exact storeLast_replaces small fun j bound => getLsbD_filled val (lt_trans bound small)

theorem fill_images (dst : BitarraySlice) (mem : Memory) :
    Images (fun _ _ => val) mem (dst.fill val mem) dst.start dst.start dst.start dst.size := by
  have inWord := dst.inWord
  rw [fill]
  split
  · simp only [fillMasked_eq]
    split
    · exact storeMasked_replaces (masks_within (by omega)) (by omega) fun j _ bound => getLsbD_filled val (by omega)
    · next long =>
      have first : Images (fun _ _ => val) mem _ dst.start dst.start dst.start (64 - dst.offset) :=
        storeMasked_replaces (masks_first inWord) (by omega) fun j _ bound => getLsbD_filled val (by omega)
      refine first_images (.refl _ _) (.refl _ _) first (by omega) ?_
      rw [dst.start_next]
      exact fillRest_images val _ _ _
  · next aligned =>
    rw [dst.start_aligned (not_not.mp aligned)]
    exact fillRest_images val _ _ _

end Fill

section Not

theorem not_bits (mem : Memory) (address offset : Nat) {j : Nat} (bound : j < 64) (after : offset ≤ j) :
    (~~~mem address).getLsbD j = !bit mem (address * 64 + offset + (j - offset)) := by
  rw [getLsbD_bitnot _ bound, add_assoc, Nat.add_sub_cancel' after, bit_word mem address bound]

theorem notRest_images (size dstArr : Nat) (mem : Memory) :
    Images (fun x _ => !x) mem (notRest size dstArr mem) (dstArr * 64) (dstArr * 64) (dstArr * 64) size := by
  have full : Images (fun x _ => !x) mem (mapLoop (fun x => ~~~x) (size / 64) dstArr (.aligned dstArr) mem) (dstArr * 64)
      (dstArr * 64) (dstArr * 64) (size / 64 * 64) :=
    mapLoop_replaces (fun x _ bound => getLsbD_bitnot x bound) (Reader.At.aligned mem _ dstArr) (.refl _ _)
  refine last_images (.refl _ _) (.refl _ _) full fun _ => ?_
  have small : size % 64 < 64 := mod_lt _ (by decide)
  refine storeLast_replaces small fun j bound => ?_
  rw [← add_mul]
  exact not_bits _ (dstArr + size / 64) 0 (lt_trans bound small) (zero_le j)

theorem updateNot_images (dst : BitarraySlice) (mem : Memory) :
    Images (fun x _ => !x) mem (dst.updateNot mem) dst.start dst.start dst.start dst.size := by
  have inWord := dst.inWord
  rw [updateNot]
  split
  · simp only [notMasked_eq]
    split
    · exact storeMasked_replaces (masks_within (by omega)) (by omega) fun j after bound =>
        not_bits mem dst.arr dst.offset (by omega) after
    · next long =>
      have first : Images (fun x _ => !x) mem _ dst.start dst.start dst.start (64 - dst.offset) :=
        storeMasked_replaces (masks_first inWord) (by omega) fun j after bound =>
          not_bits mem dst.arr dst.offset (by omega) after
      refine first_images (.refl _ _) (.refl _ _) first (by omega) ?_
      rw [dst.start_next]
      exact notRest_images _ _ _
  · next aligned =>
    rw [dst.start_aligned (not_not.mp aligned)]
    exact notRest_images _ _ _

end Not

variable (f : Bool1f)

private theorem updateBool1f_images (dst : BitarraySlice) (mem : Memory) :
    Images (fun x _ => bool1fApply f x) mem (dst.updateBool1f f mem) dst.start dst.start dst.start dst.size := by
  cases f with
  | ident =>
    intro position
    split
    · next inside =>
      change bit mem position = bool1fApply .ident (bit mem (dst.start + (position - dst.start)))
      rw [Nat.add_sub_cancel' inside.1]
      cases bit mem position <;> rfl
    · rfl
  | false =>
    apply (fill_images false dst mem).congr
    intro i _
    cases bit mem (dst.start + i) <;> rfl
  | true =>
    apply (fill_images true dst mem).congr
    intro i _
    cases bit mem (dst.start + i) <;> rfl
  | not =>
    apply (updateNot_images dst mem).congr
    intro i _
    cases bit mem (dst.start + i) <;> rfl

section Copy

variable {dst src0 src1 : BitarraySlice}

theorem readLast_spec {src : Cursor} (inside : src.offset < 64) (mem : Memory) (size : Nat) (bound : j < size % 64) :
    (readBits mem (size % 64) ⟨src.offset, src.arr + size / 64⟩).1.getLsbD j =
      bit mem (src.position + size / 64 * 64 + j) := by
  have small : size % 64 < 64 := mod_lt _ (by decide)
  have moved : Cursor.position ⟨src.offset, src.arr + size / 64⟩ = src.position + size / 64 * 64 := by
    simp only [Cursor.position]
    omega
  rw [← moved]
  exact (readBits_spec mem ⟨src.offset, src.arr + size / 64⟩ inside small).1 j bound

private theorem copyBool1fRest_eq (size dstArr : Nat) (src0 : Cursor) (mem : Memory) :
    copyBool1fRest f size dstArr src0 mem =
      let mem' := wordarrSkewcopyBitimg f (size / 64) dstArr src0.offset src0.arr mem
      if size % 64 ≠ 0 then
        storeMasked (wordBitimg f (readBits mem' (size % 64) ⟨src0.offset, src0.arr + size / 64⟩).1)
          (wordMask (size % 64)) (dstArr + size / 64) mem'
      else mem' :=
  rfl

private theorem copyBool1fRest_images {src0 : Cursor} (inside : src0.offset < 64)
    (apart : Apart src0.position (dstArr * 64) size) :
    Images (fun x _ => bool1fApply f x) mem (copyBool1fRest f size dstArr src0 mem) (dstArr * 64) src0.position
      src0.position size := by
  have small : size % 64 < 64 := mod_lt _ (by decide)
  have parts : size / 64 * 64 + size % 64 = size := div_add_mod' size 64
  have full : Images (fun x _ => bool1fApply f x) mem
      (wordarrSkewcopyBitimg f (size / 64) dstArr src0.offset src0.arr mem) (dstArr * 64) src0.position src0.position
      (size / 64 * 64) := by
    rw [← parts] at apart
    exact wordarrSkewcopyBitimg_replaces inside apart.take f
  rw [copyBool1fRest_eq]
  refine last_images apart apart full fun _ => storeLast_replaces small fun j bound => ?_
  rw [getLsbD_wordBitimg f _ (lt_trans bound small), readLast_spec inside _ _ bound]

theorem copyBool1f_eq (dst src0 : BitarraySlice) (mem : Memory) :
    copyBool1f f dst src0 mem =
      if dst.offset ≠ 0 then
        let mask := ~~~wordMask dst.offset
        let read0 := readBits mem (64 - dst.offset) ⟨src0.offset, src0.arr⟩
        let y := wordBitimg f read0.1 <<< dst.offset
        if 64 - dst.offset > dst.size then storeMasked y (mask &&& wordMask (dst.offset + dst.size)) dst.arr mem
        else copyBool1fRest f (dst.size - (64 - dst.offset)) (dst.arr + 1) read0.2
          (update mem dst.arr (mem dst.arr &&& ~~~mask ||| y))
      else copyBool1fRest f dst.size dst.arr ⟨src0.offset, src0.arr⟩ mem :=
  rfl

/-- The bits of an image that is shifted to the start of the destination. -/
theorem getLsbD_shifted {image : Word} (bound : j < 64) (after : offset ≤ j) :
    (image <<< offset).getLsbD j = image.getLsbD (j - offset) := by
  rw [BitVec.getLsbD_shiftLeft, decide_eq_true bound, decide_eq_false (Nat.not_lt_of_le after)]
  rfl

private theorem copyBool1f_images (apart : Apart src0.start dst.start dst.size) :
    Images (fun x _ => bool1fApply f x) mem (copyBool1f f dst src0 mem) dst.start src0.start src0.start dst.size := by
  have inWord := dst.inWord
  rw [copyBool1f_eq]
  split
  · next unaligned =>
    have width : 64 - dst.offset < 64 := by omega
    obtain ⟨read, inside, position⟩ := readBits_spec mem ⟨src0.offset, src0.arr⟩ src0.inWord width
    have bits (j : Nat) (after : dst.offset ≤ j) (bound : j < 64) :
        (wordBitimg f (readBits mem (64 - dst.offset) ⟨src0.offset, src0.arr⟩).1 <<< dst.offset).getLsbD j =
          bool1fApply f (bit mem (src0.start + (j - dst.offset))) := by
      rw [getLsbD_shifted bound after, getLsbD_wordBitimg f _ (by omega), read _ (by omega)]
      rfl
    simp only [storeFirst_eq inWord]
    split
    · exact storeMasked_replaces (masks_within (by omega)) (by omega) fun j after bound => bits j after (by omega)
    · next long =>
      have first : Images (fun x _ => bool1fApply f x) mem _ dst.start src0.start src0.start (64 - dst.offset) :=
        storeMasked_replaces (masks_first inWord) (by omega) fun j after bound => bits j after (by omega)
      have fits : 64 - dst.offset ≤ dst.size := by omega
      refine first_images apart apart first fits ?_
      rw [← Nat.add_sub_cancel' fits] at apart
      have rest := apart.drop
      rw [dst.start_next] at rest ⊢
      change _ = src0.start + _ at position
      rw [← position] at rest ⊢
      exact copyBool1fRest_images f inside rest
  · next aligned =>
    rw [dst.start_aligned (not_not.mp aligned)] at apart ⊢
    exact copyBool1fRest_images f src0.inWord apart

private theorem copyBool2fRest_images (f : Bool2f) {src0 src1 : Cursor} (inside0 : src0.offset < 64)
    (inside1 : src1.offset < 64)
    (apart0 : Apart src0.position (dstArr * 64) size) (apart1 : Apart src1.position (dstArr * 64) size) :
    ∃ mem', copyBool2fRest f size dstArr src0 src1 mem = some mem' ∧
      Images (bool2fApply f) mem mem' (dstArr * 64) src0.position src1.position size := by
  have small : size % 64 < 64 := mod_lt _ (by decide)
  have parts : size / 64 * 64 + size % 64 = size := div_add_mod' size 64
  obtain ⟨mem1, copied, full⟩ : ∃ mem1, wordarrSkewcopyBitimg2 f (size / 64) dstArr src0.offset src0.arr src1.offset
      src1.arr mem = some mem1 ∧
        Images (bool2fApply f) mem mem1 (dstArr * 64) src0.position src1.position (size / 64 * 64) := by
    rw [← parts] at apart0 apart1
    exact wordarrSkewcopyBitimg2_images f inside0 inside1 apart0.take apart1.take
  obtain ⟨y, imaged, bits⟩ := wordBitimg2_spec f
    (readBits mem1 (size % 64) ⟨src0.offset, src0.arr + size / 64⟩).1
    (readBits mem1 (size % 64) ⟨src1.offset, src1.arr + size / 64⟩).1
  have last : Images (bool2fApply f) mem1 (storeMasked y (wordMask (size % 64)) (dstArr + size / 64) mem1)
      (dstArr * 64 + size / 64 * 64) (src0.position + size / 64 * 64) (src1.position + size / 64 * 64) (size % 64) := by
    refine storeLast_replaces small fun j bound => ?_
    rw [bits j (lt_trans bound small), readLast_spec inside0 _ _ bound, readLast_spec inside1 _ _ bound]
  refine ⟨_, ?_, last_images apart0 apart1 full fun _ => last⟩
  rw [copyBool2fRest, copied]
  simp only [bind_eq_bind, bind_some, imaged]
  split <;> rfl

private theorem copyBool2f_images (f : Bool2f) (apart0 : Apart src0.start dst.start dst.size)
    (apart1 : Apart src1.start dst.start dst.size) :
    ∃ mem', copyBool2f f dst src0 src1 mem = some mem' ∧
      Images (bool2fApply f) mem mem' dst.start src0.start src1.start dst.size := by
  have inWord := dst.inWord
  rw [copyBool2f]
  split
  · next unaligned =>
    have width : 64 - dst.offset < 64 := by omega
    obtain ⟨read0, inside0, position0⟩ := readBits_spec mem ⟨src0.offset, src0.arr⟩ src0.inWord width
    obtain ⟨read1, inside1, position1⟩ := readBits_spec mem ⟨src1.offset, src1.arr⟩ src1.inWord width
    obtain ⟨image, imaged, pointwise⟩ := wordBitimg2_spec f
      (readBits mem (64 - dst.offset) ⟨src0.offset, src0.arr⟩).1 (readBits mem (64 - dst.offset) ⟨src1.offset, src1.arr⟩).1
    have bits (j : Nat) (after : dst.offset ≤ j) (bound : j < 64) : (image <<< dst.offset).getLsbD j =
        bool2fApply f (bit mem (src0.start + (j - dst.offset))) (bit mem (src1.start + (j - dst.offset))) := by
      rw [getLsbD_shifted bound after, pointwise _ (by omega), read0 _ (by omega), read1 _ (by omega)]
      rfl
    simp only [bind_eq_bind, imaged, bind_some, storeFirst_eq inWord]
    split
    · exact ⟨_, rfl, storeMasked_replaces (masks_within (by omega)) (by omega) fun j after bound => bits j after (by omega)⟩
    · next long =>
      have first : Images (bool2fApply f) mem _ dst.start src0.start src1.start (64 - dst.offset) :=
        storeMasked_replaces (masks_first inWord) (by omega) fun j after bound => bits j after (by omega)
      have fits : 64 - dst.offset ≤ dst.size := by omega
      have parts : 64 - dst.offset + (dst.size - (64 - dst.offset)) = dst.size := Nat.add_sub_cancel' fits
      have rest0 := (parts ▸ apart0).drop
      have rest1 := (parts ▸ apart1).drop
      change _ = src0.start + _ at position0
      change _ = src1.start + _ at position1
      rw [dst.start_next, ← position0] at rest0
      rw [dst.start_next, ← position1] at rest1
      obtain ⟨mem', done, rest⟩ := copyBool2fRest_images f inside0 inside1 rest0 rest1
      refine ⟨mem', done, first_images apart0 apart1 first fits ?_⟩
      rwa [position0, position1, ← dst.start_next] at rest
  · next aligned =>
    rw [dst.start_aligned (not_not.mp aligned)] at apart0 apart1 ⊢
    exact copyBool2fRest_images f src0.inWord src1.inWord apart0 apart1

end Copy

/-- The operations on a slice `dst`, with their other arguments. -/
inductive Operation where
  | fill (val : Bool)
  | updateNot
  | updateBool1f (f : Bool1f)
  | updateBool2f (f : Bool2f) (src1 : BitarraySlice)
  | copyBool1f (f : Bool1f) (src0 : BitarraySlice)
  | copyBool2f (f : Bool2f) (src0 src1 : BitarraySlice)

/-- A source is as long as the destination, and starts at the same bit or has no bit in common with it. -/
def Readable (dst src : BitarraySlice) : Prop :=
  dst.size ≤ src.size ∧ (src.start = dst.start ∨ ∀ i < src.size, ∀ j < dst.size, src.start + i ≠ dst.start + j)

namespace Operation

def run (dst : BitarraySlice) (mem : Memory) : Operation → Option Memory
  | .fill val => some (dst.fill val mem)
  | .updateNot => some (dst.updateNot mem)
  | .updateBool1f f => some (dst.updateBool1f f mem)
  | .updateBool2f f src1 => dst.updateBool2f f src1 mem
  | .copyBool1f f src0 => some (dst.copyBool1f f src0 mem)
  | .copyBool2f f src0 src1 => dst.copyBool2f f src0 src1 mem

def Legal (dst : BitarraySlice) : Operation → Prop
  | .fill _ | .updateNot | .updateBool1f _ => True
  | .updateBool2f _ src1 => dst.Readable src1
  | .copyBool1f _ src0 => dst.Readable src0
  | .copyBool2f _ src0 src1 => dst.Readable src0 ∧ dst.Readable src1

/-- The bits that an operation should give. -/
def image (dst : BitarraySlice) (mem : Memory) (i : Nat) : Operation → Bool
  | .fill val => val
  | .updateNot => !dst.sliceAt mem i
  | .updateBool1f f => bool1fApply f (dst.sliceAt mem i)
  | .updateBool2f f src1 => bool2fApply f (dst.sliceAt mem i) (src1.sliceAt mem i)
  | .copyBool1f f src0 => bool1fApply f (src0.sliceAt mem i)
  | .copyBool2f f src0 src1 => bool2fApply f (src0.sliceAt mem i) (src1.sliceAt mem i)

end Operation

private theorem sliceAt_eq (sl : BitarraySlice) (mem : Memory) (i : Nat) : sl.sliceAt mem i = bit mem (sl.start + i) := by
  have remainder : (i + sl.offset) % 64 < 64 := mod_lt _ (by decide)
  have position : sl.start + i = (sl.arr + (i + sl.offset) / 64) * 64 + (i + sl.offset) % 64 := by
    rw [start]
    omega
  rw [position, bit_word mem _ remainder, sliceAt, BitVec.getLsbD_ushiftRight, add_zero]

theorem Readable.apart {dst src : BitarraySlice} (readable : dst.Readable src) : Apart src.start dst.start dst.size := by
  intro i boundI j boundJ same
  rcases readable.2 with equal | disjoint
  · omega
  · exact absurd same (disjoint i (lt_of_lt_of_le boundI readable.1) j boundJ)

/-- Each operation gives the bits of the destination that it should and changes no other one. -/
theorem operation_spec (operation : Operation) (dst : BitarraySlice) (mem : Memory) (legal : operation.Legal dst) :
    ∃ mem', operation.run dst mem = some mem' ∧
      (∀ i < dst.size, dst.sliceAt mem' i = operation.image dst mem i) ∧
      ∀ position, position < dst.start ∨ dst.start + dst.size ≤ position → bit mem' position = bit mem position := by
  obtain ⟨mem', done, replaces⟩ : ∃ mem', operation.run dst mem = some mem' ∧
      Replaces mem mem' dst.start dst.size fun i => operation.image dst mem i := by
    cases operation with
    | fill val => exact ⟨_, rfl, fill_images val dst mem⟩
    | updateNot =>
      refine ⟨_, rfl, (updateNot_images dst mem).congr fun i _ => ?_⟩
      rw [Operation.image, sliceAt_eq]
    | updateBool1f f =>
      refine ⟨_, rfl, (updateBool1f_images f dst mem).congr fun i _ => ?_⟩
      rw [Operation.image, sliceAt_eq]
    | updateBool2f f src1 =>
      obtain ⟨mem', done, images⟩ := copyBool2f_images f (Apart.refl dst.start dst.size) legal.apart
      refine ⟨mem', done, Replaces.congr images fun i _ => ?_⟩
      rw [Operation.image, sliceAt_eq, sliceAt_eq]
    | copyBool1f f src0 =>
      refine ⟨_, rfl, (copyBool1f_images f legal.apart).congr fun i _ => ?_⟩
      rw [Operation.image, sliceAt_eq]
    | copyBool2f f src0 src1 =>
      obtain ⟨mem', done, images⟩ := copyBool2f_images f legal.1.apart legal.2.apart
      refine ⟨mem', done, Replaces.congr images fun i _ => ?_⟩
      rw [Operation.image, sliceAt_eq, sliceAt_eq]
  refine ⟨mem', done, fun i bound => ?_, fun position outside => ?_⟩
  · rw [sliceAt_eq, replaces, if_pos (by omega), Nat.add_sub_cancel_left]
  · rw [replaces, if_neg (by omega)]

/-- The exclusive or of 70 bits from three offsets. -/
theorem operation_spec_xor : ∃ mem', Operation.run ⟨3, 70, 0, by decide⟩ (fun address => BitVec.ofNat 64 (address * address))
      (.copyBool2f .xor ⟨60, 70, 4, by decide⟩ ⟨0, 71, 8, by decide⟩) = some mem' ∧
    (∀ i < 70, sliceAt ⟨3, 70, 0, by decide⟩ mem' i = Operation.image ⟨3, 70, 0, by decide⟩
      (fun address => BitVec.ofNat 64 (address * address)) i
      (.copyBool2f .xor ⟨60, 70, 4, by decide⟩ ⟨0, 71, 8, by decide⟩)) ∧
    ∀ position, position < 3 ∨ 73 ≤ position →
      bit mem' position = bit (fun address => BitVec.ofNat 64 (address * address)) position := by
  apply operation_spec (.copyBool2f .xor ⟨60, 70, 4, by decide⟩ ⟨0, 71, 8, by decide⟩) ⟨3, 70, 0, by decide⟩
  refine ⟨⟨by decide, .inr fun i _ j bound => ?_⟩, ⟨by decide, .inr fun i _ j bound => ?_⟩⟩
  · simp only [start] at bound ⊢
    omega
  · simp only [start] at bound ⊢
    omega

end BitarraySlice

end Culibs.Cucon
