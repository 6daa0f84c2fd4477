import Mathlib.Tactic.Ring

/-! The packing of memory layouts of `cuoo/layout.c`, with the bits of a word allocated from the least significant. Its
assertions are left out. -/

namespace Culibs.Cuoo

open List Nat

/-- What `struct cuoo_layout` has beside `prefix`. Offsets are within the range of `cu_offset_t`. -/
structure LayoutWord where
  allocMask : BitVec 64
  bitalign : Nat
  maxFreeWidth : Nat
  bitoffset : Nat
deriving DecidableEq

/-- `cuoo_layout_t`, the last word first and before the words of `prefix`. `NULL` is empty. -/
abbrev Layout := List LayoutWord

/-! The loops of `max_free_width_of_alt1`. A word has eight bytes and a byte eight bits, so that no loop takes more than
eight rounds. -/

def freeBytes (allocMask : BitVec 64) : Nat → BitVec 64 → Nat → BitVec 64 × Nat
  | 0, byteMask, cnt => (byteMask, cnt)
  | fuel + 1, byteMask, cnt =>
    if allocMask &&& byteMask = 0 ∧ byteMask ≠ 0 then freeBytes allocMask fuel (byteMask >>> 8) (cnt + 8)
    else (byteMask, cnt)

def freeBits (allocMask byteMask : BitVec 64) : Nat → BitVec 64 → Nat → Nat
  | 0, _, cnt => cnt
  | fuel + 1, bitMask, cnt =>
    if allocMask &&& bitMask = 0 ∧ byteMask &&& bitMask ≠ 0 then
      freeBits allocMask byteMask fuel (bitMask >>> 1) (cnt + 1)
    else cnt

/-- `cnt` of one round, with the byte mask after it. -/
def freeWidth (allocMask byteMask : BitVec 64) : BitVec 64 × Nat :=
  let (byteMask, cnt) := freeBytes allocMask 8 byteMask 0
  (byteMask >>> 8, freeBits allocMask byteMask 8 (~~~(byteMask >>> 1) &&& byteMask) cnt)

def freeWidths (allocMask : BitVec 64) : Nat → BitVec 64 → Nat → Nat
  | 0, _, lbound => lbound
  | fuel + 1, byteMask, lbound =>
    let (byteMask, cnt) := freeWidth allocMask byteMask
    let lbound := if cnt > lbound then cnt else lbound
    if byteMask ≠ 0 then freeWidths allocMask fuel byteMask lbound else lbound

/-- `max_free_width_of`. -/
def maxFreeWidthOf (lbound : Nat) (allocMask : BitVec 64) : Nat :=
  freeWidths allocMask 8 (0xff#64 <<< 56) lbound

/-- The word that `layout_new_raw` puts after `front`. -/
def newWord (front : Layout) (allocMask : BitVec 64) (bitalign : Nat) : LayoutWord :=
  match front with
  | [] => ⟨allocMask, bitalign, maxFreeWidthOf 0 allocMask, 0⟩
  | last :: _ =>
    ⟨allocMask, if last.bitalign > bitalign then last.bitalign else bitalign,
      maxFreeWidthOf last.maxFreeWidth allocMask, last.bitoffset + 64⟩

def layoutNewRaw (front : Layout) (allocMask : BitVec 64) (bitalign : Nat) : Layout :=
  newWord front allocMask bitalign :: front

/-- `(CU_WORD_C(1) << bitsize) - 1`. -/
def lowMask (bitsize : Nat) : BitVec 64 := (1#64 <<< bitsize) - 1

/-- The loop of `FIND_OFFSET`, which ends at the latest when no bit of the mask is left. -/
def findOffset (allocMask : BitVec 64) (bitalign : Nat) : Nat → BitVec 64 → Nat → BitVec 64 × Nat
  | 0, mask, localBitoffset => (mask, localBitoffset)
  | fuel + 1, mask, localBitoffset =>
    if mask &&& allocMask ≠ 0 then
      findOffset allocMask bitalign fuel (mask <<< bitalign) (localBitoffset + bitalign)
    else (mask, localBitoffset)

/-- The mask and the local offset that `layout_new_pack` takes in a word. An alignment of 64 has no loop. -/
def place (allocMask : BitVec 64) (bitsize bitalign : Nat) : BitVec 64 × Nat :=
  if bitalign = 64 then (lowMask bitsize, 0) else findOffset allocMask bitalign 64 (lowMask bitsize) 0

/-- The branch of `layout_new_pack` that takes the word itself. -/
def packHere (lyo : LayoutWord) (front : Layout) (bitsize bitalign : Nat) : Layout × Nat :=
  let (mask, localBitoffset) := place lyo.allocMask bitsize bitalign
  (layoutNewRaw front (lyo.allocMask ||| mask) (if bitalign < lyo.bitalign then lyo.bitalign else bitalign),
    lyo.bitoffset + localBitoffset)

/-- The layout and `*bitoffset`. -/
def layoutNewPack (lyo : LayoutWord) (front : Layout) (bitsize bitalign : Nat) : Layout × Nat :=
  match front with
  | [] => packHere lyo [] bitsize bitalign
  | last :: front =>
    if bitsize ≤ last.maxFreeWidth then
      let (packed, bitoffset) := layoutNewPack last front bitsize bitalign
      (layoutNewRaw packed lyo.allocMask (if lyo.bitalign > bitalign then lyo.bitalign else bitalign), bitoffset)
    else packHere lyo (last :: front) bitsize bitalign

/-- The branch of `cuoo_layout_pack_bits` that adds words. -/
def packAfter (front : Layout) (bitsize bitalign : Nat) : Layout × Nat :=
  if bitsize > 64 then packAfter (layoutNewRaw front (BitVec.allOnes 64) bitalign) (bitsize - 64) bitalign
  else
    let allocMask := if bitsize = 64 then BitVec.allOnes 64 else lowMask bitsize
    (layoutNewRaw front allocMask bitalign, (newWord front allocMask bitalign).bitoffset)
termination_by bitsize

/-- `cuoo_layout_pack_bits`, with `*bitoffset`. -/
def layoutPackBits (front : Layout) (bitsize bitalign : Nat) : Layout × Nat :=
  if bitsize = 0 then (front, 0)
  else
    match front with
    | [] => packAfter [] bitsize bitalign
    | last :: rest =>
      if bitsize ≤ last.maxFreeWidth then layoutNewPack last rest bitsize bitalign
      else packAfter (last :: rest) bitsize bitalign

/-- `cuoo_layout_bitsize`. -/
def layoutBitsize : Layout → Nat
  | [] => 0
  | [lyo] => 64 - lyo.maxFreeWidth
  | lyo :: _ :: _ => lyo.bitoffset + 64

/-- `cuoo_layout_product`, with `*bitoffset`. There is no result if the code reads a field of `NULL`. -/
def layoutProduct (front member : Layout) : Option (Layout × Nat) :=
  match front, member with
  | [], member => some (member, 0)
  | _ :: _, [] => none
  | last :: front, memb :: rest =>
    if layoutBitsize (memb :: rest) < last.maxFreeWidth then
      some (layoutPackBits (last :: front) (layoutBitsize (memb :: rest)) memb.bitalign)
    else
      let n := memb.bitoffset / 64
      match (memb :: rest).drop n with
      | [] => none
      | first :: _ =>
        let lyo := newWord (last :: front) first.allocMask first.bitalign
        some (((memb :: rest).take n).foldr (fun memb lyo => layoutNewRaw lyo memb.allocMask memb.bitalign)
          (lyo :: last :: front), lyo.bitoffset)

variable {allocMask byteMask bitMask : BitVec 64} {lbound : Nat}

private theorem freeBytes_le (allocMask byteMask : BitVec 64) (fuel cnt : Nat) : (freeBytes allocMask fuel byteMask
    cnt).2 ≤ cnt + 8 * fuel := by
  induction fuel generalizing byteMask cnt with
  | zero => exact le_rfl
  | succ fuel ih =>
    rw [freeBytes]
    split
    · have next := ih (byteMask >>> 8) (cnt + 8)
      omega
    · simp

private theorem freeBits_le (bitMask : BitVec 64) (fuel cnt : Nat) : freeBits allocMask byteMask fuel bitMask cnt ≤
    cnt + fuel := by
  induction fuel generalizing bitMask cnt with
  | zero => exact le_rfl
  | succ fuel ih =>
    rw [freeBits]
    split
    · have next := ih (bitMask >>> 1) (cnt + 1)
      omega
    · omega

private theorem freeWidth_le (allocMask byteMask : BitVec 64) : (freeWidth allocMask byteMask).2 ≤ 72 := by
  have bytes := freeBytes_le allocMask byteMask 8 0
  simp only [freeWidth]
  refine le_trans (freeBits_le _ _ _) ?_
  omega

private theorem freeWidths_le (bounded : lbound ≤ 72) (fuel : Nat) : freeWidths allocMask fuel byteMask lbound ≤ 72 := by
  induction fuel generalizing byteMask lbound with
  | zero => exact bounded
  | succ fuel ih =>
    have round := freeWidth_le allocMask byteMask
    have larger : (if (freeWidth allocMask byteMask).2 > lbound then (freeWidth allocMask byteMask).2 else lbound) ≤ 72 := by
      split <;> assumption
    simp only [freeWidths]
    split
    · exact ih larger
    · exact larger

/-- An alignment that the operations accept. -/
def IsAlign (a : Nat) : Prop := a ∈ [1, 8, 16, 32, 64]

instance : Decidable (IsAlign a) := inferInstanceAs (Decidable (a ∈ [1, 8, 16, 32, 64]))

theorem isAlign_dvd (aligned : IsAlign a) (aligned' : IsAlign b) (smaller : a ≤ b) : a ∣ b := by
  have all : ∀ a ∈ [1, 8, 16, 32, 64], ∀ b ∈ [1, 8, 16, 32, 64], a ≤ b → a ∣ b := by decide
  exact all a aligned b aligned' smaller

private theorem isAlign_le (aligned : IsAlign a) : a ≤ 64 := by
  have all : ∀ a ∈ [1, 8, 16, 32, 64], a ≤ 64 := by decide
  exact all a aligned

theorem isAlign_pos (aligned : IsAlign a) : 0 < a := by
  have all : ∀ a ∈ [1, 8, 16, 32, 64], 0 < a := by decide
  exact all a aligned

theorem isAlign_word (aligned : IsAlign a) : a ∣ 64 := isAlign_dvd aligned (by decide) (isAlign_le aligned)

/-- The alignment of the last word, which is that of the layout. -/
def alignOf : Layout → Nat
  | [] => 1
  | last :: _ => last.bitalign

/-- Words follow each other without gap. None is empty, and each has at least the alignment of those before it. -/
def Stacked : Layout → Prop
  | [] => True
  | lyo :: front => lyo.bitoffset = 64 * front.length ∧ lyo.maxFreeWidth ≤ 72 ∧ IsAlign lyo.bitalign ∧
      alignOf front ≤ lyo.bitalign ∧ (∃ i, lyo.allocMask.getLsbD i = true) ∧ Stacked front

/-- The bit at `p` is allocated. -/
def Allocated (lyo : Layout) (p : Nat) : Prop :=
  ∃ w ∈ lyo, ∃ i, w.allocMask.getLsbD i = true ∧ p = w.bitoffset + i

variable {lyo front mem : Layout} {w last : LayoutWord} {p i a b size : Nat}

theorem Stacked.align (stacked : Stacked lyo) : IsAlign (alignOf lyo) := by
  cases lyo with
  | nil => decide
  | cons w front => exact stacked.2.2.1

theorem allocated_nil : ¬Allocated [] p := by
  rintro ⟨w, mem, _⟩
  cases mem

theorem allocated_cons : Allocated (w :: front) p ↔
    (∃ i, w.allocMask.getLsbD i = true ∧ p = w.bitoffset + i) ∨ Allocated front p := by
  simp [Allocated]

theorem Stacked.allocated_lt (stacked : Stacked lyo) (allocated : Allocated lyo p) : p < 64 * lyo.length := by
  induction lyo with
  | nil => exact absurd allocated allocated_nil
  | cons w front ih =>
    rw [length_cons]
    rcases allocated_cons.mp allocated with ⟨i, bit, rfl⟩ | before
    · have inside := BitVec.lt_of_getLsbD bit
      have offset := stacked.1
      omega
    · have below := ih stacked.2.2.2.2.2 before
      omega

theorem newWord_offset (stacked : Stacked front) : (newWord front allocMask a).bitoffset = 64 * front.length := by
  cases front with
  | nil => rfl
  | cons last front =>
    have offset := stacked.1
    simp only [newWord, length_cons]
    omega

theorem newWord_align (aligned : IsAlign a) : (newWord front allocMask a).bitalign = max (alignOf front) a := by
  cases front with
  | nil =>
    have pos := isAlign_pos aligned
    simp only [newWord, alignOf]
    omega
  | cons last front =>
    simp only [newWord, alignOf]
    split <;> omega

theorem newWord_mask : (newWord front allocMask a).allocMask = allocMask := by
  cases front <;> rfl

theorem isAlign_max (aligned : IsAlign a) (aligned' : IsAlign b) : IsAlign (max a b) := by
  rcases le_total a b with order | order
  · rwa [max_eq_right order]
  · rwa [max_eq_left order]

theorem layoutNewRaw_stacked (stacked : Stacked front) (aligned : IsAlign a)
    (some : ∃ i, allocMask.getLsbD i = true) : Stacked (layoutNewRaw front allocMask a) := by
  refine ⟨newWord_offset stacked, ?_, ?_, ?_, by rwa [newWord_mask], stacked⟩
  · cases front with
    | nil => exact freeWidths_le (by decide) 8
    | cons last front => exact freeWidths_le stacked.2.1 8
  · rw [newWord_align aligned]
    exact isAlign_max stacked.align aligned
  · rw [newWord_align aligned]
    exact le_max_left _ _

theorem layoutNewRaw_align (aligned : IsAlign a) : alignOf (layoutNewRaw front allocMask a) = max (alignOf front) a :=
  newWord_align aligned

theorem layoutNewRaw_allocated (stacked : Stacked front) : Allocated (layoutNewRaw front allocMask a) p ↔
    (∃ i, allocMask.getLsbD i = true ∧ p = 64 * front.length + i) ∨ Allocated front p := by
  rw [layoutNewRaw, allocated_cons, newWord_mask, newWord_offset stacked]

private theorem lowMask_toNat (below : size < 64) : (lowMask size).toNat = 2 ^ size - 1 := by
  have bound : 2 ^ size < 2 ^ 64 := Nat.pow_lt_pow_right (by decide) below
  have one : 1 ≤ 2 ^ size := Nat.one_le_two_pow
  have power : (1#64 <<< size).toNat = 2 ^ size := by
    rw [BitVec.toNat_shiftLeft, shiftLeft_eq, show (1#64).toNat = 1 from rfl, one_mul, mod_eq_of_lt bound]
  rw [lowMask, BitVec.toNat_sub_of_le]
  · rw [power]
    rfl
  · rw [BitVec.le_def, power]
    exact one

theorem lowMask_all (all : 64 ≤ size) : lowMask size = BitVec.allOnes 64 := by
  rw [lowMask, BitVec.shiftLeft_eq_zero all]
  rfl

theorem lowMask_getLsbD : (lowMask size).getLsbD i = true ↔ i < size ∧ i < 64 := by
  by_cases below : size < 64
  · rw [← BitVec.testBit_toNat, lowMask_toNat below, testBit_two_pow_sub_one, decide_eq_true_iff]
    omega
  · rw [lowMask_all (Nat.le_of_not_lt below), BitVec.getLsbD_allOnes, decide_eq_true_iff]
    omega

/-- Some place of the word is free and aligned. -/
def Fits (allocMask : BitVec 64) (size a : Nat) : Prop :=
  ∃ k, a ∣ k ∧ k + size ≤ 64 ∧ ∀ i, k ≤ i → i < k + size → allocMask.getLsbD i = false

theorem mask_free (inside : k + size ≤ 64) : lowMask size <<< k &&& allocMask = 0 ↔
    ∀ i, k ≤ i → i < k + size → allocMask.getLsbD i = false := by
  constructor
  · intro free i low high
    have bit := congrArg (fun mask => mask.getLsbD i) free
    have set : (lowMask size).getLsbD (i - k) = true := lowMask_getLsbD.mpr (by omega)
    simpa [BitVec.getLsbD_and, BitVec.getLsbD_shiftLeft, set, show i < 64 by omega, show ¬i < k by omega] using bit
  intro free
  apply BitVec.eq_of_getLsbD_eq
  intro i below
  by_cases low : k ≤ i
  · by_cases high : i < k + size
    · simp [free i low high]
    · have unset : (lowMask size).getLsbD (i - k) = false := by
        rw [Bool.eq_false_iff, Ne, lowMask_getLsbD]
        omega
      simp [BitVec.getLsbD_shiftLeft, unset]
  · simp [BitVec.getLsbD_shiftLeft, show i < k by omega]

private theorem findOffset_spec (fits : a ∣ k) (inside : k + size ≤ 64)
    (free : ∀ i, k ≤ i → i < k + size → allocMask.getLsbD i = false) (fuel : Nat) (start : Nat) (reached : start ≤ k)
    (aligned : a ∣ start) (enough : k ≤ start + a * fuel) :
    ∃ j, findOffset allocMask a fuel (lowMask size <<< start) start = (lowMask size <<< j, j) ∧ a ∣ j ∧
      j + size ≤ 64 ∧ ∀ i, j ≤ i → i < j + size → allocMask.getLsbD i = false := by
  induction fuel generalizing start with
  | zero =>
    obtain rfl : start = k := by omega
    exact ⟨start, rfl, fits, inside, free⟩
  | succ fuel ih =>
    rw [findOffset]
    split
    · next taken =>
      have later : start < k := by
        refine lt_of_le_of_ne reached ?_
        rintro rfl
        exact taken ((mask_free inside).mpr free)
      have jump : start + a ≤ k := by
        obtain ⟨m, rfl⟩ := aligned
        obtain ⟨n, rfl⟩ := fits
        have order : m + 1 ≤ n := Nat.lt_of_mul_lt_mul_left later
        calc a * m + a = a * (m + 1) := (mul_succ a m).symm
          _ ≤ a * n := mul_le_mul_left a order
      rw [← BitVec.shiftLeft_add]
      refine ih (start + a) jump (Nat.dvd_add aligned (Nat.dvd_refl a)) ?_
      rw [mul_succ] at enough
      omega
    · next here =>
      exact ⟨start, rfl, aligned, by omega, (mask_free (by omega)).mp (Classical.not_not.mp here)⟩

theorem place_spec (aligned : IsAlign a) (pos : 0 < size) (fits : Fits allocMask size a) :
    ∃ k, place allocMask size a = (lowMask size <<< k, k) ∧ a ∣ k ∧ k + size ≤ 64 ∧
      ∀ i, k ≤ i → i < k + size → allocMask.getLsbD i = false := by
  obtain ⟨k, multiple, inside, free⟩ := fits
  rw [place]
  split
  · next whole =>
    subst whole
    obtain rfl : k = 0 := by
      omega
    exact ⟨0, by simp, multiple, inside, free⟩
  · have start := findOffset_spec multiple inside free 64 0 (zero_le k) (dvd_zero a)
      (le_trans (by omega : k ≤ 0 + 1 * 64)
        (Nat.add_le_add_left (Nat.mul_le_mul_right 64 (isAlign_pos aligned)) 0))
    simpa using start

/-! Packing. The places are those of `Room`: in the word that the code picks, an aligned place is free. -/

/-- An aligned place is free in the word that `layout_new_pack` picks. -/
def Room (lyo : LayoutWord) (front : Layout) (size a : Nat) : Prop :=
  match front with
  | [] => Fits lyo.allocMask size a
  | last :: front => if size ≤ last.maxFreeWidth then Room last front size a else Fits lyo.allocMask size a

/-- The bits from `start` on are new in `packed`, which has all others from `lyo`. -/
structure Packs (lyo packed : Layout) (start size a : Nat) : Prop where
  stacked : Stacked packed
  align : alignOf packed = max (alignOf lyo) a
  multiple : a ∣ start
  allocated : ∀ p, Allocated packed p ↔ Allocated lyo p ∨ (start ≤ p ∧ p < start + size)
  fresh : ∀ p, start ≤ p → p < start + size → ¬Allocated lyo p

private theorem placed_getLsbD (inside : k + size ≤ 64) : (allocMask ||| lowMask size <<< k).getLsbD i = true ↔
    allocMask.getLsbD i = true ∨ (k ≤ i ∧ i < k + size) := by
  rw [BitVec.getLsbD_or, Bool.or_eq_true, BitVec.getLsbD_shiftLeft, Bool.and_eq_true, Bool.and_eq_true, lowMask_getLsbD]
  simp only [decide_eq_true_eq, Bool.not_eq_true', decide_eq_false_iff_not]
  exact or_congr Iff.rfl (by omega)

private theorem packHere_spec (stacked : Stacked (last :: front)) (aligned : IsAlign a) (pos : 0 < size)
    (fits : Fits last.allocMask size a) :
    Packs (last :: front) (packHere last front size a).1 (packHere last front size a).2 size a ∧
      (packHere last front size a).1.length = front.length + 1 := by
  obtain ⟨k, found, multiple, inside, free⟩ := place_spec aligned pos fits
  obtain ⟨offset, _, lastAlign, smaller, ⟨i, some⟩, before⟩ := stacked
  have larger : (if a < last.bitalign then last.bitalign else a) = max last.bitalign a := by split <;> omega
  have both := isAlign_max lastAlign aligned
  simp only [packHere, found, larger]
  refine ⟨⟨layoutNewRaw_stacked before both ⟨i, (placed_getLsbD inside).mpr (.inl some)⟩, ?_, ?_, fun p => ?_,
    fun p low high allocated => ?_⟩, rfl⟩
  · rw [layoutNewRaw_align both]
    exact max_eq_right (le_trans smaller (le_max_left _ _))
  · rw [offset]
    exact Nat.dvd_add (Nat.dvd_trans (isAlign_word aligned) (Nat.dvd_mul_right 64 _)) multiple
  · rw [layoutNewRaw_allocated before, allocated_cons, offset]
    constructor
    · rintro (⟨i, bit, rfl⟩ | earlier)
      · rcases (placed_getLsbD inside).mp bit with old | new
        · exact .inl (.inl ⟨i, old, rfl⟩)
        · exact .inr (by omega)
      · exact .inl (.inr earlier)
    · rintro ((⟨i, old, rfl⟩ | earlier) | new)
      · exact .inl ⟨i, (placed_getLsbD inside).mpr (.inl old), rfl⟩
      · exact .inr earlier
      · refine .inl ⟨p - 64 * front.length, (placed_getLsbD inside).mpr (.inr (by omega)), by omega⟩
  · rcases allocated_cons.mp allocated with ⟨i, bit, rfl⟩ | earlier
    · rw [free i (by omega) (by omega)] at bit
      cases bit
    · have below := before.allocated_lt earlier
      omega

private theorem layoutNewPack_spec (stacked : Stacked (last :: front)) (aligned : IsAlign a) (pos : 0 < size)
    (room : Room last front size a) :
    Packs (last :: front) (layoutNewPack last front size a).1 (layoutNewPack last front size a).2 size a ∧
      (layoutNewPack last front size a).1.length = front.length + 1 := by
  induction front generalizing last with
  | nil => exact packHere_spec stacked aligned pos room
  | cons w front ih =>
    rw [layoutNewPack]
    rw [Room] at room
    split
    · next narrow =>
      rw [if_pos narrow] at room
      obtain ⟨offset, _, lastAlign, smaller, some, before⟩ := stacked
      obtain ⟨packs, length⟩ := ih before room
      have larger : (if last.bitalign > a then last.bitalign else a) = max last.bitalign a := by split <;> omega
      have both := isAlign_max lastAlign aligned
      simp only [larger]
      refine ⟨⟨layoutNewRaw_stacked packs.stacked both some, ?_, packs.multiple, fun p => ?_,
        fun p low high allocated => ?_⟩, ?_⟩
      · rw [layoutNewRaw_align both, packs.align]
        simp only [alignOf] at smaller ⊢
        omega
      · rw [layoutNewRaw_allocated packs.stacked, allocated_cons, packs.allocated, length, offset, length_cons,
          or_assoc]
      · rcases allocated_cons.mp allocated with ⟨i, bit, rfl⟩ | earlier
        · have below := packs.stacked.allocated_lt ((packs.allocated _).mpr (.inr ⟨low, high⟩))
          rw [offset, length_cons] at below
          omega
        · exact packs.fresh p low high earlier
      · rw [layoutNewRaw, length_cons, length, length_cons]
    · next wide =>
      rw [if_neg wide] at room
      exact packHere_spec stacked aligned pos room

theorem packAfter_small (word : size ≤ 64) : packAfter front size a =
    (layoutNewRaw front (lowMask size) a, (newWord front (lowMask size) a).bitoffset) := by
  rw [packAfter, if_neg (by omega)]
  by_cases whole : size = 64
  · subst whole
    rfl
  · simp only [if_neg whole]

private theorem packAfter_spec (stacked : Stacked front) (aligned : IsAlign a) (pos : 0 < size) (word : size ≤ 64) :
    Packs front (packAfter front size a).1 (packAfter front size a).2 size a := by
  have some : ∃ i, (lowMask size).getLsbD i = true := ⟨0, lowMask_getLsbD.mpr (by omega)⟩
  rw [packAfter_small word]
  refine ⟨layoutNewRaw_stacked stacked aligned some, layoutNewRaw_align aligned, ?_, fun p => ?_, fun p low high earlier => ?_⟩
  · rw [newWord_offset stacked]
    exact dvd_trans (isAlign_word aligned) (dvd_mul_right 64 _)
  · rw [layoutNewRaw_allocated stacked, newWord_offset stacked, or_comm]
    refine or_congr Iff.rfl ⟨?_, fun within => ⟨p - 64 * front.length, lowMask_getLsbD.mpr (by omega), by omega⟩⟩
    rintro ⟨i, bit, rfl⟩
    have below := (lowMask_getLsbD.mp bit).1
    omega
  · rw [newWord_offset stacked] at low
    have below := stacked.allocated_lt earlier
    omega

/-- Where `cuoo_layout_pack_bits` keeps the members apart: the member is not wider than a word, and if it goes into a
word that exists, an aligned place is free there. -/
def Packable (front : Layout) (size a : Nat) : Prop :=
  match front with
  | [] => size ≤ 64
  | last :: rest => if size ≤ last.maxFreeWidth then Room last rest size a else size ≤ 64

theorem layoutPackBits_spec (stacked : Stacked front) (aligned : IsAlign a) (pos : 0 < size)
    (packable : Packable front size a) :
    Packs front (layoutPackBits front size a).1 (layoutPackBits front size a).2 size a := by
  have some : size ≠ 0 := by omega
  cases front with
  | nil =>
    rw [layoutPackBits, if_neg some]
    exact packAfter_spec stacked aligned pos packable
  | cons last rest =>
    rw [layoutPackBits, if_neg some]
    rw [Packable] at packable
    split
    · next narrow =>
      rw [if_pos narrow] at packable
      exact (layoutNewPack_spec stacked aligned pos packable).1
    · next wide =>
      rw [if_neg wide] at packable
      exact packAfter_spec stacked aligned pos packable

/-- The words of `member` after those of `front`. -/
def appendWords (front member : Layout) : Layout :=
  member.foldr (fun memb lyo => layoutNewRaw lyo memb.allocMask memb.bitalign) front

private theorem appendWords_spec (stacked : Stacked front) (stacked' : Stacked mem) :
    Stacked (appendWords front mem) ∧ (appendWords front mem).length = front.length + mem.length ∧
      alignOf (appendWords front mem) = max (alignOf front) (alignOf mem) ∧
      ∀ p, Allocated (appendWords front mem) p ↔
        Allocated front p ∨ ∃ q, Allocated mem q ∧ p = 64 * front.length + q := by
  induction mem with
  | nil =>
    refine ⟨stacked, rfl, (max_eq_left (isAlign_pos stacked.align)).symm, fun p => ?_⟩
    simp [appendWords, allocated_nil]
  | cons memb rest ih =>
    obtain ⟨offset, _, aligned, smaller, some, before⟩ := stacked'
    obtain ⟨packed, length, align, allocated⟩ := ih before
    change Stacked (layoutNewRaw (appendWords front rest) memb.allocMask memb.bitalign) ∧
      (layoutNewRaw (appendWords front rest) memb.allocMask memb.bitalign).length = _ ∧
      alignOf (layoutNewRaw (appendWords front rest) memb.allocMask memb.bitalign) = _ ∧
      ∀ p, Allocated (layoutNewRaw (appendWords front rest) memb.allocMask memb.bitalign) p ↔ _
    refine ⟨layoutNewRaw_stacked packed aligned some, ?_, ?_, fun p => ?_⟩
    · rw [layoutNewRaw, length_cons, length, length_cons, add_assoc]
    · rw [layoutNewRaw_align aligned, align, max_assoc, max_eq_right smaller]
      rfl
    rw [layoutNewRaw_allocated packed, allocated, length]
    constructor
    · rintro (⟨i, bit, rfl⟩ | earlier | ⟨q, inner, rfl⟩)
      · exact .inr ⟨64 * rest.length + i, allocated_cons.mpr (.inl ⟨i, bit, by rw [offset]⟩), by omega⟩
      · exact .inl earlier
      · exact .inr ⟨q, allocated_cons.mpr (.inr inner), rfl⟩
    · rintro (earlier | ⟨q, inner, rfl⟩)
      · exact .inr (.inl earlier)
      · rcases allocated_cons.mp inner with ⟨i, bit, rfl⟩ | inner
        · exact .inl ⟨i, bit, by omega⟩
        · exact .inr (.inr ⟨q, inner, rfl⟩)

/-- Where `cuoo_layout_product` keeps the members apart: the member is not empty, and if it goes into a word that
exists, it has no bits beyond the width that is asked for, and there is an aligned place. -/
def Joinable (front member : Layout) : Prop :=
  match front, member with
  | [], _ => True
  | _ :: _, [] => False
  | last :: front, memb :: rest =>
    layoutBitsize (memb :: rest) < last.maxFreeWidth →
      (∀ i, memb.allocMask.getLsbD i = true → i < layoutBitsize (memb :: rest)) ∧
        Packable (last :: front) (layoutBitsize (memb :: rest)) memb.bitalign

/-- The bits of `member` from `start` on are new in `joined`, which has all others from `front`. -/
structure Joins (front member joined : Layout) (start : Nat) : Prop where
  stacked : Stacked joined
  align : alignOf joined = max (alignOf front) (alignOf member)
  multiple : alignOf member ∣ start
  kept : ∀ p, Allocated front p → Allocated joined p
  moved : ∀ p, Allocated member p → Allocated joined (start + p)
  fresh : ∀ p, Allocated member p → ¬Allocated front (start + p)

private theorem layoutProduct_append (stacked : Stacked (last :: front))
    (stacked' : Stacked (memb :: rest)) (wide : ¬layoutBitsize (memb :: rest) < last.maxFreeWidth) :
    layoutProduct (last :: front) (memb :: rest) =
      some (appendWords (last :: front) (memb :: rest), 64 * (last :: front).length) := by
  have count : memb.bitoffset / 64 = rest.length := by
    rw [stacked'.1]
    omega
  obtain ⟨first, single⟩ : ∃ first, (memb :: rest).drop rest.length = [first] :=
    length_eq_one_iff.mp (by simp)
  simp only [layoutProduct, if_neg wide, count, single, newWord_offset stacked]
  congr 2
  conv => rhs; rw [appendWords, ← take_append_drop rest.length (memb :: rest), single, foldr_append]
  rfl

theorem layoutProduct_spec (stacked : Stacked front) (stacked' : Stacked mem) (joinable : Joinable front mem) :
    ∃ joined start, layoutProduct front mem = some (joined, start) ∧ Joins front mem joined start := by
  match front, mem with
  | [], mem =>
    refine ⟨mem, 0, rfl, stacked', ?_, dvd_zero _, fun p none => absurd none allocated_nil, fun p inner => ?_,
      fun p _ => allocated_nil⟩
    · exact (max_eq_right (isAlign_pos stacked'.align)).symm
    · rwa [zero_add]
  | last :: front, memb :: rest =>
    by_cases narrow : layoutBitsize (memb :: rest) < last.maxFreeWidth
    · cases rest with
      | cons w rest =>
        have offset := stacked'.1
        have bounded := stacked.2.1
        rw [layoutBitsize, offset, length_cons] at narrow
        omega
      | nil =>
        obtain ⟨covers, packable⟩ := joinable narrow
        have offset : memb.bitoffset = 0 := stacked'.1
        have inner : ∀ p, Allocated [memb] p → p < layoutBitsize [memb] := by
          intro p allocated
          rcases allocated_cons.mp allocated with ⟨i, bit, rfl⟩ | none
          · rw [offset, zero_add]
            exact covers i bit
          · exact absurd none allocated_nil
        refine ⟨(layoutPackBits (last :: front) (layoutBitsize [memb]) memb.bitalign).1,
          (layoutPackBits (last :: front) (layoutBitsize [memb]) memb.bitalign).2, ?_, ?_⟩
        · rw [layoutProduct, if_pos narrow]
        · obtain ⟨_, _, aligned, _, ⟨i, some⟩, _⟩ := stacked'
          have pos : 0 < layoutBitsize [memb] := lt_of_le_of_lt (zero_le i) (covers i some)
          have packs := layoutPackBits_spec stacked aligned pos packable
          refine ⟨packs.stacked, packs.align, packs.multiple, fun p earlier => ?_, fun p bit => ?_, fun p bit => ?_⟩
          · exact (packs.allocated p).mpr (.inl earlier)
          · exact (packs.allocated _).mpr (.inr ⟨Nat.le_add_right _ _, Nat.add_lt_add_left (inner p bit) _⟩)
          · exact packs.fresh _ (Nat.le_add_right _ _) (Nat.add_lt_add_left (inner p bit) _)
    · obtain ⟨packed, length, align, allocated⟩ := appendWords_spec stacked stacked'
      refine ⟨_, _, layoutProduct_append stacked stacked' narrow, packed, align, ?_, fun p earlier => ?_,
        fun p inner => ?_, fun p inner earlier => ?_⟩
      · exact dvd_trans (isAlign_word stacked'.align) (dvd_mul_right 64 _)
      · exact (allocated p).mpr (.inl earlier)
      · exact (allocated _).mpr (.inr ⟨p, inner, rfl⟩)
      · have below := stacked.allocated_lt earlier
        omega

/-! Runs. A layout is never changed, so that a run is the expression that built it. -/

/-- The size and alignment of a call of `cuoo_layout_pack_bits`. -/
structure Request where
  bitsize : Nat
  bitalign : Nat
  positive : 0 < bitsize
  aligned : IsAlign bitalign

inductive Build where
  | empty
  | packBits (front : Build) (request : Request)
  | product (front member : Build)

/-- A member as it was reported. -/
structure Member where
  bitoffset : Nat
  bitsize : Nat
  bitalign : Nat
deriving DecidableEq

def Member.shift (m : Member) (start : Nat) : Member := { m with bitoffset := start + m.bitoffset }

structure Packed where
  layout : Layout
  members : List Member
deriving DecidableEq

/-- The members of a product are those of both layouts, the second moved to the offset that is reported. -/
def Build.run : Build → Option Packed
  | empty => some ⟨[], []⟩
  | packBits front request => do
    let s ← front.run
    let (lyo, bitoffset) := layoutPackBits s.layout request.bitsize request.bitalign
    some ⟨lyo, s.members ++ [⟨bitoffset, request.bitsize, request.bitalign⟩]⟩
  | product front member => do
    let s ← front.run
    let t ← member.run
    let (lyo, bitoffset) ← layoutProduct s.layout t.layout
    some ⟨lyo, s.members ++ t.members.map fun m => m.shift bitoffset⟩

/-- Each step meets its condition. -/
def Build.Meets : Build → Prop
  | empty => True
  | packBits front request =>
    front.Meets ∧ ∀ s, front.run = some s → Packable s.layout request.bitsize request.bitalign
  | product front member => front.Meets ∧ member.Meets ∧
      ∀ s t, front.run = some s → member.run = some t → Joinable s.layout t.layout

def Member.Within (m : Member) (p : Nat) : Prop := m.bitoffset ≤ p ∧ p < m.bitoffset + m.bitsize

def Member.Apart (m n : Member) : Prop := ∀ p, m.Within p → ¬n.Within p

/-- What holds of the members after each step. -/
structure Packed.Sound (s : Packed) : Prop where
  stacked : Stacked s.layout
  covered : ∀ m ∈ s.members, ∀ p, m.Within p → Allocated s.layout p
  fields : ∀ m ∈ s.members, 0 < m.bitsize ∧ IsAlign m.bitalign ∧ m.bitalign ≤ alignOf s.layout ∧
    m.bitalign ∣ m.bitoffset
  apart : s.members.Pairwise Member.Apart

private theorem packBits_sound {s : Packed} (sound : s.Sound) (request : Request)
    (packs : Packs s.layout packed start request.bitsize request.bitalign) :
    Packed.Sound ⟨packed, s.members ++ [⟨start, request.bitsize, request.bitalign⟩]⟩ := by
  refine ⟨packs.stacked, ?_, ?_, ?_⟩
  · intro m mem p within
    rw [packs.allocated]
    rcases mem_append.mp mem with old | new
    · exact .inl (sound.covered m old p within)
    · rw [mem_singleton.mp new] at within
      exact .inr within
  · intro m mem
    rw [packs.align]
    rcases mem_append.mp mem with old | new
    · obtain ⟨pos, aligned, smaller, multiple⟩ := sound.fields m old
      exact ⟨pos, aligned, le_trans smaller (le_max_left _ _), multiple⟩
    · rw [mem_singleton.mp new]
      exact ⟨request.positive, request.aligned, le_max_right _ _, packs.multiple⟩
  · refine pairwise_append.mpr ⟨sound.apart, pairwise_singleton _ _, ?_⟩
    intro m old n new p within within'
    rw [mem_singleton.mp new] at within'
    exact packs.fresh p within'.1 within'.2 (sound.covered m old p within)

theorem Member.within_shift {m : Member} :
    (m.shift start).Within p ↔ ∃ q, m.Within q ∧ p = start + q := by
  simp only [Within, shift]
  refine ⟨fun within => ⟨p - start, by omega, by omega⟩, ?_⟩
  rintro ⟨q, within, rfl⟩
  omega

private theorem product_sound {s t : Packed} (sound : s.Sound) (sound' : t.Sound)
    (joins : Joins s.layout t.layout joined start) :
    Packed.Sound ⟨joined, s.members ++ t.members.map fun m => m.shift start⟩ := by
  refine ⟨joins.stacked, ?_, ?_, ?_⟩
  · intro m mem p within
    rcases mem_append.mp mem with old | new
    · exact joins.kept p (sound.covered m old p within)
    · obtain ⟨n, inner, rfl⟩ := mem_map.mp new
      obtain ⟨q, inside, rfl⟩ := Member.within_shift.mp within
      exact joins.moved q (sound'.covered n inner q inside)
  · intro m mem
    rw [joins.align]
    rcases mem_append.mp mem with old | new
    · obtain ⟨pos, aligned, smaller, multiple⟩ := sound.fields m old
      exact ⟨pos, aligned, le_trans smaller (le_max_left _ _), multiple⟩
    · obtain ⟨n, inner, rfl⟩ := mem_map.mp new
      obtain ⟨pos, aligned, smaller, multiple⟩ := sound'.fields n inner
      refine ⟨pos, aligned, Nat.le_trans smaller (Nat.le_max_right _ _), Nat.dvd_add ?_ multiple⟩
      exact Nat.dvd_trans (isAlign_dvd aligned sound'.stacked.align smaller) joins.multiple
  · refine pairwise_append.mpr ⟨sound.apart, pairwise_map.mpr ?_, ?_⟩
    · refine sound'.apart.imp fun apart p within within' => ?_
      obtain ⟨q, inside, rfl⟩ := Member.within_shift.mp within
      obtain ⟨q', inside', same⟩ := Member.within_shift.mp within'
      rw [add_left_cancel same] at inside
      exact apart q' inside inside'
    · intro m old n new p within within'
      obtain ⟨n, inner, rfl⟩ := mem_map.mp new
      obtain ⟨q, inside, rfl⟩ := Member.within_shift.mp within'
      exact joins.fresh q (sound'.covered n inner q inside) (sound.covered m old _ within)

theorem run_sound (build : Build) (meets : build.Meets) : ∃ s, build.run = some s ∧ s.Sound := by
  induction build with
  | empty => exact ⟨⟨[], []⟩, rfl, trivial, by simp, by simp, Pairwise.nil⟩
  | packBits front request ih =>
    obtain ⟨meets, packable⟩ := meets
    obtain ⟨s, result, sound⟩ := ih meets
    refine ⟨_, by rw [Build.run, result]; rfl, packBits_sound sound request ?_⟩
    exact layoutPackBits_spec sound.stacked request.aligned request.positive (packable s result)
  | product front mem ih ih' =>
    obtain ⟨meets, meets', joinable⟩ := meets
    obtain ⟨s, result, sound⟩ := ih meets
    obtain ⟨t, result', sound'⟩ := ih' meets'
    obtain ⟨joined, start, product, joins⟩ :=
      layoutProduct_spec sound.stacked sound'.stacked (joinable s t result result')
    exact ⟨_, by simp [Build.run, result, result', product], product_sound sound sound' joins⟩

/-- The layout that the last step starts from. -/
def Build.front? : Build → Option Build
  | empty => none
  | packBits front _ => some front
  | product front _ => some front

private theorem front_members (build front : Build) (step : build.front? = some front) (result : build.run = some s) :
    ∃ earlier, front.run = some earlier ∧ earlier.members <+: s.members := by
  cases build with
  | empty => cases step
  | packBits front request =>
    cases step
    cases before : front.run with
    | none => simp [Build.run, before] at result
    | some earlier =>
      rw [Build.run, before] at result
      cases result
      exact ⟨earlier, rfl, prefix_append _ _⟩
  | product front mem =>
    cases step
    simp only [Build.run, Option.bind_eq_bind, Option.bind_eq_some_iff] at result
    obtain ⟨earlier, before, t, _, joined, _, same⟩ := result
    cases same
    exact ⟨earlier, before, prefix_append _ _⟩

/-- If each step meets its condition, then members are apart, aligned and inside the layout, which has their bits
allocated, and a step keeps the members that were there. -/
theorem members_apart (build : Build) (meets : build.Meets) : ∃ s, build.run = some s ∧
    s.members.Pairwise Member.Apart ∧
    (∀ m ∈ s.members, m.bitalign ∣ m.bitoffset ∧ m.bitoffset + m.bitsize ≤ 64 * s.layout.length ∧
      ∀ p, m.Within p → Allocated s.layout p) ∧
    ∀ front, build.front? = some front →
      ∃ earlier, front.run = some earlier ∧ earlier.members <+: s.members := by
  obtain ⟨s, result, sound⟩ := run_sound build meets
  refine ⟨s, result, sound.apart, fun m mem => ?_, fun front step => front_members build front step result⟩
  obtain ⟨positive, _, _, multiple⟩ := sound.fields m mem
  have last : m.Within (m.bitoffset + m.bitsize - 1) := ⟨by omega, by omega⟩
  have below := sound.stacked.allocated_lt (sound.covered m mem _ last)
  exact ⟨multiple, by omega, sound.covered m mem⟩

/-- Three bits and a byte, and a layout with one bit as a member. -/
def threeMembers : Build :=
  .product (.packBits (.packBits .empty ⟨3, 1, by decide, by decide⟩) ⟨8, 8, by decide, by decide⟩)
    (.packBits .empty ⟨1, 1, by decide, by decide⟩)

theorem pack_empty (request : Request) (word : request.bitsize ≤ 64) : (Build.packBits .empty request).run =
    some ⟨layoutNewRaw [] (lowMask request.bitsize) request.bitalign, [⟨0, request.bitsize, request.bitalign⟩]⟩ := by
  have some : request.bitsize ≠ 0 := ne_of_gt request.positive
  simp only [Build.run, Option.bind_eq_bind, Option.bind_some, layoutPackBits, if_neg some, packAfter_small word]
  rfl

private theorem threeMembers_meets : threeMembers.Meets := by
  refine ⟨⟨⟨trivial, fun s same => ?_⟩, fun s same => ?_⟩, ⟨trivial, fun s same => ?_⟩, fun s t same same' => ?_⟩
  · cases same
    exact le_of_lt (by decide : 3 < 64)
  · rw [pack_empty _ (by decide)] at same
    cases same
    exact ⟨8, by decide, by decide, (mask_free (by decide)).mp (by decide)⟩
  · cases same
    exact le_of_lt (by decide : 1 < 64)
  · rw [pack_empty _ (by decide)] at same'
    rw [Build.run, pack_empty _ (by decide)] at same
    cases same
    cases same'
    refine fun _ => ⟨fun i bit => ?_, 3, by decide, by decide, (mask_free (by decide)).mp (by decide)⟩
    exact (lowMask_getLsbD.mp bit).1

theorem threeMembers_apart : ∃ s, threeMembers.run = some s ∧ s.members.Pairwise Member.Apart ∧
    (∀ m ∈ s.members, m.bitalign ∣ m.bitoffset ∧ m.bitoffset + m.bitsize ≤ 64 * s.layout.length ∧
      ∀ p, m.Within p → Allocated s.layout p) ∧
    ∀ front, threeMembers.front? = some front →
      ∃ earlier, front.run = some earlier ∧ earlier.members <+: s.members :=
  members_apart threeMembers threeMembers_meets

theorem member_outside : ¬∀ s,
    (Build.packBits (.packBits .empty ⟨55, 1, by decide, by decide⟩) ⟨9, 8, by decide, by decide⟩).run = some s →
      ∀ m ∈ s.members, m.bitoffset + m.bitsize ≤ 64 * s.layout.length := by
  intro inside
  have result : (Build.packBits (.packBits .empty ⟨55, 1, by decide, by decide⟩) ⟨9, 8, by decide, by decide⟩).run =
      some ⟨[⟨0xff7fffffffffffff, 8, 1, 0⟩], [⟨0, 55, 1⟩, ⟨56, 9, 8⟩]⟩ := by
    rw [Build.run, pack_empty _ (by decide)]
    decide
  have last := inside _ result ⟨56, 9, 8⟩ (by simp)
  simp at last

end Culibs.Cuoo
