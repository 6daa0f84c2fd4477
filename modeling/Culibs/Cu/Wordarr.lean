import Culibs.Cu.Bool
import Culibs.Foundation.BitMemory

/-! Images of arrays of words that start at any bit, from `cu/wordarr.h` and `cu/wordarr.c`. -/

namespace Culibs.Cu

open BitMemory Function BitVec

/-- All words, by their address in words. -/
abbrev Memory := Nat → Word

/-- A source of the loops. An aligned one is read by `*src++`, a skewed one by
`b = *src++; x = (a >> offset) | (b << (CU_WORD_WIDTH - offset)); a = b`. -/
inductive Reader where
  | aligned (src : Nat)
  | skewed (offset : Nat) (a : Word) (src : Nat)

def Reader.next (mem : Memory) : Reader → Word × Reader
  | .aligned src => (mem src, .aligned (src + 1))
  | .skewed offset a src =>
    let b := mem src
    (a >>> offset ||| b <<< (64 - offset), .skewed offset b (src + 1))

def wordarrFill : Nat → Nat → Word → Memory → Memory
  | 0, _, _, mem => mem
  | count + 1, dst, val, mem => wordarrFill count (dst + 1) val (update mem dst val)

section Loops

/-- `while (count--)` over one source -/
def mapLoop (op : Word → Word) : Nat → Nat → Reader → Memory → Memory
  | 0, _, _, mem => mem
  | count + 1, dst, src, mem =>
    let (x, src) := src.next mem
    mapLoop op count (dst + 1) src (update mem dst (op x))

/-- `while (count--)` over two sources -/
def zipLoop (op : Word → Word → Word) : Nat → Nat → Reader → Reader → Memory → Memory
  | 0, _, _, _, mem => mem
  | count + 1, dst, src0, src1, mem =>
    let (x0, src0) := src0.next mem
    let (x1, src1) := src1.next mem
    zipLoop op count (dst + 1) src0 src1 (update mem dst (op x0 x1))

end Loops

def wordarrCopy (count dst src : Nat) (mem : Memory) : Memory :=
  mapLoop (fun x => x) count dst (.aligned src) mem

def wordarrCopyBitnot (count dst src : Nat) (mem : Memory) : Memory :=
  mapLoop (fun x => ~~~x) count dst (.aligned src) mem

def wordarrCopyBitimg2 (f : Bool2f) (count dst left right : Nat) (mem : Memory) : Memory :=
  let loop (op : Word → Word → Word) (left right : Nat) := zipLoop op count dst (.aligned left) (.aligned right) mem
  match f with
  | .false => wordarrFill count dst 0 mem
  | .true => wordarrFill count dst (~~~0) mem
  | .left => wordarrCopy count dst left mem
  | .right => wordarrCopy count dst right mem
  | .notLeft => wordarrCopyBitnot count dst left mem
  | .notRight => wordarrCopyBitnot count dst right mem
  | .nor => loop (fun x y => ~~~(x ||| y)) left right
  | .xor => loop (fun x y => x ^^^ y) left right
  | .nand => loop (fun x y => ~~~(x &&& y)) left right
  | .and => loop (fun x y => x &&& y) left right
  | .iff => loop (fun x y => ~~~(x ^^^ y)) left right
  | .or => loop (fun x y => x ||| y) left right
  -- `CU_SWAP` and the case that follows
  | .notAnd => loop (fun x y => x &&& ~~~y) right left
  | .andNot => loop (fun x y => x &&& ~~~y) left right
  | .notOr => loop (fun x y => x ||| ~~~y) right left
  | .orNot => loop (fun x y => x ||| ~~~y) left right

/-- A source after its first word has been read. -/
def Reader.start (mem : Memory) (offset src : Nat) : Reader := .skewed offset (mem src) (src + 1)

def wordarrSkewcopy (count dst srcOffset src : Nat) (mem : Memory) : Memory :=
  if srcOffset = 0 then wordarrCopy count dst src mem
  else mapLoop (fun x => x) count dst (.start mem srcOffset src) mem

def wordarrSkewcopyBitnot (count dst srcOffset src : Nat) (mem : Memory) : Memory :=
  if srcOffset = 0 then wordarrCopyBitnot count dst src mem
  else mapLoop (fun x => ~~~x) count dst (.start mem srcOffset src) mem

def wordarrSkewcopyBitimg (f : Bool1f) (count dst srcOffset src : Nat) (mem : Memory) : Memory :=
  match f with
  | .false => wordarrFill count dst 0 mem
  | .true => wordarrFill count dst (~~~0) mem
  | .ident => wordarrSkewcopy count dst srcOffset src mem
  | .not => wordarrSkewcopyBitnot count dst srcOffset src mem

/-- `none` is `cu_debug_unreachable`, as below. -/
def wordarrSemiskewBitimg2 (f : Bool2f) (count dst src0 offset1 src1 : Nat) (mem : Memory) : Option Memory :=
  let loop (op : Word → Word → Word) := some (zipLoop op count dst (.aligned src0) (.start mem offset1 src1) mem)
  match f with
  | .nor => loop fun s0 x1 => ~~~(s0 ||| x1)
  | .xor => loop fun s0 x1 => s0 ^^^ x1
  | .nand => loop fun s0 x1 => ~~~(s0 &&& x1)
  | .and => loop fun s0 x1 => s0 &&& x1
  | .iff => loop fun s0 x1 => ~~~(s0 ^^^ x1)
  | .or => loop fun s0 x1 => s0 ||| x1
  | .notAnd => loop fun s0 x1 => ~~~s0 &&& x1
  | .andNot => loop fun s0 x1 => s0 &&& ~~~x1
  | .notOr => loop fun s0 x1 => ~~~s0 ||| x1
  | .orNot => loop fun s0 x1 => s0 ||| ~~~x1
  | _ => none

/-- The last `switch` of `cu_wordarr_skewcopy_bitimg2`, where no offset is null. -/
def wordarrBothskewBitimg2 (f : Bool2f) (count dst offset0 src0 offset1 src1 : Nat) (mem : Memory) : Option Memory :=
  let loop (op : Word → Word → Word) :=
    some (zipLoop op count dst (.start mem offset0 src0) (.start mem offset1 src1) mem)
  match f with
  | .nor => loop fun x0 x1 => ~~~(x0 ||| x1)
  | .xor => loop fun x0 x1 => x0 ^^^ x1
  | .nand => loop fun x0 x1 => ~~~(x0 &&& x1)
  | .and => loop fun x0 x1 => x0 &&& x1
  | .iff => loop fun x0 x1 => ~~~(x0 ^^^ x1)
  | .or => loop fun x0 x1 => x0 ||| x1
  | .notAnd => loop fun x0 x1 => ~~~x0 &&& x1
  | .andNot => loop fun x0 x1 => x0 &&& ~~~x1
  | .notOr => loop fun x0 x1 => ~~~x0 ||| x1
  | .orNot => loop fun x0 x1 => x0 ||| ~~~x1
  | _ => none

/-- The part of `cu_wordarr_skewcopy_bitimg2` after its first `switch`. -/
def wordarrBinarySkewcopyBitimg2 (f : Bool2f) (count dst offset0 src0 offset1 src1 : Nat) (mem : Memory) :
    Option Memory :=
  if offset0 = 0 then
    if offset1 = 0 then some (wordarrCopyBitimg2 f count dst src0 src1 mem)
    else wordarrSemiskewBitimg2 f count dst src0 offset1 src1 mem
  else if offset1 = 0 then wordarrSemiskewBitimg2 (bool2fSwap f) count dst src1 offset0 src0 mem
  else wordarrBothskewBitimg2 f count dst offset0 src0 offset1 src1 mem

def wordarrSkewcopyBitimg2 (f : Bool2f) (count dst offset0 src0 offset1 src1 : Nat) (mem : Memory) : Option Memory :=
  match f with
  | .false => some (wordarrFill count dst 0 mem)
  | .true => some (wordarrFill count dst (~~~0) mem)
  | .left => some (wordarrSkewcopy count dst offset0 src0 mem)
  | .right => some (wordarrSkewcopy count dst offset1 src1 mem)
  | .notLeft => some (wordarrSkewcopyBitnot count dst offset0 src0 mem)
  | .notRight => some (wordarrSkewcopyBitnot count dst offset1 src1 mem)
  | f => wordarrBinarySkewcopyBitimg2 f count dst offset0 src0 offset1 src1 mem

/-- An operation on words that is a function of their bits. -/
def Bitwise (op : Word → Word → Word) (f : Bool → Bool → Bool) : Prop :=
  ∀ x y : Word, ∀ j < 64, (op x y).getLsbD j = f (x.getLsbD j) (y.getLsbD j)

/-- The position of the bit that a source returns next. The first word of a skewed source has been
read if there is something left to copy. -/
def Reader.At (mem : Memory) (count position : Nat) : Reader → Prop
  | .aligned src => position = src * 64
  | .skewed offset a src => offset < 64 ∧ position + 64 = src * 64 + offset ∧
    (0 < count → ∀ j < 64, offset ≤ j → a.getLsbD j = bit mem (position + (j - offset)))

variable {mem : Memory} {count dst : Nat} {f : Bool → Bool → Bool}

theorem Reader.At.aligned (mem : Memory) (count src : Nat) : (Reader.aligned src).At mem count (src * 64) :=
  rfl

theorem Reader.At.start (inside : offset < 64) (src : Nat) :
    (Reader.start mem offset src).At mem count (src * 64 + offset) := by
  refine ⟨inside, by omega, fun _ j bound after => ?_⟩
  rw [add_assoc, Nat.add_sub_cancel' after, bit_word mem src bound]

variable {position : Nat} {src : Reader}

theorem Reader.At.next (placed : src.At mem (count + 1) position) :
    (∀ j < 64, (src.next mem).1.getLsbD j = bit mem (position + j)) ∧
      ∀ mem', (∀ i < count * 64, bit mem' (position + 64 + i) = bit mem (position + 64 + i)) →
        (src.next mem).2.At mem' count (position + 64) := by
  cases src with
  | aligned src =>
    have position_eq : position = src * 64 := placed
    refine ⟨fun j bound => ?_, fun _ _ => ?_⟩
    · rw [position_eq, bit_word mem src bound]
      rfl
    · change position + 64 = (src + 1) * 64
      omega
  | skewed offset a src =>
    obtain ⟨inside, position_eq, read⟩ := placed
    refine ⟨fun j bound => ?_, fun mem' same => ⟨inside, by omega, fun some j bound after => ?_⟩⟩
    · change (a >>> offset ||| mem src <<< (64 - offset)).getLsbD j = _
      rw [getLsbD_window a (mem src) (le_of_lt inside) bound]
      split
      · next low =>
        rw [read (Nat.succ_pos count) _ low (Nat.le_add_right ..), Nat.add_sub_cancel_left]
      · next high =>
        have index : position + j = src * 64 + (offset + j - 64) := by omega
        rw [index, bit_word mem src (by omega)]
    · have index : position + 64 + (j - offset) = src * 64 + j := by omega
      rw [same (j - offset) (by omega), index, bit_word mem src bound]

variable {position0 position1 : Nat}

theorem store_images {x y word : Word}
    (bits : ∀ j < 64, word.getLsbD j = f (x.getLsbD j) (y.getLsbD j))
    (read0 : ∀ j < 64, x.getLsbD j = bit mem (position0 + j)) (read1 : ∀ j < 64, y.getLsbD j = bit mem (position1 + j)) :
    Images f mem (update mem dst word) (dst * 64) position0 position1 64 := by
  apply Replaces.store 0 (le_refl 64)
  intro j bound
  rw [if_pos ⟨Nat.zero_le j, by omega⟩, bits j bound, read0 j bound, read1 j bound, Nat.sub_zero]

theorem zipLoop_images (bitwise : Bitwise op f)
    (placed0 : src0.At mem count position0) (placed1 : src1.At mem count position1)
    (apart0 : Apart position0 (dst * 64) (count * 64)) (apart1 : Apart position1 (dst * 64) (count * 64)) :
    Images f mem (zipLoop op count dst src0 src1 mem) (dst * 64) position0 position1 (count * 64) := by
  induction count generalizing mem dst position0 position1 src0 src1 with
  | zero =>
    exact Replaces.empty mem _ _
  | succ count ih =>
    have length : (count + 1) * 64 = 64 + count * 64 := by omega
    rw [length] at apart0 apart1 ⊢
    obtain ⟨read0, later0⟩ := placed0.next
    obtain ⟨read1, later1⟩ := placed1.next
    have first : Images f mem (update mem dst _) (dst * 64) position0 position1 64 :=
      store_images (bitwise _ _) read0 read1
    have next : dst * 64 + 64 = (dst + 1) * 64 := by omega
    have second := ih
      (later0 _ fun i bound => by simpa only [Nat.add_assoc] using first.source apart0 (Nat.le_add_right 64 i) (by omega))
      (later1 _ fun i bound => by simpa only [Nat.add_assoc] using first.source apart1 (Nat.le_add_right 64 i) (by omega))
      (next ▸ apart0.drop) (next ▸ apart1.drop)
    rw [← next] at second
    exact first.append second apart0 apart1

theorem mapLoop_eq_zipLoop (op : Word → Word) (count dst : Nat) (src : Reader) (mem : Memory) :
    mapLoop op count dst src mem = zipLoop (fun x _ => op x) count dst src src mem := by
  induction count generalizing dst src mem with
  | zero => rfl
  | succ count ih => exact ih ..

theorem mapLoop_replaces {g : Bool → Bool}
    (bitwise : ∀ x : Word, ∀ j < 64, (op x).getLsbD j = g (x.getLsbD j))
    (placed : src.At mem count position) (apart : Apart position (dst * 64) (count * 64)) :
    Replaces mem (mapLoop op count dst src mem) (dst * 64) (count * 64) fun i => g (bit mem (position + i)) := by
  have pointwise : Bitwise (fun x _ => op x) fun x _ => g x := fun x _ => bitwise x
  rw [mapLoop_eq_zipLoop]
  exact zipLoop_images pointwise placed placed apart apart

theorem wordarrFill_replaces (bits : ∀ j < 64, val.getLsbD j = v) :
    Replaces mem (wordarrFill count dst val mem) (dst * 64) (count * 64) fun _ => v := by
  induction count generalizing mem dst with
  | zero =>
    exact Replaces.empty mem _ _
  | succ count ih =>
    have length : (count + 1) * 64 = 64 + count * 64 := by omega
    have next : dst * 64 + 64 = (dst + 1) * 64 := by omega
    have first : Images (fun _ _ => v) mem (update mem dst val) (dst * 64) (dst * 64) (dst * 64) 64 :=
      store_images bits (fun j bound => (bit_word mem dst bound).symm) fun j bound => (bit_word mem dst bound).symm
    have second : Images (fun _ _ => v) (update mem dst val) (wordarrFill count (dst + 1) val (update mem dst val))
        (dst * 64 + 64) (dst * 64 + 64) (dst * 64 + 64) (count * 64) := next ▸ ih
    rw [length]
    exact first.append second (.refl _ _) (.refl _ _)

theorem getLsbD_zeros (j : Nat) : (0 : Word).getLsbD j = false := getLsbD_zero ..

theorem getLsbD_ones (bound : j < 64) : (~~~0 : Word).getLsbD j = true := by
  change (~~~0#64).getLsbD j = true
  rw [getLsbD_not, getLsbD_zero, decide_eq_true bound]
  rfl

theorem getLsbD_bitnot (x : Word) (bound : j < 64) : (~~~x).getLsbD j = !x.getLsbD j := by
  rw [getLsbD_not, decide_eq_true bound, Bool.true_and]

section Skewcopy

variable {offset src : Nat} (inside : offset < 64) (apart : Apart (src * 64 + offset) (dst * 64) (count * 64))

include inside apart

theorem wordarrSkewcopy_replaces : Replaces mem (wordarrSkewcopy count dst offset src mem) (dst * 64) (count * 64)
    fun i => bit mem (src * 64 + offset + i) := by
  rw [wordarrSkewcopy]
  split
  · next aligned =>
    subst aligned
    exact mapLoop_replaces (g := fun b => b) (fun _ _ _ => rfl) (Reader.At.aligned mem count src) apart
  · exact mapLoop_replaces (g := fun b => b) (fun _ _ _ => rfl) (Reader.At.start inside src) apart

theorem wordarrSkewcopyBitnot_replaces :
    Replaces mem (wordarrSkewcopyBitnot count dst offset src mem) (dst * 64) (count * 64)
      fun i => !bit mem (src * 64 + offset + i) := by
  rw [wordarrSkewcopyBitnot]
  split
  · next aligned =>
    subst aligned
    exact mapLoop_replaces (fun x _ bound => getLsbD_bitnot x bound) (Reader.At.aligned mem count src) apart
  · exact mapLoop_replaces (fun x _ bound => getLsbD_bitnot x bound) (Reader.At.start inside src) apart

theorem wordarrSkewcopyBitimg_replaces (f : Bool1f) :
    Replaces mem (wordarrSkewcopyBitimg f count dst offset src mem) (dst * 64) (count * 64)
      fun i => bool1fApply f (bit mem (src * 64 + offset + i)) := by
  cases f with
  | false =>
    apply (wordarrFill_replaces fun j _ => getLsbD_zeros j).congr
    intro i _
    cases bit mem (src * 64 + offset + i) <;> rfl
  | true =>
    apply (wordarrFill_replaces fun j bound => getLsbD_ones bound).congr
    intro i _
    cases bit mem (src * 64 + offset + i) <;> rfl
  | ident =>
    apply (wordarrSkewcopy_replaces inside apart).congr
    intro i _
    cases bit mem (src * 64 + offset + i) <;> rfl
  | not =>
    apply (wordarrSkewcopyBitnot_replaces inside apart).congr
    intro i _
    cases bit mem (src * 64 + offset + i) <;> rfl

end Skewcopy

/-- The functions for which there is a loop over both sources. -/
def Bool2f.Binary : Bool2f → Prop
  | .false | .true | .left | .right | .notLeft | .notRight => False
  | _ => True

private theorem binary_swap {f : Bool2f} (binary : f.Binary) : (bool2fSwap f).Binary := by
  cases f <;> exact binary

section Bitimg2

variable {f : Bool2f} (binary : f.Binary) {offset0 src0 offset1 src1 : Nat}

include binary

theorem wordarrCopyBitimg2_images (apart0 : Apart (src0 * 64) (dst * 64) (count * 64))
    (apart1 : Apart (src1 * 64) (dst * 64) (count * 64)) :
    Images (bool2fApply f) mem (wordarrCopyBitimg2 f count dst src0 src1 mem) (dst * 64) (src0 * 64) (src1 * 64)
      (count * 64) := by
  cases f with
  | false | true | left | right | notLeft | notRight => exact binary.elim
  | notAnd | notOr =>
    apply Images.swap
    refine zipLoop_images (fun x y j bound => ?_) rfl rfl apart1 apart0
    simp only [getLsbD_and, getLsbD_or, getLsbD_bitnot _ bound]
    cases x.getLsbD j <;> cases y.getLsbD j <;> rfl
  | nor | xor | nand | and | iff | or | andNot | orNot =>
    refine zipLoop_images (fun x y j bound => ?_) rfl rfl apart0 apart1
    simp only [getLsbD_and, getLsbD_or, getLsbD_xor, getLsbD_bitnot _ bound]
    cases x.getLsbD j <;> cases y.getLsbD j <;> rfl

private theorem wordarrSemiskewBitimg2_images (inside1 : offset1 < 64) (apart0 : Apart (src0 * 64) (dst * 64) (count * 64))
    (apart1 : Apart (src1 * 64 + offset1) (dst * 64) (count * 64)) :
    ∃ mem', wordarrSemiskewBitimg2 f count dst src0 offset1 src1 mem = some mem' ∧
      Images (bool2fApply f) mem mem' (dst * 64) (src0 * 64) (src1 * 64 + offset1) (count * 64) := by
  cases f with
  | false | true | left | right | notLeft | notRight => exact binary.elim
  | nor | xor | nand | and | iff | or | notAnd | andNot | notOr | orNot =>
    refine ⟨_, rfl, zipLoop_images (fun x y j bound => ?_) rfl (Reader.At.start inside1 src1) apart0 apart1⟩
    simp only [getLsbD_and, getLsbD_or, getLsbD_xor, getLsbD_bitnot _ bound]
    cases x.getLsbD j <;> cases y.getLsbD j <;> rfl

private theorem wordarrBothskewBitimg2_images (inside0 : offset0 < 64) (inside1 : offset1 < 64)
    (apart0 : Apart (src0 * 64 + offset0) (dst * 64) (count * 64))
    (apart1 : Apart (src1 * 64 + offset1) (dst * 64) (count * 64)) :
    ∃ mem', wordarrBothskewBitimg2 f count dst offset0 src0 offset1 src1 mem = some mem' ∧
      Images (bool2fApply f) mem mem' (dst * 64) (src0 * 64 + offset0) (src1 * 64 + offset1) (count * 64) := by
  cases f with
  | false | true | left | right | notLeft | notRight => exact binary.elim
  | nor | xor | nand | and | iff | or | notAnd | andNot | notOr | orNot =>
    refine ⟨_, rfl, zipLoop_images (fun x y j bound => ?_) (Reader.At.start inside0 src0) (Reader.At.start inside1 src1)
      apart0 apart1⟩
    simp only [getLsbD_and, getLsbD_or, getLsbD_xor, getLsbD_bitnot _ bound]
    cases x.getLsbD j <;> cases y.getLsbD j <;> rfl

private theorem wordarrBinarySkewcopyBitimg2_images (inside0 : offset0 < 64) (inside1 : offset1 < 64)
    (apart0 : Apart (src0 * 64 + offset0) (dst * 64) (count * 64))
    (apart1 : Apart (src1 * 64 + offset1) (dst * 64) (count * 64)) :
    ∃ mem', wordarrBinarySkewcopyBitimg2 f count dst offset0 src0 offset1 src1 mem = some mem' ∧
      Images (bool2fApply f) mem mem' (dst * 64) (src0 * 64 + offset0) (src1 * 64 + offset1) (count * 64) := by
  rw [wordarrBinarySkewcopyBitimg2]
  by_cases aligned0 : offset0 = 0
  · by_cases aligned1 : offset1 = 0
    · subst aligned0 aligned1
      exact ⟨_, rfl, wordarrCopyBitimg2_images binary apart0 apart1⟩
    · subst aligned0
      rw [if_neg aligned1]
      exact wordarrSemiskewBitimg2_images binary inside1 apart0 apart1
  · by_cases aligned1 : offset1 = 0
    · subst aligned1
      rw [add_zero] at apart1
      rw [if_neg aligned0]
      obtain ⟨mem', done, images⟩ := wordarrSemiskewBitimg2_images (binary_swap binary) inside0 apart1 apart0
      have swapped : bool2fApply (bool2fSwap f) = fun x y => bool2fApply f y x := by
        funext x y
        exact bool2fApply_swap f x y
      rw [swapped] at images
      exact ⟨mem', done, images.swap⟩
    · rw [if_neg aligned0, if_neg aligned1]
      exact wordarrBothskewBitimg2_images binary inside0 inside1 apart0 apart1

end Bitimg2

theorem wordarrSkewcopyBitimg2_images (f : Bool2f) (inside0 : offset0 < 64)
    (inside1 : offset1 < 64) (apart0 : Apart (src0 * 64 + offset0) (dst * 64) (count * 64))
    (apart1 : Apart (src1 * 64 + offset1) (dst * 64) (count * 64)) :
    ∃ mem', wordarrSkewcopyBitimg2 f count dst offset0 src0 offset1 src1 mem = some mem' ∧
      Images (bool2fApply f) mem mem' (dst * 64) (src0 * 64 + offset0) (src1 * 64 + offset1) (count * 64) := by
  cases f with
  | false =>
    refine ⟨_, rfl, (wordarrFill_replaces fun j _ => getLsbD_zeros j).congr fun i _ => ?_⟩
    cases bit mem (src0 * 64 + offset0 + i) <;> cases bit mem (src1 * 64 + offset1 + i) <;> rfl
  | true =>
    refine ⟨_, rfl, (wordarrFill_replaces fun j bound => getLsbD_ones bound).congr fun i _ => ?_⟩
    cases bit mem (src0 * 64 + offset0 + i) <;> cases bit mem (src1 * 64 + offset1 + i) <;> rfl
  | left =>
    refine ⟨_, rfl, (wordarrSkewcopy_replaces inside0 apart0).congr fun i _ => ?_⟩
    cases bit mem (src0 * 64 + offset0 + i) <;> cases bit mem (src1 * 64 + offset1 + i) <;> rfl
  | right =>
    refine ⟨_, rfl, (wordarrSkewcopy_replaces inside1 apart1).congr fun i _ => ?_⟩
    cases bit mem (src0 * 64 + offset0 + i) <;> cases bit mem (src1 * 64 + offset1 + i) <;> rfl
  | notLeft =>
    refine ⟨_, rfl, (wordarrSkewcopyBitnot_replaces inside0 apart0).congr fun i _ => ?_⟩
    cases bit mem (src0 * 64 + offset0 + i) <;> cases bit mem (src1 * 64 + offset1 + i) <;> rfl
  | notRight =>
    refine ⟨_, rfl, (wordarrSkewcopyBitnot_replaces inside1 apart1).congr fun i _ => ?_⟩
    cases bit mem (src0 * 64 + offset0 + i) <;> cases bit mem (src1 * 64 + offset1 + i) <;> rfl
  | nor | xor | nand | and | iff | or | notAnd | andNot | notOr | orNot =>
    exact wordarrBinarySkewcopyBitimg2_images (by exact trivial) inside0 inside1 apart0 apart1

end Culibs.Cu
