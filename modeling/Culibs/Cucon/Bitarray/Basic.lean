import Culibs.Cucon.BitarraySlice

/-! Resizable arrays of bits, `cucon/bitarray.c`. Words are read and written within the capacity; an access
behind it has no result. -/

namespace Culibs.Cucon

open Cu BitMemory Function Option BitVec

/-- `struct cucon_bitarray`, where `arr` is the memory from the first word. -/
structure Bitarray where
  cap : Nat
  size : Nat
  arr : Memory

namespace Bitarray

def wordBit (n : Nat) : Word := (1 : Word) <<< n

def wordMask (n : Nat) : Word := wordBit n - 1

/-- `cu_size_ceil_div`, in which the sum may exceed a word. -/
def sizeCeilDiv (n m : Nat) : Nat := (n + m - 1) % 2 ^ 64 / m

def capacityFor (n : Nat) : Nat := 8 * sizeCeilDiv n 64

/-- `cucon_bitarray_init_fill` -/
def initFill (size : Nat) (val : Bool) : Bitarray where
  cap := capacityFor size
  size := size
  arr _ := if val then ~~~0 else 0

/-- An assignment to a word of the array. -/
def modify (ba : Bitarray) (i : Nat) (f : Word → Word) : Option Bitarray :=
  if 8 * i + 8 ≤ ba.cap then some { ba with arr := update ba.arr i (f (ba.arr i)) } else none

/-- The rounds of `while (++iword < jword)`. -/
def fillWords (val : Word) : Nat → Nat → Bitarray → Option Bitarray
  | 0, _, ba => some ba
  | rounds + 1, iword, ba => do
    let ba ← ba.modify (iword + 1) fun _ => val
    fillWords val rounds (iword + 1) ba

def fill (ba : Bitarray) (i j : Nat) (val : Bool) : Option Bitarray :=
  let iword := i / 64
  let ibit := i % 64
  let jword := j / 64
  let jbit := j % 64
  let rounds := jword - (iword + 1)
  if val then
    if iword = jword then
      if ibit = jbit then some ba else ba.modify iword (· ||| (wordBit jbit - wordBit ibit))
    else do
      let ba ← ba.modify iword (· ||| ~~~(wordBit ibit - 1))
      let ba ← fillWords (~~~0) rounds iword ba
      if jbit = 0 then return ba
      ba.modify (iword + 1 + rounds) (· ||| (wordBit jbit - 1))
  else
    if iword = jword then
      if ibit = jbit then some ba else ba.modify iword (· &&& ~~~(wordBit jbit - wordBit ibit))
    else do
      let ba ← ba.modify iword (· &&& (wordBit ibit - 1))
      let ba ← fillWords 0 rounds iword ba
      if jbit = 0 then return ba
      ba.modify (iword + 1 + rounds) (· &&& ~~~(wordBit jbit - 1))

/-- `cucon_bitarray_at` -/
def bitAt (ba : Bitarray) (i : Nat) : Bool := ba.arr (i / 64) &&& wordBit (i % 64) != 0

variable {ba ba' ba'' : Bitarray} {val : Bool} {start length extra i j offset : Nat} {mask : Word}

theorem bitAt_eq (ba : Bitarray) (i : Nat) : ba.bitAt i = bit ba.arr i := by
  have value := toNat_and_bit (ba.arr (i / 64)) (Nat.mod_lt i (by decide : 0 < 64))
  rw [bitAt, bit, ← testBit_toNat, wordBit]
  cases set : (ba.arr (i / 64)).toNat.testBit (i % 64) with
  | false =>
    rw [set] at value
    rw [eq_of_toNat_eq (y := 0) value]
    rfl
  | true =>
    rw [set, if_pos rfl] at value
    refine bne_iff_ne.mpr fun zero => ?_
    rw [zero] at value
    exact absurd value.symm (Nat.two_pow_pos _).ne'

private theorem masks_above (small : c < 64) : BitarraySlice.Masks (~~~(wordBit c - 1)) c (64 - c) :=
  BitarraySlice.masks_first small

theorem masks_between (less : i < j) (small : j < 64) :
    BitarraySlice.Masks (wordBit j - wordBit i) i (j - i) := by
  have below : 2 ^ i < 2 ^ j := Nat.pow_lt_pow_right (by decide) less
  have low : (wordBit i).toNat = 2 ^ i := toNat_one_shiftLeft (lt_trans less small)
  have high : (wordBit j).toNat = 2 ^ j := toNat_one_shiftLeft small
  have value : (wordBit j - wordBit i).toNat = 2 ^ i * (2 ^ (j - i) - 1) := by
    rw [toNat_sub_of_le (by rw [le_def, low, high]; exact Nat.le_of_lt below), low, high, Nat.mul_sub,
      ← Nat.pow_add, Nat.add_sub_cancel' (Nat.le_of_lt less), Nat.mul_one]
  intro k _
  rw [← testBit_toNat, value, Nat.testBit_two_pow_mul, Nat.testBit_two_pow_sub_one, ← Bool.decide_and,
    decide_eq_decide]
  omega

/-- Some bits have a new value, all others the old one. -/
structure Filled (ba ba' : Bitarray) (start length : Nat) (val : Bool) : Prop where
  cap : ba'.cap = ba.cap
  size : ba'.size = ba.size
  bits : Replaces ba.arr ba'.arr start length fun _ => val

theorem Filled.empty (ba : Bitarray) (start : Nat) (val : Bool) : Filled ba ba start 0 val :=
  ⟨rfl, rfl, Replaces.empty ba.arr start _⟩

theorem Filled.append (first : Filled ba ba' start length val) (second : Filled ba' ba'' (start + length) extra val) :
    Filled ba ba'' start (length + extra) val where
  cap := second.cap.trans first.cap
  size := second.size.trans first.size
  bits := by
    intro position
    rw [second.bits position, first.bits position]
    grind

def setMasked (val : Bool) (mask word : Word) : Word := if val then word ||| mask else word &&& ~~~mask

theorem modify_filled (ba : Bitarray) (val : Bool) (i : Nat) (room : 8 * i + 8 ≤ ba.cap)
    (masks : BitarraySlice.Masks mask offset length)
    (within : offset + length ≤ 64) :
    ∃ ba', ba.modify i (setMasked val mask) = some ba' ∧ Filled ba ba' (i * 64 + offset) length val := by
  refine ⟨_, if_pos room, rfl, rfl, ?_⟩
  have stored : update ba.arr i (setMasked val mask (ba.arr i)) = BitarraySlice.fillMasked val mask i ba.arr := rfl
  simp only [stored, BitarraySlice.fillMasked_eq]
  exact BitarraySlice.storeMasked_replaces masks within fun j _ bound => BitarraySlice.getLsbD_filled val (by omega)

theorem modify_filled_word (ba : Bitarray) (i : Nat) (room : 8 * i + 8 ≤ ba.cap)
    (bits : ∀ j < 64, word.getLsbD j = val) :
    ∃ ba', ba.modify i (fun _ => word) = some ba' ∧ Filled ba ba' (i * 64) 64 val := by
  refine ⟨_, if_pos room, rfl, rfl, Replaces.store 0 (by decide) fun j bound => ?_⟩
  rw [if_pos ⟨Nat.zero_le j, by omega⟩, bits j bound]

private theorem fillWords_filled (bits : ∀ j < 64, word.getLsbD j = val) (rounds i : Nat)
    (room : 8 * (i + rounds) + 8 ≤ ba.cap) :
    ∃ ba', fillWords word rounds i ba = some ba' ∧ Filled ba ba' ((i + 1) * 64) (rounds * 64) val := by
  induction rounds generalizing i ba with
  | zero =>
    exact ⟨ba, rfl, .empty ba _ val⟩
  | succ rounds ih =>
    obtain ⟨ba1, stored, first⟩ := modify_filled_word ba (i + 1) (by omega) bits
    have room' : 8 * (i + 1 + rounds) + 8 ≤ ba1.cap := by
      have := first.cap
      omega
    obtain ⟨ba2, filled, second⟩ := ih (i + 1) room'
    rw [Nat.succ_mul (i + 1)] at second
    rw [Nat.succ_mul rounds, add_comm (rounds * 64)]
    refine ⟨ba2, ?_, first.append second⟩
    simp only [fillWords, stored, bind_eq_bind, bind_some, filled]

/-- The array has whole words, and enough of them for its bits. -/
structure Valid (ba : Bitarray) : Prop where
  words : ba.cap % 8 = 0
  room : ba.size ≤ 8 * ba.cap

private theorem fill_eq (ba : Bitarray) (i j : Nat) (val : Bool) : ba.fill i j val =
    if i / 64 = j / 64 then
      if i % 64 = j % 64 then some ba else ba.modify (i / 64) (setMasked val (wordBit (j % 64) - wordBit (i % 64)))
    else (do
      let first ← ba.modify (i / 64) (setMasked val (~~~(wordBit (i % 64) - 1)))
      let middle ← fillWords (if val then ~~~0 else 0) (j / 64 - (i / 64 + 1)) (i / 64) first
      if j % 64 = 0 then return middle
      middle.modify (i / 64 + 1 + (j / 64 - (i / 64 + 1))) (setMasked val (wordBit (j % 64) - 1))) := by
  cases val with
  | true => rfl
  | false =>
    have complement : setMasked false (~~~(wordBit (i % 64) - 1)) = (· &&& (wordBit (i % 64) - 1)) := by
      funext word
      rw [setMasked, if_neg Bool.false_ne_true, BitVec.not_not]
    rw [complement]
    rfl

theorem fill_filled (valid : Valid ba) (ordered : i ≤ j) (within : j ≤ ba.size) (val : Bool) :
    ∃ ba', ba.fill i j val = some ba' ∧ Filled ba ba' i (j - i) val := by
  obtain ⟨words, room⟩ := valid
  have bound (k : Nat) : k % 64 < 64 := Nat.mod_lt k (by decide)
  have parts (k : Nat) : k / 64 * 64 + k % 64 = k := Nat.div_add_mod' k 64
  rw [fill_eq]
  split
  · next sameWord =>
    split
    · next sameBit =>
      obtain rfl : i = j := by omega
      rw [Nat.sub_self]
      exact ⟨ba, rfl, .empty ba i val⟩
    · next otherBit =>
      obtain ⟨ba', stored, filled⟩ := modify_filled ba val (i / 64) (by omega)
        (masks_between (by omega : i % 64 < j % 64) (bound j)) (by have := bound j; omega)
      have size : j % 64 - i % 64 = j - i := by omega
      rw [parts i, size] at filled
      exact ⟨ba', stored, filled⟩
  · next otherWord =>
    have start : (i / 64 + 1) * 64 = i + (64 - i % 64) := by omega
    have rounds : i / 64 + 1 + (j / 64 - (i / 64 + 1)) = j / 64 := by omega
    have fits : 8 * (i / 64 + (j / 64 - (i / 64 + 1))) + 8 ≤ ba.cap := by omega
    obtain ⟨ba1, stored, first⟩ := modify_filled ba val (i / 64) (by omega)
      (masks_above (bound i)) (by omega)
    rw [parts i] at first
    rw [← first.cap] at fits
    obtain ⟨ba2, filled, middle⟩ := fillWords_filled (fun k => BitarraySlice.getLsbD_filled val) _ (i / 64) fits
    rw [start] at middle
    have both := first.append middle
    have upTo : 64 - i % 64 + (j / 64 - (i / 64 + 1)) * 64 = j / 64 * 64 - i := by omega
    rw [upTo] at both
    simp only [stored, filled, rounds, bind_eq_bind, bind_some]
    by_cases aligned : j % 64 = 0
    · have stop : j / 64 * 64 - i = j - i := by omega
      rw [if_pos aligned, ← stop]
      exact ⟨ba2, rfl, both⟩
    have inside : 8 * (j / 64) + 8 ≤ ba2.cap := by
      rw [both.cap]
      omega
    obtain ⟨ba3, stored', last⟩ := modify_filled _ val _ inside (BitarraySlice.masks_last (bound j))
      (by have := bound j; omega)
    have next : j / 64 * 64 + 0 = i + (j / 64 * 64 - i) := by omega
    have stop : j / 64 * 64 - i + j % 64 = j - i := by omega
    rw [next] at last
    rw [if_neg aligned, ← stop]
    exact ⟨ba3, stored', both.append last⟩

end Bitarray

end Culibs.Cucon
