import Culibs.Cucon.Bitarray.Basic

namespace Culibs.Cucon.Bitarray

open Cu Option

/-- `_bitarray_realloc`. The new memory has the words `fresh`; there is no result if bytes are copied from or to
behind a capacity. -/
def realloc (ba : Bitarray) (newCap newSize : Nat) (fresh : Memory) : Option Bitarray :=
  let copyCap := capacityFor (min newSize ba.size)
  if copyCap ≤ newCap ∧ copyCap ≤ ba.cap then
    some { ba with cap := newCap, arr := fun i => if 8 * i < copyCap then ba.arr i else fresh i }
  else none

def resizeGp (ba : Bitarray) (size : Nat) (fresh : Memory) : Option Bitarray :=
  let minCap := capacityFor size
  let oldCap := ba.cap
  let recapped :=
    if minCap > oldCap then realloc ba (max minCap (oldCap * 2)) size fresh
    else if minCap * 2 < oldCap then realloc ba minCap size fresh
    else some ba
  recapped.map fun ba => { ba with size }

def resizeGpmax (ba : Bitarray) (size : Nat) (fresh : Memory) : Option Bitarray :=
  let minCap := capacityFor size
  let oldCap := ba.cap
  let recapped := if minCap > oldCap then realloc ba (max minCap (oldCap * 2)) size fresh else some ba
  recapped.map fun ba => { ba with size }

def resizeExact (ba : Bitarray) (size : Nat) (fresh : Memory) : Option Bitarray :=
  let newCap := capacityFor size
  let recapped := if newCap ≠ ba.cap then realloc ba newCap size fresh else some ba
  recapped.map fun ba => { ba with size }

def resizeExactmax (ba : Bitarray) (size : Nat) (fresh : Memory) : Option Bitarray :=
  let newCap := capacityFor size
  let recapped := if newCap > ba.cap then realloc ba newCap size fresh else some ba
  recapped.map fun ba => { ba with size }

def resizeFillGp (ba : Bitarray) (newSize : Nat) (fillValue : Bool) (fresh : Memory) : Option Bitarray := do
  let oldSize := ba.size
  let ba ← resizeGp ba newSize fresh
  if oldSize < newSize then ba.fill oldSize newSize fillValue else return ba

def resizeFillExact (ba : Bitarray) (newSize : Nat) (fillValue : Bool) (fresh : Memory) : Option Bitarray := do
  let oldSize := ba.size
  let ba ← resizeExact ba newSize fresh
  if oldSize < newSize then ba.fill oldSize newSize fillValue else return ba

/-- The functions above. -/
inductive Resizer where
  | gp | gpmax | exact | exactmax
  | fillGp (fillValue : Bool)
  | fillExact (fillValue : Bool)

def Resizer.fillValue : Resizer → Option Bool
  | fillGp val | fillExact val => some val
  | _ => none

/-- A call of one of them, with the memory that it is given if it allocates. -/
structure Call where
  resizer : Resizer
  size : Nat
  fresh : Memory

def resize (ba : Bitarray) (call : Call) : Option Bitarray :=
  match call.resizer with
  | .gp => resizeGp ba call.size call.fresh
  | .gpmax => resizeGpmax ba call.size call.fresh
  | .exact => resizeExact ba call.size call.fresh
  | .exactmax => resizeExactmax ba call.size call.fresh
  | .fillGp val => resizeFillGp ba call.size val call.fresh
  | .fillExact val => resizeFillExact ba call.size val call.fresh

def resizeEach (ba : Bitarray) : List Call → Option Bitarray
  | [] => some ba
  | call :: calls => do
    let ba ← resize ba call
    resizeEach ba calls

variable {ba ba' : Bitarray} {call : Call} {calls : List Call} {size cap : Nat}

/-- The bits are in the capacity, and those of both sizes are as before. -/
structure Sized (ba ba' : Bitarray) (size : Nat) : Prop where
  valid : Valid ba'
  newSize : ba'.size = size
  kept : ∀ i, i < ba.size → i < size → ba'.bitAt i = ba.bitAt i

/-- The result of a call, which has the new bits filled if it is one of the last two. -/
structure Resized (ba : Bitarray) (call : Call) (ba' : Bitarray) : Prop extends Sized ba ba' call.size where
  filled : ∀ val, call.resizer.fillValue = some val → ∀ i, ba.size ≤ i → i < call.size → ba'.bitAt i = val

/-- A size that can be rounded up to words. -/
def Roundable (size : Nat) : Prop := size + 63 < 2 ^ 64

instance (size : Nat) : Decidable (Roundable size) := inferInstanceAs (Decidable (size + 63 < 2 ^ 64))

theorem capacityFor_eq (roundable : Roundable size) : capacityFor size = 8 * ((size + 63) / 64) := by
  rw [capacityFor, sizeCeilDiv, Nat.add_succ_sub_one, Nat.mod_eq_of_lt roundable]

theorem capacityFor_le_iff (roundable : Roundable size) (words : cap % 8 = 0) :
    capacityFor size ≤ cap ↔ size ≤ 8 * cap := by
  rw [capacityFor_eq roundable]
  omega

theorem capacityFor_words (size : Nat) : capacityFor size % 8 = 0 := Nat.mul_mod_right 8 _

/-- An array after a change of its capacity but not yet of its size. -/
structure Recapped (ba ba' : Bitarray) (size : Nat) : Prop where
  words : ba'.cap % 8 = 0
  room : size ≤ 8 * ba'.cap
  kept : ∀ i, i < ba.size → i < size → ba'.bitAt i = ba.bitAt i

theorem realloc_recapped (valid : Valid ba) (roundable : Roundable size) (words : cap % 8 = 0)
    (room : capacityFor size ≤ cap) (fresh : Memory) :
    ∃ ba', realloc ba cap size fresh = some ba' ∧ Recapped ba ba' size := by
  have least : Roundable (min size ba.size) :=
    Nat.lt_of_le_of_lt (Nat.add_le_add_right (Nat.min_le_left ..) 63) roundable
  have enough := (capacityFor_le_iff roundable words).mp room
  have copied : capacityFor (min size ba.size) ≤ cap ∧ capacityFor (min size ba.size) ≤ ba.cap := by
    rw [capacityFor_le_iff least words, capacityFor_le_iff least valid.words]
    have := valid.room
    omega
  refine ⟨_, if_pos copied, words, enough, fun i old new => ?_⟩
  have inside : 8 * (i / 64) < capacityFor (min size ba.size) := by
    rw [capacityFor_eq least]
    omega
  simp only [bitAt, if_pos inside]

theorem sized_of_recapped (spec : ∃ ba', recapped = some ba' ∧ Recapped ba ba' size) :
    ∃ ba', recapped.map (fun ba => { ba with size }) = some ba' ∧ Sized ba ba' size := by
  obtain ⟨ba', rfl, words, room, kept⟩ := spec
  exact ⟨_, rfl, ⟨words, room⟩, rfl, kept⟩

section Variants

variable (valid : Valid ba) (roundable : Roundable size) (fresh : Memory)

include valid roundable

theorem recapped_of_enough (enough : capacityFor size ≤ ba.cap) : ∃ ba', some ba = some ba' ∧ Recapped ba ba' size :=
  ⟨ba, rfl, valid.words, (capacityFor_le_iff roundable valid.words).mp enough, fun _ _ _ => rfl⟩

theorem resizeGp_sized : ∃ ba', resizeGp ba size fresh = some ba' ∧ Sized ba ba' size := by
  have words := valid.words
  have words' := capacityFor_words size
  apply sized_of_recapped
  split
  · exact realloc_recapped valid roundable (by omega) (le_max_left ..) fresh
  · next enough =>
    split
    · exact realloc_recapped valid roundable words' (le_rfl) fresh
    · exact recapped_of_enough valid roundable (le_of_not_gt enough)

private theorem resizeGpmax_sized : ∃ ba', resizeGpmax ba size fresh = some ba' ∧ Sized ba ba' size := by
  have words := valid.words
  have words' := capacityFor_words size
  apply sized_of_recapped
  split
  · exact realloc_recapped valid roundable (by omega) (le_max_left ..) fresh
  · next enough => exact recapped_of_enough valid roundable (le_of_not_gt enough)

private theorem resizeExact_sized : ∃ ba', resizeExact ba size fresh = some ba' ∧ Sized ba ba' size := by
  apply sized_of_recapped
  split
  · exact realloc_recapped valid roundable (capacityFor_words size) (le_rfl) fresh
  · next same => exact recapped_of_enough valid roundable (le_of_eq (not_not.mp same))

private theorem resizeExactmax_sized : ∃ ba', resizeExactmax ba size fresh = some ba' ∧ Sized ba ba' size := by
  apply sized_of_recapped
  split
  · exact realloc_recapped valid roundable (capacityFor_words size) (le_rfl) fresh
  · next enough => exact recapped_of_enough valid roundable (le_of_not_gt enough)

end Variants

private theorem fillAfter_resized (sized : Sized ba ba' size) (val : Bool) :
    ∃ ba'', (if ba.size < size then ba'.fill ba.size size val else some ba') = some ba'' ∧ Sized ba ba'' size ∧
      ∀ i, ba.size ≤ i → i < size → ba''.bitAt i = val := by
  obtain ⟨valid, same, kept⟩ := sized
  split
  · next grows =>
    obtain ⟨ba'', done, filled⟩ := fill_filled valid (le_of_lt grows) (le_of_eq same.symm) val
    refine ⟨ba'', done, ⟨⟨?_, ?_⟩, filled.size.trans same, fun i old new => ?_⟩, fun i new inside => ?_⟩
    · rw [filled.cap]
      exact valid.words
    · rw [filled.cap, filled.size]
      exact valid.room
    · rw [bitAt_eq, filled.bits, if_neg (by omega), ← bitAt_eq, kept i old new]
    · rw [bitAt_eq, filled.bits, if_pos (by omega)]
  · exact ⟨ba', rfl, ⟨valid, same, kept⟩, fun i _ _ => by omega⟩

theorem resize_resized (valid : Valid ba) (roundable : Roundable call.size) :
    ∃ ba', resize ba call = some ba' ∧ Resized ba call ba' := by
  obtain ⟨resizer, size, fresh⟩ := call
  cases resizer with
  | gp =>
    obtain ⟨ba', done, sized⟩ := resizeGp_sized valid roundable fresh
    exact ⟨ba', done, sized, nofun⟩
  | gpmax =>
    obtain ⟨ba', done, sized⟩ := resizeGpmax_sized valid roundable fresh
    exact ⟨ba', done, sized, nofun⟩
  | exact =>
    obtain ⟨ba', done, sized⟩ := resizeExact_sized valid roundable fresh
    exact ⟨ba', done, sized, nofun⟩
  | exactmax =>
    obtain ⟨ba', done, sized⟩ := resizeExactmax_sized valid roundable fresh
    exact ⟨ba', done, sized, nofun⟩
  | fillGp val =>
    obtain ⟨ba1, done, sized⟩ := resizeGp_sized valid roundable fresh
    obtain ⟨ba', filled, sized', new⟩ := fillAfter_resized sized val
    refine ⟨ba', ?_, sized', fun val' same => Option.some.inj same ▸ new⟩
    simp only [resize, resizeFillGp, done, bind_eq_bind, bind_some]
    exact filled
  | fillExact val =>
    obtain ⟨ba1, done, sized⟩ := resizeExact_sized valid roundable fresh
    obtain ⟨ba', filled, sized', new⟩ := fillAfter_resized sized val
    refine ⟨ba', ?_, sized', fun val' same => Option.some.inj same ▸ new⟩
    simp only [resize, resizeFillExact, done, bind_eq_bind, bind_some]
    exact filled

private theorem resizeEach_valid (valid : Valid ba) (roundable : ∀ call ∈ calls, Roundable call.size) :
    ∃ ba', resizeEach ba calls = some ba' ∧ Valid ba' := by
  induction calls generalizing ba with
  | nil => exact ⟨ba, rfl, valid⟩
  | cons call calls ih =>
    obtain ⟨here, later⟩ := List.forall_mem_cons.mp roundable
    obtain ⟨ba1, done, resized⟩ := resize_resized valid here
    obtain ⟨ba', rest, valid'⟩ := ih resized.valid later
    refine ⟨ba', ?_, valid'⟩
    simp [resizeEach, done, rest]

theorem initFill_valid (roundable : Roundable size) (val : Bool) : Valid (initFill size val) :=
  ⟨capacityFor_words size, (capacityFor_le_iff roundable (capacityFor_words size)).mp (le_rfl)⟩

/-- Filling sets the bits of the range only, and in every run with sizes that can be rounded up to words each call keeps
the bits, fills the new ones and accesses nothing behind the capacity. -/
theorem fill_resize_right (valid : Valid ba) :
    (∀ i j val, i ≤ j → j ≤ ba.size → ∃ ba', ba.fill i j val = some ba' ∧ ba'.cap = ba.cap ∧ ba'.size = ba.size ∧
      ∀ k, ba'.bitAt k = if i ≤ k ∧ k < j then val else ba.bitAt k) ∧
    ∀ calls call, (∀ c ∈ calls ++ [call], Roundable c.size) →
      ∃ ba1 ba2, resizeEach ba calls = some ba1 ∧ resize ba1 call = some ba2 ∧ Resized ba1 call ba2 := by
  constructor
  · intro i j val ordered within
    obtain ⟨ba', done, cap, size, bits⟩ := fill_filled valid ordered within val
    refine ⟨ba', done, cap, size, fun k => ?_⟩
    rw [bitAt_eq, bitAt_eq, bits, Nat.add_sub_cancel' ordered]
  · intro calls call roundable
    obtain ⟨ba1, done, valid1⟩ := resizeEach_valid valid fun c member => roundable c (List.mem_append_left _ member)
    obtain ⟨ba2, last, resized⟩ := resize_resized valid1
      (roundable call (List.mem_append_right calls (List.mem_singleton_self call)))
    exact ⟨ba1, ba2, done, last, resized⟩

/-- The capacity for the greatest size is 0, so that the word that is copied does not fit. -/
theorem resize_sizeMax : Valid (initFill 1 true) ∧
    resize (initFill 1 true) { resizer := .fillExact true, size := 2 ^ 64 - 1, fresh := fun _ => 0 } = none :=
  ⟨initFill_valid (by decide) true, rfl⟩

theorem fill_resize_right_small : (∃ ba', (initFill 3 false).fill 1 2 true = some ba') ∧
    ∃ ba1 ba2, resizeEach (initFill 3 false) [{ resizer := .gp, size := 70, fresh := fun _ => 0 }] = some ba1 ∧
      resize ba1 { resizer := .fillExact true, size := 200, fresh := fun _ => 0 } = some ba2 := by
  obtain ⟨fills, resizes⟩ := fill_resize_right (initFill_valid (by decide) false : Valid (initFill 3 false))
  obtain ⟨ba', filled, _⟩ := fills 1 2 true (by decide) (by decide)
  obtain ⟨ba1, ba2, first, second, _⟩ := resizes [{ resizer := .gp, size := 70, fresh := fun _ => 0 }]
    { resizer := .fillExact true, size := 200, fresh := fun _ => 0 } (by simp [Roundable])
  exact ⟨⟨ba', filled⟩, ba1, ba2, first, second⟩

end Culibs.Cucon.Bitarray
