import Mathlib.Tactic.Ring

/-! Numbers from strings of bits and bytes, the most significant first. -/

namespace Culibs.BigEndian

open List

abbrev Byte := BitVec 8

variable {bytes : List Byte} {xs ys : List Bool}

def ofBits (xs : List Bool) : Nat := xs.foldl (fun n x => 2 * n + x.toNat) 0

def ofBytes (bytes : List Byte) : Nat := bytes.foldl (fun n byte => n * 256 + byte.toNat) 0

def bitsOfByte (byte : Byte) : List Bool :=
  [byte.getLsbD 7, byte.getLsbD 6, byte.getLsbD 5, byte.getLsbD 4,
    byte.getLsbD 3, byte.getLsbD 2, byte.getLsbD 1, byte.getLsbD 0]

def bits (bytes : List Byte) : List Bool := bytes.flatMap bitsOfByte

theorem foldl_bits (n : Nat) (xs : List Bool) :
    xs.foldl (fun n x => 2 * n + x.toNat) n = n * 2 ^ xs.length + ofBits xs := by
  induction xs generalizing n with
  | nil => simp [ofBits]
  | cons x xs ih =>
    have whole : ofBits (x :: xs) = (2 * 0 + x.toNat) * 2 ^ xs.length + ofBits xs := ih _
    rw [foldl_cons, ih, whole, length_cons]
    ring

theorem ofBits_append (xs ys : List Bool) : ofBits (xs ++ ys) = ofBits xs * 2 ^ ys.length + ofBits ys := by
  rw [ofBits, foldl_append, foldl_bits]
  rfl

theorem foldl_bytes (n : Nat) (bytes : List Byte) :
    bytes.foldl (fun n byte => n * 256 + byte.toNat) n = n * 256 ^ bytes.length + ofBytes bytes := by
  induction bytes generalizing n with
  | nil => simp [ofBytes]
  | cons byte bytes ih =>
    have whole : ofBytes (byte :: bytes) = (0 * 256 + byte.toNat) * 256 ^ bytes.length + ofBytes bytes := ih _
    rw [foldl_cons, ih, whole, length_cons]
    ring

theorem ofBytes_cons (byte : Byte) (bytes : List Byte) :
    ofBytes (byte :: bytes) = byte.toNat * 256 ^ bytes.length + ofBytes bytes := by
  rw [ofBytes, foldl_cons, foldl_bytes, Nat.zero_mul, zero_add]

theorem ofBytes_lt (bytes : List Byte) : ofBytes bytes < 256 ^ bytes.length := by
  induction bytes with
  | nil => exact one_pos
  | cons byte bytes ih =>
    have top : byte.toNat + 1 ≤ 256 := byte.isLt
    calc ofBytes (byte :: bytes) = byte.toNat * 256 ^ bytes.length + ofBytes bytes := ofBytes_cons byte bytes
      _ < byte.toNat * 256 ^ bytes.length + 256 ^ bytes.length := Nat.add_lt_add_left ih _
      _ = (byte.toNat + 1) * 256 ^ bytes.length := by ring
      _ ≤ 256 * 256 ^ bytes.length := Nat.mul_le_mul_right _ top
      _ = 256 ^ (byte :: bytes).length := by rw [length_cons]; ring

theorem ofBytes_append (bytes bytes' : List Byte) :
    ofBytes (bytes ++ bytes') = ofBytes bytes * 256 ^ bytes'.length + ofBytes bytes' := by
  rw [ofBytes, foldl_append, foldl_bytes]
  rfl

theorem length_bits (bytes : List Byte) : (bits bytes).length = 8 * bytes.length := by
  induction bytes with
  | nil => rfl
  | cons byte bytes ih =>
    rw [bits, flatMap_cons, length_append, ← bits, ih, length_cons]
    simp only [bitsOfByte, length_cons, length_nil]
    omega

theorem bits_cons (byte : Byte) (bytes : List Byte) : bits (byte :: bytes) = bitsOfByte byte ++ bits bytes :=
  flatMap_cons ..

theorem bits_append (bytes bytes' : List Byte) : bits (bytes ++ bytes') = bits bytes ++ bits bytes' :=
  flatMap_append ..

theorem ofBits_bitsOfByte : ∀ byte : Byte, ofBits (bitsOfByte byte) = byte.toNat := by decide

theorem ofBits_bits (bytes : List Byte) : ofBits (bits bytes) = ofBytes bytes := by
  induction bytes with
  | nil => rfl
  | cons byte bytes ih =>
    rw [bits_cons, ofBits_append, ofBits_bitsOfByte, ih, length_bits, Nat.pow_mul, ofBytes_cons]

theorem bits_replicate (j : Nat) : bits (replicate j 0xff) = replicate (8 * j) true := by
  induction j with
  | zero => rfl
  | succ j ih =>
    rw [replicate_succ, bits_cons, ih, show 8 * (j + 1) = 8 + 8 * j by ring, ← replicate_append_replicate]
    rfl

end Culibs.BigEndian
