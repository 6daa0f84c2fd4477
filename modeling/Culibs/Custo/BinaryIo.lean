import Culibs.Foundation.BigEndian

/-! The encoding of integers of `custo/binary_io.c`, where the length of a number comes
before it as a run of bits. -/

namespace Culibs.Custo

open BigEndian List Option BitVec
open Nat (mod_eq_of_lt)

/-! Encoding 1, where `l` bits that are set and one that is not stand before a number that has the rest of the last of
their bytes and `l` bytes more. -/

/-- `unsigned_integer`. -/
def DenotesUnsigned (bytes : List Byte) (n : Nat) : Prop :=
  ∃ l xs, bits bytes = replicate l true ++ false :: xs ∧ bytes.length = l / 8 + 1 + l ∧ ofBits xs = n

/-- `signed_integer`, which has the sign in the first bit. -/
def DenotesSigned (bytes : List Byte) (n : Int) : Prop :=
  ∃ s l xs, bits bytes = s :: (replicate l true ++ false :: xs) ∧ bytes.length = (l + 1) / 8 + 1 + l ∧
    n = if s then -(ofBits xs : Int) else ofBits xs

/-! Writing. The buffer is given by its bytes from `k` to the end, so that what is written at `--k` comes first. There is
no result if `k` leaves the buffer. -/

/-- `BUF_SIZE` of the functions that write. -/
def bufSize : Nat := 10

/-- The index `k` of the first byte. -/
def index (buf : List Byte) : Nat := bufSize - buf.length

def push (buf : List Byte) (byte : Byte) : Option (List Byte) :=
  if buf.length < bufSize then some (byte :: buf) else none

/-- The loop over the bytes of the number. -/
def pushBytes (buf : List Byte) (n : Nat) : Option (List Byte) := do
  let buf ← push buf (BitVec.ofNat 8 n)
  if n / 256 = 0 then some buf else pushBytes buf (n / 256)
termination_by n
decreasing_by omega

/-- The loop over the bytes that have only bits of the length. -/
def pushOnes (buf : List Byte) : Nat → Option (List Byte)
  | 0 => some buf
  | l + 1 => do
    let buf ← push buf 0xff
    pushOnes buf l

/-- What is written before the bytes of a number. `extra` is 1 if there is a sign. -/
def pushLength (extra : Nat) (buf : List Byte) : Option (List Byte) :=
  match buf with
  | [] => none
  | first :: rest => do
    let l := (bufSize - 1 + extra - index buf) % 8
    let m : Byte := ~~~(0xff#8 >>> (l + 1))
    let buf ←
      if first &&& m ≠ 0 then push buf (~~~(0xff#8 >>> ((bufSize - 1 + extra - (index buf - 1)) % 8)))
      else some ((first ||| m <<< 1) :: rest)
    pushOnes buf ((bufSize - 1 + extra - index buf) / 8)

/-- `custo_fwrite_uintmax`, with the bytes that are written. -/
def fwriteUintmax (n : BitVec 64) : Option (List Byte) := do
  let buf ← pushBytes [] n.toNat
  pushLength 0 buf

/-- `custo_fwrite_intmax`, with the bytes that are written. -/
def fwriteIntmax (ns : BitVec 64) : Option (List Byte) := do
  let n := if ns.slt 0 then -ns else ns
  let buf ← pushBytes [] n.toNat
  let buf ← pushLength 1 buf
  match buf with
  | [] => none
  | first :: rest => some ((if ns.slt 0 then first else first &&& 0x7f) :: rest)

/-- What comes of reading: more is read into the buffer than fits, the function returns false, or it returns true with a
value and leaves the rest of the stream. -/
inductive Reading (β : Type) where
  | overrun
  | failed
  | value (result : β) (rest : List Byte)
deriving DecidableEq

/-- `fread` of `count` bytes into the buffer. -/
def fread (count : Nat) (stream : List Byte) : Reading (List Byte) :=
  if 8 < count then .overrun
  else if stream.length < count then .failed
  else .value (stream.take count) (stream.drop count)

/-- The loop over the bytes that have only bits of the length, which is counted in `l`. -/
def skipOnes (l : Nat) : List Byte → Option (Nat × Byte × List Byte)
  | [] => none
  | byte :: stream => if byte = 0xff then skipOnes ((l + 8) % 2 ^ 64) stream else some (l, byte, stream)

/-- The loop that counts set bits from a bit on. -/
def leadingOnes (bit : Byte) : Nat → Byte → Nat
  | 0, _ => 0
  | rounds + 1, m => if m &&& bit ≠ 0 then leadingOnes bit rounds (m <<< 1) + 1 else 0

/-- The loop over the bytes after the length. -/
def addBytes (n : Nat) (bytes : List Byte) : Nat := bytes.foldl (fun n byte => (n * 256 + byte.toNat) % 2 ^ 64) n

/-- The end of reading, when the length and the first bits of the number are known. -/
def freadRest (l n : Nat) (stream : List Byte) : Reading Nat :=
  if l = 0 then .value n stream
  else if 8 < l ∨ (l = 8 ∧ n ≠ 0) then .failed
  else
    match fread l stream with
    | .overrun => .overrun
    | .failed => .failed
    | .value bytes stream => .value (addBytes n bytes) stream

/-- `custo_fread_uintmax`. -/
def freadUintmax (stream : List Byte) : Reading Nat :=
  match skipOnes 0 stream with
  | none => .failed
  | some (l, byte, stream) =>
    let i := leadingOnes 0x80 8 byte
    freadRest ((l + i) % 2 ^ 64) (byte &&& 0xff#8 >>> i).toNat stream

/-- The length and the first bits of a signed number. -/
def freadLength (stream : List Byte) : Option (Byte × Nat × Nat × List Byte) :=
  match stream with
  | [] => none
  | ch0 :: stream =>
    if ch0 &&& 0x7f = 0x7f then
      match skipOnes 7 stream with
      | none => none
      | some (l, byte, stream) =>
        let i := leadingOnes 0x80 8 byte
        some (ch0, (l + i) % 2 ^ 64, (byte &&& 0xff#8 >>> i).toNat, stream)
    else
      let i := leadingOnes 0x40 8 ch0
      some (ch0, i, (ch0 &&& 0x7f#8 >>> i).toNat, stream)

/-- `custo_fread_intmax`. -/
def freadIntmax (stream : List Byte) : Reading Int :=
  match freadLength stream with
  | none => .failed
  | some (ch0, l, n, stream) =>
    match freadRest l n stream with
    | .overrun => .overrun
    | .failed => .failed
    | .value n stream =>
      if 2 ^ 63 - 1 < n then .failed
      else .value (if ch0 &&& 0x80 ≠ 0 then -BitVec.ofNat 64 n else BitVec.ofNat 64 n).toInt stream

variable {bytes stream rest : List Byte} {byte : Byte} {l n j : Nat}

private theorem skipOnes_replicate (j l : Nat) (other : byte ≠ 0xff) (short : l + 8 * j < 2 ^ 64) :
    skipOnes l (List.replicate j 0xff ++ byte :: rest) = some (l + 8 * j, byte, rest) := by
  induction j generalizing l with
  | zero => rw [List.replicate_zero, nil_append, skipOnes, if_neg other, Nat.mul_zero, add_zero]
  | succ j ih =>
    rw [List.replicate_succ, List.cons_append, skipOnes, if_pos rfl, mod_eq_of_lt (by omega), ih _ (by omega)]
    congr 2
    omega

theorem skipOnes_some (found : skipOnes l stream = some (l', byte, rest))
    (short : l + 8 * stream.length < 2 ^ 64) :
    ∃ j, stream = List.replicate j 0xff ++ byte :: rest ∧ l' = l + 8 * j ∧ byte ≠ 0xff := by
  induction stream generalizing l with
  | nil => cases found
  | cons first stream ih =>
    rw [length_cons] at short
    rw [skipOnes] at found
    split at found
    · next ones =>
      subst ones
      obtain ⟨j, rfl, rfl, other⟩ := ih found (by omega)
      exact ⟨j + 1, by rw [List.replicate_succ, List.cons_append], by omega, other⟩
    · next other =>
      cases found
      exact ⟨0, rfl, rfl, other⟩

theorem addBytes_eq (n : Nat) (bytes : List Byte) (fits : n * 256 ^ bytes.length + ofBytes bytes < 2 ^ 64) :
    addBytes n bytes = n * 256 ^ bytes.length + ofBytes bytes := by
  induction bytes generalizing n with
  | nil => simp [addBytes, ofBytes]
  | cons byte bytes ih =>
    have split : n * 256 ^ (byte :: bytes).length + ofBytes (byte :: bytes) =
        (n * 256 + byte.toNat) * 256 ^ bytes.length + ofBytes bytes := by
      rw [ofBytes_cons, length_cons]
      ring
    rw [split] at fits ⊢
    have below : n * 256 + byte.toNat < 2 ^ 64 := by
      refine Nat.lt_of_le_of_lt ?_ fits
      exact Nat.le_trans (Nat.le_mul_of_pos_right _ (Nat.pow_pos (by decide))) (Nat.le_add_right ..)
    rw [addBytes, foldl_cons, mod_eq_of_lt below]
    exact ih _ fits

/-- What follows the length fits where the length passes the test. -/
theorem rest_lt (small : n < 128) (bytes : List Byte) (length : bytes.length ≤ 8) (full : bytes.length = 8 → n = 0) :
    n * 256 ^ bytes.length + ofBytes bytes < 2 ^ 64 := by
  have below := ofBytes_lt bytes
  by_cases eight : bytes.length = 8
  · rw [full eight, Nat.zero_mul, zero_add]
    rwa [eight] at below
  · calc n * 256 ^ bytes.length + ofBytes bytes < (n + 1) * 256 ^ bytes.length := by
          rw [Nat.add_mul, Nat.one_mul]
          exact Nat.add_lt_add_left below _
      _ ≤ 128 * 256 ^ 7 := Nat.mul_le_mul small (Nat.pow_le_pow_right (by decide) (by omega))
      _ < 2 ^ 64 := by decide

theorem freadRest_append (small : n < 128) (bytes : List Byte) (length : bytes.length ≤ 8)
    (full : bytes.length = 8 → n = 0) (rest : List Byte) :
    freadRest bytes.length n (bytes ++ rest) = .value (n * 256 ^ bytes.length + ofBytes bytes) rest := by
  rw [freadRest]
  split
  · next none =>
    obtain rfl := eq_nil_of_length_eq_zero none
    simp [ofBytes]
  · rw [if_neg (by omega), fread, if_neg (by omega), if_neg (by rw [length_append]; omega), take_left, drop_left]
    dsimp only
    rw [addBytes_eq n bytes (rest_lt small bytes length full)]

theorem freadRest_value (small : n < 128) (read : freadRest l n stream = .value r rest) :
    ∃ bytes, stream = bytes ++ rest ∧ bytes.length = l ∧ r = n * 256 ^ bytes.length + ofBytes bytes := by
  rw [freadRest] at read
  split at read
  · next none =>
    cases read
    exact ⟨[], rfl, none.symm, by simp [ofBytes]⟩
  split at read
  · cases read
  · next fits =>
    rw [fread, if_neg (by omega)] at read
    by_cases enough : stream.length < l
    · rw [if_pos enough] at read
      cases read
    · rw [if_neg enough] at read
      cases read
      have length : (stream.take l).length = l := by
        rw [length_take]
        omega
      refine ⟨stream.take l, (take_append_drop l stream).symm, length, addBytes_eq n _ ?_⟩
      exact rest_lt small _ (by omega) (by omega)

theorem freadRest_inside (l n : Nat) (stream : List Byte) : freadRest l n stream ≠ .overrun := by
  rw [freadRest]
  split
  · exact nofun
  split
  · exact nofun
  · rw [fread, if_neg (by omega)]
    by_cases enough : stream.length < l
    · rw [if_pos enough]
      exact nofun
    · rw [if_neg enough]
      exact nofun

theorem bits_last : ∀ byte : Byte, byte ≠ 0xff →
    bitsOfByte byte = replicate (leadingOnes 0x80 8 byte) true ++
      false :: (bitsOfByte byte).drop (leadingOnes 0x80 8 byte + 1) ∧
    ofBits ((bitsOfByte byte).drop (leadingOnes 0x80 8 byte + 1)) = (byte &&& 0xff#8 >>> leadingOnes 0x80 8 byte).toNat ∧
    (byte &&& 0xff#8 >>> leadingOnes 0x80 8 byte).toNat < 128 ∧ leadingOnes 0x80 8 byte ≤ 7 := by decide +kernel

theorem bits_frame (j : Nat) (other : byte ≠ 0xff) (bytes : List Byte) :
    ∃ xs, bits (List.replicate j 0xff ++ byte :: bytes) =
        replicate (8 * j + leadingOnes 0x80 8 byte) true ++ false :: xs ∧
      ofBits xs = (byte &&& 0xff#8 >>> leadingOnes 0x80 8 byte).toNat * 256 ^ bytes.length + ofBytes bytes := by
  obtain ⟨shape, low, _, _⟩ := bits_last byte other
  refine ⟨(bitsOfByte byte).drop (leadingOnes 0x80 8 byte + 1) ++ bits bytes, ?_, ?_⟩
  · rw [bits_append, bits_replicate, bits_cons]
    conv_lhs => rw [shape]
    rw [List.append_assoc, List.cons_append, ← List.append_assoc, replicate_append_replicate]
  · rw [ofBits_append, low, length_bits, ofBits_bits, Nat.pow_mul]

private theorem freadUintmax_frame (j : Nat) (other : byte ≠ 0xff) (bytes : List Byte)
    (count : bytes.length = 8 * j + leadingOnes 0x80 8 byte) (length : bytes.length ≤ 8)
    (full : bytes.length = 8 → (byte &&& 0xff#8 >>> leadingOnes 0x80 8 byte).toNat = 0) (suffix : List Byte) :
    freadUintmax (List.replicate j 0xff ++ byte :: bytes ++ suffix) = .value
      ((byte &&& 0xff#8 >>> leadingOnes 0x80 8 byte).toNat * 256 ^ bytes.length + ofBytes bytes) suffix := by
  obtain ⟨_, _, small, _⟩ := bits_last byte other
  rw [List.append_assoc, List.cons_append, freadUintmax, skipOnes_replicate j 0 other (by omega)]
  dsimp only
  rw [zero_add, ← count, mod_eq_of_lt (by omega)]
  exact freadRest_append small bytes length full suffix

private theorem freadUintmax_sound (short : stream.length < 2 ^ 60) :
    freadUintmax stream ≠ .overrun ∧ ∀ n rest, freadUintmax stream = .value n rest →
      ∃ consumed, stream = consumed ++ rest ∧ DenotesUnsigned consumed n := by
  rw [freadUintmax]
  cases skipped : skipOnes 0 stream with
  | none => exact ⟨nofun, nofun⟩
  | some found =>
    obtain ⟨l, byte, stream'⟩ := found
    obtain ⟨j, rfl, rfl, other⟩ := skipOnes_some skipped (by omega)
    obtain ⟨_, _, small, ones⟩ := bits_last byte other
    rw [length_append, length_replicate, length_cons] at short
    dsimp only
    refine ⟨freadRest_inside _ _ _, fun n rest read => ?_⟩
    obtain ⟨bytes, rfl, count, rfl⟩ := freadRest_value small read
    obtain ⟨xs, shape, number⟩ := bits_frame j other bytes
    refine ⟨List.replicate j 0xff ++ byte :: bytes, by simp, 8 * j + leadingOnes 0x80 8 byte, xs, shape, ?_, number⟩
    rw [length_append, length_replicate, length_cons, count]
    omega

theorem pushBytes_spec (k : Nat) (pos : 0 < k) (fits : n < 256 ^ k) (room : rest.length + k ≤ bufSize) :
    ∃ first digits, pushBytes rest n = some (first :: digits ++ rest) ∧ digits.length < k ∧
      ofBytes (first :: digits) = n ∧ (digits = [] ∨ first ≠ 0) := by
  induction k generalizing n rest with
  | zero => exact absurd pos (lt_irrefl 0)
  | succ k ih =>
    have pushed : push rest (BitVec.ofNat 8 n) = some (BitVec.ofNat 8 n :: rest) := if_pos (by omega)
    have last : (BitVec.ofNat 8 n).toNat = n % 256 := toNat_ofNat ..
    rw [pushBytes, pushed, bind_eq_bind, bind_some]
    by_cases done : n / 256 = 0
    · refine ⟨BitVec.ofNat 8 n, [], by rw [if_pos done]; rfl, Nat.succ_pos k, ?_, .inl rfl⟩
      rw [ofBytes_cons, last]
      simp only [length_nil, pow_zero, mul_one, ofBytes, foldl_nil]
      omega
    rw [if_neg done]
    have fits' : n / 256 < 256 ^ k := Nat.div_lt_of_lt_mul (by rw [mul_comm]; exact fits)
    have positive' : 0 < k := by
      rcases eq_zero_or_pos k with rfl | pos
      · exact absurd (Nat.lt_one_iff.mp fits') done
      · exact pos
    obtain ⟨first, digits, written, length, number, top⟩ :=
      ih positive' fits' (show (BitVec.ofNat 8 n :: rest).length + k ≤ bufSize by rw [length_cons]; omega)
    refine ⟨first, digits ++ [BitVec.ofNat 8 n], by rw [written]; simp, ?_, ?_, .inr ?_⟩
    · rw [length_append, length_singleton]
      omega
    · rw [← List.cons_append, ofBytes_append, number, ofBytes_cons, last]
      simp only [length_nil, length_singleton, pow_zero, pow_one, mul_one, ofBytes, foldl_nil]
      omega
    · rcases top with rfl | top
      · rintro rfl
        simp [ofBytes] at number
        omega
      · exact top

theorem push_of_room (byte : Byte) (room : bytes.length < bufSize) : push bytes byte = some (byte :: bytes) := if_pos room

section PushLength

variable {first : Byte} {digits : List Byte} {extra : Nat} (length : digits.length < 8)

include length

theorem pushLength_within (free : first &&& ~~~(0xff#8 >>> ((digits.length + extra) % 8 + 1)) = 0) :
    pushLength extra (first :: digits) =
      pushOnes ((first ||| ~~~(0xff#8 >>> ((digits.length + extra) % 8 + 1)) <<< 1) :: digits)
        ((digits.length + extra) / 8) := by
  have count (byte : Byte) : bufSize - 1 + extra - index (byte :: digits) = digits.length + extra := by
    rw [index, length_cons, bufSize]
    omega
  rw [pushLength]
  simp only [count, free, ne_eq, not_true_eq_false, if_false, bind_eq_bind, bind_some]

theorem pushLength_before (taken : first &&& ~~~(0xff#8 >>> ((digits.length + extra) % 8 + 1)) ≠ 0) :
    pushLength extra (first :: digits) =
      pushOnes (~~~(0xff#8 >>> ((digits.length + 1 + extra) % 8)) :: first :: digits)
        ((digits.length + 1 + extra) / 8) := by
  have count : bufSize - 1 + extra - index (first :: digits) = digits.length + extra := by
    rw [index, length_cons, bufSize]
    omega
  have count' : bufSize - 1 + extra - (index (first :: digits) - 1) = digits.length + 1 + extra := by
    rw [index, length_cons, bufSize]
    omega
  have count'' (byte : Byte) : bufSize - 1 + extra - index (byte :: first :: digits) = digits.length + 1 + extra := by
    rw [index, length_cons, length_cons, bufSize]
    omega
  have room : (first :: digits).length < bufSize := by
    rw [length_cons, bufSize]
    omega
  rw [pushLength]
  simp only [count, count', push_of_room _ room, taken, ne_eq, not_false_eq_true, if_true, bind_eq_bind,
    bind_some, count'']

end PushLength

private theorem first_within : ∀ d < 7, ∀ first : Byte, first &&& ~~~(0xff#8 >>> (d % 8 + 1)) = 0 →
    (first ||| ~~~(0xff#8 >>> (d % 8 + 1)) <<< 1) ≠ 0xff ∧
    leadingOnes 0x80 8 (first ||| ~~~(0xff#8 >>> (d % 8 + 1)) <<< 1) = d ∧
    (first ||| ~~~(0xff#8 >>> (d % 8 + 1)) <<< 1) &&& 0xff#8 >>> d = first := by decide +kernel

theorem first_before : ∀ d < 7, ~~~(0xff#8 >>> ((d + 1) % 8)) ≠ (0xff : Byte) ∧
    leadingOnes 0x80 8 (~~~(0xff#8 >>> ((d + 1) % 8))) = d + 1 ∧
    ~~~(0xff#8 >>> ((d + 1) % 8)) &&& 0xff#8 >>> (d + 1) = 0 := by decide

private theorem pushLength_unsigned (length : digits.length < 8)
    (top : digits = [] ∨ first ≠ 0) :
    ∃ j byte bytes, pushLength 0 (first :: digits) = some (List.replicate j 0xff ++ byte :: bytes) ∧ byte ≠ 0xff ∧
      bytes.length = 8 * j + leadingOnes 0x80 8 byte ∧ bytes.length ≤ 8 ∧
      (bytes.length = 8 → (byte &&& 0xff#8 >>> leadingOnes 0x80 8 byte).toNat = 0) ∧
      (byte &&& 0xff#8 >>> leadingOnes 0x80 8 byte).toNat * 256 ^ bytes.length + ofBytes bytes =
        ofBytes (first :: digits) := by
  by_cases free : first &&& ~~~(0xff#8 >>> ((digits.length + 0) % 8 + 1)) = 0
  · have short : digits.length < 7 := by
      by_contra long
      have seven : digits.length = 7 := by omega
      rw [seven] at free
      rcases top with rfl | top
      · cases seven
      · have all : first &&& 0xff#8 = first := and_allOnes (x := first)
        exact top (all.symm.trans free)
    obtain ⟨other, ones, low⟩ := first_within digits.length short first free
    refine ⟨0, _, digits, ?_, other, by rw [ones]; omega, by omega, by omega, ?_⟩
    · rw [pushLength_within length free, show (digits.length + 0) / 8 = 0 by omega]
      rfl
    · rw [ones, low, ofBytes_cons]
  · rw [pushLength_before length free]
    by_cases short : digits.length < 7
    · obtain ⟨other, ones, low⟩ := first_before digits.length short
      refine ⟨0, _, first :: digits, ?_, other, by rw [ones, length_cons]; omega,
        by rw [length_cons]; omega, by rw [length_cons]; omega, ?_⟩
      · rw [add_zero, Nat.div_eq_of_lt (by omega)]
        rfl
      · rw [ones, low]
        simp
    · have seven : digits.length = 7 := by omega
      refine ⟨1, 0, first :: digits, ?_, by decide, by rw [length_cons, seven]; rfl,
        by rw [length_cons, seven], fun _ => rfl, by simp⟩
      rw [seven, pushOnes, push_of_room _ (by simp [bufSize, seven])]
      rfl

theorem fwriteUintmax_spec (n : BitVec 64) :
    ∃ written, fwriteUintmax n = some written ∧ written.length ≤ 10 ∧
      ∀ suffix, freadUintmax (written ++ suffix) = .value n.toNat suffix := by
  obtain ⟨first, digits, pushed, length, number, top⟩ :=
    pushBytes_spec 8 (by decide) n.isLt (show ([] : List Byte).length + 8 ≤ bufSize by decide)
  rw [append_nil] at pushed
  obtain ⟨j, byte, bytes, written, other, count, bound, full, value⟩ := pushLength_unsigned length top
  refine ⟨_, by rw [fwriteUintmax, pushed, bind_eq_bind, bind_some, written], ?_, fun suffix => ?_⟩
  · rw [length_append, length_replicate, length_cons]
    omega
  · rw [freadUintmax_frame j other bytes count bound full suffix, value, number]

/-- Unsigned numbers are read as they were written, and whatever is read is what the bytes denote. -/
theorem uintmax_codec (n : BitVec 64) (suffix stream : List Byte) (short : stream.length < 2 ^ 60) :
    (∃ written, fwriteUintmax n = some written ∧ written.length ≤ 10 ∧
      freadUintmax (written ++ suffix) = .value n.toNat suffix) ∧
    freadUintmax stream ≠ .overrun ∧ ∀ m rest, freadUintmax stream = .value m rest →
      ∃ consumed, stream = consumed ++ rest ∧ DenotesUnsigned consumed m := by
  obtain ⟨written, result, bound, read⟩ := fwriteUintmax_spec n
  exact ⟨⟨written, result, bound, read suffix⟩, freadUintmax_sound short⟩

theorem uintmax_codec_small : (∃ written, fwriteUintmax 300 = some written ∧ written.length ≤ 10 ∧
      freadUintmax (written ++ [7]) = .value 300 [7]) ∧
    freadUintmax [0x81, 0x2c] ≠ .overrun ∧ ∀ m rest, freadUintmax [0x81, 0x2c] = .value m rest →
      ∃ consumed, [0x81, 0x2c] = consumed ++ rest ∧ DenotesUnsigned consumed m :=
  uintmax_codec 300 [7] [0x81, 0x2c] (by decide)

theorem bits_first : ∀ ch0 : Byte, ch0 &&& 0x7f ≠ 0x7f →
    bitsOfByte ch0 = ch0.getLsbD 7 :: (replicate (leadingOnes 0x40 8 ch0) true ++
      false :: (bitsOfByte ch0).drop (leadingOnes 0x40 8 ch0 + 2)) ∧
    ofBits ((bitsOfByte ch0).drop (leadingOnes 0x40 8 ch0 + 2)) = (ch0 &&& 0x7f#8 >>> leadingOnes 0x40 8 ch0).toNat ∧
    (ch0 &&& 0x7f#8 >>> leadingOnes 0x40 8 ch0).toNat < 128 ∧ leadingOnes 0x40 8 ch0 ≤ 6 := by decide +kernel

private theorem bits_first_full : ∀ ch0 : Byte, ch0 &&& 0x7f = 0x7f →
    bitsOfByte ch0 = ch0.getLsbD 7 :: replicate 7 true := by decide

private theorem freadLength_some (short : stream.length < 2 ^ 60)
    (read : freadLength stream = some (ch0, l, n, rest)) :
    ∃ head, stream = head ++ rest ∧ n < 128 ∧ head.length = (l + 1) / 8 + 1 ∧ ∀ bytes, bytes.length = l →
      ∃ xs, bits (head ++ bytes) = ch0.getLsbD 7 :: (List.replicate l true ++ false :: xs) ∧
        ofBits xs = n * 256 ^ bytes.length + ofBytes bytes := by
  cases stream with
  | nil => cases read
  | cons first stream =>
    rw [length_cons] at short
    rw [freadLength] at read
    by_cases ones : first &&& 0x7f = 0x7f
    · rw [if_pos ones] at read
      cases skipped : skipOnes 7 stream with
      | none =>
        rw [skipped] at read
        cases read
      | some found =>
        obtain ⟨l', byte, stream'⟩ := found
        obtain ⟨j, rfl, rfl, other⟩ := skipOnes_some skipped (by omega)
        obtain ⟨_, _, small, few⟩ := bits_last byte other
        rw [length_append, length_replicate, length_cons] at short
        rw [skipped] at read
        dsimp only at read
        rw [mod_eq_of_lt (by omega)] at read
        cases read
        refine ⟨ch0 :: List.replicate j 0xff ++ [byte], by simp, small, ?_, fun bytes count => ?_⟩
        · rw [length_append, length_cons, length_replicate, length_singleton]
          omega
        · obtain ⟨xs, shape, number⟩ := bits_frame j other bytes
          refine ⟨xs, ?_, number⟩
          rw [List.append_assoc, singleton_append, List.cons_append, bits_cons, bits_first_full ch0 ones, shape,
            List.cons_append, ← List.append_assoc, replicate_append_replicate, add_assoc]
    · rw [if_neg ones] at read
      cases read
      obtain ⟨shape, low, small, few⟩ := bits_first ch0 ones
      refine ⟨[ch0], rfl, small, by rw [length_singleton]; omega, fun bytes count => ?_⟩
      refine ⟨(bitsOfByte ch0).drop (leadingOnes 0x40 8 ch0 + 2) ++ bits bytes, ?_, ?_⟩
      · rw [singleton_append, bits_cons]
        conv_lhs => rw [shape]
        rw [List.cons_append, List.append_assoc, List.cons_append]
      · rw [ofBits_append, low, length_bits, ofBits_bits, Nat.pow_mul]

theorem toInt_ofNat (small : n ≤ 2 ^ 63 - 1) : (BitVec.ofNat 64 n).toInt = n := by
  rw [toInt_ofNat']
  exact Int.bmod_eq_of_le (by omega) (by omega)

theorem toInt_neg_ofNat (small : n ≤ 2 ^ 63 - 1) : (-BitVec.ofNat 64 n).toInt = -(n : Int) := by
  rw [toInt_neg, toInt_ofNat small]
  exact Int.bmod_eq_of_le (by omega) (by omega)

private theorem sign_bit : ∀ ch0 : Byte, ch0 &&& 0x80 ≠ 0 ↔ ch0.getLsbD 7 = true := by decide

private theorem freadIntmax_sound (short : stream.length < 2 ^ 60) :
    freadIntmax stream ≠ .overrun ∧ ∀ n rest, freadIntmax stream = .value n rest →
      ∃ consumed, stream = consumed ++ rest ∧ DenotesSigned consumed n := by
  rw [freadIntmax]
  cases found : freadLength stream with
  | none => exact ⟨nofun, nofun⟩
  | some start =>
    obtain ⟨ch0, l, low, stream'⟩ := start
    obtain ⟨head, rfl, small, length, shape⟩ := freadLength_some short found
    dsimp only
    cases read : freadRest l low stream' with
    | overrun => exact absurd read (freadRest_inside l low stream')
    | failed => exact ⟨nofun, nofun⟩
    | value m stream'' =>
      obtain ⟨bytes, rfl, count, number⟩ := freadRest_value small read
      dsimp only
      by_cases large : 2 ^ 63 - 1 < m
      · rw [if_pos large]
        exact ⟨nofun, nofun⟩
      rw [if_neg large]
      refine ⟨nofun, fun n rest same => ?_⟩
      obtain ⟨xs, bits, value⟩ := shape bytes count
      cases same
      refine ⟨head ++ bytes, (List.append_assoc ..).symm, ch0.getLsbD 7, l, xs, bits, ?_, ?_⟩
      · rw [length_append, length, count]
      · rw [value, ← number]
        by_cases sign : ch0 &&& 0x80 ≠ 0
        · rw [if_pos sign, if_pos ((sign_bit ch0).mp sign), toInt_neg_ofNat (Nat.le_of_not_lt large)]
        · rw [if_neg sign, if_neg (mt (sign_bit ch0).mpr sign), toInt_ofNat (Nat.le_of_not_lt large)]

/-- A first byte with or without the sign. -/
def Signs (ch0 c : Byte) : Prop := c = ch0 ∨ c = ch0 &&& 0x7f

theorem Signs.same (signs : Signs ch0 c) :
    c &&& 0x7f = ch0 &&& 0x7f ∧ leadingOnes 0x40 8 c = leadingOnes 0x40 8 ch0 ∧
      ∀ d < 7, c &&& 0x7f#8 >>> d = ch0 &&& 0x7f#8 >>> d := by
  have masked : ∀ ch0 : Byte, ch0 &&& 0x7f &&& 0x7f = ch0 &&& 0x7f ∧
      leadingOnes 0x40 8 (ch0 &&& 0x7f) = leadingOnes 0x40 8 ch0 ∧
      ∀ d < 7, ch0 &&& 0x7f &&& 0x7f#8 >>> d = ch0 &&& 0x7f#8 >>> d := by decide +kernel
  rcases signs with rfl | rfl
  · exact ⟨rfl, rfl, fun _ _ => rfl⟩
  · exact masked ch0

theorem signed_within : ∀ d < 6, ∀ first : Byte, first &&& ~~~(0xff#8 >>> ((d + 1) % 8 + 1)) = 0 →
    (first ||| ~~~(0xff#8 >>> ((d + 1) % 8 + 1)) <<< 1) &&& 0x7f ≠ 0x7f ∧
    leadingOnes 0x40 8 (first ||| ~~~(0xff#8 >>> ((d + 1) % 8 + 1)) <<< 1) = d ∧
    (first ||| ~~~(0xff#8 >>> ((d + 1) % 8 + 1)) <<< 1) &&& 0x7f#8 >>> d = first := by decide +kernel

private theorem signed_before : ∀ d < 6, (~~~(0xff#8 >>> ((d + 1 + 1) % 8)) : Byte) &&& 0x7f ≠ 0x7f ∧
    leadingOnes 0x40 8 (~~~(0xff#8 >>> ((d + 1 + 1) % 8))) = d + 1 ∧
    ~~~(0xff#8 >>> ((d + 1 + 1) % 8)) &&& 0x7f#8 >>> (d + 1) = 0 := by decide

private theorem signed_first (d : Nat) (bound : d < 6) (first : Byte) :
    (first ||| ~~~(0xff#8 >>> ((d + 1) % 8 + 1)) <<< 1).getLsbD 7 = true := by
  have marked : ∀ d < 6, (~~~(0xff#8 >>> ((d + 1) % 8 + 1)) <<< 1).getLsbD 7 = true := by decide
  rw [getLsbD_or, marked d bound, Bool.or_true]

private theorem signed_before_first : ∀ d < 6, (~~~(0xff#8 >>> ((d + 1 + 1) % 8)) : Byte).getLsbD 7 = true := by decide

private theorem eighth_digit : ∀ first : Byte, first &&& ~~~(0xff#8 >>> 1) = 0 →
    first ||| ~~~(0xff#8 >>> 1) <<< 1 = first ∧ first ≠ 0xff ∧ leadingOnes 0x80 8 first = 0 ∧ first &&& 0xff#8 >>> 0
      = first := by
  decide

theorem Signs.full (signs : Signs 0xff c) : c &&& 0x7f = 0x7f := by
  rcases signs with rfl | rfl <;> rfl

theorem freadLength_first (partly : c &&& 0x7f ≠ 0x7f) (stream : List Byte) :
    freadLength (c :: stream) = some (c, leadingOnes 0x40 8 c, (c &&& 0x7f#8 >>> leadingOnes 0x40 8 c).toNat, stream) :=
  if_neg partly

theorem freadLength_second (full : c &&& 0x7f = 0x7f) (other : byte ≠ 0xff) (few : leadingOnes 0x80 8 byte < 8)
    (stream : List Byte) :
    freadLength (c :: byte :: stream) = some (c, 7 + leadingOnes 0x80 8 byte,
      (byte &&& 0xff#8 >>> leadingOnes 0x80 8 byte).toNat, stream) := by
  rw [freadLength, if_pos full, skipOnes, if_neg other]
  dsimp only
  rw [mod_eq_of_lt (by omega)]

/-- What is read back of the bytes of a number after its length, with either sign. -/
def ReadsBack (ch0 : Byte) (tail bytes : List Byte) : Prop :=
  ∀ c, Signs ch0 c → ∃ l n rest, (∀ suffix, freadLength (c :: tail ++ suffix) = some (c, l, n, rest ++ suffix)) ∧
    rest.length = l ∧ l ≤ 8 ∧ (l = 8 → n = 0) ∧ n < 128 ∧ n * 256 ^ rest.length + ofBytes rest = ofBytes bytes

variable {first : Byte} {digits : List Byte}

private theorem pushLength_signed_within (length : digits.length < 8) (top : digits = [] ∨ first ≠ 0)
    (free : first &&& ~~~(0xff#8 >>> ((digits.length + 1) % 8 + 1)) = 0) :
    ∃ ch0 tail, pushLength 1 (first :: digits) = some (ch0 :: tail) ∧ tail.length < 10 ∧ ch0.getLsbD 7 = true ∧
      ReadsBack ch0 tail (first :: digits) := by
  rw [pushLength_within length free]
  by_cases short : digits.length < 6
  · have zero : (digits.length + 1) / 8 = 0 := by omega
    rw [zero]
    refine ⟨_, digits, rfl, by omega, signed_first _ short first, fun c signs => ?_⟩
    obtain ⟨partly, ones, low⟩ := signed_within _ short first free
    obtain ⟨same, run, masks⟩ := signs.same
    rw [← same] at partly
    rw [← run] at ones
    rw [← masks _ (by omega)] at low
    refine ⟨digits.length, first.toNat, digits, fun suffix => ?_, rfl, by omega, by omega, ?_, (ofBytes_cons ..).symm⟩
    · rw [List.cons_append, freadLength_first partly, ones, low]
    · obtain ⟨_, _, small, _⟩ := bits_first c partly
      rwa [ones, low] at small
  · by_cases six : digits.length = 6
    · rw [six] at free
      rcases top with rfl | top
      · cases six
      · have all : first &&& 0xff#8 = first := and_allOnes (x := first)
        exact absurd (all.symm.trans free) top
    have seven : digits.length = 7 := by omega
    rw [seven] at free
    obtain ⟨same, other, ones, low⟩ := eighth_digit first free
    rw [seven, same, show (7 + 1) / 8 = 1 by rfl, pushOnes, push_of_room _ (by rw [length_cons, seven]; decide)]
    refine ⟨0xff, first :: digits, rfl, by rw [length_cons]; omega, rfl, fun c signs => ?_⟩
    refine ⟨7, first.toNat, digits, fun suffix => ?_, seven, by decide, by omega, ?_, (ofBytes_cons ..).symm⟩
    · rw [List.cons_append, List.cons_append, freadLength_second signs.full other (by rw [ones]; decide), ones, low]
    · obtain ⟨_, _, small, _⟩ := bits_last first other
      rwa [ones, low] at small

theorem pushLength_signed_before (length : digits.length < 8)
    (free : ¬ first &&& ~~~(0xff#8 >>> ((digits.length + 1) % 8 + 1)) = 0) :
    ∃ ch0 tail, pushLength 1 (first :: digits) = some (ch0 :: tail) ∧ tail.length < 10 ∧ ch0.getLsbD 7 = true ∧
      ReadsBack ch0 tail (first :: digits) := by
  rw [pushLength_before length free]
  have value : 0 * 256 ^ (first :: digits).length + ofBytes (first :: digits) = ofBytes (first :: digits) := by
    rw [Nat.zero_mul, zero_add]
  by_cases short : digits.length < 6
  · have zero : (digits.length + 1 + 1) / 8 = 0 := by omega
    rw [zero]
    refine ⟨_, first :: digits, rfl, by rw [length_cons]; omega, signed_before_first _ short, fun c signs => ?_⟩
    obtain ⟨partly, ones, low⟩ := signed_before _ short
    obtain ⟨same, run, masks⟩ := signs.same
    rw [← same] at partly
    rw [← run] at ones
    rw [← masks _ (by omega)] at low
    refine ⟨digits.length + 1, 0, first :: digits, fun suffix => ?_, rfl, by omega, fun _ => rfl, by decide, value⟩
    rw [List.cons_append, freadLength_first partly, ones, low]
    rfl
  · by_cases six : digits.length = 6
    · rw [six, show (6 + 1 + 1) / 8 = 1 by rfl, pushOnes,
        push_of_room _ (by rw [length_cons, length_cons, six]; decide)]
      refine ⟨0xff, 0 :: first :: digits, rfl, by rw [length_cons, length_cons]; omega, rfl, fun c signs => ?_⟩
      refine ⟨7, 0, first :: digits, fun suffix => ?_, by rw [length_cons, six], by decide, fun _ => rfl, by decide,
        value⟩
      rw [List.cons_append, List.cons_append, freadLength_second signs.full (by decide) (by decide)]
      rfl
    · have seven : digits.length = 7 := by omega
      rw [seven, show (7 + 1 + 1) / 8 = 1 by rfl, pushOnes,
        push_of_room _ (by rw [length_cons, length_cons, seven]; decide)]
      refine ⟨0xff, 0x80 :: first :: digits, rfl, by rw [length_cons, length_cons]; omega, rfl,
        fun c signs => ?_⟩
      refine ⟨8, 0, first :: digits, fun suffix => ?_, by rw [length_cons, seven], by decide, fun _ => rfl,
        by decide, value⟩
      rw [List.cons_append, List.cons_append, freadLength_second signs.full (by decide) (by decide)]
      rfl

private theorem pushLength_signed (length : digits.length < 8) (top : digits = [] ∨ first ≠ 0) :
    ∃ ch0 tail, pushLength 1 (first :: digits) = some (ch0 :: tail) ∧ tail.length < 10 ∧ ch0.getLsbD 7 = true ∧
      ReadsBack ch0 tail (first :: digits) := by
  by_cases free : first &&& ~~~(0xff#8 >>> ((digits.length + 1) % 8 + 1)) = 0
  · exact pushLength_signed_within length top free
  · exact pushLength_signed_before length free

theorem and_signs (ch0 : Byte) (negative : Bool) : Signs ch0 (if negative then ch0 else ch0 &&& 0x7f) := by
  cases negative with
  | true => exact .inl rfl
  | false => exact .inr rfl

private theorem sign_kept : ∀ ch0 : Byte, ch0.getLsbD 7 = true → ∀ negative : Bool,
    ((if negative then ch0 else ch0 &&& 0x7f) &&& 0x80 ≠ 0 ↔ negative = true) := by decide +kernel

/-- The magnitude that is written. -/
def magnitude (ns : BitVec 64) : BitVec 64 := if ns.slt 0 then -ns else ns

private theorem toInt_magnitude (ns : BitVec 64) (other : ns ≠ intMin 64) :
    (magnitude ns).toNat ≤ 2 ^ 63 - 1 ∧
      ns.toInt = if ns.slt 0 then -((magnitude ns).toNat : Int) else (magnitude ns).toNat := by
  have least : ns.toNat ≠ 2 ^ 63 := fun same => other (eq_of_toNat_eq same)
  have sign : ns.slt 0 = true ↔ 2 ^ 63 ≤ ns.toNat := by
    change ns.slt 0#64 = true ↔ _
    rw [slt_zero_iff_msb_cond, msb_eq_decide, decide_eq_true_iff]
  rw [magnitude]
  by_cases negative : ns.slt 0 = true
  · have high := sign.mp negative
    rw [if_pos negative, if_pos negative, toNat_neg, mod_eq_of_lt (by omega), toInt_eq_toNat_cond]
    constructor
    · omega
    · rw [if_neg (by omega)]
      omega
  · have low := mt sign.mpr negative
    rw [if_neg negative, if_neg negative, toInt_eq_toNat_cond, if_pos (by omega)]
    exact ⟨by omega, rfl⟩

private theorem magnitude_intMin : (magnitude (intMin 64)).toNat = 2 ^ 63 := by decide

/-- What is written for a signed number, and what comes of reading it. -/
theorem fwriteIntmax_spec (ns : BitVec 64) :
    ∃ written, fwriteIntmax ns = some written ∧ written.length ≤ 10 ∧
      ∀ suffix, freadIntmax (written ++ suffix) =
        if ns = intMin 64 then .failed else .value ns.toInt suffix := by
  obtain ⟨first, digits, pushed, length, number, top⟩ :=
    pushBytes_spec 8 (by decide) (magnitude ns).isLt (show ([] : List Byte).length + 8 ≤ bufSize by decide)
  rw [append_nil] at pushed
  obtain ⟨ch0, tail, written, bound, set, reads⟩ := pushLength_signed length top
  refine ⟨(if ns.slt 0 then ch0 else ch0 &&& 0x7f) :: tail, ?_, bound, fun suffix => ?_⟩
  · rw [magnitude] at pushed
    simp only [fwriteIntmax, pushed, written, bind_eq_bind, bind_some]
  obtain ⟨l, n, bytes, found, count, most, full, small, value⟩ := reads _ (and_signs ch0 (ns.slt 0))
  rw [freadIntmax, found suffix, ← count]
  dsimp only
  rw [freadRest_append small bytes (by omega) (fun eight => full (count ▸ eight)) suffix, value, number]
  dsimp only
  by_cases least : ns = intMin 64
  · rw [least, magnitude_intMin, if_pos rfl, if_pos (by decide)]
  · obtain ⟨small, signed⟩ := toInt_magnitude ns least
    rw [if_neg least, if_neg (not_lt.mpr small), signed]
    have kept := sign_kept ch0 set (ns.slt 0)
    by_cases negative : ns.slt 0 = true
    · rw [if_pos (kept.mpr negative), if_pos negative, toInt_neg_ofNat small]
    · rw [if_neg (mt kept.mp negative), if_neg negative, toInt_ofNat small]

/-- Signed numbers are written inside the buffer, and read as they were written unless the number is the least that
there is. -/
theorem intmax_codec (ns : BitVec 64) (suffix : List Byte) :
    ((∃ written, fwriteIntmax ns = some written ∧ written.length ≤ 10 ∧
        freadIntmax (written ++ suffix) = .value ns.toInt suffix) ∧
      ∀ stream : List Byte, stream.length < 2 ^ 60 → freadIntmax stream ≠ .overrun ∧
        ∀ m rest, freadIntmax stream = .value m rest →
          ∃ consumed, stream = consumed ++ rest ∧ DenotesSigned consumed m) ↔ ns ≠ intMin 64 := by
  obtain ⟨written, result, bound, read⟩ := fwriteIntmax_spec ns
  constructor
  · rintro ⟨⟨written', result', _, read'⟩, _⟩ least
    rw [result] at result'
    cases result'
    rw [read, if_pos least] at read'
    cases read'
  · intro other
    refine ⟨⟨written, result, bound, ?_⟩, fun stream short => freadIntmax_sound short⟩
    rw [read, if_neg other]

/-- The least number is written, but cannot be read. -/
theorem intmin_unread : ¬ ∃ written, fwriteIntmax (intMin 64) = some written ∧
    freadIntmax (written ++ []) = .value (intMin 64).toInt [] := by
  rintro ⟨written, result, read⟩
  obtain ⟨written', result', _, failed⟩ := fwriteIntmax_spec (intMin 64)
  rw [result] at result'
  cases result'
  rw [failed, if_pos rfl] at read
  cases read

/-! Strings, after their lengths. -/

/-- `custo_fwrite_str`, with the bytes that are written. -/
def fwriteStr (arr : List Byte) : Option (List Byte) := do
  let written ← fwriteUintmax (BitVec.ofNat 64 arr.length)
  some (written ++ arr)

/-- `custo_fread_str_init` where a length is read, with what it returns and the string, which has no character where
none is read. The call of `fread` is for one member of `n` bytes. -/
def freadStrInit (stream : List Byte) : Option (Bool × List (Option Byte) × List Byte) :=
  match freadUintmax stream with
  | .value n stream =>
    let count := if n ≠ 0 ∧ n ≤ stream.length then 1 else 0
    some (count = n, (range n).map (stream[·]?), stream.drop n)
  | _ => none

/-- `custo_fread_str_new`. -/
def freadStrNew (stream : List Byte) : Option (List (Option Byte) × List Byte) := (freadStrInit stream).map Prod.snd

/-- Strings are read as they were written, but `custo_fread_str_init` fails unless they have at most one character. -/
theorem str_codec (arr suffix : List Byte) (fits : arr.length < 2 ^ 64) :
    ∃ written, fwriteStr arr = some written ∧ freadStrNew (written ++ suffix) = some (arr.map some, suffix) ∧
      freadStrInit (written ++ suffix) = some (decide (arr.length ≤ 1), arr.map some, suffix) := by
  obtain ⟨written, result, _, read⟩ := fwriteUintmax_spec (BitVec.ofNat 64 arr.length)
  have chars : (range arr.length).map ((arr ++ suffix)[·]?) = arr.map some := by
    refine ext_getElem (by simp) fun i _ inside => ?_
    rw [length_map] at inside
    simp [getElem?_append_left inside]
  have init : freadStrInit (written ++ arr ++ suffix) = some (decide (arr.length ≤ 1), arr.map some, suffix) := by
    rw [List.append_assoc, freadStrInit, read, toNat_ofNat, mod_eq_of_lt fits]
    dsimp only
    rw [chars, drop_left, length_append]
    congr 2
    split <;> simp <;> omega
  exact ⟨written ++ arr, by rw [fwriteStr, result]; rfl, congrArg (Option.map Prod.snd) init, init⟩

theorem str_codec_three : ∃ written, fwriteStr [1, 2, 3] = some written ∧
    freadStrInit (written ++ []) = some (false, [some 1, some 2, some 3], []) := by
  obtain ⟨written, result, _, read⟩ := str_codec [1, 2, 3] [] (by decide)
  exact ⟨written, result, read⟩

end Culibs.Custo
