import Culibs.Foundation.ByteMemory

/-! The strings of `cu/str.c`. A memory operation outside an allocation, a `memcpy` between bytes that overlap and a
failed assertion have no result. -/

namespace Culibs.Cu

open Foundation Function

namespace Str

abbrev Byte := BitVec 8

structure Ptr where
  array : Nat
  offset : Nat
deriving DecidableEq

def Ptr.add (p : Ptr) (n : Nat) : Ptr := { p with offset := p.offset + n }

/-- Array 0 is that of `NULL` and has no bytes. What is in new memory is not known. -/
structure Store where
  size : Nat → Nat
  bytes : Nat → Nat → Byte
  next : Nat

namespace Store

/-- The first array of the store is `NULL`. -/
def start (bytes : Nat → Nat → Byte) : Store := ⟨fun _ => 0, bytes, 1⟩

def galloc (st : Store) (size : Nat) : Ptr × Store :=
  (⟨st.next, 0⟩, { st with size := update st.size st.next size, next := st.next + 1 })

def read (st : Store) (p : Ptr) (n : Nat) : List Byte := ByteMemory.read (st.bytes p.array) p.offset n

/-- The bytes of the range are in the array. -/
def Inside (st : Store) (p : Ptr) (n : Nat) : Prop := n = 0 ∨ p.offset + n ≤ st.size p.array

instance (st : Store) (p : Ptr) (n : Nat) : Decidable (st.Inside p n) := inferInstanceAs (Decidable (_ ∨ _))

def write (st : Store) (p : Ptr) (xs : List Byte) : Option Store :=
  if st.Inside p xs.length then
    some { st with bytes := update st.bytes p.array (ByteMemory.write (st.bytes p.array) p.offset xs) }
  else none

/-- No byte is in both ranges. -/
def Disjoint (p : Ptr) (n : Nat) (q : Ptr) (m : Nat) : Prop :=
  p.array ≠ q.array ∨ n = 0 ∨ m = 0 ∨ p.offset + n ≤ q.offset ∨ q.offset + m ≤ p.offset

instance (p : Ptr) (n : Nat) (q : Ptr) (m : Nat) : Decidable (Disjoint p n q m) :=
  inferInstanceAs (Decidable (_ ∨ _))

def memmove (st : Store) (dst src : Ptr) (n : Nat) : Option Store :=
  if st.Inside src n then st.write dst (st.read src n) else none

def memcpy (st : Store) (dst src : Ptr) (n : Nat) : Option Store :=
  if Disjoint dst n src n then st.memmove dst src n else none

end Store

end Str

open Str

/-- `struct cu_str`. -/
structure Str where
  arr : Ptr
  len : Nat
  cap : Nat
deriving DecidableEq

namespace Str

/-- `cu_str_init`. -/
def init : Str := ⟨⟨0, 0⟩, 0, 0⟩

/-- The strings of a program, of which `count` have been created. -/
structure World where
  store : Store
  str : Nat → Str
  count : Nat

namespace World

def start (bytes : Nat → Nat → Byte) : World := ⟨.start bytes, fun _ => init, 0⟩

def put (w : World) (i : Nat) (s : Str) : World := { w with str := update w.str i s }

/-- A new string. -/
def new (w : World) (s : Str) : World := { w.put w.count s with count := w.count + 1 }

/-- `cu_str_set_capacity`. -/
def setCapacity (w : World) (str capacity : Nat) : Option World := do
  let oldArr := (w.str str).arr
  let (arr, store) := w.store.galloc capacity
  let store ← store.memcpy arr oldArr (w.str str).len
  some ({ w with store := store }.put str ⟨arr, (w.str str).len, capacity⟩)

def newCharr (w : World) (ptr : List Byte) : Option World := do
  let n := ptr.length
  let (arr, store) := w.store.galloc (n + 1)
  let store ← store.write arr ptr
  let store ← store.write (arr.add n) [0]
  some ({ w with store := store }.new ⟨arr, n, n + 1⟩)

def newCopy (w : World) (str0 : Nat) : World :=
  (w.put str0 { w.str str0 with cap := 0 }).new ⟨(w.str str0).arr, (w.str str0).len, 0⟩

def assign (w : World) (dest src : Nat) : World :=
  let w := w.put dest ⟨(w.str src).arr, (w.str src).len, 0⟩
  w.put src { w.str src with cap := 0 }

def substr (w : World) (x pos len : Nat) : Option World :=
  if pos + len ≤ (w.str x).len then
    some ((w.put x { w.str x with cap := 0 }).new ⟨(w.str x).arr.add pos, len, 0⟩)
  else none

def suffix (w : World) (x pos : Nat) : Option World :=
  if pos ≤ (w.str x).len then
    some ((w.put x { w.str x with cap := 0 }).new ⟨(w.str x).arr.add pos, (w.str x).len - pos, 0⟩)
  else none

/-- The subtraction of `size_t`. -/
def sub (x y : Nat) : Nat := if y ≤ x then x - y else 2 ^ 64 + x - y

def assignSubstr (w : World) (x pos len : Nat) : World :=
  w.put x ⟨(w.str x).arr.add pos, len, sub (w.str x).cap pos⟩

/-- `cu_str_new_2str` by `cu_str_init_2str`. -/
def new2str (w : World) (x y : Nat) : Option World := do
  let newsz := (w.str x).len + (w.str y).len
  if newsz > (w.str x).cap then
    let (arr, store) := w.store.galloc (newsz + 1)
    let store ← store.memcpy arr (w.str x).arr (w.str x).len
    let store ← store.memcpy (arr.add (w.str x).len) (w.str y).arr (w.str y).len
    some ({ w with store := store }.new ⟨arr, newsz, newsz + 1⟩)
  else
    let store ← w.store.memcpy ((w.str x).arr.add (w.str x).len) (w.str y).arr (w.str y).len
    some (({ w with store := store }.put x { w.str x with cap := 0 }).new ⟨(w.str x).arr, newsz, (w.str x).cap⟩)

/-- `cu_str_new_str_cstr` by `cu_str_init_str_cstr`. -/
def newStrCstr (w : World) (x : Nat) (y : List Byte) : Option World := do
  let nStr := (w.str x).len + y.length
  if nStr > (w.str x).cap then
    let (arr, store) := w.store.galloc (nStr + 1)
    let store ← store.memcpy arr (w.str x).arr (w.str x).len
    let store ← store.write (arr.add (w.str x).len) y
    some ({ w with store := store }.new ⟨arr, nStr, nStr + 1⟩)
  else
    let store ← w.store.write ((w.str x).arr.add (w.str x).len) y
    some (({ w with store := store }.put x { w.str x with cap := 0 }).new ⟨(w.str x).arr, nStr, (w.str x).cap⟩)

/-- `cu_str_new_str_char` by `cu_str_init_str_char`. -/
def newStrChar (w : World) (x : Nat) (c : Byte) : Option World := do
  let n := (w.str x).len + 1
  if n > (w.str x).cap then
    let (arr, store) := w.store.galloc n
    let store ← store.memcpy arr (w.str x).arr (n - 1)
    let store ← store.write (arr.add (n - 1)) [c]
    some ({ w with store := store }.new ⟨arr, n, n⟩)
  else
    let store ← w.store.write ((w.str x).arr.add (n - 1)) [c]
    some (({ w with store := store }.put x { w.str x with cap := 0 }).new ⟨(w.str x).arr, n, (w.str x).cap⟩)

def appendStr (w : World) (x y : Nat) : Option World := do
  let newsz := (w.str x).len + (w.str y).len
  let w ← (if newsz > (w.str x).cap then
      w.setCapacity x (if newsz < (w.str x).cap * 2 then (w.str x).cap * 2 else newsz)
    else some w)
  let store ← w.store.memcpy ((w.str x).arr.add (w.str x).len) (w.str y).arr (w.str y).len
  some ({ w with store := store }.put x { w.str x with len := newsz })

def appendChar (w : World) (dest : Nat) (ch : Byte) : Option World := do
  let w ← (if (w.str dest).cap ≤ (w.str dest).len then w.setCapacity dest (2 * (w.str dest).len + 4) else some w)
  let store ← w.store.write ((w.str dest).arr.add (w.str dest).len) [ch]
  some ({ w with store := store }.put dest { w.str dest with len := (w.str dest).len + 1 })

def appendCharr (w : World) (dest : Nat) (cstr : List Byte) : Option World := do
  let newlen := (w.str dest).len + cstr.length
  let w ← (if newlen > (w.str dest).cap then
      w.setCapacity dest (if newlen > (w.str dest).cap * 2 then newlen else (w.str dest).cap * 2)
    else some w)
  let store ← w.store.write ((w.str dest).arr.add (w.str dest).len) cstr
  some ({ w with store := store }.put dest { w.str dest with len := newlen })

def unappend (w : World) (str charCount : Nat) : Option World :=
  if charCount > (w.str str).len then none
  else some (w.put str { w.str str with len := (w.str str).len - charCount })

def insertSubstr (w : World) (dst src pos : Nat) : Option World := do
  if pos < (w.str dst).len then
    let w ← (if (w.str dst).cap = 0 ∨ (w.str src).len + (w.str dst).len > (w.str dst).cap then
        w.setCapacity dst ((w.str src).len + (w.str dst).len + 1)
      else some w)
    let s := (w.str dst).arr.add pos
    let store ← w.store.memmove (s.add (w.str src).len) s ((w.str dst).len - pos)
    let store ← store.memcpy s (w.str src).arr (w.str src).len
    some ({ w with store := store }.put dst { w.str dst with len := (w.str dst).len + (w.str src).len })
  else none

def eraseSubstr (w : World) (dst pos len : Nat) : Option World := do
  let endpos := pos + len
  let w ← (if (w.str dst).cap = 0 then w.setCapacity dst ((w.str dst).len - len + 1) else some w)
  if pos + len ≤ (w.str dst).len then
    let store ← w.store.memmove ((w.str dst).arr.add pos) ((w.str dst).arr.add endpos) ((w.str dst).len - endpos)
    some ({ w with store := store }.put dst { w.str dst with len := (w.str dst).len - len })
  else none

/-- The pointer that is returned, too. -/
def toCstr (w : World) (src : Nat) : Option (Ptr × World) :=
  let s := w.str src
  if s.cap > s.len ∧ s.cap ≠ 0 then do
    let store ← w.store.write (s.arr.add s.len) [0]
    some (s.arr, { w with store := store }.put src { s with cap := 0 })
  else do
    let (cstr, store) := w.store.galloc (s.len + 1)
    let store ← store.memcpy cstr s.arr s.len
    let store ← store.write (cstr.add s.len) [0]
    some (cstr, { w with store := store })

/-! `cu_str_chop_space`. The loops stop at the first byte from either end that is no space; the first byte is not looked
at from behind. -/

section

variable (isspace : Byte → Bool)

/-- The first loop, with what is left of `n`. -/
def skipSpaces (byteAt : Nat → Byte) : Nat → Nat → Nat × Nat
  | s, 0 => (s, 0)
  | s, n + 1 => if isspace (byteAt s) then skipSpaces byteAt (s + 1) n else (s, n + 1)

/-- The second loop, from `--n` on. -/
def dropSpaces (byteAt : Nat → Byte) (s : Nat) : Nat → Nat
  | 0 => 0
  | n + 1 => if isspace (byteAt (s + (n + 1))) then dropSpaces byteAt s n else n + 1

/-- The length is converted to `int`. If that is not positive, no loop is entered. -/
def chopSpace (w : World) (str : Nat) : World :=
  let old := w.str str
  let n := (BitVec.ofNat 32 old.len).toInt
  if n > 0 then
    let (s, n) := skipSpaces isspace (w.store.bytes old.arr.array) old.arr.offset n.toNat
    let n := if n = 0 then 0 else dropSpaces isspace (w.store.bytes old.arr.array) s (n - 1) + 1
    w.put str ⟨⟨old.arr.array, s⟩, n, sub old.cap (sub old.len n)⟩
  else
    let n := (n % 2 ^ 64).toNat
    w.put str ⟨old.arr, n, sub old.cap (sub old.len n)⟩

end

end World

end Str

end Culibs.Cu

namespace Culibs.Cu.Str

open Foundation ByteMemory Function

variable {st st' : Store} {s : Str} {xs ys : List Byte} {p q : Ptr} {n m size : Nat}

/-- The string has its bytes in its array, and its capacity is zero or between its length and what the array has. -/
structure Holds (st : Store) (s : Str) (xs : List Byte) : Prop where
  known : s.arr.array < st.next
  length : s.len = xs.length
  inside : s.arr.offset + s.len ≤ st.size s.arr.array
  bytes : st.read s.arr s.len = xs
  capacity : s.cap = 0 ∨ s.len ≤ s.cap ∧ s.arr.offset + s.cap ≤ st.size s.arr.array

theorem Holds.uncapped (holds : Holds st s xs) : Holds st { s with cap := 0 } xs :=
  ⟨holds.known, holds.length, holds.inside, holds.bytes, .inl rfl⟩

theorem read_take (st : Store) (p : Ptr) (fits : m ≤ n) : st.read p m = (st.read p n).take m := by
  obtain ⟨k, rfl⟩ := Nat.exists_eq_add_of_le fits
  rw [Store.read, Store.read, read_add, List.take_left' length_read]

theorem read_drop (st : Store) (p : Ptr) (fits : m ≤ n) : st.read (p.add m) (n - m) = (st.read p n).drop m := by
  obtain ⟨k, rfl⟩ := Nat.exists_eq_add_of_le fits
  rw [Store.read, Store.read, read_add, List.drop_left' length_read, Nat.add_sub_cancel_left]
  rfl

theorem Holds.part (holds : Holds st s xs) (within : n + m ≤ s.len)
    (capacity : size = 0 ∨ m ≤ size ∧ s.arr.offset + n + size ≤ st.size s.arr.array) :
    Holds st ⟨s.arr.add n, m, size⟩ ((xs.drop n).take m) := by
  have inside := holds.inside
  have length := holds.length
  refine ⟨holds.known, ?_, ?_, ?_, capacity⟩
  · rw [List.length_take, List.length_drop]
    simp only
    omega
  · simp only [Ptr.add]
    omega
  · rw [← holds.bytes, ← read_drop st s.arr (by omega), ← read_take st _ (by omega)]

theorem Holds.first (holds : Holds st s xs) (within : m ≤ s.len) : Holds st { s with len := m } (xs.take m) := by
  refine holds.part (n := 0) (by omega) ?_
  rcases holds.capacity with none | ⟨_, inside⟩
  · exact .inl none
  · exact .inr ⟨by omega, by omega⟩

theorem write_some (st : Store) (p : Ptr) (xs : List Byte) (inside : st.Inside p xs.length) :
    ∃ st', st.write p xs = some st' := ⟨_, if_pos inside⟩

theorem write_cases (written : st.write p xs = some st') : st.Inside p xs.length ∧ st'.size = st.size ∧
    st'.next = st.next ∧ st'.bytes p.array = ByteMemory.write (st.bytes p.array) p.offset xs ∧
      ∀ a, a ≠ p.array → st'.bytes a = st.bytes a := by
  rw [Store.write] at written
  split at written
  · next inside =>
    cases written
    exact ⟨inside, rfl, rfl, update_self .., fun a other => update_of_ne other ..⟩
  · cases written

theorem read_write (written : st.write p xs = some st') : st'.read p xs.length = xs := by
  obtain ⟨_, _, _, here, _⟩ := write_cases written
  rw [Store.read, here, ByteMemory.read_write]

theorem read_write_disjoint (written : st.write p xs = some st') (disjoint : Store.Disjoint q n p xs.length) :
    st'.read q n = st.read q n := by
  obtain ⟨_, _, _, here, there⟩ := write_cases written
  rw [Store.read, Store.read]
  by_cases other : q.array = p.array
  · rw [other, here]
    rcases disjoint with apart | rfl | none | order
    · exact absurd other apart
    · rfl
    · rw [List.eq_nil_of_length_eq_zero none, write_nil]
    · exact read_write_apart (by omega)
  · rw [there _ other]

section

variable (holds : Holds st s xs)

include holds

theorem Holds.write_disjoint (written : st.write p ys = some st')
    (disjoint : Store.Disjoint s.arr s.len p ys.length) : Holds st' s xs := by
  have read := read_write_disjoint written disjoint
  obtain ⟨_, sizes, next, _, _⟩ := write_cases written
  refine ⟨?_, holds.length, ?_, read.trans holds.bytes, ?_⟩
  · rw [next]
    exact holds.known
  · rw [sizes]
    exact holds.inside
  · rw [sizes]
    exact holds.capacity

theorem Holds.grow (room : s.len + n ≤ s.cap) (follow : st.read (s.arr.add s.len) n = ys) :
    Holds st { s with len := s.len + n } (xs ++ ys) := by
  have length : ys.length = n := by rw [← follow, Store.read, length_read]
  have before := holds.bytes
  refine ⟨holds.known, by rw [List.length_append, ← holds.length, length], ?_, ?_, ?_⟩
  · rcases holds.capacity with none | ⟨_, inside⟩
    · have inner := holds.inside
      simp only
      omega
    · simp only
      omega
  · rw [Store.read] at before follow ⊢
    rw [read_add, before, ← follow]
    rfl
  · rcases holds.capacity with none | ⟨_, inside⟩
    · exact .inl none
    · exact .inr ⟨room, inside⟩

theorem Holds.extend (room : s.len + ys.length ≤ s.cap) (written : st.write (s.arr.add s.len) ys = some st') :
    Holds st' { s with len := s.len + ys.length } (xs ++ ys) :=
  (holds.write_disjoint written (.inr (.inr (.inr (.inl (le_rfl)))))).grow room (read_write written)

theorem Holds.overwrite (within : m ≤ s.len) (room : m + ys.length ≤ s.cap)
    (written : st.write (s.arr.add m) ys = some st') :
    Holds st' { s with len := m + ys.length } (xs.take m ++ ys) := by
  exact (holds.first within).extend room written

theorem Holds.galloc (size : Nat) : Holds (st.galloc size).2 s xs := by
  have other : s.arr.array ≠ st.next := ne_of_lt holds.known
  have same : (st.galloc size).2.size s.arr.array = st.size s.arr.array := update_of_ne other _ _
  refine ⟨Nat.lt_succ_of_lt holds.known, holds.length, ?_, holds.bytes, ?_⟩
  · rw [same]
    exact holds.inside
  · rw [same]
    exact holds.capacity

theorem Holds.memcpy_eq (disjoint : Store.Disjoint p s.len s.arr s.len) :
    st.memcpy p s.arr s.len = st.write p xs := by
  rw [Store.memcpy, if_pos disjoint, Store.memmove, if_pos (.inr holds.inside), holds.bytes]

end

end Culibs.Cu.Str
