import Culibs.Foundation.ByteMemory

/-! The stacks of `cucon/stack.c`. Addresses are numbers, 0 is `NULL`. Where a build with assertions calls `cu_bugf` there
is no result. -/

namespace Culibs.Cucon

open Foundation

/-- A `struct cucon_stack` but for `prev`. -/
structure StackChunk where
  begin : Nat
  sp : Nat
  limit : Nat
deriving DecidableEq

/-- `struct cucon_stack` with what `prev` leads to. -/
structure Stack where
  chunk : StackChunk
  prev : List StackChunk
deriving DecidableEq

namespace Stack

abbrev Chunk := StackChunk

abbrev Memory := Nat → BitVec 8

/-- `cucon_stack_init`. -/
def init : Stack := ⟨⟨0, 0, 0⟩, []⟩

def isEmpty (stack : Stack) : Bool := stack.chunk.begin = 0

/-- `sizeof(struct cucon_stack)`. -/
def headerSize : Nat := 32

def chunkSize (size : Nat) : Nat := if size > 4096 then size else 4096

/-- `cuconP_stack_expand`, where `block` is what `cu_galloc` returns. -/
def expand (stack : Stack) (size block : Nat) : Stack :=
  let limit := block + headerSize + chunkSize size
  ⟨⟨block + headerSize, limit - size, limit⟩, stack.chunk :: stack.prev⟩

/-- `cucon_stack_alloc`. The address that it returns is `sp`. -/
def alloc (stack : Stack) (size block : Nat) : Stack :=
  if (stack.chunk.sp : Int) - size - stack.chunk.begin < 0 then expand stack size block
  else { stack with chunk := { stack.chunk with sp := stack.chunk.sp - size } }

/-- The loop of `cuconP_stack_shrink`. -/
def shrink (chunk : Chunk) : List Chunk → Option Stack
  | [] => if chunk.sp - chunk.limit = 0 then some ⟨chunk, []⟩ else none
  | below :: prev =>
    let size := chunk.sp - chunk.limit
    let chunk := { below with sp := below.sp + size }
    if chunk.sp ≥ chunk.limit then shrink chunk prev else some ⟨chunk, prev⟩

/-- `cucon_stack_free`. -/
def free (stack : Stack) (size : Nat) : Option Stack :=
  if size = 0 then some stack
  else
    let chunk := { stack.chunk with sp := stack.chunk.sp + size }
    if chunk.sp ≥ chunk.limit then
      if isEmpty stack then none else shrink chunk stack.prev
    else some { stack with chunk := chunk }

def chunks (stack : Stack) : List Chunk := stack.chunk :: stack.prev

/-- `cucon_stack_size`. -/
def size (stack : Stack) : Nat := (stack.chunks.map fun chunk => chunk.limit - chunk.sp).sum

/-- `cucon_stack_at`. -/
def stackAt (chunk : Chunk) (prev : List Chunk) (pos : Nat) : Option Nat :=
  if chunk.sp + pos ≥ chunk.limit then
    match prev with
    | [] => none
    | below :: prev => stackAt below prev (chunk.sp + pos - chunk.limit)
  else some (chunk.sp + pos)
termination_by structural prev

def top (stack : Stack) : Nat := stack.chunk.sp

/-- The copying of the chunks one after the other, from `sp` on. -/
def copyChunks (mem : Memory) (sp : Nat) : List Chunk → Memory
  | [] => mem
  | chunk :: prev =>
    copyChunks (ByteMemory.copy mem sp chunk.sp (chunk.limit - chunk.sp)) (sp + (chunk.limit - chunk.sp)) prev

/-- The first loop of `cucon_stack_continuous_top`: the chunks below the first that are taken, what is left of `n`, and
the chunks that remain. -/
def gather : List Chunk → Int → Option (List Chunk × Int × List Chunk)
  | [], _ => none
  | stack0 :: prev, n =>
    let n := n - (stack0.limit - stack0.sp : Nat)
    if n > 0 then (gather prev n).map fun (taken, n, rest) => (stack0 :: taken, n, rest) else some ([stack0], n, prev)

/-- `cucon_stack_continuous_top`, where `block` is what `cu_galloc` returns. -/
def continuousTop (mem : Memory) (stack : Stack) (size block : Nat) : Option (Memory × Stack) :=
  if stack.chunk.limit < stack.chunk.sp + size then
    (gather stack.prev (size - (stack.chunk.limit - stack.chunk.sp : Nat))).map fun (taken, n, rest) =>
      (copyChunks mem block (stack.chunk :: taken), ⟨⟨block, block, block + (size - n).toNat⟩, rest⟩)
  else some (mem, stack)

/-- `cucon_stack_init_copy`. -/
def initCopy (mem : Memory) (src : Stack) (block : Nat) : Memory × Stack :=
  let dst := alloc init (size src) block
  (copyChunks mem dst.chunk.sp src.chunks, dst)

/-- `cucon_stack_unwind_to_mark`. -/
def unwindToMark (mark : Nat) (chunk : Chunk) : List Chunk → Option Stack
  | [] => if mark < chunk.begin ∨ chunk.limit < mark then none else some ⟨{ chunk with sp := mark }, []⟩
  | below :: prev =>
    if mark < chunk.begin ∨ chunk.limit < mark then unwindToMark mark below prev
    else some ⟨{ chunk with sp := mark }, below :: prev⟩

/-- `struct cucon_stack_itr`. -/
structure Itr where
  stack : Stack
  sp : Nat
deriving DecidableEq

def itrInit (stack : Stack) : Itr := ⟨stack, stack.chunk.sp⟩

/-- `cucon_stack_itr_get`, with the iterator after it. -/
def itrGet (itr : Itr) (size : Nat) : Option (Nat × Itr) :=
  if itr.sp + size ≥ itr.stack.chunk.limit then
    if itr.sp + size = itr.stack.chunk.limit then
      match itr.stack.prev with
      | [] => some (itr.sp, { itr with sp := itr.sp + size })
      | below :: prev => some (itr.sp, ⟨⟨below, prev⟩, below.sp⟩)
    else if itr.sp = itr.stack.chunk.limit ∧ itr.stack.prev = [] then some (0, itr)
    else none
  else some (itr.sp, { itr with sp := itr.sp + size })

/-- The loop of `cucon_stack_itr_advance`. The type of `left` is `size_t`. -/
def itrTurn (sp : Nat) (chunk : Chunk) : List Chunk → Option Itr
  | [] => if sp ≥ chunk.limit ∧ sp ≠ chunk.limit then none else some ⟨⟨chunk, []⟩, sp⟩
  | below :: prev =>
    if sp ≥ chunk.limit then
      let left := (chunk.limit + 2 ^ 64 - sp) % 2 ^ 64
      itrTurn ((below.sp + left) % 2 ^ 64) below prev
    else some ⟨⟨chunk, below :: prev⟩, sp⟩

/-- `cucon_stack_itr_advance`. -/
def itrAdvance (itr : Itr) (size : Nat) : Option Itr := itrTurn (itr.sp + size) itr.stack.chunk itr.stack.prev

end Stack

end Culibs.Cucon

namespace Culibs.Cucon.Stack

open Foundation ByteMemory

abbrev Element := List (BitVec 8)

variable {mem : Memory} {c : Chunk} {prev : List Chunk} {elements own below : List Element} {stack : Stack}
variable {e : Element} {n m i j a : Nat}

/-- The elements are in the chunks from the top on, each inside one chunk. The last chunk is the empty stack, which holds
only elements of size 0. -/
inductive Holds (mem : Memory) : Chunk → List Chunk → List Element → Prop where
  | base {elements : List Element} (empty : elements.flatten = []) : Holds mem ⟨0, 0, 0⟩ [] elements
  | chunk {c p : Chunk} {prev : List Chunk} {own below : List Element} (low : 0 < c.begin) (order : c.begin ≤ c.sp)
      (filled : c.sp < c.limit) (high : c.limit < 2 ^ 64) (bytes : read mem c.sp (c.limit - c.sp) = own.flatten)
      (rest : Holds mem p prev below) : Holds mem c (p :: prev) (own ++ below)

theorem bytes_length (bytes : read mem a n = xs) : xs.length = n := by
  rw [← bytes, length_read]

section

variable (holds : Holds mem c prev elements)

include holds

theorem Holds.prepend (empty : own.flatten = []) : Holds mem c prev (own ++ elements) := by
  cases holds with
  | base empty' => exact .base (by rw [List.flatten_append, empty, empty', List.append_nil])
  | chunk low order filled high bytes rest =>
    rw [← List.append_assoc]
    exact .chunk low order filled high (by rw [bytes, List.flatten_append, empty, List.nil_append]) rest

theorem Holds.order : c.begin ≤ c.sp ∧ c.sp ≤ c.limit ∧ c.limit < 2 ^ 64 := by
  cases holds with
  | base empty => exact ⟨le_refl 0, le_refl 0, by decide⟩
  | chunk low order filled high bytes rest => exact ⟨order, le_of_lt filled, high⟩

theorem Holds.size_eq : size ⟨c, prev⟩ = elements.flatten.length := by
  induction holds with
  | base empty => rw [empty]; rfl
  | chunk low order filled high bytes rest ih =>
    rw [size, chunks] at ih ⊢
    rw [List.map_cons, List.sum_cons, ih, List.flatten_append, List.length_append, bytes_length bytes]

theorem Holds.isEmpty_iff : isEmpty ⟨c, prev⟩ = true ↔ elements.flatten = [] := by
  cases holds with
  | base empty => simp [isEmpty, empty]
  | chunk low order filled high bytes rest =>
    have length := bytes_length bytes
    simp only [isEmpty, decide_eq_true_eq]
    refine ⟨fun none => by omega, fun none => ?_⟩
    rw [List.flatten_append, List.append_eq_nil_iff] at none
    rw [none.1] at length
    simp at length
    omega

end

/-- The number of bytes above the element at `i`. -/
def offset (elements : List Element) (i : Nat) : Nat := (elements.take i).flatten.length

theorem offset_append_left (before : i ≤ own.length) : offset (own ++ below) i = offset own i := by
  rw [offset, List.take_append_of_le_length before, offset]

theorem offset_append_right : offset (own ++ below) (own.length + i) = own.flatten.length + offset below i := by
  rw [offset, List.take_length_add_append, List.flatten_append, List.length_append, offset]

theorem offset_add_length (found : elements[i]? = some e) : offset elements i + e.length ≤ elements.flatten.length := by
  induction elements generalizing i with
  | nil => cases found
  | cons first rest ih =>
    rw [List.flatten_cons, List.length_append]
    cases i with
    | zero =>
      cases found
      simp [offset]
    | succ i =>
      have later := ih found
      rw [offset, List.take_succ_cons, List.flatten_cons, List.length_append]
      rw [offset] at later
      omega

private theorem drop_offset (found : elements[i]? = some e) : e <+: elements.flatten.drop (offset elements i) := by
  induction elements generalizing i with
  | nil => cases found
  | cons first rest ih =>
    cases i with
    | zero =>
      cases found
      exact List.prefix_append _ _
    | succ i =>
      rw [offset, List.take_succ_cons, List.flatten_cons, List.flatten_cons, List.length_append, List.drop_append,
        List.drop_eq_nil_of_le (Nat.le_add_right _ _), List.nil_append, Nat.add_sub_cancel_left]
      exact ih found

theorem stackAt_inside (inside : c.sp + n < c.limit) : stackAt c prev n = some (c.sp + n) := by
  cases prev <;> rw [stackAt, if_neg (Nat.not_le_of_lt inside)]

theorem stackAt_below (order : c.sp ≤ c.limit) :
    stackAt c (p :: prev) (c.limit - c.sp + n) = stackAt p prev n := by
  rw [stackAt, if_pos (by omega)]
  congr 1
  omega

theorem read_drop (start : n ≤ m) : read mem (a + n) (m - n) = (read mem a m).drop n := by
  have split : read mem a (n + (m - n)) = read mem a n ++ read mem (a + n) (m - n) := read_add
  rw [Nat.add_sub_cancel' start] at split
  rw [split, List.drop_left' length_read]

section

variable (holds : Holds mem c prev elements)

include holds

theorem Holds.stackAt_spec (below : n < elements.flatten.length) :
    ∃ a, stackAt c prev n = some a ∧ a ≠ 0 ∧ elements.flatten[n]? = some (mem a) := by
  induction holds generalizing n with
  | base empty =>
    rw [empty] at below
    cases below
  | @chunk c p prev own deeper low order filled high bytes rest ih =>
    have length := bytes_length bytes
    rw [List.flatten_append, List.length_append] at below
    by_cases inside : n < own.flatten.length
    · refine ⟨c.sp + n, stackAt_inside (by omega), by omega, ?_⟩
      rw [List.flatten_append, List.getElem?_append_left inside, ← bytes, getElem?_read, if_pos (by omega)]
    · obtain ⟨k, rfl⟩ := Nat.exists_eq_add_of_le (Nat.le_of_not_lt inside)
      obtain ⟨a, found, some, byte⟩ := ih (lt_of_add_lt_add_left below)
      refine ⟨a, ?_, some, ?_⟩
      · rw [length, stackAt_below (Nat.le_of_lt filled), found]
      · rw [List.flatten_append, List.getElem?_append_right (Nat.le_add_right _ _), Nat.add_sub_cancel_left, byte]

theorem Holds.element_inside (found : elements[i]? = some e) (inside : offset elements i < c.limit - c.sp) :
    offset elements i + e.length ≤ c.limit - c.sp := by
  cases holds with
  | base empty => cases inside
  | @chunk c p prev own deeper low order filled high bytes rest =>
    have length := bytes_length bytes
    by_cases early : i < own.length
    · rw [List.getElem?_append_left early] at found
      rw [offset_append_left (le_of_lt early), ← length]
      exact offset_add_length found
    · obtain ⟨k, rfl⟩ := Nat.exists_eq_add_of_le (Nat.le_of_not_lt early)
      rw [offset_append_right] at inside
      omega

/-- From the address that `cucon_stack_at` returns on, memory has what is left of the element. -/
theorem Holds.stackAt_element (found : elements[i]? = some e) (short : j < e.length) :
    ∃ a, stackAt c prev (offset elements i + j) = some a ∧ read mem a (e.length - j) = e.drop j := by
  induction holds generalizing i with
  | base empty =>
    have bound := offset_add_length found
    rw [empty, List.length_nil] at bound
    omega
  | @chunk c p prev own deeper low order filled high bytes rest ih =>
    have length := bytes_length bytes
    by_cases early : i < own.length
    · rw [List.getElem?_append_left early] at found
      rw [offset_append_left (le_of_lt early)]
      have bound := offset_add_length found
      refine ⟨c.sp + (offset own i + j), stackAt_inside (by omega), ?_⟩
      obtain ⟨after, split⟩ := drop_offset found
      have whole : (read mem c.sp (c.limit - c.sp)).drop (offset own i) = e ++ after := by rw [bytes, split]
      rw [← read_drop (by omega)] at whole
      have same : read mem (c.sp + offset own i) e.length = e := by
        rw [← Nat.add_sub_cancel' (show e.length ≤ c.limit - c.sp - offset own i by omega), read_add] at whole
        exact (List.append_inj whole length_read).1
      rw [← add_assoc, read_drop (le_of_lt short), same]
    · obtain ⟨k, rfl⟩ := Nat.exists_eq_add_of_le (Nat.le_of_not_lt early)
      rw [List.getElem?_append_right (Nat.le_add_right _ _), Nat.add_sub_cancel_left] at found
      obtain ⟨a, address, bytes⟩ := ih found
      refine ⟨a, ?_, bytes⟩
      rw [← address, offset_append_right, length, add_assoc, stackAt_below (by omega)]

theorem Holds.empty_cases (empty : elements.flatten = []) : c = ⟨0, 0, 0⟩ ∧ prev = [] := by
  cases holds with
  | base empty => exact ⟨rfl, rfl⟩
  | chunk low order filled high bytes rest =>
    have length := bytes_length bytes
    rw [List.flatten_append, List.append_eq_nil_iff] at empty
    rw [empty.1, List.length_nil] at length
    omega

theorem Holds.filled (some : 0 < elements.flatten.length) : c.sp < c.limit := by
  cases holds with
  | base empty =>
    rw [empty] at some
    cases some
  | chunk low order filled high bytes rest => exact filled

end

/-- The first element is inside the top chunk, and what is left of the stack below it is the rest of that chunk or, where
nothing is left of it, the next chunk. -/
theorem Holds.cons_cases (holds : Holds mem c prev (e :: elements)) :
    (c = ⟨0, 0, 0⟩ ∧ prev = [] ∧ e = [] ∧ elements.flatten = []) ∨
    ∃ p rest, prev = p :: rest ∧ 0 < c.begin ∧ c.begin ≤ c.sp ∧ c.sp < c.limit ∧
      (c.sp + e.length < c.limit ∧ Holds mem { c with sp := c.sp + e.length } (p :: rest) elements ∨
        c.sp + e.length = c.limit ∧ Holds mem p rest elements) := by
  generalize reach : e :: elements = all at holds
  cases holds with
  | base empty =>
    subst reach
    rw [List.flatten_cons, List.append_eq_nil_iff] at empty
    exact .inl ⟨rfl, rfl, empty⟩
  | @chunk _ p rest own deeper low order filled high bytes holds =>
    have length := bytes_length bytes
    refine .inr ⟨p, rest, rfl, low, order, filled, ?_⟩
    cases own with
    | nil =>
      rw [List.flatten_nil, List.length_nil] at length
      omega
    | cons first own =>
      obtain ⟨rfl, rfl⟩ := List.cons.inj reach
      rw [List.flatten_cons, List.length_append] at length
      rw [List.flatten_cons, ← Nat.add_sub_cancel' (show e.length ≤ c.limit - c.sp by omega), read_add] at bytes
      have later := (List.append_inj bytes length_read).2
      rcases lt_or_ge (c.sp + e.length) c.limit with inside | whole
      · refine .inl ⟨inside, .chunk low (by simp only; omega) inside high ?_ holds⟩
        rw [Nat.sub_sub] at later
        exact later
      · refine .inr ⟨by omega, holds.prepend ?_⟩
        exact List.eq_nil_of_length_eq_zero (by omega)

end Culibs.Cucon.Stack
