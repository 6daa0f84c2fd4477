import Mathlib.Data.Multiset.Defs

/-! Array-based priority queues of `cucon/priq.c`. The array is the allocated block:
an access outside of it is a fault, and so is a read of a slot that has not been
written. -/

namespace Culibs.Cucon

namespace Priq

/-- The slots of an allocated block. -/
abbrev Slots (α : Type) := List (Option α)

inductive Fault where
  | outOfBounds (index : Nat)
  | uninitialised (index : Nat)
deriving DecidableEq

section Memory

variable {α : Type}

/-- `cu_galloc`, whose slots hold nothing yet. -/
def galloc (capacity : Nat) : Slots α := List.replicate capacity none

def read (arr : Slots α) (i : Nat) : Except Fault α :=
  match arr[i]? with
  | none => .error (.outOfBounds i)
  | some none => .error (.uninitialised i)
  | some (some key) => .ok key

def write (arr : Slots α) (i : Nat) (key : α) : Except Fault (Slots α) :=
  if i < arr.length then .ok (arr.set i (some key)) else .error (.outOfBounds i)

def memcpy (dst src : Slots α) (count : Nat) : Except Fault (Slots α) :=
  if count ≤ src.length ∧ count ≤ dst.length then .ok (src.take count ++ dst.drop count)
  else .error (.outOfBounds count)

end Memory

end Priq

/-- `struct cucon_priq`. The closure `prior` is an argument of the operations. -/
structure Priq (α : Type) where
  count : Nat
  capacity : Nat
  arr : Priq.Slots α

namespace Priq

variable {α : Type}

/-- `cucon_priq_init`. -/
def init : Priq α := { count := 0, capacity := 0, arr := [] }

def expandBy2 (q : Priq α) : Except Fault (Priq α) := do
  if q.capacity = 0 then
    return { q with capacity := 4, arr := galloc 4 }
  else
    let arr ← memcpy (galloc (q.capacity * 2)) q.arr q.capacity
    return { q with capacity := q.capacity * 2, arr := arr }

def reduceBy4 (q : Priq α) : Except Fault (Priq α) := do
  let arr ← memcpy (galloc (q.capacity / 4)) q.arr (q.capacity / 4)
  return { q with capacity := q.capacity / 4, arr := arr }

/-- The loop of `cucon_priq_insert`. -/
def siftUp (prior : α → α → Bool) (arr : Slots α) (n : Nat) : Except Fault (Slots α) :=
  if n > 0 then do
    let m := (n + 1) / 2 - 1
    let above ← read arr m
    let key ← read arr n
    if prior above key then return arr
    else
      let arr ← write arr m key
      let arr ← write arr n above
      siftUp prior arr m
  else .ok arr
termination_by n
decreasing_by omega

/-- The first step of `cucon_priq_insert`. -/
def makeRoom (q : Priq α) : Except Fault (Priq α) :=
  if q.count ≥ q.capacity then expandBy2 q else .ok q

def insert (prior : α → α → Bool) (q : Priq α) (key : α) : Except Fault (Priq α) := do
  let n := q.count
  let q ← makeRoom q
  let arr ← write q.arr n key
  let arr ← siftUp prior arr n
  return { q with count := q.count + 1, arr := arr }

/-- The loop of `cucon_priq_pop_front`. -/
def siftDown (prior : α → α → Bool) (arr : Slots α) (n i : Nat) : Except Fault (Slots α) :=
  if 2 * i + 1 ≥ n then .ok arr
  else do
    let right ← read arr (2 * i + 1 + 1)
    let left ← read arr (2 * i + 1)
    let j0 := if prior right left then 2 * i + 1 + 1 else 2 * i + 1
    let key ← read arr i
    let below ← read arr j0
    if prior key below then return arr
    else
      let arr ← write arr i below
      let arr ← write arr j0 key
      siftDown prior arr n j0
termination_by n - i
decreasing_by
  split <;> omega

/-- The last step of `cucon_priq_pop_front`. -/
def shrink (q : Priq α) : Except Fault (Priq α) :=
  if q.count > 8 ∧ q.count ≤ q.capacity / 4 then reduceBy4 q else .ok q

/-- `cucon_priq_pop_front`. It returns `NULL` when the queue is empty. -/
def popFront (prior : α → α → Bool) (q : Priq α) : Except Fault (Option α × Priq α) := do
  if q.count = 0 then return (none, q)
  else
    let n := q.count - 1
    let result ← read q.arr 0
    let last ← read q.arr n
    let arr ← write q.arr 0 last
    let arr ← siftDown prior arr n 0
    let q ← shrink { q with count := n, arr := arr }
    return (some result, q)

/-- The elements of the queue. -/
def contents (q : Priq α) : Multiset α := ((q.arr.take q.count).filterMap id : List α)

end Priq

end Culibs.Cucon
