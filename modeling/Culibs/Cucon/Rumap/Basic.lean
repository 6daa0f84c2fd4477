import Culibs.Cucon.Umap.Isecn
import Culibs.Foundation.Walk

/-! Recursive hash maps of cucon/rumap.c. The slot of a node of a hash map is itself a map with
data, all in one memory. -/

namespace Culibs.Cucon

open Buckets Umap Function

/-- A `struct cucon_rumap`. Data 0 is `NULL`. -/
structure Rumap where
  branches : Table
  data : Word

namespace Rumap

/-- The nodes of all hash maps, and the recursive maps. Those in the slots of nodes have the
addresses of these. The number of allocations is `count`. -/
structure Heap where
  next : Umap.Links
  key : Addr → Word
  rumap : Addr → Rumap
  count : Nat

/-- The hash map at an address. What its slots hold is in the heap itself. -/
def Heap.branches (heap : Heap) (rumap : Addr) : Umap :=
  (heap.rumap rumap).branches.on heap.key (fun _ _ => 0) heap.next

/-- `rumap->data = data` -/
def Heap.setData (heap : Heap) (rumap : Addr) (data : Word) : Heap :=
  { heap with rumap := update heap.rumap rumap { heap.rumap rumap with data := data } }

theorem Heap.setData_self (heap : Heap) (rumap : Addr) (data : Word) :
    (heap.setData rumap data).rumap rumap = { heap.rumap rumap with data := data } :=
  update_self ..

theorem Heap.setData_other (heap : Heap) {rumap a : Addr} (other : a ≠ rumap) (data : Word) :
    (heap.setData rumap data).rumap a = heap.rumap a :=
  update_of_ne other ..

/-- `cucon_rumap_init` -/
def init : Rumap := { branches := ⟨0, minSize - 1, newArr minSize⟩, data := 0 }

section Code

-- The allocator returns `alloc i` for the i-th allocation of a node.
variable (optSpeed : Bool) (alloc : Nat → Addr) (fuel : Nat)

/-- `cucon_rumap_mref` -/
def mref (heap : Heap) (rumap : Addr) (key : Word) : Option (Addr × Heap) :=
  (insertMem optSpeed fuel (heap.branches rumap) key (alloc heap.count) fun _ => 0).map fun ((inserted, sub), map) =>
    let heap := { heap with
      next := map.buckets.next
      key := map.key
      rumap := update heap.rumap rumap { heap.rumap rumap with branches := map.table } }
    if inserted then
      (sub, { heap with rumap := update heap.rumap sub init, count := heap.count + 1 })
    else (sub, heap)

/-- `cucon_umap_iter_mem` on the branches of a map, with the state of the callback beside the heap. -/
def iterMem (rumap : Addr) (cb : Addr → Nat × Heap → Option (Nat × Heap)) (s : Nat × Heap) : Option (Nat × Heap) :=
  (List.range ((s.2.rumap rumap).branches.mask + 1)).foldlM (fun s i =>
    (s.2.rumap rumap).branches.arr[i]?.bind fun first =>
      callLoop 0 (fun s node => s.2.next node) cb fuel first s) s

/-- The callback at a branch of the second map, with the union that it is for. -/
def unionBranch (union : Addr → Addr → Heap → Option (Nat × Heap)) (L node : Addr) (s : Nat × Heap) :
    Option (Nat × Heap) := do
  let (sub, heap) ← mref optSpeed alloc fuel s.2 L (s.2.key node)
  let (overlap, heap) ← union sub node heap
  return (s.1 + overlap, heap)

/-- The common body of the two unions. At the end, the data of both maps gives the overlap there and
the new data. The depth of the calls is bounded. -/
def assignUnion (assign : Word → Word → Nat × Word) : Nat → Addr → Addr → Heap → Option (Nat × Heap)
  | 0, _, _, _ => none
  | depth + 1, L, R, heap => do
    let (overlap, heap) ← iterMem fuel R (unionBranch optSpeed alloc fuel (assignUnion assign depth) L) (0, heap)
    let (here, data) := assign (heap.rumap L).data (heap.rumap R).data
    return (overlap + here, heap.setData L data)

/-- `if (L->data) { if (R->data) ++overlap; } else L->data = R->data` -/
def assignLeft (left right : Word) : Nat × Word :=
  if left ≠ 0 then (if right ≠ 0 then 1 else 0, left) else (0, right)

/-- `if (R->data) { if (L->data) ++overlap; L->data = R->data; }` -/
def assignRight (left right : Word) : Nat × Word :=
  if right ≠ 0 then (if left ≠ 0 then 1 else 0, right) else (0, left)

/-- `cucon_rumap_assign_left_union` -/
def assignLeftUnion (L R : Addr) (heap : Heap) : Option (Nat × Heap) :=
  assignUnion optSpeed alloc fuel assignLeft fuel L R heap

/-- `cucon_rumap_assign_right_union` -/
def assignRightUnion (L R : Addr) (heap : Heap) : Option (Nat × Heap) :=
  assignUnion optSpeed alloc fuel assignRight fuel L R heap

end Code

end Rumap

end Culibs.Cucon
