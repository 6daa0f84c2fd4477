import Culibs.Cu.Int
import Culibs.Foundation.Buckets

/-! Hash maps of `cucon/hmap.c`, for keys with an equality and a hash function of the client. -/

namespace Culibs.Cucon

open Buckets

/-- A map and the memory of nodes. The heads of the buckets are `table`, an address 0 is `NULL`. -/
structure Hmap (Key : Type) where
  buckets : Buckets Nat
  size : BitVec 32
  mask : Nat
  tail : Nat
  key : Nat → Key

namespace Hmap

/-- An address of a node. A slot is at the end of its node. -/
abbrev Addr := Nat

def capacityMin : Nat := 32

def capacityInit : Nat := 8

/-- The closures of a map: an equivalence and a hash function that is compatible with it. -/
structure Closures (Key : Type) where
  eq : Key → Key → Bool
  hash : Key → Word
  refl : ∀ a, eq a a = true
  symm : ∀ a b, eq a b = true → eq b a = true
  trans : ∀ a b c, eq a b = true → eq b c = true → eq a c = true
  compatible : ∀ a b, eq a b = true → hash a = hash b

variable {Key : Type}

/-- `cu_galloc` of pointers and one for the tail, `memset` of the others. The size in bytes is a `size_t`. -/
def newTable (tail : Addr) (cap : Nat) : Option (List Addr) :=
  if cap < 8 * (cap + 1) % 2 ^ 64 / 8 then some (List.replicate cap 0 ++ [tail]) else none

/-- `cucon_hmap_init` -/
def init (tail : Addr) (next : Addr → Addr) (key : Addr → Key) : Hmap Key :=
  { buckets := ⟨List.replicate capacityInit 0 ++ [tail], next⟩, size := 0, mask := capacityInit - 1, tail, key }

/-- `cucon_hmap_card`, which converts the `int`. -/
def card (map : Hmap Key) : Nat := (map.size.signExtend 64).toNat

/-- `cucon_hmap_is_empty` -/
def isEmpty (map : Hmap Key) : Bool := map.size ≠ 0

section Operations

variable (c : Closures Key) (fuel : Nat)

/-- The bucket of a key. -/
def bucket (map : Hmap Key) (key : Key) : Nat := (c.hash key).toNat &&& map.mask

def setKey (map : Hmap Key) (node : Addr) (key : Key) : Hmap Key :=
  { map with key := Function.update map.key node key }

/-- `cucon_hmap_find_mem` -/
def findMem (map : Hmap Key) (key : Key) : Option Addr := do
  let node ← map.buckets.heads[map.bucket c key]?
  findLoop 0 (fun node => c.eq (map.key node) key) map.buckets.next fuel node

/-- `cucon_hmap_multi_insert_node` -/
def multiInsertNode (map : Hmap Key) (node : Addr) : Option (Hmap Key) :=
  (push map.buckets (map.bucket c (map.key node)) node).map fun buckets => { map with buckets }

/-- `cucon_hmap_set_capacity`. The nodes are inserted one by one, and the size is not counted again. -/
def setCapacity (map : Hmap Key) (cap : Nat) : Option (Hmap Key) :=
  match newTable map.tail cap with
  | none => none
  | some table =>
    let mask := cap - 1
    let index (node : Addr) := (c.hash (map.key node)).toNat &&& mask
    (forHeads (fun _ => pushAll 0 index fuel) 0 (map.buckets.heads.take (map.mask + 1)) ⟨table, map.buckets.next⟩).map
      fun buckets => { map with buckets, size := 0, mask }

/-- `map->size++ > (map->mask>>1)`, an `int` against an `unsigned long` -/
def overfull (map : Hmap Key) : Bool := (map.size.signExtend 64).toNat > map.mask >>> 1

/-- `map->size-- < (map->mask>>2) && map->mask > CUCON_HMAP_CAPACITY_MIN` -/
def sparse (map : Hmap Key) : Bool := (map.size.signExtend 64).toNat < map.mask >>> 2 ∧ map.mask > capacityMin

/-- `cucon_hmap_insert_mem`, with the node that is allocated. The second component is `*slot`. -/
def insertMem (map : Hmap Key) (key : Key) (fresh : Addr) : Option ((Bool × Addr) × Hmap Key) := do
  let found ← findMem c fuel map key
  if found ≠ 0 then return ((false, found), map)
  let map ← multiInsertNode c (map.setKey fresh key) fresh
  let grown ← (if map.overfull then setCapacity c fuel { map with size := map.size + 1 } (2 * (map.mask + 1))
    else some { map with size := map.size + 1 })
  return ((true, fresh), grown)

/-- `while (node) { if (eq(node->key, newnode->key)) return cu_false; }`, which stays at the node. -/
def insertNodeLoop (found : Addr → Bool) : Nat → Addr → Option Bool
  | 0, _ => none
  | fuel + 1, node => if node = 0 then some false else if found node then some true else insertNodeLoop found fuel node

/-- `cucon_hmap_insert_node` -/
def insertNode (map : Hmap Key) (newnode : Addr) : Option (Bool × Hmap Key) := do
  let node ← map.buckets.heads[map.bucket c (map.key newnode)]?
  let found ← insertNodeLoop (fun node => c.eq (map.key node) (map.key newnode)) fuel node
  if found then return (false, map)
  let map ← multiInsertNode c map newnode
  return (true, map)

/-- The loop over the bucket of a key: the place where it stops, and the node there or `NULL`. -/
def locate (map : Hmap Key) (key : Key) : Option (Place Addr × Addr) :=
  seek 0 (fun node => c.eq (map.key node) key) map.buckets fuel (.head (map.bucket c key))

/-- `*node = (*node)->next` -/
def unlink (map : Hmap Key) (place : Place Addr) (node : Addr) : Option (Hmap Key) :=
  (map.buckets.write place (map.buckets.next node)).map fun buckets => { map with buckets }

/-- `cucon_hmap_pop_mem` -/
def popMem (map : Hmap Key) (key : Key) : Option (Addr × Hmap Key) := do
  let (place, node) ← locate c fuel map key
  if node = 0 then return (0, map)
  let map ← unlink map place node
  let shrunk ← (if map.sparse then setCapacity c fuel { map with size := map.size - 1 } ((map.mask + 1) / 2)
    else some { map with size := map.size - 1 })
  return (node, shrunk)

/-- `cucon_hmap_erase` -/
def erase (map : Hmap Key) (key : Key) : Option (Bool × Hmap Key) :=
  (popMem c fuel map key).map fun popped => (popped.1 != 0, popped.2)

/-- `cucon_hmap_isocap_pop_mem` -/
def isocapPopMem (map : Hmap Key) (key : Key) : Option (Addr × Hmap Key) := do
  let (place, node) ← locate c fuel map key
  if node = 0 then return (0, map)
  let map ← unlink map place node
  return (node, { map with size := map.size - 1 })

/-- `cucon_hmap_isocap_erase` -/
def isocapErase (map : Hmap Key) (key : Key) : Option (Bool × Hmap Key) :=
  (isocapPopMem c fuel map key).map fun popped => (popped.1 != 0, popped.2)

/-- `cucon_hmap_clear`, whose loops over the chains free nothing. -/
def clear (map : Hmap Key) : Option (Hmap Key) :=
  (forHeads (fun _ t node => (findLoop 0 (fun _ => false) map.buckets.next fuel node).map fun _ => t) 0
    (map.buckets.heads.take (map.mask + 1)) map.buckets).map fun buckets => { map with buckets }

end Operations

end Hmap

end Culibs.Cucon
