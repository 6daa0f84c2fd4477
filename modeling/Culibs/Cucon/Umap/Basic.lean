import Culibs.Cu.Int
import Culibs.Foundation.Buckets
import Mathlib.Data.Nat.Log

/-! Integer-keyed hash maps of `cucon/umap.c`. The values are in a slot after the header of
their node. -/

namespace Culibs.Cucon

open Buckets Function

/-- A map and the memory of nodes. The heads of the buckets are `arr`, an address 0 is `NULL`.
A slot has a word for each offset. -/
structure Umap where
  size : Nat
  mask : Nat
  buckets : Buckets Nat
  key : Nat → Word
  slot : Nat → Nat → Word

namespace Umap

/-- An address of a node, and of its slot. -/
abbrev Addr := Nat

abbrev CInt := BitVec 32

def intMin : CInt := 0x80000000

def minSize : Nat := 8

/-- `(void *)-1` after the last bucket -/
def sentinel : Addr := 2 ^ 64 - 1

section Fill

-- Whether `CUCONF_OPT_SPEED` is defined.
variable (optSpeed : Bool)

def minFillNumer : Nat := 1

def minFillDenom : Nat := if optSpeed then 3 else 2

def maxFillNumer : Nat := if optSpeed then 2 else 3

def maxFillDenom : Nat := if optSpeed then 3 else 2

end Fill

/-- `HASH`, which is `HASH2` -/
def hash (key : Word) : Word := (key ^^^ (key >>> 7)) - ((key >>> 11) ^^^ (key >>> 19))

def index (map : Umap) (key : Word) : Nat := (hash key).toNat &&& map.mask

/-- The empty buckets and the sentinel. -/
def newArr (cap : Nat) : List Addr := List.replicate cap 0 ++ [sentinel]

def init (next : Addr → Addr) (key : Addr → Word) (slot : Addr → Nat → Word) : Umap :=
  { size := 0, mask := minSize - 1, buckets := ⟨newArr minSize, next⟩, key, slot }

/-- `cu_ulong_exp2_ceil_log2` of a size, which is far from the width of `unsigned long`. -/
def exp2CeilLog2 (n : Nat) : Nat := 2 ^ Nat.clog 2 n

def setCapacity (fuel : Nat) (map : Umap) (newCap : Nat) : Option Umap :=
  let oldCap := map.mask + 1
  if oldCap = newCap then some map
  else
    let newMask := newCap - 1
    let index (node : Addr) := (hash (map.key node)).toNat &&& newMask
    (forHeads (fun _ => pushAll 0 index fuel) 0 (map.buckets.heads.take oldCap)
      ⟨newArr newCap, map.buckets.next⟩).map fun buckets => { map with mask := newMask, buckets }

section Operations

variable (optSpeed : Bool) (fuel : Nat)

/-- The part of `cucon_umap_update_cap` for small sizes. -/
def updateCapAfterErase (map : Umap) : Option Umap :=
  if map.size * minFillDenom optSpeed ≤ map.mask * minFillNumer then
    let newCap := exp2CeilLog2 (map.size + 1)
    if newCap > minSize then setCapacity fuel map newCap else setCapacity fuel map minSize
  else some map

def updateCapAfterInsert (map : Umap) : Option Umap :=
  if map.size * maxFillDenom optSpeed > map.mask * maxFillNumer optSpeed then
    setCapacity fuel map (exp2CeilLog2 (map.size + 1))
  else some map

def updateCap (map : Umap) : Option Umap :=
  if map.size * maxFillDenom optSpeed > map.mask * maxFillNumer optSpeed then
    setCapacity fuel map (exp2CeilLog2 (map.size + 1))
  else updateCapAfterErase optSpeed fuel map

/-- The loop over the bucket of a key: the place where it stops, and the node there or `NULL`. -/
def locate (map : Umap) (key : Word) : Option (Place Addr × Addr) :=
  seek 0 (fun node => map.key node == key) map.buckets fuel (.head (map.index key))

/-- The new node is at the address `fresh`, with the given memory in its slot. The result is
whether there was no node of the key, and the node, the end of which is `*value`. -/
def insertMem (map : Umap) (key : Word) (fresh : Addr) (memory : Nat → Word) :
    Option ((Bool × Addr) × Umap) := do
  let (node0, found) ← locate fuel map key
  if found ≠ 0 then return ((false, found), map)
  let buckets ← map.buckets.write node0 fresh
  let map := { map with
    size := map.size + 1
    buckets := { buckets with next := update buckets.next fresh 0 }
    key := update map.key fresh key
    slot := update map.slot fresh memory }
  let map ← updateCapAfterInsert optSpeed fuel map
  return ((true, fresh), map)

def ptrSlot (memory : Nat → Word) : Word := memory 0

def putPtr (memory : Nat → Word) (ptr : Word) : Nat → Word := update memory 0 ptr

/-- An `int` is the lower half of the first word. -/
def intSlot (memory : Nat → Word) : CInt := (memory 0).setWidth 32

def putInt (memory : Nat → Word) (val : CInt) : Nat → Word :=
  update memory 0 ((memory 0).extractLsb' 32 32 ++ val)

def setSlot (map : Umap) (node : Addr) (memory : Nat → Word) : Umap :=
  { map with slot := update map.slot node memory }

/-- `cucon_umap_insert_ptr` and `cucon_umap_insert_int`, which put a value into a new slot. -/
def insertWith (put : (Nat → Word) → Nat → Word) (map : Umap) (key : Word) (fresh : Addr) (memory : Nat → Word) :
    Option (Bool × Umap) := do
  let ((inserted, slot), map) ← insertMem optSpeed fuel map key fresh memory
  if inserted then return (true, map.setSlot slot (put (map.slot slot))) else return (false, map)

def insertPtr (map : Umap) (key ptr : Word) (fresh : Addr) (memory : Nat → Word) : Option (Bool × Umap) :=
  insertWith optSpeed fuel (putPtr · ptr) map key fresh memory

def insertInt (map : Umap) (key : Word) (val : CInt) (fresh : Addr) (memory : Nat → Word) : Option (Bool × Umap) :=
  insertWith optSpeed fuel (putInt · val) map key fresh memory

/-- `*node0 = (*node0)->next; --umap->size` -/
def detach (map : Umap) (node0 : Place Addr) (node : Addr) : Option Umap :=
  (map.buckets.write node0 (map.buckets.next node)).map fun buckets => { map with buckets, size := map.size - 1 }

def eraseKeepCap (map : Umap) (key : Word) : Option (Bool × Umap) := do
  let (node0, found) ← locate fuel map key
  if found = 0 then return (false, map)
  let map ← detach map node0 found
  return (true, map)

/-- The common part of `cucon_umap_erase`, `cucon_umap_erase_ptr` and `cucon_umap_erase_int`, which
read the slot of the node first. -/
def eraseWith {β : Type} (read : (Nat → Word) → β) (absent : β) (map : Umap) (key : Word) : Option (β × Umap) := do
  let (node0, found) ← locate fuel map key
  if found = 0 then return (absent, map)
  let value := read (map.slot found)
  let map ← detach map node0 found
  let map ← updateCapAfterErase optSpeed fuel map
  return (value, map)

def erase (map : Umap) (key : Word) : Option (Bool × Umap) := eraseWith optSpeed fuel (fun _ => true) false map key

def erasePtr (map : Umap) (key : Word) : Option (Word × Umap) := eraseWith optSpeed fuel ptrSlot 0 map key

def eraseInt (map : Umap) (key : Word) : Option (CInt × Umap) := eraseWith optSpeed fuel intSlot intMin map key

/-- The other branches of `cucon_umap_replace_ptr` and `cucon_umap_replace_int`, which put a value
into the slot and return the one it had. -/
def replaceWith {β : Type} (read : (Nat → Word) → β) (absent : β) (put : (Nat → Word) → Nat → Word) (map : Umap)
    (key : Word) (fresh : Addr) (memory : Nat → Word) : Option (β × Umap) := do
  let ((inserted, slot), map) ← insertMem optSpeed fuel map key fresh memory
  let old := read (map.slot slot)
  let map := map.setSlot slot (put (map.slot slot))
  if inserted then return (absent, map) else return (old, map)

def replacePtr (map : Umap) (key ptr : Word) (fresh : Addr) (memory : Nat → Word) : Option (Word × Umap) :=
  if ptr = 0 then erasePtr optSpeed fuel map key
  else replaceWith optSpeed fuel ptrSlot 0 (putPtr · ptr) map key fresh memory

def replaceInt (map : Umap) (key : Word) (val : CInt) (fresh : Addr) (memory : Nat → Word) : Option (CInt × Umap) :=
  if val = intMin then eraseInt optSpeed fuel map key
  else replaceWith optSpeed fuel intSlot intMin (putInt · val) map key fresh memory

/-- `while (*head == NULL) { ++head; if (head - map->arr > map->mask) head = &map->arr[0]; }` -/
def nonemptyHead (map : Umap) : Nat → Nat → Option (Nat × Addr)
  | 0, _ => none
  | fuel + 1, head =>
    match map.buckets.heads[head]? with
    | none => none
    | some node =>
      if node = 0 then nonemptyHead map fuel (if head + 1 > map.mask then 0 else head + 1)
      else some (head, node)

/-- The result of `lrand48` is `random`. -/
def popAnyNode (map : Umap) (random : Nat) : Option (Addr × Umap) := do
  let (head, node) ← nonemptyHead map fuel (random &&& map.mask)
  let map ← detach map (.head head) node
  let map ← updateCapAfterErase optSpeed fuel map
  return (node, map)

def findNode (map : Umap) (key : Word) : Option Addr := do
  let node ← map.buckets.heads[map.index key]?
  findLoop 0 (fun node => map.key node == key) map.buckets.next fuel node

/-- A pointer to the slot, or `NULL`. -/
def findMem (map : Umap) (key : Word) : Option Addr := findNode fuel map key

def findPtr (map : Umap) (key : Word) : Option Word :=
  (findNode fuel map key).map fun node => if node = 0 then 0 else ptrSlot (map.slot node)

def findInt (map : Umap) (key : Word) : Option CInt :=
  (findNode fuel map key).map fun node => if node = 0 then intMin else intSlot (map.slot node)

end Operations

end Umap

end Culibs.Cucon

namespace Culibs.Cucon.Umap

open Cu Buckets

/-- The node of a key and what its slot holds. -/
structure Binding where
  node : Addr
  value : Nat → Word

abbrev Contents := Word → Option Binding

/-- The nodes of the keys. -/
def Contents.nodeOf (contents : Contents) (key : Word) : Option Addr := (contents key).map Binding.node

/-- The nodes of a table are in the buckets of their keys, and they and their slots are the contents. -/
structure Represents (map : Umap) (nodes : Finset Addr) (contents : Contents) : Prop where
  capacity : ∃ expt, map.mask + 1 = 2 ^ expt
  sentinel : map.buckets.heads.length = map.mask + 2 ∧ map.buckets.heads[map.mask + 1]? = some sentinel
  chained : Chained map.buckets 0 (map.mask + 1) (fun node => map.index (map.key node)) nodes
  size : map.size = nodes.card
  keyed : Keyed map.key nodes contents.nodeOf
  value : ∀ key binding, contents key = some binding → map.slot binding.node = binding.value

/-- The nodes of a set are in the buckets of their keys. -/
structure Fits (map : Umap) (nodes : Finset Addr) : Prop where
  capacity : ∃ expt, map.mask + 1 = 2 ^ expt
  sentinel : map.buckets.heads.length = map.mask + 2 ∧ map.buckets.heads[map.mask + 1]? = some Umap.sentinel
  chained : Chained map.buckets 0 (map.mask + 1) (fun node => map.index (map.key node)) nodes

theorem Represents.fits (rep : Represents map nodes contents) :
    Fits map nodes :=
  ⟨rep.capacity, rep.sentinel, rep.chained⟩

/-- What changing the capacity leaves as it was. -/
structure Resized (map map' : Umap) : Prop where
  size : map'.size = map.size
  key : map'.key = map.key
  slot : map'.slot = map.slot

variable {map map' : Umap} {nodes : Finset Addr} {contents : Contents} {fuel k : Nat} (optSpeed : Bool)

theorem Resized.refl (map : Umap) : Resized map map := ⟨rfl, rfl, rfl⟩

theorem index_lt (map : Umap) (key : Word) : map.index key < map.mask + 1 :=
  Nat.lt_succ_of_le Nat.and_le_right

theorem newArr_empty (cap i : Nat) (bound : i < cap) : (newArr cap)[i]? = some 0 := by
  rw [newArr, List.getElem?_append_left (by rwa [List.length_replicate]), List.getElem?_replicate_of_lt bound]

theorem newArr_sentinel (cap : Nat) : (newArr cap).length = cap + 1 ∧ (newArr cap)[cap]? = some sentinel := by
  constructor
  · simp [newArr]
  · rw [newArr, List.getElem?_append_right (by rw [List.length_replicate]), List.length_replicate, Nat.sub_self]
    rfl

/-- Another array, which has the nodes in the buckets of their keys. The links of other nodes are as before. -/
def Refits (map : Umap) (nodes : Finset Addr) (result : Option Umap) (mask : Nat) : Prop :=
  ∃ buckets, result = some { map with mask, buckets } ∧ Fits { map with mask, buckets } nodes ∧
    ∀ a, a ∉ nodes → buckets.next a = map.buckets.next a

theorem setCapacity_refits {index : Addr → Nat} (chained : Chained map.buckets 0 (map.mask + 1) index nodes)
    (ne : map.mask + 1 ≠ 2 ^ k) (enough : nodes.card < fuel) :
    Refits map nodes (setCapacity fuel map (2 ^ k)) (2 ^ k - 1) := by
  have pos := Nat.two_pow_pos k
  have cap : 2 ^ k - 1 + 1 = 2 ^ k := Nat.sub_add_cancel pos
  obtain ⟨buckets, moved, chained', keeps⟩ := chained.rehash (newArr (2 ^ k)) (2 ^ k)
    (fun node => (hash (map.key node)).toNat &&& (2 ^ k - 1)) (newArr_empty _)
    (fun node => lt_of_le_of_lt Nat.and_le_right (Nat.sub_one_lt_of_lt pos)) enough
  have ends := newArr_sentinel (2 ^ k)
  refine ⟨buckets, ?_, ⟨⟨k, cap⟩, ⟨?_, ?_⟩, ?_⟩, keeps.next⟩
  · rw [setCapacity, if_neg ne]
    simp only [moved]
    rfl
  · exact keeps.length.trans (ends.1.trans (congrArg (· + 1) cap.symm))
  · simp only [cap]
    exact (keeps.heads _ (le_rfl)).trans ends.2
  · simp only [cap]
    exact chained'

theorem Fits.setCapacity (fits : Fits map nodes) (k : Nat) (enough : nodes.card < fuel) :
    Refits map nodes (setCapacity fuel map (2 ^ k)) (2 ^ k - 1) := by
  by_cases same : map.mask + 1 = 2 ^ k
  · have isMask : 2 ^ k - 1 = map.mask := Nat.sub_eq_of_eq_add same.symm
    rw [isMask]
    exact ⟨map.buckets, by rw [Umap.setCapacity, if_pos same], fits, fun _ _ => rfl⟩
  · exact setCapacity_refits fits.chained same enough

theorem setCapacity_spec (rep : Represents map nodes contents) (k : Nat) (enough : nodes.card < fuel) :
    ∃ map', setCapacity fuel map (2 ^ k) = some map' ∧ Represents map' nodes contents ∧ Resized map map' ∧
      map'.mask + 1 = 2 ^ k := by
  obtain ⟨buckets, done, fits, _⟩ := rep.fits.setCapacity k enough
  exact ⟨_, done, ⟨fits.capacity, fits.sentinel, fits.chained, rep.size, rep.keyed, rep.value⟩,
    ⟨rfl, rfl, rfl⟩, Nat.sub_add_cancel (Nat.two_pow_pos k)⟩

/-- A bound of the capacity of a map that had at most some number of nodes. -/
def Within (map : Umap) (count : Nat) : Prop := map.mask + 1 ≤ 2 * count + minSize

private theorem exp2CeilLog2_le (size : Nat) : exp2CeilLog2 (size + 1) ≤ 2 * size + minSize := by
  rcases eq_zero_or_pos size with rfl | pos
  · decide
  · have below : 2 ^ (Nat.clog 2 (size + 1)).pred < size + 1 := Nat.pow_pred_clog_lt_self (by decide) (by omega)
    have some : 0 < Nat.clog 2 (size + 1) := Nat.clog_pos (by decide) (by omega)
    obtain ⟨e, isSucc⟩ : ∃ e, Nat.clog 2 (size + 1) = e + 1 := ⟨_, (Nat.succ_pred_eq_of_pos some).symm⟩
    rw [isSucc, Nat.pred_succ] at below
    rw [exp2CeilLog2, isSucc]
    omega

/-- A table of the same contents within the bound. -/
def Adjusts (map : Umap) (nodes : Finset Addr) (contents : Contents) (count : Nat) (result : Option Umap) : Prop :=
  ∃ map', result = some map' ∧ Represents map' nodes contents ∧ Resized map map' ∧ Within map' count

section Adjust

variable {count : Nat} (rep : Represents map nodes contents) (within : Within map count)
  (few : nodes.card ≤ count) (enough : nodes.card < fuel)

include rep few enough

theorem setCapacity_size_adjusts :
    Adjusts map nodes contents count (setCapacity fuel map (exp2CeilLog2 (map.size + 1))) := by
  obtain ⟨map', done, represents', resized, cap⟩ := setCapacity_spec rep (Nat.clog 2 (map.size + 1)) enough
  have bound := exp2CeilLog2_le map.size
  have size := rep.size
  refine ⟨map', done, represents', resized, ?_⟩
  rw [exp2CeilLog2] at bound
  rw [Within]
  omega

omit few in
private theorem setCapacity_min_adjusts : Adjusts map nodes contents count (setCapacity fuel map minSize) := by
  obtain ⟨map', done, represents', resized, cap⟩ := setCapacity_spec rep 3 enough
  refine ⟨map', done, represents', resized, ?_⟩
  rw [Within, cap]
  exact Nat.le_add_left ..

include within

theorem updateCapAfterErase_adjusts : Adjusts map nodes contents count (updateCapAfterErase optSpeed fuel map) := by
  rw [updateCapAfterErase]
  split
  · simp only []
    split
    · exact setCapacity_size_adjusts rep few enough
    · exact setCapacity_min_adjusts rep enough
  · exact ⟨map, rfl, rep, Resized.refl map, within⟩

theorem updateCapAfterInsert_adjusts : Adjusts map nodes contents count (updateCapAfterInsert optSpeed fuel map) := by
  rw [updateCapAfterInsert]
  split
  · exact setCapacity_size_adjusts rep few enough
  · exact ⟨map, rfl, rep, Resized.refl map, within⟩

theorem updateCap_adjusts : Adjusts map nodes contents count (updateCap optSpeed fuel map) := by
  rw [updateCap]
  split
  · exact setCapacity_size_adjusts rep few enough
  · exact updateCapAfterErase_adjusts optSpeed rep within few enough

end Adjust

/-- Adjusting the capacity keeps the nodes in the buckets of their keys. -/
def Adapts (map : Umap) (nodes : Finset Addr) (result : Option Umap) : Prop :=
  ∃ mask, Refits map nodes result mask

theorem Fits.unchanged (fits : Fits map nodes) : Adapts map nodes (some map) :=
  ⟨map.mask, map.buckets, rfl, fits, fun _ _ => rfl⟩

theorem Fits.updateCapAfterErase (fits : Fits map nodes) (enough : nodes.card < fuel) :
    Adapts map nodes (updateCapAfterErase optSpeed fuel map) := by
  rw [Umap.updateCapAfterErase]
  split
  · simp only []
    split
    · exact ⟨_, fits.setCapacity (Nat.clog 2 (map.size + 1)) enough⟩
    · exact ⟨_, fits.setCapacity 3 enough⟩
  · exact fits.unchanged

theorem Fits.updateCapAfterInsert (fits : Fits map nodes) (enough : nodes.card < fuel) :
    Adapts map nodes (updateCapAfterInsert optSpeed fuel map) := by
  rw [Umap.updateCapAfterInsert]
  split
  · exact ⟨_, fits.setCapacity (Nat.clog 2 (map.size + 1)) enough⟩
  · exact fits.unchanged

end Culibs.Cucon.Umap
