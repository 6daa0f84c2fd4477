import Culibs.Cu.Hash
import Culibs.Foundation.Buckets

/-! Hash maps of `cucon/hzmap.c`. A key is an array of words, stored after the link of its
node. The capacity is kept as an exponent, as `CUCON_HZMAP_COMPACT` has it. Assertions are left
out. -/

namespace Culibs.Cucon

open Cu Buckets

/-- A map and the memory of nodes. The heads of the buckets are `arr`, an address 0 is `NULL`. -/
structure Hzmap where
  keySizeW : Nat
  capExpt : Nat
  size : Nat
  buckets : Buckets Nat
  key : Nat → List Word

namespace Hzmap

/-- An address of a node. -/
abbrev Addr := Nat

def initCapExpt : Nat := 2

def initCap : Nat := 2 ^ initCapExpt

section Fill

-- Whether `CUCONF_OPT_SPEED` is defined.
variable (optSpeed : Bool)

def minfillNumer : Nat := 1

def minfillDenom : Nat := if optSpeed then 3 else 2

def maxfillNumer : Nat := if optSpeed then 1 else 3

def maxfillDenom : Nat := if optSpeed then 1 else 2

end Fill

/-- Cleared memory for an array of pointers. The size in bytes is a `size_t`. -/
def gallocArr (count : Nat) : List Addr := List.replicate (8 * count % 2 ^ 64 / 8) 0

/-- `cu_size_ceil_log2` -/
def sizeCeilLog2 (n : Nat) : Nat := (BitVec.ofNat 64 n - 1).toNat.log2 + 1

def mapCap (map : Hzmap) : Nat := 2 ^ map.capExpt

def mapMask (map : Hzmap) : Nat := map.mapCap - 1

/-- The bucket of a key. -/
def bucket (map : Hzmap) (key : List Word) : Nat := (wordarrHashNoinitBj key).toNat &&& map.mapMask

def init (keySizeW : Nat) (next : Addr → Addr) (key : Addr → List Word) : Hzmap :=
  { keySizeW, capExpt := initCapExpt, size := 0, buckets := ⟨gallocArr initCap, next⟩, key }

/-- The loop body of `_shrink`, which appends a chain to the one at another index. -/
def appendChain (newMask fuel : Nat) (i : Nat) (new : Buckets Addr) (first : Addr) : Option (Buckets Addr) :=
  if first = 0 then some new else Buckets.attach 0 fuel (i &&& newMask) new first

def shrink (fuel : Nat) (map : Hzmap) (newCap : Nat) : Option Hzmap :=
  if newCap < initCap then some map
  else
    let newArr := gallocArr newCap
    let oldArr := map.buckets.heads
    if newCap ≤ newArr.length ∧ newCap ≤ oldArr.length then
      let copied := oldArr.take newCap ++ newArr.drop newCap
      let later := (oldArr.take map.mapCap).drop newCap
      (forHeads (appendChain (newCap - 1) fuel) newCap later ⟨copied, map.buckets.next⟩).map fun buckets =>
        { map with capExpt := sizeCeilLog2 newCap, buckets }
    else none

def expand (fuel : Nat) (map : Hzmap) (newCap : Nat) : Option Hzmap :=
  let newMask := newCap - 1
  let index (node : Addr) := (wordarrHashNoinitBj (map.key node)).toNat &&& newMask
  (forHeads (fun _ => pushAll 0 index fuel) 0 (map.buckets.heads.take map.mapCap)
    ⟨gallocArr newCap, map.buckets.next⟩).map fun buckets =>
      { map with capExpt := sizeCeilLog2 newCap, buckets }

section Operations

variable (optSpeed : Bool) (fuel : Nat)

/-- The arguments and the intermediate results are `size_t`. -/
def prepareInsert (map : Hzmap) (count : Word) : Option Hzmap :=
  let newSize := BitVec.ofNat 64 map.size + count
  if newSize * BitVec.ofNat 64 (maxfillDenom optSpeed) >
      BitVec.ofNat 64 map.mapCap * BitVec.ofNat 64 (maxfillNumer optSpeed) then
    expand fuel map
      (sizeExp2ceil (newSize * BitVec.ofNat 64 (minfillDenom optSpeed) / BitVec.ofNat 64 minfillNumer)).toNat
  else some map

/-- The expansion at the start of an insertion. -/
def makeRoom (map : Hzmap) : Option Hzmap :=
  if map.size * maxfillDenom optSpeed > map.mapCap * maxfillNumer optSpeed then expand fuel map (map.mapCap * 2)
  else some map

/-- The loop over the bucket of a key: the place where it stops, and the node there or `NULL`. -/
def locate (map : Hzmap) (key : List Word) : Option (Place Addr × Addr) :=
  seek 0 (fun node => map.key node == key) map.buckets fuel (.head (map.bucket key))

/-- `*p = node; ++map->size`. The link of the node keeps its value: `CU_GCLEAR_PTR` is empty. -/
def attach (map : Hzmap) (place : Place Addr) (node : Addr) : Option Hzmap :=
  (map.buckets.write place node).map fun buckets => { map with buckets, size := map.size + 1 }

def insertNode (map : Hzmap) (node : Addr) : Option (Bool × Hzmap) := do
  let map ← makeRoom optSpeed fuel map
  let (place, found) ← locate fuel map (map.key node)
  if found ≠ 0 then return (false, map)
  let map ← attach map place node
  return (true, map)

/-- `cu_galloc` of a node at the address `fresh`: the memory is cleared. -/
def gallocNode (map : Hzmap) (fresh : Addr) : Hzmap :=
  { map with
    buckets := { map.buckets with next := Function.update map.buckets.next fresh 0 }
    key := Function.update map.key fresh [] }

def setKey (map : Hzmap) (node : Addr) (key : List Word) : Hzmap :=
  { map with key := Function.update map.key node key }

/-- The second component is `*node_out`. -/
def insert (map : Hzmap) (key : List Word) (fresh : Addr) : Option ((Bool × Addr) × Hzmap) := do
  let map ← makeRoom optSpeed fuel map
  let (place, found) ← locate fuel map key
  if found ≠ 0 then return ((false, found), map)
  let map ← attach (gallocNode map fresh) place fresh
  let map := setKey map fresh key
  return ((true, fresh), map)

def insertVoid (map : Hzmap) (key : List Word) (fresh : Addr) : Option (Bool × Hzmap) := do
  let map ← makeRoom optSpeed fuel map
  let (place, found) ← locate fuel map key
  if found ≠ 0 then return (false, map)
  let map ← attach (gallocNode map fresh) place fresh
  return (true, setKey map fresh key)

def finishErase (map : Hzmap) : Option Hzmap :=
  if map.size * minfillDenom optSpeed < map.mapCap * minfillNumer then shrink fuel map (map.mapCap / 2)
  else some map

/-- `*p = (*p)->next; --map->size` -/
def detach (map : Hzmap) (place : Place Addr) (node : Addr) : Option Hzmap :=
  (map.buckets.write place (map.buckets.next node)).map fun buckets => { map with buckets, size := map.size - 1 }

def erase (map : Hzmap) (key : List Word) : Option (Bool × Hzmap) := do
  let (place, found) ← locate fuel map key
  if found = 0 then return (false, map)
  let map ← detach map place found
  let map ← finishErase optSpeed fuel map
  return (true, map)

def stepErase (map : Hzmap) (key : List Word) : Option (Bool × Hzmap) := do
  let (place, found) ← locate fuel map key
  if found = 0 then return (false, map)
  let map ← detach map place found
  return (true, map)

def find (map : Hzmap) (key : List Word) : Option Addr := do
  let node ← map.buckets.heads[map.bucket key]?
  findLoop 0 (fun node => map.key node == key) map.buckets.next fuel node

/-- `key_eq(1, node_key(node), key)` and `key_eq(2, node_key(node), key)` compare as many words. -/
def findOf (count : Nat) (hash : Word) (map : Hzmap) (key : List Word) : Option Addr := do
  let node ← map.buckets.heads[hash.toNat &&& map.mapMask]?
  findLoop 0 (fun node => (map.key node).take count == key.take count) map.buckets.next fuel node

def oneWordFind (map : Hzmap) (key : List Word) : Option Addr :=
  findOf fuel 1 (oneWordHashNoinitBj (key.getD 0 0)) map key

def twoWordFind (map : Hzmap) (key : List Word) : Option Addr :=
  findOf fuel 2 (twoWordHashNoinitBj (key.getD 0 0) (key.getD 1 0)) map key

/-- The loop of `cucon_hzmap_filter` over a chain, with the size. -/
def filterChain (f : Addr → Bool) : Nat → Buckets Addr → Nat → Place Addr → Option (Buckets Addr × Nat)
  | 0, _, _, _ => none
  | fuel + 1, t, size, place =>
    match t.read place with
    | none => none
    | some node =>
      if node = 0 then some (t, size)
      else if f node then filterChain f fuel t size (.link node)
      else
        match t.write place (t.next node) with
        | none => none
        | some t => filterChain f fuel t (size - 1) place

/-- The loop over the heads from an index on. -/
def filterHeads (f : Addr → Bool) : Nat → Nat → Buckets Addr → Nat → Option (Buckets Addr × Nat)
  | 0, _, t, size => some (t, size)
  | count + 1, i, t, size =>
    match filterChain f fuel t size (.head i) with
    | none => none
    | some (t, size) => filterHeads f count (i + 1) t size

def filter (f : Addr → Bool) (map : Hzmap) : Option Hzmap := do
  let (buckets, size) ← filterHeads fuel f map.mapCap 0 map.buckets map.size
  finishErase optSpeed fuel { map with buckets, size }

end Operations

end Hzmap

end Culibs.Cucon

/-! Resizing a hash map keeps its nodes. The index in a halved table is the remainder of the
index before, so the chains of two indices come together. -/

namespace Culibs.Cucon.Hzmap

open Cu Buckets

/-- The node with each of the keys of a map. -/
abbrev Contents := List Word → Option Addr

/-- The nodes of a table are in the buckets of their keys, and they are the contents. -/
structure Represents (map : Hzmap) (nodes : Finset Addr) (contents : Contents) : Prop where
  small : map.capExpt ≤ 60
  chained : map.buckets.Chained 0 map.mapCap (fun node => map.bucket (map.key node)) nodes
  size : map.size = nodes.card
  width : ∀ node ∈ nodes, (map.key node).length = map.keySizeW
  keyed : Keyed map.key nodes contents

/-- What resizing a map leaves as it was. -/
structure Resized (map map' : Hzmap) (nodes : Finset Addr) : Prop where
  keySizeW : map'.keySizeW = map.keySizeW
  size : map'.size = map.size
  key : map'.key = map.key
  next : ∀ node, node ∉ nodes → map'.buckets.next node = map.buckets.next node

variable {map map' : Hzmap} {nodes : Finset Addr} {contents : Contents} {fuel k : Nat}

theorem Resized.refl (map : Hzmap) (nodes : Finset Addr) : Resized map map nodes :=
  ⟨rfl, rfl, rfl, fun _ _ => rfl⟩

theorem mask_eq (hash : Word) (k : Nat) : hash.toNat &&& (2 ^ k - 1) = hash.toNat % 2 ^ k :=
  Nat.and_two_pow_sub_one_eq_mod ..

theorem bucket_eq (map : Hzmap) (key : List Word) :
    map.bucket key = (wordarrHashNoinitBj key).toNat % 2 ^ map.capExpt := mask_eq ..

theorem bucket_lt (map : Hzmap) (key : List Word) : map.bucket key < map.mapCap := by
  rw [bucket_eq]
  exact Nat.mod_lt _ (Nat.two_pow_pos _)

theorem gallocArr_eq (bound : k ≤ 60) : gallocArr (2 ^ k) = List.replicate (2 ^ k) 0 := by
  have fits : 2 ^ k ≤ 2 ^ 60 := Nat.pow_le_pow_right (by decide) bound
  rw [gallocArr, Nat.mod_eq_of_lt (by omega), Nat.mul_div_cancel_left _ (by decide)]

theorem sizeCeilLog2_eq (pos : 0 < k) (bound : k < 64) : sizeCeilLog2 (2 ^ k) = k := by
  have fits : 2 ^ k < 2 ^ 64 := Nat.pow_lt_pow_right (by decide) bound
  have two : 2 ≤ 2 ^ k := Nat.le_self_pow (Nat.ne_of_gt pos) 2
  have power : (BitVec.ofNat 64 (2 ^ k)).toNat = 2 ^ k := Nat.mod_eq_of_lt fits
  have one : (1 : Word).toNat = 1 := rfl
  have less : (BitVec.ofNat 64 (2 ^ k) - 1).toNat = 2 ^ k - 1 := by
    have above : (1 : Word) ≤ BitVec.ofNat 64 (2 ^ k) := by
      rw [BitVec.le_def, power, one]
      omega
    rw [BitVec.toNat_sub_of_le above, power, one]
  obtain ⟨j, rfl⟩ : ∃ j, k = j + 1 := ⟨k - 1, by omega⟩
  have log : (2 ^ (j + 1) - 1).log2 = j := (Nat.log2_eq_iff (by omega)).mpr (by
    omega)
  rw [sizeCeilLog2, less, log]

theorem Represents.resize (rep : Represents map nodes contents) {buckets : Buckets Addr} (bound : k ≤ 60)
    (chained : Chained buckets 0 (2 ^ k) (fun node => (wordarrHashNoinitBj (map.key node)).toNat % 2 ^ k) nodes)
    (same : ∀ node, node ∉ nodes → buckets.next node = map.buckets.next node) :
    Represents { map with capExpt := k, buckets } nodes contents ∧
      Resized map { map with capExpt := k, buckets } nodes := by
  refine ⟨⟨bound, ?_, rep.size, rep.width, rep.keyed⟩, rfl, rfl, rfl, same⟩
  simp only [bucket_eq]
  exact chained

theorem expand_spec (rep : Represents map nodes contents) (pos : 0 < k) (bound : k ≤ 60)
    (enough : nodes.card < fuel) :
    ∃ map', expand fuel map (2 ^ k) = some map' ∧ Represents map' nodes contents ∧ Resized map map' nodes := by
  obtain ⟨buckets, moved, chained, keeps⟩ := rep.chained.rehash (gallocArr (2 ^ k)) (2 ^ k)
    (fun node => (wordarrHashNoinitBj (map.key node)).toNat &&& (2 ^ k - 1)) (fun i less => by
      rw [gallocArr_eq bound, List.getElem?_replicate_of_lt less]) (fun node => by
      rw [mask_eq]
      exact Nat.mod_lt _ (Nat.two_pow_pos k)) enough
  simp only [mask_eq] at chained
  obtain ⟨represents', resized⟩ := rep.resize bound chained fun node outside => keeps.next node outside
  refine ⟨_, ?_, represents', resized⟩
  rw [expand, moved, Option.map_some, sizeCeilLog2_eq pos (by omega)]

/-- The second half of the chains goes to the ends of the first half. -/
theorem shrink_spec (rep : Represents map nodes contents) (expt : map.capExpt = k + 1)
    (enough : nodes.card < fuel) :
    ∃ map', shrink fuel map (2 ^ k) = some map' ∧ Represents map' nodes contents ∧ Resized map map' nodes := by
  rw [shrink]
  split
  · exact ⟨map, rfl, rep, Resized.refl map nodes⟩
  next notLess =>
  have pos : 0 < k := pos_of_ne_zero fun none => notLess (by rw [none]; decide)
  have small := rep.small
  have cap : map.mapCap = 2 ^ k + 2 ^ k := by rw [mapCap, expt, pow_succ, mul_two]
  have positiveCap := Nat.two_pow_pos k
  have size : map.mapCap ≤ map.buckets.heads.length := by
    obtain ⟨first, held, _⟩ := rep.chained.chain (2 ^ k + 2 ^ k - 1) (by omega)
    have := (List.getElem?_eq_some_iff.mp held).1
    omega
  have allocated : gallocArr (2 ^ k) = List.replicate (2 ^ k) 0 := gallocArr_eq (by omega)
  have room : 2 ^ k ≤ (gallocArr (2 ^ k)).length ∧ 2 ^ k ≤ map.buckets.heads.length := by
    rw [allocated, List.length_replicate]
    omega
  have copied : map.buckets.heads.take (2 ^ k) ++ (gallocArr (2 ^ k)).drop (2 ^ k) = map.buckets.heads.take (2 ^ k) := by
    rw [allocated, List.drop_replicate, Nat.sub_self, List.replicate_zero, List.append_nil]
  simp only [if_pos room, copied]
  have chained := rep.chained
  simp only [bucket_eq, mapCap, expt] at chained
  have gathered := chained.halve (appendChain (2 ^ k - 1) fuel) fun i part placed => by
    refine takes_nonnull (takes_attach ?_ (fun node mem => ?_) enough)
    · rw [Nat.and_two_pow_sub_one_eq_mod]
      exact Nat.mod_lt _ positiveCap
    · rw [Nat.and_two_pow_sub_one_eq_mod]
      exact placed node mem
  rw [← expt, ← mapCap] at gathered
  obtain ⟨buckets, done, chained, keeps⟩ := gathered
  obtain ⟨represents', resized⟩ := rep.resize (by omega) chained fun node outside => keeps.next node outside
  refine ⟨_, ?_, represents', resized⟩
  rw [done, Option.map_some, sizeCeilLog2_eq pos (by omega)]

end Culibs.Cucon.Hzmap
