import Culibs.Cucon.Umap.Runs
import Culibs.Foundation.Fuel
import Culibs.Foundation.Sweep

namespace Culibs.Cucon.Umap

open Finset Option

section Tables

/-- A `struct cucon_umap`. -/
structure Table where
  size : Nat
  mask : Nat
  arr : List Addr

/-- The links of all nodes. -/
abbrev Links := Addr → Addr

def table (map : Umap) : Table := ⟨map.size, map.mask, map.buckets.heads⟩

section Code

-- The keys and the slots of all nodes, which functions that only move nodes leave as they are.
variable (key : Addr → Word) (slot : Addr → Nat → Word)

/-- The map of a table. -/
def Table.on (table : Table) (next : Links) : Umap := ⟨table.size, table.mask, ⟨table.arr, next⟩, key, slot⟩

/-- An update of the capacity. -/
def Table.update (table : Table) (update : Umap → Option Umap) (next : Links) : Option (Links × Table) :=
  (update (table.on key slot next)).map fun map => (map.buckets.next, map.table)

/-- The node at the head of a bucket. What is behind the buckets is no node: it is the sentinel, or outside of the
array. -/
def Table.bucket (table : Table) (j : Nat) : Option Addr := if j ≤ table.mask then table.arr[j]? else none

/-- `node->next = arr[j]; arr[j] = node; ++size` -/
def Table.push (table : Table) (next : Links) (j : Nat) (node : Addr) : Option (Links × Table) :=
  (Buckets.push ⟨table.arr, next⟩ j node).map fun buckets =>
    (buckets.next, { table with size := table.size + 1, arr := buckets.heads })

end Code

/-- Each node is in the bucket of its key, no two nodes have the same key, and the size is their number. -/
structure Sound (map : Umap) (nodes : Finset Addr) : Prop where
  fits : Fits map nodes
  size : map.size = nodes.card
  distinct : Set.InjOn map.key nodes

/-- The nodes of a map have these keys. -/
def Holds (map : Umap) (keys : Finset Word) : Prop := ∃ nodes, Sound map nodes ∧ nodes.image map.key = keys

variable {map : Umap} {nodes nodes' : Finset Addr} {contents : Contents} {key : Addr → Word} {slot : Addr → Nat → Word}
  {table table' : Table} {next next' : Links} {fuel : Nat} {keys : Finset Word}

theorem Represents.sound (rep : Represents map nodes contents) : Sound map nodes :=
  ⟨rep.fits, rep.size, fun _ mem _ member' same => rep.keyed.unique mem member' same⟩

theorem Represents.mem_keys (rep : Represents map nodes contents) (k : Word) :
    k ∈ nodes.image map.key ↔ contents k ≠ none := by
  rw [mem_image, ne_none_iff_exists']
  constructor
  · rintro ⟨a, mem, isKey⟩
    obtain ⟨binding, stored, _⟩ := map_eq_some_iff.mp ((rep.keyed k a).mpr ⟨mem, isKey⟩)
    exact ⟨binding, stored⟩
  · rintro ⟨binding, stored⟩
    exact ⟨binding.node, (rep.keyed k binding.node).mp (nodeOf_some stored)⟩

open Classical in
theorem Sound.represents (sound : Sound map nodes) : ∃ contents, Represents map nodes contents := by
  let contents : Contents := fun k =>
    if found : ∃ a ∈ nodes, map.key a = k then some ⟨found.choose, map.slot found.choose⟩ else none
  have isBinding (k : Word) (binding : Binding) (stored : contents k = some binding) :
      (binding.node ∈ nodes ∧ map.key binding.node = k) ∧ map.slot binding.node = binding.value := by
    simp only [contents] at stored
    split at stored
    · next found =>
      cases stored
      exact ⟨found.choose_spec, rfl⟩
    · cases stored
  refine ⟨contents, sound.fits.capacity, sound.fits.sentinel, sound.fits.chained, sound.size, fun k a => ?_,
    fun k binding stored => (isBinding k binding stored).2⟩
  constructor
  · intro isNode
    obtain ⟨binding, stored, rfl⟩ := map_eq_some_iff.mp isNode
    exact (isBinding k binding stored).1
  · rintro ⟨mem, isKey⟩
    have found : ∃ a ∈ nodes, map.key a = k := ⟨a, mem, isKey⟩
    have stored : contents k = some ⟨found.choose, map.slot found.choose⟩ := dif_pos found
    rw [nodeOf_some stored]
    exact congrArg some
      (sound.distinct found.choose_spec.1 mem (found.choose_spec.2.trans isKey.symm))

theorem Sound.findNode (sound : Sound map nodes) (k : Word) (enough : nodes.card < fuel) :
    ∃ node, findNode fuel map k = some node ∧ (node ≠ 0 ↔ k ∈ nodes.image map.key) := by
  obtain ⟨contents, rep⟩ := sound.represents
  refine ⟨_, findNode_spec rep k enough, ?_⟩
  rw [rep.mem_keys]
  cases stored : contents k with
  | none => simp [nodeOf_none stored]
  | some binding =>
    rw [nodeOf_some stored]
    exact iff_of_true (rep.nonnull stored).2 (some_ne_none binding)

theorem Sound.card_keys (sound : Sound map nodes) : (nodes.image map.key).card = map.size := by
  rw [card_image_of_injOn sound.distinct, sound.size]

theorem Holds.size_eq (holds : Holds map keys) : map.size = keys.card := by
  obtain ⟨nodes, sound, rfl⟩ := holds
  exact sound.card_keys.symm

theorem Sound.unique (sound : Sound map nodes) (sound' : Sound map nodes') : nodes = nodes' := by
  ext a
  exact ⟨fun mem => (sound.fits.chained.same_chain sound'.fits.chained mem).1,
    fun mem => (sound'.fits.chained.same_chain sound.fits.chained mem).1⟩

theorem Sound.nonnull (sound : Sound map nodes) : ∀ a ∈ nodes, a ≠ 0 := sound.fits.chained.nonnull

theorem Fits.frame (fits : Fits (table.on key slot next) nodes) (same : ∀ a ∈ nodes, next' a = next a) :
    Fits (table.on key slot next') nodes :=
  ⟨fits.capacity, fits.sentinel, fits.chained.congr (fun _ _ => rfl) same⟩

theorem Sound.frame (sound : Sound (table.on key slot next) nodes) (same : ∀ a ∈ nodes, next' a = next a) :
    Sound (table.on key slot next') nodes :=
  ⟨sound.fits.frame same, sound.size, sound.distinct⟩

theorem Sound.eraseKeepCap (sound : Sound (table.on key slot next) nodes) (k : Word) (enough : nodes.card < fuel) :
    ∃ (next' : Links) (table' : Table), eraseKeepCap fuel (table.on key slot next) k =
        some (decide (k ∈ nodes.image key), table'.on key slot next') ∧
      Sound (table'.on key slot next') (nodes.filter fun b => key b ≠ k) ∧ ∀ b, b ∉ nodes → next' b = next b := by
  obtain ⟨contents, rep⟩ := sound.represents
  cases stored : contents k with
  | none =>
    obtain ⟨place, found⟩ := locate_absent rep stored enough
    have absent : k ∉ nodes.image key := fun mem => (rep.mem_keys k).mp mem stored
    have all : (nodes.filter fun b => key b ≠ k) = nodes :=
      filter_true_of_mem fun b mem same => absent (same ▸ mem_image_of_mem key mem)
    refine ⟨next, table, ?_, by rwa [all], fun _ _ => rfl⟩
    rw [Umap.eraseKeepCap, found, decide_eq_false absent]
    rfl
  | some binding =>
    obtain ⟨mem, rfl⟩ : binding.node ∈ nodes ∧ key binding.node = k :=
      (rep.keyed k binding.node).mp (nodeOf_some stored)
    obtain ⟨place, found, buckets, detached, represents', keeps⟩ := locate_present rep stored
    have left : (nodes.filter fun b => key b ≠ key binding.node) = nodes.erase binding.node := by
      ext b
      rw [mem_filter, mem_erase, and_comm]
      exact and_congr_left fun inNodes =>
        not_congr ⟨fun same => sound.distinct inNodes mem same, fun same => congrArg key same⟩
    rw [left]
    refine ⟨buckets.next, ⟨table.size - 1, table.mask, buckets.heads⟩, ?_, represents'.sound,
      fun b outside => keeps.next b fun inside => outside (mem_erase.mp inside).2⟩
    rw [Umap.eraseKeepCap, found fuel enough, decide_eq_true (mem_image_of_mem key mem)]
    simp only [bind_eq_bind, bind_some, if_neg (sound.nonnull binding.node mem), detached]
    rfl

theorem update_of_refits {mask : Nat}
    (refits : Refits (table.on key slot next) nodes (update (table.on key slot next)) mask) :
    ∃ next' table', table.update key slot update next = some (next', table') ∧ Fits (table'.on key slot next') nodes ∧
      table'.size = table.size ∧ ∀ a, a ∉ nodes → next' a = next a := by
  obtain ⟨buckets, done, fits, frame⟩ := refits
  refine ⟨buckets.next, ⟨table.size, mask, buckets.heads⟩, ?_, fits, rfl, frame⟩
  rw [Table.update, done]
  rfl

end Tables

section Loops

open Buckets

/-- What the loops that move nodes change besides the table they are over. -/
structure Moving (γ : Type) where
  size0 : Nat
  dst : Table
  rest : γ

section Code

variable (optSpeed : Bool) (key : Addr → Word) (slot : Addr → Nat → Word) (fuel : Nat)

/-- Moves a node, which has been unlinked, to a bucket of another map. -/
def moveNode {γ : Type} (mask : Nat) (s : Sweeping Addr (Moving γ)) (node : Addr) : Option (Sweeping Addr (Moving γ)) :=
  (s.others.dst.push s.table.next ((hash (key node)).toNat &&& mask) node).map fun pushed =>
    ⟨⟨s.table.heads, pushed.1⟩, { s.others with size0 := s.others.size0 - 1, dst := pushed.2 }⟩

/-- The search for a node of the same key. -/
def findIn (mask : Nat) (s : Sweeping Addr (Moving Unit)) (node : Addr) :
    Option (Bool × Sweeping Addr (Moving Unit)) :=
  (s.others.dst.bucket ((hash (key node)).toNat &&& mask)).bind fun node1 =>
    (findLoop 0 (fun node1 => key node1 == key node) s.table.next fuel node1).map fun found => (decide (found ≠ 0), s)

/-- `cucon_umap_assign_isecn_union` after the maps have been swapped. -/
def isecnUnionLoop (next : Links) (umap0 umap1 : Table) : Option (Links × Table × Table) := do
  let s ← sweepAll 0 (findIn key fuel umap0.mask) (moveNode key umap0.mask) fuel (umap0.mask + 1)
    ⟨⟨umap0.arr, next⟩, ⟨umap0.size, umap1, ()⟩⟩
  let umap0 := { umap0 with size := s.others.size0, arr := s.table.heads }
  let (next, umap0) ← umap0.update key slot (updateCapAfterErase optSpeed fuel) s.table.next
  let (next, umap1) ← s.others.dst.update key slot (updateCapAfterInsert optSpeed fuel) next
  return (next, umap0, umap1)

/-- The results are the links and the two maps. -/
def assignIsecnUnion (next : Links) (umap0 umap1 : Table) : Option (Links × Table × Table) :=
  if umap0.size > umap1.size then isecnUnionLoop optSpeed key slot fuel next umap1 umap0
  else isecnUnionLoop optSpeed key slot fuel next umap0 umap1

/-- Erases the node of the same key from the second source. -/
def eraseFrom (s : Sweeping Addr (Moving Table)) (node : Addr) : Option (Bool × Sweeping Addr (Moving Table)) :=
  (eraseKeepCap fuel (s.others.rest.on key slot s.table.next) (key node)).map fun erased =>
    (!erased.1, ⟨⟨s.table.heads, erased.2.buckets.next⟩, { s.others with rest := erased.2.table }⟩)

/-- `cucon_umap_move_isecn` after the sources have been exchanged. The results are the links, `dst`, `src0` and
`src1`. -/
def moveIsecnLoop (next : Links) (dst src0 src1 : Table) : Option (Links × Table × Table × Table) := do
  let s ← sweepAll 0 (eraseFrom key slot fuel) (moveNode key dst.mask) fuel (src0.mask + 1)
    ⟨⟨src0.arr, next⟩, ⟨src0.size, dst, src1⟩⟩
  let src0 := { src0 with size := s.others.size0, arr := s.table.heads }
  let (next, src0) ← src0.update key slot (updateCapAfterErase optSpeed fuel) s.table.next
  let (next, src1) ← s.others.rest.update key slot (updateCapAfterErase optSpeed fuel) next
  let (next, dst) ← s.others.dst.update key slot (updateCapAfterInsert optSpeed fuel) next
  return (next, dst, src0, src1)

def moveIsecn (next : Links) (dst src0 src1 : Table) : Option (Links × Table × Table × Table) :=
  if src0.size > src1.size then
    (moveIsecnLoop optSpeed key slot fuel next dst src1 src0).map fun result =>
      (result.1, result.2.1, result.2.2.2, result.2.2.1)
  else moveIsecnLoop optSpeed key slot fuel next dst src0 src1

def findInSource (src : Table) (s : Sweeping Addr Unit) (node : Addr) : Option (Bool × Sweeping Addr Unit) :=
  (findMem fuel (src.on key slot s.table.next) (key node)).map fun mem => (decide (mem ≠ 0), s)

def assignIsecn (next : Links) (dst src : Table) : Option (Links × Table) :=
  (sweepAll 0 (findInSource key slot fuel src) (fun s _ => some s) fuel (dst.mask + 1)
    ⟨⟨dst.arr, next⟩, ()⟩).map fun s => (s.table.next, { dst with arr := s.table.heads })

end Code

variable {γ : Type} {optSpeed : Bool} {key : Addr → Word} {slot : Addr → Nat → Word} {fuel mask : Nat}
  {next next' : Links} {dst dst' : Table} {nodes start moved : Finset Addr} {index : Addr → Nat} {a : Addr}

section Destination

/-- A map after some nodes have been moved to the buckets of their indices. -/
structure Filled (dst : Table) (index : Addr → Nat) (start moved : Finset Addr) (next : Links) (dst' : Table) :
    Prop where
  mask : dst'.mask = dst.mask
  size : dst'.size = dst.size + moved.card
  sentinel : dst'.arr.length = dst.mask + 2 ∧ dst'.arr[dst.mask + 1]? = some sentinel
  chained : Chained ⟨dst'.arr, next⟩ 0 (dst.mask + 1) index (start ∪ moved)

theorem Filled.refl (sound : Sound (dst.on key slot next) start)
    (indexed : ∀ b ∈ start, index b = (hash (key b)).toNat &&& dst.mask) : Filled dst index start ∅ next dst := by
  refine ⟨rfl, rfl, sound.fits.sentinel, ?_⟩
  rw [union_empty]
  exact sound.fits.chained.reindex indexed

section

variable (filled : Filled dst index start moved next dst')

include filled

theorem Filled.frame (same : ∀ b ∈ start ∪ moved, next' b = next b) : Filled dst index start moved next' dst' :=
  ⟨filled.mask, filled.size, filled.sentinel, filled.chained.congr (fun _ _ => rfl) same⟩

theorem Filled.push (isNew : a ∉ start ∪ moved) (nonnull : a ≠ 0) (bound : index a < dst.mask + 1) :
    ∃ next' dst'', dst'.push next (index a) a = some (next', dst'') ∧
      Filled dst index start (insert a moved) next' dst'' ∧ ∀ b, b ≠ a → next' b = next b := by
  obtain ⟨buckets, pushed, chained, keeps⟩ := filled.chained.push isNew nonnull bound
  have notMoved : a ∉ moved := fun mem => isNew (mem_union_right start mem)
  refine ⟨buckets.next, { dst' with size := dst'.size + 1, arr := buckets.heads }, ?_, ⟨filled.mask, ?_, ?_, ?_⟩,
    fun b ne => keeps.next b fun same => ne (mem_singleton.mp same)⟩
  · rw [Table.push, pushed, map_some]
  · rw [card_insert_of_notMem notMoved, ← add_assoc, ← filled.size]
  · exact ⟨keeps.length.trans filled.sentinel.1, (keeps.heads _ (le_rfl)).trans filled.sentinel.2⟩
  · rw [union_insert]
    exact chained

theorem Filled.fits (capacity : ∃ expt, dst.mask + 1 = 2 ^ expt)
    (right : ∀ b ∈ start ∪ moved, index b = (hash (key b)).toNat &&& dst.mask) :
    Fits (dst'.on key slot next) (start ∪ moved) := by
  obtain ⟨size, mask, arr⟩ := dst'
  obtain rfl : mask = dst.mask := filled.mask
  exact ⟨capacity, filled.sentinel, filled.chained.reindex fun b mem => (right b mem).symm⟩

end

theorem notMem_of_stays (apart : Disjoint nodes start) (stays : a ∈ nodes \ moved) : a ∉ start ∪ moved := by
  obtain ⟨inNodes, notMoved⟩ := mem_sdiff.mp stays
  rw [mem_union, not_or]
  exact ⟨fun old => disjoint_left.mp apart inNodes old, notMoved⟩

theorem card_union_lt (few : moved ⊆ nodes) (enough : nodes.card + start.card < fuel) :
    (start ∪ moved).card < fuel := by
  have := card_union_le start moved
  have := card_le_card few
  omega

/-- What the loops that move nodes know besides their table. -/
structure Moves (dst : Table) (nodes start : Finset Addr) (index : Addr → Nat) (extra : Finset Addr → Links → γ → Prop)
    (moved left : Finset Addr) (s : Sweeping Addr (Moving γ)) : Prop where
  size0 : s.others.size0 + moved.card = nodes.card
  filled : Filled dst index start moved s.table.next s.others.dst
  extra : extra left s.table.next s.others.rest

theorem moves_rules
    (apart : Disjoint nodes start) (nonnull : ∀ a ∈ nodes, a ≠ 0)
    (indexed : ∀ a ∈ nodes, index a = (hash (key a)).toNat &&& mask)
    (inside : ∀ a ∈ nodes, good a → index a < dst.mask + 1)
    (frame : ∀ left next next' rest, extra left next rest → (∀ b, b ∉ nodes → next' b = next b) → extra left next' rest)
    (tests : ∀ moved s a, moved ⊆ nodes → a ∈ nodes \ moved → Moves dst nodes start index extra moved moved s → good a →
      ∃ s', test s a = some (keep a, s') ∧ SameIn (nodes \ moved) s s' ∧
        Moves dst nodes start index extra moved (if keep a then moved else insert a moved) s')
    (fails : ∀ moved s a, moved ⊆ nodes → a ∈ nodes \ moved → Moves dst nodes start index extra moved moved s →
      ¬ good a →
      test s a = none) :
    Rules nodes keep good test (moveNode key mask) (fun moved => Moves dst nodes start index extra moved moved)
      fun moved a s => good a ∧ Moves dst nodes start index extra moved (insert a moved) s := by
  refine ⟨fun moved s a few mem moves isGood => ?_, fails, fun moved s a table mid same => ?_,
    fun moved s a few mem mid => ?_⟩
  · obtain ⟨s', tested, same, moves'⟩ := tests moved s a few mem moves isGood
    refine ⟨s', tested, same, fun isKept => ?_, fun isMoved => ⟨isGood, ?_⟩⟩
    · rwa [isKept, if_pos rfl] at moves'
    · rwa [isMoved, if_neg Bool.false_ne_true] at moves'
  · obtain ⟨isGood, moves⟩ := mid
    exact ⟨isGood, moves.size0, moves.filled.frame fun b mem => same b fun both => notMem_of_stays apart both mem,
      frame _ _ _ _ moves.extra fun b outside => same b fun both => outside (mem_sdiff.mp both).1⟩
  obtain ⟨isGood, moves⟩ := mid
  obtain ⟨inNodes, notMoved⟩ := mem_sdiff.mp mem
  obtain ⟨next', dst', pushed, filled, others⟩ := moves.filled.push (notMem_of_stays apart mem)
    (nonnull a inNodes) (inside a inNodes isGood)
  have fewer : moved.card < nodes.card :=
    card_lt_card (Finset.ssubset_iff_subset_ne.mpr ⟨few, fun same => notMoved (same ▸ inNodes)⟩)
  refine ⟨⟨⟨s.table.heads, next'⟩, { s.others with size0 := s.others.size0 - 1, dst := dst' }⟩, ?_,
    ⟨rfl, fun b left => ?_⟩,
    ?_, filled, frame _ _ _ _ moves.extra fun b outside => others b fun same => outside (same ▸ inNodes)⟩
  · rw [moveNode, ← indexed a inNodes, pushed, map_some]
  · refine others b fun same => (mem_sdiff.mp left).2 ?_
    rw [same]
    exact mem_insert_self a moved
  · rw [card_insert_of_notMem notMoved]
    have := moves.size0
    simp only
    omega

end Destination

section Source

variable {β : Type} {table : Table} {inv : Finset Addr → Sweeping Addr β → Prop} {others : β} {s' : Sweeping Addr β}

theorem swept_fits (fits : Fits (table.on key slot next) nodes)
    (swept : Swept 0 (table.mask + 1) (fun a => (hash (key a)).toNat &&& table.mask) nodes inv
      ⟨⟨table.arr, next⟩, others⟩ moved s') (size : Nat) :
    Fits (Table.on key slot { table with size, arr := s'.table.heads } s'.table.next) (nodes \ moved) :=
  ⟨fits.capacity, ⟨swept.length.trans fits.sentinel.1, (swept.heads _ (le_rfl)).trans fits.sentinel.2⟩, swept.chained⟩

theorem swept_sound (sound : Sound (table.on key slot next) nodes)
    (swept : Swept 0 (table.mask + 1) (fun a => (hash (key a)).toNat &&& table.mask) nodes inv
      ⟨⟨table.arr, next⟩, others⟩ moved s') {size : Nat} (few : moved ⊆ nodes) (isSize : size + moved.card = nodes.card) :
    Sound (Table.on key slot { table with size, arr := s'.table.heads } s'.table.next) (nodes \ moved) := by
  refine ⟨swept_fits sound.fits swept size, ?_, sound.distinct.mono ?_⟩
  · have := card_sdiff_add_card_eq_card few
    simp only [Table.on]
    omega
  · exact coe_subset.mpr sdiff_subset

variable (optSpeed) in
theorem Sound.updateErase (sound : Sound (table.on key slot next) nodes) (enough : nodes.card < fuel) :
    ∃ next' table', table.update key slot (updateCapAfterErase optSpeed fuel) next = some (next', table') ∧
      Sound (table'.on key slot next') nodes ∧ ∀ b, b ∉ nodes → next' b = next b := by
  obtain ⟨mask, refits⟩ := sound.fits.updateCapAfterErase optSpeed enough
  obtain ⟨next', table', updated, fits, size, frame⟩ := update_of_refits refits
  exact ⟨next', table', updated, ⟨fits, size.trans sound.size, sound.distinct⟩, frame⟩

end Source

section AssignIsecn

variable {src : Table} {nodesD nodesS : Finset Addr}

variable (key slot src) in
private theorem assignIsecn_rules (apart : Disjoint nodesD nodesS) (enough : nodesS.card < fuel) :
    Rules nodesD (fun a => decide (key a ∈ nodesS.image key)) (fun _ => True) (findInSource key slot fuel src)
      (fun s _ => some s) (fun _ s => Sound (src.on key slot s.table.next) nodesS)
      fun _ _ s => Sound (src.on key slot s.table.next) nodesS := by
  refine ⟨fun moved s a _ _ sound _ => ?_, fun _ _ _ _ _ _ bad => absurd trivial bad,
    fun moved s a table sound same => ?_,
    fun moved s a _ _ sound => ⟨s, rfl, ⟨rfl, fun _ _ => rfl⟩, sound⟩⟩
  · obtain ⟨node, found, isKey⟩ := sound.findNode (key a) enough
    refine ⟨s, ?_, ⟨rfl, fun _ _ => rfl⟩, fun _ => sound, fun _ => sound⟩
    rw [findInSource, findMem, found, map_some, decide_eq_decide.mpr isKey]
    rfl
  · exact sound.frame fun b mem => same b fun both =>
      disjoint_left.mp apart (mem_sdiff.mp both).1 mem

private theorem assignIsecn_spec (soundD : Sound (dst.on key slot next) nodesD) (soundS : Sound (src.on key slot next) nodesS)
    (apart : Disjoint nodesD nodesS) (enough : nodesD.card + nodesS.card < fuel) :
    ∃ next' arr, assignIsecn key slot fuel next dst src = some (next', { dst with arr }) ∧
      Fits (Table.on key slot { dst with arr } next') (nodesD \ nodesD.filter fun a => key a ∉ nodesS.image key) ∧
      Sound (src.on key slot next') nodesS := by
  have rules := assignIsecn_rules key slot src apart (by omega : nodesS.card < fuel)
  obtain ⟨s', done, swept⟩ := (sweepAll_outcome (s := ⟨⟨dst.arr, next⟩, ()⟩) rules soundD.fits.chained soundS
    (by omega : nodesD.card < fuel)).returns fun _ _ => trivial
  simp only [decide_eq_false_iff_not] at swept
  refine ⟨s'.table.next, s'.table.heads, ?_, swept_fits soundD.fits swept dst.size, swept.holds⟩
  exact congrArg (Option.map _) done

/-- The first map has the common keys, and the second is as before. -/
def AssignIsecnCorrect (key : Addr → Word) (slot : Addr → Nat → Word) (next : Links) (dst src : Table)
    (keysD keysS : Finset Word) : Prop :=
  Delivers (fun fuel => assignIsecn key slot fuel next dst src) fun result =>
    Holds (result.2.on key slot result.1) (keysD ∩ keysS) ∧ Holds (src.on key slot result.1) keysS

theorem assignIsecn_iff (soundD : Sound (dst.on key slot next) nodesD) (soundS : Sound (src.on key slot next) nodesS)
    (apart : Disjoint nodesD nodesS) :
    AssignIsecnCorrect key slot next dst src (nodesD.image key) (nodesS.image key) ↔
      nodesD.image key ⊆ nodesS.image key := by
  refine delivers_iff (nodesD.card + nodesS.card + 1) fun fuel enough => ?_
  obtain ⟨next', arr, done, fits, soundS'⟩ := assignIsecn_spec soundD soundS apart enough
  rw [done]
  constructor
  · rintro ⟨result, isResult, holds, _⟩
    cases isResult
    have size : dst.size = (nodesD.image key ∩ nodesS.image key).card := holds.size_eq
    have subset : nodesD.image key ∩ nodesS.image key ⊆ nodesD.image key := inter_subset_left
    exact inter_eq_left.mp (eq_of_subset_of_card_le subset (soundD.card_keys.trans size).le)
  · intro subset
    have all : (nodesD \ nodesD.filter fun a => key a ∉ nodesS.image key) = nodesD := by
      rw [Finset.sdiff_eq_self_iff_disjoint, Finset.disjoint_right]
      exact fun a removed mem => (mem_filter.mp removed).2 (subset (mem_image_of_mem key mem))
    rw [all] at fits
    refine ⟨_, rfl, ⟨nodesD, ⟨fits, soundD.size, soundD.distinct⟩, ?_⟩, nodesS, soundS', rfl⟩
    exact (inter_eq_left.mpr subset).symm

end AssignIsecn

end Loops

end Culibs.Cucon.Umap
