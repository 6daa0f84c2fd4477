import Culibs.Cucon.Rumap.Basic
import Mathlib.Data.Set.Finite.Lattice

namespace Culibs.Cucon

open Function Finset Option

namespace Umap

variable {nodes : Finset Addr} {key key' : Addr → Word} {slot slot' : Addr → Nat → Word} {table : Table}
  {next next' : Umap.Links} {fuel : Nat}

theorem Sound.congr (sound : Sound (table.on key slot next) nodes) (links : ∀ a ∈ nodes, next' a = next a)
    (keys : ∀ a ∈ nodes, key' a = key a) : Sound (table.on key' slot' next') nodes := by
  refine ⟨⟨sound.fits.capacity, sound.fits.sentinel, ?_⟩, sound.size, fun a mem b member' same => ?_⟩
  · exact (sound.frame links).fits.chained.reindex fun a mem =>
      congrArg (fun k => (hash k).toNat &&& table.mask) (keys a mem)
  · refine sound.distinct mem member' ?_
    change key' a = key' b at same
    rwa [keys a mem, keys b member'] at same

theorem Sound.insertMem_present (optSpeed : Bool) (sound : Sound (table.on key slot next) nodes)
    (mem : n ∈ nodes) (fresh : Addr) (memory : Nat → Word) (enough : nodes.card < fuel) :
    insertMem optSpeed fuel (table.on key slot next) (key n) fresh memory =
      some ((false, n), table.on key slot next) := by
  obtain ⟨contents, rep⟩ := sound.represents
  obtain ⟨binding, stored, rfl⟩ := map_eq_some_iff.mp ((rep.keyed (key n) n).mpr ⟨mem, rfl⟩)
  obtain ⟨place, found, _⟩ := locate_present rep stored
  rw [insertMem, found fuel enough]
  simp only [bind_eq_bind, bind_some, (rep.nonnull stored).2, ne_eq, not_false_eq_true, if_true]
  rfl

theorem Sound.insertMem_absent {fresh : Addr} (optSpeed : Bool) (sound : Sound (table.on key slot next) nodes)
    (absent : k ∉ nodes.image key) (memory : Nat → Word) (nonnull : fresh ≠ 0) (unused : fresh ∉ nodes)
    (enough : nodes.card + 1 < fuel) :
    ∃ (next' : Umap.Links) (table' : Table), insertMem optSpeed fuel (table.on key slot next) k fresh memory =
        some ((true, fresh), table'.on (update key fresh k) (update slot fresh memory) next') ∧
      Sound (table'.on (update key fresh k) (update slot fresh memory) next') (insert fresh nodes) ∧
      ∀ a, a ∉ insert fresh nodes → next' a = next a := by
  have others (a : Addr) (mem : a ∈ nodes) : key a ≠ k := fun same =>
    absent (mem_image.mpr ⟨a, mem, same⟩)
  obtain ⟨t, inserts, fits, same⟩ := Umap.insertMem_absent optSpeed sound.fits others memory nonnull unused
    (Nat.lt_of_succ_lt enough)
  have isInsert : nodes ∪ {fresh} = insert fresh nodes := by rw [union_comm, insert_eq]
  rw [isInsert] at fits
  have size : (insert fresh nodes).card = nodes.card + 1 := card_insert_of_notMem unused
  obtain ⟨mask, buckets, updated, fits', links⟩ := fits.updateCapAfterInsert optSpeed (size ▸ enough)
  refine ⟨buckets.next, ⟨table.size + 1, mask, buckets.heads⟩, ?_, ⟨fits', ?_, ?_⟩, fun a outside => ?_⟩
  · rw [inserts, updated]
    rfl
  · rw [size]
    exact congrArg (· + 1) sound.size
  · rw [coe_insert, Set.injOn_insert (by exact_mod_cast unused)]
    have isKey {a : Addr} (mem : a ∈ nodes) : update key fresh k a = key a :=
      update_of_ne (ne_of_mem_of_not_mem mem unused) ..
    refine ⟨fun a mem b member' equal => sound.distinct mem member' ?_, ?_⟩
    · change update key fresh k a = update key fresh k b at equal
      rwa [isKey mem, isKey member'] at equal
    · rintro ⟨a, mem, equal⟩
      change update key fresh k a = update key fresh k fresh at equal
      rw [isKey mem, update_self] at equal
      exact others a mem equal
  · have apart := (not_or.mp (fun h => outside (mem_insert.mpr h)))
    rw [links a outside]
    exact (update_of_ne apart.1 ..).trans (same a apart.2 apart.1)

end Umap

namespace Rumap

open Umap

variable {heap heap' : Heap} {rumap : Addr} {data : List Word → Word} {nodes : Finset Addr} {below : Addr → Finset Addr}

/-- The nodes of the branches of a map and all nodes below them. -/
def footprint (nodes : Finset Addr) (below : Addr → Finset Addr) : Finset Addr :=
  nodes.biUnion fun n => insert n (below n)

/-- A map whose branches have the given nodes. Nothing is below two of them. -/
structure Level (heap : Heap) (rumap : Addr) (data : List Word → Word) (nodes : Finset Addr)
    (below : Addr → Finset Addr) : Prop where
  here : (heap.rumap rumap).data = data []
  sound : Sound (heap.branches rumap) nodes
  absent : ∀ k, k ∉ nodes.image heap.key → ∀ path, data (k :: path) = 0
  outside : rumap ∉ footprint nodes below
  own : ∀ n ∈ nodes, n ∉ below n
  apart : ∀ n ∈ nodes, ∀ m ∈ nodes, n ≠ m → Disjoint (insert n (below n)) (insert m (below m))

/-- A recursive map with the data of each path of keys, and the nodes of its branches. -/
inductive Tree (heap : Heap) : Addr → (List Word → Word) → Finset Addr → Prop where
  | node {rumap : Addr} {data : List Word → Word} {nodes : Finset Addr} {below : Addr → Finset Addr}
      (level : Level heap rumap data nodes below)
      (subs : ∀ n ∈ nodes, Tree heap n (fun path => data (heap.key n :: path)) (below n)) :
      Tree heap rumap data (footprint nodes below)

theorem mem_footprint : a ∈ footprint nodes below ↔ ∃ n ∈ nodes, a = n ∨ a ∈ below n := by
  simp only [footprint, mem_biUnion, mem_insert]

theorem nodes_subset : nodes ⊆ footprint nodes below := fun n mem => mem_footprint.mpr ⟨n, mem, .inl rfl⟩

theorem below_subset (mem : n ∈ nodes) : below n ⊆ footprint nodes below := fun _ inside =>
  mem_footprint.mpr ⟨n, mem, .inr inside⟩

theorem insert_below_subset (mem : n ∈ nodes) : insert n (below n) ⊆ footprint nodes below :=
  insert_subset (nodes_subset mem) (below_subset mem)

section

variable (level : Level heap rumap data nodes below)

include level

theorem Level.card : (footprint nodes below).card = ∑ n ∈ nodes, ((below n).card + 1) := by
  rw [footprint, card_biUnion fun n mem m member' => level.apart n mem m member']
  exact sum_congr rfl fun n mem => card_insert_of_notMem (level.own n mem)

/-- The number of nodes after those below one node of a level became others. -/
theorem Level.card_update (mem : n ∈ nodes) (below' : Finset Addr) :
    (footprint nodes (update below n below')).card + (below n).card ≤
      (footprint nodes below).card + below'.card := by
  have part : footprint nodes (update below n below') ⊆ footprint nodes below \ below n ∪ below' := by
    intro a inside
    obtain ⟨m, member', same⟩ := mem_footprint.mp inside
    by_cases isN : m = n
    · subst isN
      rw [update_self] at same
      rcases same with rfl | new
      · exact mem_union_left _ (mem_sdiff.mpr ⟨nodes_subset mem, level.own a mem⟩)
      · exact mem_union_right _ new
    · rw [update_of_ne isN] at same
      refine mem_union_left _ (mem_sdiff.mpr ⟨mem_footprint.mpr ⟨m, member', same⟩, fun old => ?_⟩)
      exact disjoint_left.mp (level.apart m member' n mem isN) (mem_insert.mpr same)
        (mem_insert_of_mem old)
  have sum := (card_le_card part).trans (card_union_le _ _)
  rw [card_sdiff_of_subset (below_subset mem)] at sum
  have few : (below n).card ≤ (footprint nodes below).card := card_le_card (below_subset mem)
  omega

theorem Level.not_below (mem : n ∈ nodes) (member' : m ∈ nodes) : n ∉ below m := by
  by_cases same : n = m
  · exact same ▸ level.own n mem
  · exact fun inside => disjoint_left.mp (level.apart n mem m member' same) (mem_insert_self ..)
      (mem_insert_of_mem inside)

end

/-- Two heaps agree on a map and the nodes below it. -/
structure Agrees (heap heap' : Heap) (rumap : Addr) (nodes : Finset Addr) : Prop where
  links : ∀ a ∈ nodes, heap'.next a = heap.next a
  keys : ∀ a ∈ nodes, heap'.key a = heap.key a
  rumaps : ∀ a ∈ insert rumap nodes, heap'.rumap a = heap.rumap a

theorem Agrees.sub (agrees : Agrees heap heap' rumap (footprint nodes below)) (mem : n ∈ nodes) :
    Agrees heap heap' n (below n) where
  links a inside := agrees.links a (below_subset mem inside)
  keys a inside := agrees.keys a (below_subset mem inside)
  rumaps a inside := agrees.rumaps a (mem_insert_of_mem (insert_below_subset mem inside))

theorem Level.congr (level : Level heap rumap data nodes below) (same : heap'.rumap rumap = heap.rumap rumap)
    (links : ∀ a ∈ nodes, heap'.next a = heap.next a) (keys : ∀ a ∈ nodes, heap'.key a = heap.key a) :
    Level heap' rumap data nodes below where
  here := same ▸ level.here
  sound := by
    rw [Heap.branches, same]
    exact level.sound.congr links keys
  absent := by
    rw [image_congr fun a mem => keys a mem]
    exact level.absent
  outside := level.outside
  own := level.own
  apart := level.apart

section

variable (tree : Tree heap rumap data nodes)

include tree

theorem Tree.congr (agrees : Agrees heap heap' rumap nodes) : Tree heap' rumap data nodes := by
  induction tree with
  | node level subs ih =>
    have keys := fun a mem => agrees.keys a (nodes_subset mem)
    refine .node (level.congr (agrees.rumaps _ (mem_insert_self ..))
      (fun a mem => agrees.links a (nodes_subset mem)) keys) fun n mem => ?_
    rw [keys n mem]
    exact ih n mem (agrees.sub mem)

theorem Tree.here : (heap.rumap rumap).data = data [] := by
  cases tree with
  | node level subs => exact level.here

theorem Tree.finite : {path | data path ≠ 0}.Finite := by
  induction tree with
  | @node rumap data nodes below level subs ih =>
    refine ((Set.finite_singleton []).union (nodes.finite_toSet.biUnion fun n mem =>
      (ih n mem).image (heap.key n :: ·))).subset fun path isData => ?_
    cases path with
    | nil => exact .inl rfl
    | cons k path =>
      have present : k ∈ nodes.image heap.key := by
        by_contra absent
        exact isData (level.absent k absent path)
      obtain ⟨n, mem, rfl⟩ := mem_image.mp present
      exact .inr (Set.mem_biUnion mem ⟨path, isData, rfl⟩)

end

section Allocation

variable {alloc : Nat → Addr} {nodes' : Finset Addr} {used used' : Finset Addr} {count count' : Nat}

/-- From a number of allocations on, the allocator returns new addresses. -/
structure Fresh (alloc : Nat → Addr) (count : Nat) (used : Finset Addr) : Prop where
  unused : ∀ i, count ≤ i → alloc i ∉ used
  distinct : ∀ i j, count ≤ i → i < j → alloc i ≠ alloc j
  nonnull : ∀ i, count ≤ i → alloc i ≠ 0

/-- The node is an old one, or it was allocated since. -/
def Grown (alloc : Nat → Addr) (count count' : Nat) (nodes : Finset Addr) (a : Addr) : Prop :=
  a ∈ nodes ∨ ∃ i, count ≤ i ∧ i < count' ∧ a = alloc i

theorem Fresh.mono (fresh : Fresh alloc count used) (part : used' ⊆ used) : Fresh alloc count used' :=
  ⟨fun i later inside => fresh.unused i later (part inside), fresh.distinct, fresh.nonnull⟩

theorem Fresh.grown (fresh : Fresh alloc count used) (later : count ≤ count')
    (all : ∀ a ∈ used', Grown alloc count count' used a) : Fresh alloc count' used' where
  unused i bound inside := by
    rcases all _ inside with old | ⟨j, first, before, same⟩
    · exact fresh.unused i (later.trans bound) old
    · exact fresh.distinct j i first (before.trans_le bound) same.symm
  distinct i j bound := fresh.distinct i j (later.trans bound)
  nonnull i bound := fresh.nonnull i (later.trans bound)

/-- An operation on a map changes the map and the nodes that are below it at the end. These are the
nodes that were there before and new ones. -/
structure Frame (alloc : Nat → Addr) (heap heap' : Heap) (rumap : Addr) (nodes nodes' : Finset Addr) : Prop where
  count : heap.count ≤ heap'.count
  keeps : nodes ⊆ nodes'
  grown : ∀ a ∈ nodes', Grown alloc heap.count heap'.count nodes a
  links : ∀ a, a ∉ nodes' → heap'.next a = heap.next a
  keys : ∀ a, a ∉ nodes' → heap'.key a = heap.key a
  rumaps : ∀ a, a ∉ insert rumap nodes' → heap'.rumap a = heap.rumap a

theorem Frame.refl (alloc : Nat → Addr) (heap : Heap) (rumap : Addr) (nodes : Finset Addr) :
    Frame alloc heap heap rumap nodes nodes :=
  ⟨le_rfl, Subset.refl _, fun _ => .inl, fun _ _ => rfl, fun _ _ => rfl, fun _ _ => rfl⟩

theorem Frame.trans (first : Frame alloc heap heap' rumap nodes nodes')
    (second : Frame alloc heap' heap'' rumap nodes' nodes'') : Frame alloc heap heap'' rumap nodes nodes'' where
  count := first.count.trans second.count
  keeps := first.keeps.trans second.keeps
  grown a mem := by
    rcases second.grown a mem with old | ⟨i, later, before, rfl⟩
    · rcases first.grown a old with older | ⟨i, later, before, rfl⟩
      · exact .inl older
      · exact .inr ⟨i, later, before.trans_le second.count, rfl⟩
    · exact .inr ⟨i, first.count.trans later, before, rfl⟩
  links a outside := (second.links a outside).trans (first.links a fun inside => outside (second.keeps inside))
  keys a outside := (second.keys a outside).trans (first.keys a fun inside => outside (second.keeps inside))
  rumaps a outside := (second.rumaps a outside).trans
    (first.rumaps a fun inside => outside (insert_subset_insert rumap second.keeps inside))

theorem Frame.apart (frame : Frame alloc heap heap' rumap nodes nodes') (fresh : Fresh alloc heap.count used)
    (inUse : a ∈ used) (outside : a ∉ nodes) : a ∉ nodes' := by
  intro inside
  rcases frame.grown a inside with old | ⟨i, later, _, rfl⟩
  · exact outside old
  · exact fresh.unused i later inUse

theorem Frame.sub (mem : n ∈ nodes)
    (frame : Frame alloc heap heap' n (below n) below') :
    Frame alloc heap heap' rumap (footprint nodes below) (footprint nodes (update below n below')) := by
  have contains {a : Addr} (inside : a ∈ insert n below') :
      a ∈ footprint nodes (update below n below') := by
    refine mem_footprint.mpr ⟨n, mem, ?_⟩
    rw [update_self]
    exact mem_insert.mp inside
  refine ⟨frame.count, fun a inside => ?_, fun a inside => ?_, fun a outside => ?_, fun a outside => ?_,
    fun a outside => ?_⟩
  · obtain ⟨m, member', same⟩ := mem_footprint.mp inside
    by_cases isN : m = n
    · subst isN
      exact contains (mem_insert.mpr (same.imp_right fun old => frame.keeps old))
    · exact mem_footprint.mpr ⟨m, member', by rwa [update_of_ne isN]⟩
  · obtain ⟨m, member', same⟩ := mem_footprint.mp inside
    by_cases isN : m = n
    · subst isN
      rw [update_self] at same
      rcases same with rfl | new
      · exact .inl (nodes_subset mem)
      · exact (frame.grown a new).imp_left fun old => below_subset mem old
    · rw [update_of_ne isN] at same
      exact .inl (mem_footprint.mpr ⟨m, member', same⟩)
  · exact frame.links a fun inside => outside (contains (mem_insert_of_mem inside))
  · exact frame.keys a fun inside => outside (contains (mem_insert_of_mem inside))
  · exact frame.rumaps a fun inside => outside (mem_insert_of_mem (contains inside))

section Apart

variable {other : Addr} {others : Finset Addr} (frame : Frame alloc heap heap' rumap nodes nodes')
  (fresh : Fresh alloc heap.count (insert rumap nodes ∪ insert other others))
  (apart : Disjoint (insert rumap nodes) (insert other others))

include frame fresh apart

theorem Frame.disjoint : Disjoint (insert rumap nodes') (insert other others) := by
  refine disjoint_right.mpr fun a mem => ?_
  have notOld := disjoint_right.mp apart mem
  rw [mem_insert, not_or] at notOld ⊢
  exact ⟨notOld.1, frame.apart fresh (mem_union_right _ mem) notOld.2⟩

omit apart in
theorem Frame.allocates : Fresh alloc heap'.count (insert rumap nodes' ∪ insert other others) := by
  refine fresh.grown frame.count fun a inside => ?_
  rcases mem_union.mp inside with mine | theirs
  · rcases mem_insert.mp mine with rfl | below
    · exact .inl (mem_union_left _ (mem_insert_self ..))
    · exact (frame.grown a below).imp_left fun old => mem_union_left _ (mem_insert_of_mem old)
  · exact .inl (mem_union_right _ theirs)

theorem Frame.agrees (agrees : Agrees heap0 heap other others) : Agrees heap0 heap' other others := by
  have outside (a : Addr) (mem : a ∈ insert other others) : a ∉ insert rumap nodes' :=
    disjoint_right.mp (frame.disjoint fresh apart) mem
  have notBelow (a : Addr) (mem : a ∈ others) : a ∉ nodes' := fun inside =>
    outside a (mem_insert_of_mem mem) (mem_insert_of_mem inside)
  exact ⟨fun a mem => (frame.links a (notBelow a mem)).trans (agrees.links a mem),
    fun a mem => (frame.keys a (notBelow a mem)).trans (agrees.keys a mem),
    fun a mem => (frame.rumaps a (outside a mem)).trans (agrees.rumaps a mem)⟩

end Apart

end Allocation

end Rumap

end Culibs.Cucon
