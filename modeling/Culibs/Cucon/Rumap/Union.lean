import Culibs.Cucon.Rumap.Tree
import Mathlib.Algebra.Order.BigOperators.Group.Finset
import Mathlib.Data.Set.Card

namespace Culibs.Cucon.Rumap

open Umap Function Finset Option

variable {heap heap' : Heap} {rumap : Addr} {data : List Word → Word} {nodes : Finset Addr} {below : Addr → Finset Addr}
  {alloc : Nat → Addr} {fuel : Nat}

theorem leaf_tree (isInit : (heap.rumap rumap).branches = init.branches) (here : (heap.rumap rumap).data = data [])
    (others : ∀ k path, data (k :: path) = 0) : Tree heap rumap data ∅ := by
  have sound : Sound (heap.branches rumap) ∅ := by
    rw [Heap.branches, isInit]
    exact (init_represents heap.next heap.key fun _ _ => 0).sound
  have level : Level heap rumap data ∅ fun _ => ∅ := by
    refine ⟨here, sound, fun k _ path => others k path, ?_, ?_, ?_⟩ <;> simp [footprint]
  exact .node level (by simp)

theorem footprint_insert (new : a ∉ nodes) :
    footprint (insert a nodes) (update below a ∅) = insert a (footprint nodes below) := by
  rw [footprint, biUnion_insert, update_self, insert_empty_eq, ← insert_eq]
  congr 1
  exact biUnion_congr rfl fun n mem => by rw [update_of_ne (ne_of_mem_of_not_mem mem new)]

theorem Level.add {fresh : Addr} (level : Level heap rumap data nodes below)
    (notRoot : fresh ≠ rumap) (unused : fresh ∉ footprint nodes below)
    (here : (heap'.rumap rumap).data = (heap.rumap rumap).data) (keys : heap'.key = update heap.key fresh k)
    (sound : Sound (heap'.branches rumap) (insert fresh nodes)) :
    Level heap' rumap data (insert fresh nodes) (update below fresh ∅) := by
  have notNode : fresh ∉ nodes := fun inside => unused (nodes_subset inside)
  have isOld {n : Addr} (mem : n ∈ nodes) : n ≠ fresh := ne_of_mem_of_not_mem mem notNode
  have freshApart (n : Addr) (mem : n ∈ nodes) : Disjoint {fresh} (insert n (below n)) :=
    disjoint_singleton_left.mpr fun inside => unused (insert_below_subset mem inside)
  refine ⟨here.trans level.here, sound, fun k' outside path => ?_, ?_, fun n mem => ?_,
    fun n mem m member' ne => ?_⟩
  · refine level.absent k' (fun inside => outside ?_) path
    obtain ⟨n, mem, isKey⟩ := mem_image.mp inside
    refine mem_image.mpr ⟨n, mem_insert_of_mem mem, ?_⟩
    rw [keys, update_of_ne (isOld mem), isKey]
  · rw [footprint_insert notNode, mem_insert, not_or]
    exact ⟨notRoot.symm, level.outside⟩
  · rcases mem_insert.mp mem with rfl | old
    · rw [update_self]
      exact notMem_empty _
    · rw [update_of_ne (isOld old)]
      exact level.own n old
  rcases mem_insert.mp mem with rfl | old <;> rcases mem_insert.mp member' with rfl | old'
  · exact absurd rfl ne
  · rw [update_self, update_of_ne (isOld old')]
    exact freshApart m old'
  · rw [update_self, update_of_ne (isOld old)]
    exact (freshApart n old).symm
  · rw [update_of_ne (isOld old), update_of_ne (isOld old')]
    exact level.apart n old m old' ne

theorem mref_spec (optSpeed : Bool) {below : Finset Addr} (tree : Tree heap rumap data below)
    (fresh : Fresh alloc heap.count (insert rumap below)) (enough : below.card + 1 < fuel) (k : Word) :
    ∃ sub heap' nodes' below', mref optSpeed alloc fuel heap rumap k = some (sub, heap') ∧
      Level heap' rumap data nodes' below' ∧
      (∀ n ∈ nodes', Tree heap' n (fun path => data (heap'.key n :: path)) (below' n)) ∧
      sub ∈ nodes' ∧ heap'.key sub = k ∧ Frame alloc heap heap' rumap below (footprint nodes' below') ∧
      (footprint nodes' below').card ≤ below.card + 1 := by
  cases tree with
  | @node _ _ nodes below level subs =>
    have few : nodes.card ≤ (footprint nodes below).card := card_le_card nodes_subset
    have enoughHere : nodes.card + 1 < fuel := by omega
    by_cases present : k ∈ nodes.image heap.key
    · obtain ⟨n, mem, rfl⟩ := mem_image.mp present
      refine ⟨n, heap, nodes, below, ?_, level, subs, mem, rfl, Frame.refl .., Nat.le_succ _⟩
      rw [mref, Heap.branches, level.sound.insertMem_present optSpeed mem (alloc heap.count) (fun _ => 0)
        (Nat.lt_of_succ_lt enoughHere)]
      simp [Table.on, Umap.table]
    have unused := fresh.unused heap.count (le_rfl)
    have nonnull := fresh.nonnull heap.count (le_rfl)
    generalize isFresh : alloc heap.count = a at unused nonnull
    rw [mem_insert, not_or] at unused
    have notNode : a ∉ nodes := fun inside => unused.2 (nodes_subset inside)
    obtain ⟨next', table', inserted, sound, links⟩ := level.sound.insertMem_absent optSpeed present (fun _ => 0)
      nonnull notNode enoughHere
    let heap' : Heap := ⟨next', update heap.key a k,
      update (update heap.rumap rumap { heap.rumap rumap with branches := table' }) a init, heap.count + 1⟩
    have isRumap {b : Addr} (notFresh : b ≠ a) (notRoot : b ≠ rumap) : heap'.rumap b = heap.rumap b :=
      (update_of_ne notFresh ..).trans (update_of_ne notRoot ..)
    have isRoot : heap'.rumap rumap = { heap.rumap rumap with branches := table' } :=
      (update_of_ne (Ne.symm unused.1) ..).trans (update_self ..)
    have isKey {b : Addr} (notFresh : b ≠ a) : heap'.key b = heap.key b := update_of_ne notFresh ..
    have soundHere : Sound (heap'.branches rumap) (insert a nodes) := by
      rw [Heap.branches, isRoot]
      exact sound.congr (fun _ _ => rfl) fun _ _ => rfl
    have level' := level.add unused.1 unused.2 (by rw [isRoot]) rfl soundHere
    refine ⟨a, heap', insert a nodes, update below a ∅, ?_, level', fun n mem => ?_,
      mem_insert_self .., update_self .., ?_, ?_⟩
    · rw [mref, isFresh, Heap.branches, inserted]
      rfl
    · rcases mem_insert.mp mem with rfl | old
      · have none : (fun path => data (heap'.key n :: path)) = fun _ => 0 := by
          funext path
          rw [show heap'.key n = k from update_self ..]
          exact level.absent k present path
        have isInit : heap'.rumap n = init := update_self ..
        rw [none, update_self]
        exact leaf_tree (congrArg Rumap.branches isInit) (congrArg Rumap.data isInit) fun _ _ => rfl
      · have notFresh (b : Addr) (inside : b ∈ insert n (below n)) : b ≠ a :=
          ne_of_mem_of_not_mem (insert_below_subset old inside) unused.2
        rw [update_of_ne (ne_of_mem_of_not_mem old notNode), isKey (ne_of_mem_of_not_mem old notNode)]
        refine (subs n old).congr ⟨fun b inside => links b ?_, fun b inside => isKey ?_, fun b inside => ?_⟩
        · rw [mem_insert, not_or]
          exact ⟨notFresh b (mem_insert_of_mem inside), fun isNode => level.not_below isNode old inside⟩
        · exact notFresh b (mem_insert_of_mem inside)
        · exact isRumap (notFresh b inside) (ne_of_mem_of_not_mem (insert_below_subset old inside) level.outside)
    · rw [footprint_insert notNode]
      refine ⟨Nat.le_succ _, subset_insert .., fun b inside => ?_, fun b outside => links b ?_,
        fun b outside => isKey ?_, fun b outside => ?_⟩
      · rcases mem_insert.mp inside with rfl | old
        · exact .inr ⟨heap.count, le_rfl, Nat.lt_succ_self _, isFresh.symm⟩
        · exact .inl old
      · exact fun inside => outside (insert_subset_insert a nodes_subset inside)
      · exact fun same => outside (same ▸ mem_insert_self ..)
      · simp only [mem_insert, not_or] at outside
        exact isRumap outside.2.1 outside.1
    · rw [footprint_insert notNode]
      exact card_insert_le ..

/-- The data of a path, where the paths through one key have other data. -/
def withBranch (data : List Word → Word) (key : Word) (sub : List Word → Word) : List Word → Word
  | [] => data []
  | k :: path => if k = key then sub path else data (k :: path)

theorem Level.replace
    (level : Level heap rumap data nodes below)
    (subs : ∀ n ∈ nodes, Tree heap n (fun path => data (heap.key n :: path)) (below n)) (mem : sub ∈ nodes)
    (frame : Frame alloc heap heap' sub (below sub) below')
    (fresh : Fresh alloc heap.count (insert rumap (footprint nodes below))) (tree : Tree heap' sub subData below') :
    Tree heap' rumap (withBranch data (heap.key sub) subData) (footprint nodes (update below sub below')) := by
  have notBelow {a : Addr} (inUse : a ∈ insert rumap (footprint nodes below)) (outside : a ∉ below sub) : a ∉ below' :=
    frame.apart fresh inUse outside
  have nodeUsed {n : Addr} (isNode : n ∈ nodes) : n ∈ insert rumap (footprint nodes below) :=
    mem_insert_of_mem (nodes_subset isNode)
  have nodeApart {n : Addr} (isNode : n ∈ nodes) : n ∉ below' :=
    notBelow (nodeUsed isNode) (level.not_below isNode mem)
  have rootApart : rumap ∉ insert sub below' := by
    have outside : rumap ∉ insert sub (below sub) := fun inside => level.outside (insert_below_subset mem inside)
    rw [mem_insert, not_or] at outside ⊢
    exact ⟨outside.1, notBelow (mem_insert_self ..) outside.2⟩
  have othersApart {n : Addr} (isNode : n ∈ nodes) (other : n ≠ sub) :
      Disjoint (insert n (below n)) (insert sub below') := by
    refine disjoint_left.mpr fun a inside => ?_
    have outside := disjoint_left.mp (level.apart n isNode sub mem other) inside
    rw [mem_insert, not_or] at outside ⊢
    exact ⟨outside.1, notBelow (mem_insert_of_mem (insert_below_subset isNode inside)) outside.2⟩
  have keys (n : Addr) (isNode : n ∈ nodes) : heap'.key n = heap.key n := frame.keys n (nodeApart isNode)
  have base := level.congr (frame.rumaps rumap rootApart) (fun n isNode => frame.links n (nodeApart isNode)) keys
  refine .node ⟨base.here, base.sound, fun k absent path => ?_, ?_, fun n isNode => ?_,
    fun n isNode m isNode' ne => ?_⟩ fun n isNode => ?_
  · have other : k ≠ heap.key sub := by
      rintro rfl
      exact absent (mem_image.mpr ⟨sub, mem, keys sub mem⟩)
    rw [withBranch, if_neg other]
    exact base.absent k absent path
  · rw [mem_footprint]
    rintro ⟨n, isNode, inside⟩
    by_cases isSub : n = sub
    · rw [isSub, update_self] at inside
      exact rootApart (mem_insert.mpr inside)
    · rw [update_of_ne isSub] at inside
      exact level.outside (mem_footprint.mpr ⟨n, isNode, inside⟩)
  · by_cases isSub : n = sub
    · rw [isSub, update_self]
      exact nodeApart mem
    · rw [update_of_ne isSub]
      exact level.own n isNode
  · by_cases isSub : n = sub <;> by_cases isSub' : m = sub
    · exact absurd (isSub.trans isSub'.symm) ne
    · rw [isSub, update_self, update_of_ne isSub']
      exact (othersApart isNode' isSub').symm
    · rw [isSub', update_self, update_of_ne isSub]
      exact othersApart isNode isSub
    · rw [update_of_ne isSub, update_of_ne isSub']
      exact level.apart n isNode m isNode' ne
  · rw [keys n isNode]
    by_cases isSub : n = sub
    · subst isSub
      rw [update_self]
      simpa only [withBranch, if_true] using tree
    have other : heap.key n ≠ heap.key sub := fun same => isSub (level.sound.distinct isNode mem same)
    have apart (a : Addr) (inside : a ∈ insert n (below n)) : a ∉ insert sub below' :=
      disjoint_left.mp (othersApart isNode isSub) inside
    simp only [update_of_ne isSub, withBranch, if_neg other]
    refine (subs n isNode).congr ⟨fun a inside => frame.links a fun new => ?_,
      fun a inside => frame.keys a fun new => ?_,
      fun a inside => frame.rumaps a (apart a inside)⟩
    · exact apart a (mem_insert_of_mem inside) (mem_insert_of_mem new)
    · exact apart a (mem_insert_of_mem inside) (mem_insert_of_mem new)

theorem Tree.setData (tree : Tree heap rumap data nodes)
    (here : data' [] = value)
    (others : ∀ k path, data' (k :: path) = data (k :: path)) : Tree (heap.setData rumap value) rumap data' nodes := by
  cases tree with
  | @node _ _ nodes below level subs =>
    have sound : Sound ((heap.setData rumap value).branches rumap) nodes := by
      rw [Heap.branches, Heap.setData_self]
      exact level.sound
    refine .node ⟨?_, sound, fun k absent path => (others k path).trans (level.absent k absent path), level.outside,
      level.own, level.apart⟩ fun n mem => ?_
    · rw [Heap.setData_self, here]
    · simp only [others]
      refine (subs n mem).congr ⟨fun _ _ => rfl, fun _ _ => rfl, fun a inside => heap.setData_other ?_ value⟩
      exact ne_of_mem_of_not_mem (insert_below_subset mem inside) level.outside

/-- `cucon_rumap_mref` for each key of a path, and the data of the map at its end. -/
def store (optSpeed : Bool) (alloc : Nat → Addr) (fuel : Nat) (value : Word) : List Word → Addr → Heap → Option Heap
  | [], rumap, heap => some (heap.setData rumap value)
  | k :: path, rumap, heap =>
    (mref optSpeed alloc fuel heap rumap k).bind fun (sub, heap) => store optSpeed alloc fuel value path sub heap

theorem withBranch_update (data : List Word → Word) (k : Word) (path : List Word) (value : Word) :
    withBranch data k (update (fun path => data (k :: path)) path value) = update data (k :: path) value := by
  funext other
  cases other with
  | nil => rfl
  | cons k' other =>
    by_cases same : k' = k
    · subst same
      simp [withBranch, update_apply]
    · simp [withBranch, same]

private theorem store_spec (optSpeed : Bool) (tree : Tree heap rumap data nodes)
    (fresh : Fresh alloc heap.count (insert rumap nodes)) (path : List Word) (value : Word)
    (enough : nodes.card + path.length < fuel) :
    ∃ heap' nodes', store optSpeed alloc fuel value path rumap heap = some heap' ∧
      Tree heap' rumap (update data path value) nodes' ∧ Frame alloc heap heap' rumap nodes nodes' ∧
      nodes'.card ≤ nodes.card + path.length := by
  induction path generalizing heap rumap data nodes with
  | nil =>
    refine ⟨_, nodes, rfl, tree.setData (update_self ..) fun k path => update_of_ne (List.cons_ne_nil k path) ..,
      { Frame.refl alloc heap rumap nodes with rumaps := fun a outside => ?_ }, Nat.le_add_right ..⟩
    rw [mem_insert, not_or] at outside
    exact heap.setData_other outside.1 value
  | cons k path ih =>
    rw [List.length_cons] at enough ⊢
    obtain ⟨sub, heap1, nodes1, below1, derefs, level, subs, mem, rfl, frame, few⟩ :=
      mref_spec optSpeed tree fresh (by omega : nodes.card + 1 < fuel) k
    have fresh' : Fresh alloc heap.count (insert rumap nodes ∪ insert rumap nodes) := by rwa [union_self]
    have fresh1 := (frame.allocates fresh').mono subset_union_left
    have fewSub : (below1 sub).card ≤ (footprint nodes1 below1).card := card_le_card (below_subset mem)
    obtain ⟨heap2, below2, stored, tree2, frame2, few2⟩ := ih (subs sub mem)
      (fresh1.mono ((insert_below_subset mem).trans (subset_insert ..))) (by omega)
    have cards := level.card_update mem below2
    refine ⟨heap2, _, (congrArg (bind · _) derefs).trans stored, ?_, frame.trans (frame2.sub mem), by omega⟩
    rw [← withBranch_update]
    exact level.replace subs mem frame2 fresh1 tree2

/-- Two maps of at most `n` nodes, without common nodes. -/
def Separate (alloc : Nat → Addr) (heap : Heap) (L R : Addr) (left right : List Word → Word) (n : Nat) : Prop :=
  ∃ nodesL nodesR, Tree heap L left nodesL ∧ Tree heap R right nodesR ∧
    Disjoint (insert L nodesL) (insert R nodesR) ∧ Fresh alloc heap.count (insert L nodesL ∪ insert R nodesR) ∧
    nodesL.card + nodesR.card ≤ n

variable {L R : Addr} {left right : List Word → Word} {n : Nat}

theorem Separate.symm
    (two : Separate alloc heap L R left right n) : Separate alloc heap R L right left n := by
  obtain ⟨nodesL, nodesR, treeL, treeR, apart, fresh, few⟩ := two
  exact ⟨nodesR, nodesL, treeR, treeL, apart.symm, union_comm (insert L nodesL) _ ▸ fresh, by omega⟩

theorem Separate.store
    (two : Separate alloc heap L R left right n) (optSpeed : Bool) (path : List Word) (value : Word)
    (enough : n + path.length < fuel) :
    ∃ heap', store optSpeed alloc fuel value path L heap = some heap' ∧
      Separate alloc heap' L R (update left path value) right (n + path.length) := by
  obtain ⟨nodesL, nodesR, treeL, treeR, apart, fresh, few⟩ := two
  obtain ⟨heap', nodes', stored, tree, frame, few'⟩ :=
    store_spec optSpeed treeL (fresh.mono subset_union_left) path value (by omega : nodesL.card + path.length < fuel)
  exact ⟨heap', stored, nodes', nodesR, tree,
    treeR.congr (frame.agrees fresh apart ⟨fun _ _ => rfl, fun _ _ => rfl, fun _ _ => rfl⟩), frame.disjoint fresh apart,
    frame.allocates fresh, by omega⟩

theorem ncard_paths [DecidableEq κ] {F : Set (List κ)} (finite : F.Finite) (keys : Finset κ)
    (covered : ∀ k path, k :: path ∈ F → k ∈ keys) [Decidable ([] ∈ F)] :
    F.ncard = (∑ k ∈ keys, {path | k :: path ∈ F}.ncard) + if [] ∈ F then 1 else 0 := by
  have part (keys : Finset κ) : {path ∈ F | path = [] ∨ ∃ k ∈ keys, ∃ rest, path = k :: rest}.ncard =
      (∑ k ∈ keys, {path | k :: path ∈ F}.ncard) + if [] ∈ F then 1 else 0 := by
    induction keys using Finset.induction_on with
    | empty =>
      split
      · next isEnd =>
        rw [show {path ∈ F | path = [] ∨ ∃ k ∈ (∅ : Finset κ), ∃ rest, path = k :: rest} = {[]} by
          ext path
          simp only [notMem_empty, false_and, exists_false, or_false, Set.mem_ofPred_eq, Set.mem_singleton_iff]
          exact ⟨And.right, fun same => ⟨same ▸ isEnd, same⟩⟩]
        exact Set.ncard_singleton _
      · next noEnd =>
        rw [show {path ∈ F | path = [] ∨ ∃ k ∈ (∅ : Finset κ), ∃ rest, path = k :: rest} = ∅ by
          ext path
          simp only [notMem_empty, false_and, exists_false, or_false, Set.mem_ofPred_eq, Set.mem_empty_iff_false,
            iff_false]
          exact fun both => noEnd (both.2 ▸ both.1)]
        exact Set.ncard_empty _
    | insert k keys new ih =>
      have split : {path ∈ F | path = [] ∨ ∃ k' ∈ insert k keys, ∃ rest, path = k' :: rest} =
          (k :: ·) '' {path | k :: path ∈ F} ∪ {path ∈ F | path = [] ∨ ∃ k ∈ keys, ∃ rest, path = k :: rest} := by
        ext path
        cases path with
        | nil => simp
        | cons k' rest =>
          simp only [mem_insert, Set.mem_ofPred_eq, Set.mem_union, Set.mem_image, List.cons.injEq, reduceCtorEq,
            false_or]
          constructor
          · rintro ⟨mem, k'', inKeys, rest', rfl, rfl⟩
            rcases inKeys with rfl | inKeys
            · exact .inl ⟨rest, mem, rfl, rfl⟩
            · exact .inr ⟨mem, k', inKeys, rest, rfl, rfl⟩
          · rintro (⟨rest', mem, rfl, rfl⟩ | ⟨mem, k'', inKeys, rest', rfl, rfl⟩)
            · exact ⟨mem, k, .inl rfl, rest', rfl, rfl⟩
            · exact ⟨mem, k', .inr inKeys, rest, rfl, rfl⟩
      have apart : Disjoint ((k :: ·) '' {path | k :: path ∈ F})
          {path ∈ F | path = [] ∨ ∃ k ∈ keys, ∃ rest, path = k :: rest} := by
        refine Set.disjoint_left.mpr ?_
        rintro _ ⟨path, _, rfl⟩ ⟨_, same⟩
        rcases same with same | ⟨k', inKeys, rest, same⟩
        · cases same
        · exact new ((List.cons.inj same).1 ▸ inKeys)
      have below : {path | k :: path ∈ F}.Finite := finite.preimage (List.cons_injective.injOn)
      rw [split, Set.ncard_union_eq apart (below.image _) (finite.subset fun path mem => mem.1), ih,
        Set.ncard_image_of_injective _ List.cons_injective, sum_insert new, add_assoc]
  rw [← part keys]
  congr 1
  ext path
  refine ⟨fun mem => ⟨mem, ?_⟩, And.left⟩
  cases path with
  | nil => exact .inl rfl
  | cons k path => exact .inr ⟨k, covered k path mem, path, rfl⟩

/-- The number of paths with data in both of two maps. -/
noncomputable def overlap (left right : List Word → Word) : Nat := {path | left path ≠ 0 ∧ right path ≠ 0}.ncard

private theorem overlap_level (finite : {path | right path ≠ 0}.Finite) (keys : Finset Word)
    (covered : ∀ k, k ∉ keys → ∀ path, right (k :: path) = 0) :
    overlap left right = (∑ k ∈ keys, overlap (fun path => left (k :: path)) fun path => right (k :: path)) +
      if left [] ≠ 0 ∧ right [] ≠ 0 then 1 else 0 := by
  refine ncard_paths (finite.subset fun path both => both.2) keys fun k path both => ?_
  by_contra absent
  exact both.2 (covered k absent path)

/-- What both unions do with the data of two maps. -/
structure Assigns (assign : Word → Word → Nat × Word) : Prop where
  counts : ∀ left right, (assign left right).1 = if left ≠ 0 ∧ right ≠ 0 then 1 else 0
  alone : ∀ left, (assign left 0).2 = left

private theorem assignLeft_assigns : Assigns assignLeft where
  counts left right := by grind [assignLeft]
  alone left := by grind [assignLeft]

theorem assignRight_assigns : Assigns assignRight where
  counts left right := by grind [assignRight]
  alone left := by grind [assignRight]

section Visits

variable {heap0 : Heap} {R L : Addr} {left right : List Word → Word} {nodesL : Finset Addr}
  {assign : Word → Word → Nat × Word}

/-- The data after the branches of some keys. -/
def partly (assign : Word → Word → Nat × Word) (left right : List Word → Word) (keys : Finset Word) : List Word → Word
  | [] => left []
  | k :: path => if k ∈ keys then (assign (left (k :: path)) (right (k :: path))).2 else left (k :: path)

/-- The state after some branches of the second map. -/
structure Visited (alloc : Nat → Addr) (assign : Word → Word → Nat × Word) (heap0 heap : Heap) (L : Addr)
    (left right : List Word → Word) (nodesL : Finset Addr) (below : Addr → Finset Addr) (visited : Finset Addr)
    (s : Nat × Heap) (nodes' : Finset Addr) : Prop where
  tree : Tree s.2 L (partly assign left right (visited.image heap0.key)) nodes'
  frame : Frame alloc heap s.2 L nodesL nodes'
  few : nodes'.card ≤ nodesL.card + ∑ n ∈ visited, ((below n).card + 1)
  counts : s.1 = ∑ n ∈ visited,
    overlap (fun path => left (heap0.key n :: path)) fun path => right (heap0.key n :: path)

/-- What the union of two maps does. -/
def Unites (alloc : Nat → Addr) (assign : Word → Word → Nat × Word) (heap : Heap) (L : Addr)
    (left right : List Word → Word) (nodesL nodesR : Finset Addr) (result : Option (Nat × Heap)) : Prop :=
  ∃ heap' nodes', result = some (overlap left right, heap') ∧
    Tree heap' L (fun path => (assign (left path) (right path)).2) nodes' ∧ Frame alloc heap heap' L nodesL nodes' ∧
    nodes'.card ≤ nodesL.card + nodesR.card

private theorem partly_insert (new : k ∉ keys) :
    withBranch (partly assign left right keys) k
        (fun path => (assign (partly assign left right keys (k :: path)) (right (k :: path))).2) =
      partly assign left right (insert k keys) := by
  funext path
  cases path with
  | nil => rfl
  | cons k' path =>
    by_cases same : k' = k
    · subst same
      simp only [withBranch, partly, if_true, if_neg new, mem_insert_self]
    · simp [withBranch, partly, mem_insert, same]

variable (level : Level heap0 R right nodes below) (agrees : Agrees heap0 heap R (footprint nodes below))
  (apart : Disjoint (insert L nodesL) (insert R (footprint nodes below)))
  (fresh : Fresh alloc heap.count (insert L nodesL ∪ insert R (footprint nodes below)))
  (enough : nodesL.card + (footprint nodes below).card < fuel)

include level agrees apart fresh enough

/-- The callback at one branch, when the union of the maps below is right. -/
theorem Visited.step (optSpeed : Bool)
    (before : Visited alloc assign heap0 heap L left right nodesL below visited s nodes') (part : visited ⊆ nodes)
    {n : Addr} (mem : n ∈ nodes) (new : n ∉ visited) (depth : Nat)
    (ih : ∀ {heap : Heap} {L : Addr} {left : List Word → Word} {nodesL : Finset Addr},
      Agrees heap0 heap n (below n) → Tree heap L left nodesL → Disjoint (insert L nodesL) (insert n (below n)) →
      Fresh alloc heap.count (insert L nodesL ∪ insert n (below n)) → nodesL.card + (below n).card < fuel →
      Unites alloc assign heap L left (fun path => right (heap0.key n :: path)) nodesL (below n)
        (assignUnion optSpeed alloc fuel assign depth L n heap)) :
    ∃ s' nodes'', unionBranch optSpeed alloc fuel (assignUnion optSpeed alloc fuel assign depth) L n s = some s' ∧
      Visited alloc assign heap0 heap L left right nodesL below (insert n visited) s' nodes'' := by
  have agreesNow := before.frame.agrees fresh apart agrees
  have freshNow := before.frame.allocates fresh
  have apartNow := before.frame.disjoint fresh apart
  have isKey : s.2.key n = heap0.key n := agreesNow.keys n (nodes_subset mem)
  have room : nodes'.card + ((below n).card + 1) ≤ nodesL.card + (footprint nodes below).card := by
    have sum : ∑ m ∈ insert n visited, ((below m).card + 1) ≤ (footprint nodes below).card :=
      level.card ▸ sum_le_sum_of_subset (insert_subset mem part)
    have few := before.few
    rw [sum_insert new] at sum
    omega
  have enoughHere : nodes'.card + 1 < fuel := by omega
  obtain ⟨sub, heap1, nodes1, below1, derefs, level1, subs1, subMember, subKey, frame1, few1⟩ :=
    mref_spec optSpeed before.tree (freshNow.mono subset_union_left) enoughHere (s.2.key n)
  have agrees1 := frame1.agrees freshNow apartNow agreesNow
  have fresh1 := frame1.allocates freshNow
  have apart1 := frame1.disjoint freshNow apartNow
  have subPart : insert sub (below1 sub) ⊆ insert L (footprint nodes1 below1) :=
    (insert_below_subset subMember).trans (subset_insert ..)
  have otherPart : insert n (below n) ⊆ insert R (footprint nodes below) :=
    (insert_below_subset mem).trans (subset_insert ..)
  have fewSub : (below1 sub).card ≤ (footprint nodes1 below1).card := card_le_card (below_subset subMember)
  obtain ⟨heap2, below2, unites, tree2, frame2, few2⟩ := ih (agrees1.sub mem) (subs1 sub subMember)
    (apart1.mono subPart otherPart) (fresh1.mono (union_subset_union subPart otherPart)) (by omega)
  have tree := level1.replace subs1 subMember frame2 (fresh1.mono subset_union_left) tree2
  have notYet : heap0.key n ∉ visited.image heap0.key := by
    rintro inside
    obtain ⟨m, seen, same⟩ := mem_image.mp inside
    have ne : m = n := by
      refine level.sound.distinct (part seen) mem ?_
      exact same
    exact new (ne ▸ seen)
  have unchanged : (fun path => partly assign left right (visited.image heap0.key) (heap1.key sub :: path)) =
      fun path => left (heap0.key n :: path) := by
    funext path
    rw [subKey, isKey]
    exact if_neg notYet
  rw [unchanged] at unites
  rw [subKey, isKey] at tree
  have cards := level1.card_update subMember below2
  refine ⟨(s.1 + overlap (fun path => left (heap0.key n :: path)) fun path => right (heap0.key n :: path), heap2), _,
    ?_, ⟨?_, before.frame.trans (frame1.trans (frame2.sub subMember)), ?_, ?_⟩⟩
  · rw [unionBranch, derefs]
    simp only [bind_eq_bind, bind_some, unites]
    rfl
  · rw [image_insert, ← partly_insert notYet]
    exact tree
  · rw [sum_insert new]
    have few := before.few
    omega
  · rw [sum_insert new, ← before.counts]
    exact add_comm ..

end Visits

variable {nodesR nodesL : Finset Addr}

/-- A union reaches every branch of the second map, at each depth. The induction is on the tree of the
second map, which no step changes. -/
theorem assignUnion_spec (optSpeed : Bool) (assigns : Assigns assign) (treeR : Tree heap0 R right nodesR)
    (agrees : Agrees heap0 heap R nodesR)
    (treeL : Tree heap L left nodesL) (apart : Disjoint (insert L nodesL) (insert R nodesR))
    (fresh : Fresh alloc heap.count (insert L nodesL ∪ insert R nodesR)) (enough : nodesL.card + nodesR.card < fuel)
    (deep : nodesR.card < depth) :
    Unites alloc assign heap L left right nodesL nodesR (assignUnion optSpeed alloc fuel assign depth L R heap) := by
  induction treeR generalizing heap L left nodesL depth with
  | @node R right nodes below level subs ih =>
    cases depth with
    | zero => exact absurd deep (Nat.not_lt_zero _)
    | succ depth =>
      let Inv (visited : Finset Addr) (s : Nat × Heap) : Prop :=
        visited ⊆ nodes ∧ ∃ nodes', Visited alloc assign heap0 heap L left right nodesL below visited s nodes'
      have few : nodes.card < fuel :=
        Nat.lt_of_le_of_lt ((card_le_card nodes_subset).trans (Nat.le_add_left ..)) enough
      have kept {visited : Finset Addr} {s : Nat × Heap} (inv : Inv visited s) :
          Agrees heap0 s.2 R (footprint nodes below) := by
        obtain ⟨_, nodes', before⟩ := inv
        exact before.frame.agrees fresh apart agrees
      have start : Inv ∅ (0, heap) := by
        refine ⟨empty_subset _, nodesL, ?_, Frame.refl .., Nat.le_add_right .., rfl⟩
        have same : partly assign left right (image heap0.key ∅) = left := by
          funext path
          cases path <;> simp [partly]
        exact same ▸ treeL
      have visit (visited : Finset Addr) (s : Nat × Heap) (n : Addr) (mem : n ∈ nodes) (new : n ∉ visited)
          (inv : Inv visited s) :
          ∃ s', unionBranch optSpeed alloc fuel (assignUnion optSpeed alloc fuel assign depth) L n s =
            some s' ∧ Inv (insert n visited) s' := by
        obtain ⟨part, nodes', before⟩ := inv
        have fewer : (below n).card < (footprint nodes below).card := by
          refine card_lt_card ((below_subset mem).ssubset_of_mem_notMem (nodes_subset mem) ?_)
          exact level.own n mem
        obtain ⟨s', nodes'', called, next⟩ := before.step level agrees apart fresh enough optSpeed part mem new depth
          fun agrees tree apart fresh enough => ih n mem agrees tree apart fresh enough (by omega)
        exact ⟨s', called, insert_subset mem part, nodes'', next⟩
      obtain ⟨s, iterated, _, nodes', after⟩ := level.sound.fits.chained.callAll_inv
        (fun s i => (s.2.rumap R).branches.arr[i]?) (fun s node => s.2.next node) _ Inv
        (fun visited s inv i _ => by
          rw [(kept inv).rumaps R (mem_insert_self ..)]
          rfl)
        (fun visited s inv a mem => (kept inv).links a (nodes_subset mem)) visit few start
      have sameR := after.frame.agrees fresh apart agrees
      have isR := sameR.rumaps R (mem_insert_self ..)
      have mask : (heap.rumap R).branches.mask = (heap0.branches R).mask :=
        congrArg (fun rumap => rumap.branches.mask) (agrees.rumaps R (mem_insert_self ..))
      have iterated' : iterMem fuel R (unionBranch optSpeed alloc fuel (assignUnion optSpeed alloc fuel assign depth) L)
          (0, heap) = some s := by
        rw [iterMem, mask]
        exact iterated
      have dataL : (s.2.rumap L).data = left [] := after.tree.here
      have dataR : (s.2.rumap R).data = right [] := isR ▸ level.here
      have counts : overlap left right = s.1 + (assign (left []) (right [])).1 := by
        rw [overlap_level (Tree.node level subs).finite _ level.absent, assigns.counts, after.counts]
        exact congrArg (· + _) (sum_image fun a mem b member' same =>
          level.sound.distinct mem member' same)
      refine ⟨s.2.setData L (assign (left []) (right [])).2, nodes', ?_, after.tree.setData rfl fun k path => ?_,
        ⟨after.frame.count, after.frame.keeps, after.frame.grown, after.frame.links, after.frame.keys,
          fun a outside => ?_⟩, ?_⟩
      · rw [assignUnion, iterated', counts]
        simp only [bind_eq_bind, bind_some, dataL, dataR, pure]
      · by_cases present : k ∈ nodes.image heap0.key
        · exact (if_pos present).symm
        · rw [level.absent k present, assigns.alone]
          exact (if_neg present).symm
      · have notL : a ≠ L := by
          rintro rfl
          exact outside (mem_insert_self ..)
        exact (s.2.setData_other notL _).trans (after.frame.rumaps a outside)
      · rw [level.card]
        exact after.few

/-- The first map has the given data after a union, the second one is as it was, and the result counts
the paths with data in both. -/
structure UnionRight (heap : Heap) (L R : Addr) (left right united : List Word → Word) (nodesR : Finset Addr)
    (result : Nat × Heap) : Prop where
  assigned : ∃ nodes, Tree result.2 L united nodes
  unchanged : Agrees heap result.2 R nodesR
  stays : Tree result.2 R right nodesR
  count : result.1 = overlap left right

/-- The left union prefers the data of the first map, and the right union that of the second. -/
theorem unions_correct (optSpeed : Bool)
    (treeL : Tree heap L left nodesL) (treeR : Tree heap R right nodesR)
    (apart : Disjoint (insert L nodesL) (insert R nodesR))
    (fresh : Fresh alloc heap.count (insert L nodesL ∪ insert R nodesR)) :
    Delivers (fun fuel => assignLeftUnion optSpeed alloc fuel L R heap)
        (UnionRight heap L R left right (fun path => if left path ≠ 0 then left path else right path) nodesR) ∧
      Delivers (fun fuel => assignRightUnion optSpeed alloc fuel L R heap)
        (UnionRight heap L R left right (fun path => if right path ≠ 0 then right path else left path) nodesR) := by
  have same : Agrees heap heap R nodesR := ⟨fun _ _ => rfl, fun _ _ => rfl, fun _ _ => rfl⟩
  have each {assign : Word → Word → Nat × Word} (assigns : Assigns assign) {united : List Word → Word}
      (isUnited : (fun path => (assign (left path) (right path)).2) = united) :
      Delivers (fun fuel => assignUnion optSpeed alloc fuel assign fuel L R heap)
        (UnionRight heap L R left right united nodesR) := by
    refine ⟨nodesL.card + nodesR.card + 1, fun fuel enough => ?_⟩
    have unites : Unites alloc assign heap L left right nodesL nodesR
        (assignUnion optSpeed alloc fuel assign fuel L R heap) :=
      assignUnion_spec optSpeed assigns treeR same treeL apart fresh (by omega) (by omega)
    obtain ⟨heap', nodes', result, tree, frame, _⟩ := unites
    have unchanged := frame.agrees fresh apart same
    exact ⟨(_, heap'), result, ⟨nodes', isUnited ▸ tree⟩, unchanged, treeR.congr unchanged, rfl⟩
  refine ⟨each assignLeft_assigns (funext fun path => ?_), each assignRight_assigns (funext fun path => ?_)⟩
  · rw [assignLeft]
    split <;> rfl
  · rw [assignRight]
    split <;> rfl

/-- Two fresh maps at the addresses 1 and 2, with data for [7] and [7, 8] in the first, and for [7, 8] and [9] in the
second. -/
def branching : Option Heap := do
  let heap ← store false (· + 8) 9 5 [7] 1 ⟨fun _ => 0, fun _ => 0, fun _ => init, 0⟩
  let heap ← store false (· + 8) 9 6 [7, 8] 1 heap
  let heap ← store false (· + 8) 9 4 [7, 8] 2 heap
  store false (· + 8) 9 3 [9] 2 heap

/-- The path [7] is a prefix of the common path [7, 8]. -/
theorem unions_correct_branches :
    let left : List Word → Word := update (update (fun _ => 0) [7] 5) [7, 8] 6
    let right : List Word → Word := update (update (fun _ => 0) [7, 8] 4) [9] 3
    ∃ heap nodes, branching = some heap ∧
      Delivers (fun fuel => assignLeftUnion false (· + 8) fuel 1 2 heap)
        (UnionRight heap 1 2 left right (fun path => if left path ≠ 0 then left path else right path) nodes) ∧
      Delivers (fun fuel => assignRightUnion false (· + 8) fuel 1 2 heap)
        (UnionRight heap 1 2 left right (fun path => if right path ≠ 0 then right path else left path) nodes) := by
  have fresh : Separate (· + 8) ⟨fun _ => 0, fun _ => 0, fun _ => init, 0⟩ 1 2 (fun _ => 0) (fun _ => 0) 0 := by
    refine ⟨∅, ∅, leaf_tree rfl rfl fun _ _ => rfl, leaf_tree rfl rfl fun _ _ => rfl, by decide,
      ⟨fun i _ => by simp, fun i j _ less same => ?_, fun i _ => Nat.succ_ne_zero _⟩, le_refl 0⟩
    exact ne_of_lt less (add_right_cancel same)
  obtain ⟨heap1, stored1, first⟩ := fresh.store false [7] 5 (by decide : 0 + 1 < 9)
  obtain ⟨heap2, stored2, second⟩ := first.store false [7, 8] 6 (by decide : 1 + 2 < 9)
  obtain ⟨heap3, stored3, third⟩ := second.symm.store false [7, 8] 4 (by decide : 3 + 2 < 9)
  obtain ⟨heap4, stored4, fourth⟩ := third.store false [9] 3 (by decide : 5 + 1 < 9)
  obtain ⟨nodesR, nodesL, treeR, treeL, apart, free, _⟩ := fourth
  refine ⟨heap4, nodesR, ?_, unions_correct false treeL treeR apart.symm (union_comm (insert 2 nodesR) _ ▸ free)⟩
  simp only [branching, stored1, stored2, stored3, stored4, bind_eq_bind, bind_some]

end Culibs.Cucon.Rumap
