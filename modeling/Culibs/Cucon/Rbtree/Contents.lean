import Culibs.Cucon.Rbtree.Update

namespace Culibs.Cucon.Rbtree

open ColourTree Int

variable {α : Type}

/-- A comparison closure for a total order, up to elements that compare equal. -/
structure Comparison (α : Type) where
  cmp : α → α → Int
  swap : ∀ a b, cmp a b < 0 ↔ 0 < cmp b a
  trans : ∀ a b c, cmp a b ≤ 0 → cmp b c ≤ 0 → cmp a c ≤ 0

/-- A unary closure that compares a key with slots. -/
structure Probe (order : Comparison α) where
  compare : α → Int
  key : α
  lt_iff : ∀ slot, compare slot < 0 ↔ order.cmp key slot < 0
  gt_iff : ∀ slot, 0 < compare slot ↔ 0 < order.cmp key slot

namespace Comparison

variable (order : Comparison α)

/-- The slots of the nodes are in strictly increasing order. -/
def Sorted (vals : List (Nat × α)) : Prop := vals.Pairwise fun x y => order.cmp x.2 y.2 < 0

/-- The closure of the binary comparison with a key. -/
def probe (key : α) : Probe order := ⟨order.cmp key, key, fun _ => Iff.rfl, fun _ => Iff.rfl⟩

variable {order}

theorem Sorted.cuts (sorted : order.Sorted vals) (probe : Probe order) :
    Cuts (onSlot probe.compare) vals := by
  refine sorted.imp fun {x y} less => ⟨fun upper => ?_, fun lower => ?_⟩
  · refine (probe.gt_iff x.2).mpr (not_le.mp fun below => ?_)
    have reach : order.cmp y.2 probe.key ≤ 0 := not_lt.mp fun above =>
      not_lt.mpr upper ((probe.lt_iff y.2).mpr ((order.swap _ _).mpr above))
    exact not_lt.mpr (order.trans _ _ _ reach below) ((order.swap _ _).mp less)
  · refine (probe.lt_iff y.2).mpr ((order.swap _ _).mpr (not_le.mp fun below => ?_))
    have reach : order.cmp probe.key x.2 ≤ 0 := not_lt.mp fun above =>
      not_lt.mpr lower ((probe.gt_iff x.2).mpr above)
    exact not_lt.mpr (order.trans _ _ _ below reach) ((order.swap _ _).mp less)

end Comparison

/-- A tree in a heap with the red-black invariant and its elements in order. -/
structure OrderedTree (order : Comparison α) where
  heap : Heap α
  root : Nat
  tree : Tree α
  held : Held heap root tree
  sorted : order.Sorted tree.inorder

namespace OrderedTree

variable {order : Comparison α} (s : OrderedTree order) (probe : Probe order)

/-- The nodes of the tree in order: addresses and slots. -/
abbrev nodes : List (Nat × α) := s.tree.inorder

/-- The search finds the element that compares equal, or the place where the key
belongs. -/
theorem locate_cases :
    (∃ path, locate (onSlot probe.compare) s.tree [] = (nil, path) ∧ s.nodes = before path ++ after path ∧
      (∀ val ∈ before path, 0 < probe.compare val.2) ∧ ∀ val ∈ after path, probe.compare val.2 < 0) ∨
    ∃ path word val left right, locate (onSlot probe.compare) s.tree [] = (node word val left right, path) ∧
      s.nodes = before path ++ left.inorder ++ val :: (right.inorder ++ after path) ∧
      probe.compare val.2 = 0 := by
  obtain ⟨below, above, place⟩ := @locate_cuts _ _ _ [] (s.sorted.cuts probe) nofun nofun
  have rebuilt := plug_locate (onSlot probe.compare) s.tree []
  rw [plug_nil] at rebuilt
  generalize found : locate (onSlot probe.compare) s.tree [] = result at below above place rebuilt
  obtain ⟨t, path⟩ := result
  rcases place with rfl | ⟨word, val, left, right, rfl, equal⟩
  · refine .inl ⟨path, rfl, ?_, below, above⟩
    rw [nodes, ← rebuilt, inorder_plug]
    simp [inorder]
  · refine .inr ⟨path, word, val, left, right, rfl, ?_, equal⟩
    rw [nodes, ← rebuilt, inorder_plug]
    simp [inorder]

variable {path : Path α}

theorem absent_of_split (split : s.nodes = before path ++ after path)
    (below : ∀ val ∈ before path, 0 < probe.compare val.2) (above : ∀ val ∈ after path, probe.compare val.2 < 0) :
    ∀ val ∈ s.nodes, probe.compare val.2 ≠ 0 := by
  intro val mem
  rw [split, List.mem_append] at mem
  rcases mem with mem | mem
  · exact ne_of_gt (below val mem)
  · exact ne_of_lt (above val mem)

variable {xs ys : List (Nat × α)} {val : Nat × α}

theorem sorted_insert (sorted : order.Sorted (xs ++ ys))
    (key : val.2 = probe.key) (below : ∀ x ∈ xs, 0 < probe.compare x.2) (above : ∀ y ∈ ys, probe.compare y.2 < 0) :
    order.Sorted (xs ++ val :: ys) := by
  obtain ⟨inXs, inYs, across⟩ := List.pairwise_append.mp sorted
  refine List.pairwise_append.mpr ⟨inXs, List.pairwise_cons.mpr ⟨fun y mem => ?_, inYs⟩, fun x mem y member' => ?_⟩
  · rw [key]
    exact (probe.lt_iff y.2).mp (above y mem)
  · rcases List.mem_cons.mp member' with rfl | member'
    · rw [key, order.swap]
      exact (probe.gt_iff x.2).mp (below x mem)
    · exact across x mem y member'

theorem insert_absent (slot : α) (found : locate (onSlot probe.compare) s.tree [] = (nil, path)) :
    ∃ heap' root' t', insertNode probe.compare slot s.heap s.root = some (heap', root', true, s.heap.next) ∧
      Held heap' root' t' ∧ t'.inorder = before path ++ (s.heap.next, slot) :: after path ∧
      ∀ a, a ∉ addrs s.tree → a ≠ s.heap.next → heap'.cell a = s.heap.cell a := by
  obtain ⟨heap', result, others, held⟩ := insertNode_absent slot s.held found
  refine ⟨heap', _, _, result, held, ?_, others⟩
  rw [inorder_setWord, inorder_insertFix, inorder_plug]
  simp [inorder]

/-- What an insertion returns and how it changes the nodes in order. `inserted`
says what the heap of a successful insertion becomes in the hands of the caller. -/
def Inserts (result : Option (Heap α × Nat × Bool × Nat)) (inserted : Heap α → Nat → Heap α) : Prop :=
  ∃ heap' root' isNew x, result = some (heap', root', isNew, x) ∧
    (isNew = true ↔ ∀ val ∈ s.nodes, probe.compare val.2 ≠ 0) ∧
    (isNew = true → ∃ s' : OrderedTree order, s'.heap = inserted heap' x ∧ s'.root = root' ∧
      ∃ xs ys, s.nodes = xs ++ ys ∧ s'.nodes = xs ++ (x, probe.key) :: ys) ∧
    (isNew = false → heap' = s.heap ∧ root' = s.root ∧ ∃ val ∈ s.nodes, val.1 = x ∧ probe.compare val.2 = 0)

variable {slot : α} {inserted : Heap α → Nat → Heap α}

theorem inserts_present (found : locate (onSlot probe.compare) s.tree [] = (node word val left right, path))
    (mem : val ∈ s.nodes) (equal : probe.compare val.2 = 0) :
    s.Inserts probe (insertNode probe.compare slot s.heap s.root) inserted := by
  refine ⟨s.heap, s.root, false, val.1, insertNode_present s.held found node_ne_nil, ?_, nofun, fun _ =>
    ⟨rfl, rfl, val, mem, rfl, equal⟩⟩
  exact iff_of_false Bool.false_ne_true fun absent => absent val mem equal

variable {t' : Tree α}

theorem inorder_map_store (key : α) (split : s.nodes = xs ++ ys)
    (sequence : t'.inorder = xs ++ (s.heap.next, slot) :: ys) :
    (t'.map (store s.heap.next key)).inorder = xs ++ (s.heap.next, key) :: ys := by
  have old : ∀ val ∈ s.nodes, store s.heap.next key val = val := by
    refine fun val mem => store_of_ne _ _ (ne_of_lt (s.held.fresh val.1 ?_))
    exact List.mem_map_of_mem mem
  rw [split] at old
  rw [inorder_map, sequence, List.map_append, List.map_cons]
  rw [List.map_congr_left fun val mem => old val (List.mem_append_left _ mem),
    List.map_congr_left fun val mem => old val (List.mem_append_right _ mem)]
  simp [store]

theorem inserts_absent (split : s.nodes = before path ++ after path)
    (below : ∀ val ∈ before path, 0 < probe.compare val.2) (above : ∀ val ∈ after path, probe.compare val.2 < 0)
    (returned : result = some (heap', root', true, s.heap.next)) (held : Held (inserted heap' s.heap.next) root' t')
    (sequence : t'.inorder = before path ++ (s.heap.next, probe.key) :: after path) :
    s.Inserts probe result inserted := by
  have sorted : order.Sorted (before path ++ after path) := split ▸ s.sorted
  refine ⟨heap', root', true, s.heap.next, returned,
    iff_of_true rfl (s.absent_of_split probe split below above), fun _ => ?_, nofun⟩
  exact ⟨⟨inserted heap' s.heap.next, root', t', held, by rw [sequence]; exact sorted_insert probe sorted rfl below above⟩,
    rfl, rfl, before path, after path, split, sequence⟩

theorem insert2p_inserts (key : α) :
    s.Inserts (order.probe key) (insert2pNode order.cmp key s.heap s.root) fun heap' _ => heap' := by
  rcases s.locate_cases (order.probe key) with
    ⟨path, found, split, below, above⟩ | ⟨path, word, val, left, right, found, split, equal⟩
  · obtain ⟨heap', root', t', returned, held, sequence, _⟩ := s.insert_absent (order.probe key) key found
    exact s.inserts_absent (order.probe key) split below above returned held sequence
  · exact s.inserts_present (order.probe key) found (by simp [split]) equal

/-- After `cucon_rbtree_insert1m_mem` the caller stores a key in the new slot. -/
theorem insert1m_inserts [Inhabited α] :
    s.Inserts probe (insert1mMem probe.compare s.heap s.root) fun heap' x => heap'.setMem x probe.key := by
  rcases s.locate_cases probe with
    ⟨path, found, split, below, above⟩ | ⟨path, word, val, left, right, found, split, equal⟩
  · obtain ⟨heap', root', t', returned, held, sequence, _⟩ := s.insert_absent probe default found
    exact s.inserts_absent probe split below above returned (held.setMem s.heap.next probe.key)
      (s.inorder_map_store probe.key split sequence)
  · exact s.inserts_present probe found (by simp [split]) equal

/-- What a deletion returns and how it changes the nodes in order. -/
def Erases (result : Option (Heap α × Nat × Nat)) : Prop :=
  ∃ heap' root' z, result = some (heap', root', z) ∧
    (z = 0 ↔ ∀ val ∈ s.nodes, probe.compare val.2 ≠ 0) ∧
    (z = 0 → heap' = s.heap ∧ root' = s.root) ∧
    (z ≠ 0 → ∃ s' : OrderedTree order, s'.heap = heap' ∧ s'.root = root' ∧ ∃ xs ys val,
      s.nodes = xs ++ val :: ys ∧ s'.nodes = xs ++ ys ∧ val.1 = z ∧ probe.compare val.2 = 0)

theorem erase1m_erases : s.Erases probe (erase1m probe.compare s.heap s.root) := by
  rcases s.locate_cases probe with
    ⟨path, found, split, below, above⟩ | ⟨path, word, val, left, right, found, split, equal⟩
  · refine ⟨s.heap, s.root, 0, eraseNode_absent s.held found, iff_of_true rfl (s.absent_of_split probe split below above),
      fun _ => ⟨rfl, rfl⟩, fun some => absurd rfl some⟩
  obtain ⟨heap', returned, _, held⟩ := eraseNode_present s.held found
  have mem : val ∈ s.nodes := by simp [split]
  have nonnull : val.1 ≠ 0 := s.held.focused.subtree.nonnull _ (List.mem_map_of_mem mem)
  refine ⟨heap', _, val.1, returned, iff_of_false nonnull fun absent => absent val mem equal,
    fun zero => absurd zero nonnull, fun _ => ⟨⟨heap', _, _, held, ?_⟩, rfl, rfl,
      before path ++ left.inorder, right.inorder ++ after path, val, split, ?_, rfl, equal⟩⟩
  · refine s.sorted.sublist ?_
    have listed : s.tree.inorder = _ := split
    rw [inorder_setWord, inorder_eraseAt, listed, List.append_assoc, List.append_assoc, List.append_assoc]
    exact (List.Sublist.refl _).append ((List.Sublist.refl _).append (List.sublist_cons_self ..))
  · rw [nodes, inorder_setWord, inorder_eraseAt]
    simp

theorem erase2p_erases (key : α) : s.Erases (order.probe key) (erase2p order.cmp key s.heap s.root) :=
  s.erase1m_erases (order.probe key)

/-- A search with enough rounds gives the element that compares equal, or `NULL`
if there is none. -/
def Finds (search : Nat → Option Nat) : Prop :=
  ∃ x, (∀ extra, search (s.tree.size + 1 + extra) = some x) ∧
    (x = 0 ↔ ∀ val ∈ s.nodes, probe.compare val.2 ≠ 0) ∧
    (x ≠ 0 → ∃ val ∈ s.nodes, val.1 = x ∧ probe.compare val.2 = 0)

private theorem find1m_finds : s.Finds probe fun fuel => find1mMem probe.compare s.heap fuel s.root := by
  have search (extra : Nat) := @find1mMem_refines _ _ _ (s.tree.size + 1 + extra) probe.compare s.held.focused (by omega)
  rw [← s.held.root_eq] at search
  rcases s.locate_cases probe with
    ⟨path, found, split, below, above⟩ | ⟨path, word, val, left, right, found, split, equal⟩
  · rw [found] at search
    refine ⟨0, search, iff_of_true rfl (s.absent_of_split probe split below above), fun some => absurd rfl some⟩
  · rw [found] at search
    have mem : val ∈ s.nodes := by simp [split]
    have nonnull : val.1 ≠ 0 := s.held.focused.subtree.nonnull _ (List.mem_map_of_mem mem)
    exact ⟨val.1, search, iff_of_false nonnull fun absent => absent val mem equal,
      fun _ => ⟨val, mem, rfl, equal⟩⟩

/-- Insertion, deletion and search in every tree with the red-black invariant. -/
theorem contents [Inhabited α] (key : α) :
    (s.Inserts probe (insert1mMem probe.compare s.heap s.root) fun heap' x => heap'.setMem x probe.key) ∧
      (s.Inserts (order.probe key) (insert2pNode order.cmp key s.heap s.root) fun heap' _ => heap') ∧
      s.Erases probe (erase1m probe.compare s.heap s.root) ∧
      s.Erases (order.probe key) (erase2p order.cmp key s.heap s.root) ∧
      (s.Finds probe fun fuel => find1mMem probe.compare s.heap fuel s.root) ∧
      s.Finds (order.probe key) fun fuel => find2pNode order.cmp key s.heap fuel s.root :=
  ⟨s.insert1m_inserts probe, s.insert2p_inserts key, s.erase1m_erases probe, s.erase2p_erases key,
    s.find1m_finds probe, s.find1m_finds (order.probe key)⟩

end OrderedTree

section Run

variable [Inhabited α]

/-- The operations on one tree. -/
inductive Op (order : Comparison α) where
  | insert1m (probe : Probe order)
  | insert2p (key : α)
  | erase1m (probe : Probe order)
  | erase2p (key : α)

/-- The code of an operation. The caller of `cucon_rbtree_insert1m_mem` stores a
key in a new slot. -/
def Op.apply {order : Comparison α} : Op order → Heap α × Nat → Option (Heap α × Nat)
  | insert1m probe, (heap, root) =>
    (insert1mMem probe.compare heap root).map fun (heap, root, isNew, x) =>
      (if isNew then heap.setMem x probe.key else heap, root)
  | insert2p key, (heap, root) =>
    (insert2pNode order.cmp key heap root).map fun (heap, root, _) => (heap, root)
  | erase1m probe, (heap, root) =>
    (Rbtree.erase1m probe.compare heap root).map fun (heap, root, _) => (heap, root)
  | erase2p key, (heap, root) =>
    (Rbtree.erase2p order.cmp key heap root).map fun (heap, root, _) => (heap, root)

/-- A heap without nodes. -/
def emptyHeap : Heap α := { cell := fun _ => { isBlack := 0, left := 0, right := 0, mem := default }, next := 1 }

/-- A sequence of operations on an empty tree. -/
def run {order : Comparison α} (ops : List (Op order)) : Option (Heap α × Nat) :=
  ops.foldlM (fun state op => op.apply state) (emptyHeap, 0)

variable {order : Comparison α}

private theorem apply_orderedTree (s : OrderedTree order) (op : Op order) :
    ∃ s' : OrderedTree order, op.apply (s.heap, s.root) = some (s'.heap, s'.root) := by
  have erased {probe : Probe order} {result : Option (Heap α × Nat × Nat)} (erases : s.Erases probe result) :
      ∃ s' : OrderedTree order, (result.map fun (heap, root, _) => (heap, root)) = some (s'.heap, s'.root) := by
    obtain ⟨heap', root', z, rfl, _, kept, removed⟩ := erases
    by_cases none : z = 0
    · obtain ⟨rfl, rfl⟩ := kept none
      exact ⟨s, rfl⟩
    · obtain ⟨s', rfl, rfl, _⟩ := removed none
      exact ⟨s', rfl⟩
  cases op with
  | insert1m probe =>
    obtain ⟨heap', root', isNew, x, returned, _, added, kept⟩ := s.insert1m_inserts probe
    rw [Op.apply, returned]
    cases isNew with
    | false =>
      obtain ⟨rfl, rfl, _⟩ := kept rfl
      exact ⟨s, rfl⟩
    | true =>
      obtain ⟨s', stored, rfl, _⟩ := added rfl
      exact ⟨s', by rw [stored]; rfl⟩
  | insert2p key =>
    obtain ⟨heap', root', isNew, x, returned, _, added, kept⟩ := s.insert2p_inserts key
    rw [Op.apply, returned]
    cases isNew with
    | false =>
      obtain ⟨rfl, rfl, _⟩ := kept rfl
      exact ⟨s, rfl⟩
    | true =>
      obtain ⟨s', rfl, rfl, _⟩ := added rfl
      exact ⟨s', rfl⟩
  | erase1m probe => exact erased (s.erase1m_erases probe)
  | erase2p key => exact erased (s.erase2p_erases key)

private theorem run_orderedTree (ops : List (Op order)) :
    ∃ s : OrderedTree order, run ops = some (s.heap, s.root) := by
  suffices keeps : ∀ s : OrderedTree order, ∃ s' : OrderedTree order,
      ops.foldlM (fun state op => op.apply state) (s.heap, s.root) = some (s'.heap, s'.root) from
    keeps ⟨emptyHeap, 0, nil, held_nil _ one_pos, List.Pairwise.nil⟩
  induction ops with
  | nil => exact fun s => ⟨s, rfl⟩
  | cons op rest ih =>
    intro s
    obtain ⟨s', applied⟩ := apply_orderedTree s op
    rw [List.foldlM_cons, applied]
    exact ih s'

/-- After every sequence of operations the heap holds a tree that is ordered and
red-black, and the word of its root counts its nodes. -/
theorem run_redBlack (ops : List (Op order)) :
    ∃ heap root t, run ops = some (heap, root) ∧ Focused heap [] t ∧ root = ptr t ∧
      order.Sorted t.inorder ∧ RedChildrenBlack t ∧ (∃ n, ∀ count ∈ blackCounts t, count = n) ∧
      (root ≠ 0 → heap.isRed root = false ∧ (heap.cell root).isBlack = t.size) ∧ size heap root = t.size := by
  obtain ⟨s, result⟩ := run_orderedTree ops
  obtain ⟨n, balanced⟩ := s.held.balanced
  refine ⟨s.heap, s.root, s.tree, result, s.held.focused, s.held.root_eq, s.sorted, balanced.redChildrenBlack,
    ⟨n, balanced.blackCounts_eq⟩, fun some => ?_, s.held.size_eq⟩
  have count := s.held.size_eq
  rw [size, if_pos some] at count
  refine ⟨?_, count⟩
  have black := s.held.focused.isRed_eq
  rw [← s.held.root_eq, s.held.black] at black
  simpa [some] using black

end Run

end Culibs.Cucon.Rbtree
