import Culibs.Cucon.Rbtree.Footprint
import Culibs.Foundation.Fuel

namespace Culibs.Cucon.Rbtree

open List
open Option (bind_eq_bind bind_some)

variable {α : Type}

/-- The tree that is merged into. The heaps after the calls so far are there for the statements only. -/
structure Merging (α : Type) where
  heap : Heap α
  root : Nat
  past : List (Heap α)

section Code

variable (load : α → Option α) (cmp : α → α → Int)

/-- `cucon_rbtree_insert2p_ptr`. What is stored at `ptrIo` is the key; a pointer to memory that holds no
pointer cannot be loaded. A new node has the key, so that storing it back changes nothing there. -/
def insert2pPtr (ptrIo : α) (heap : Heap α) (root : Nat) : Option (Heap α × Nat × Bool) :=
  (load ptrIo).bind fun key => (insert2pNode cmp key heap root).map fun result => (result.1, result.2.1, result.2.2.1)

/-- `_merge_ptr_cb`, which hands on the value itself. -/
def mergePtrCb (value : α) (self : Merging α) : Option (Merging α) :=
  (insert2pPtr load cmp value self.heap self.root).map fun result => ⟨result.1, result.2.1, self.past ++ [result.1]⟩

/-- `_merge_ptr_ctive_cb`, which makes the same call. -/
def mergePtrCtiveCb (value : α) (self : Merging α) : Option (Merging α) :=
  (insert2pPtr load cmp value self.heap self.root).map fun result => ⟨result.1, result.2.1, self.past ++ [result.1]⟩

/-- `cuconP_rbnode_iter_ptr`, whose callback may change the heap. -/
def iterPtr (cb : α → Merging α → Option (Merging α)) : Nat → Nat → Merging α → Option (Merging α)
  | 0, _, _ => none
  | fuel + 1, node, s =>
    if node = 0 then some s
    else
      (iterPtr cb fuel (s.heap.child .left node) s).bind fun s =>
        (cb (s.heap.cell node).mem s).bind fun s => iterPtr cb fuel (s.heap.child .right node) s

def merge2p (fuel : Nat) (heap : Heap α) (dst src : Nat) : Option (Merging α) :=
  iterPtr (mergePtrCb load cmp) fuel src ⟨heap, dst, []⟩

def cmerge2p (fuel : Nat) (heap : Heap α) (dst src : Nat) : Option (Merging α) :=
  iterPtr (mergePtrCtiveCb load cmp) fuel src ⟨heap, dst, []⟩

end Code

open ColourTree

section Iteration

variable {heap : Heap α} {t : Tree α}

/-- Callbacks that leave the nodes of the tree as they are get the keys in order. -/
theorem iterPtr_eq (cb : α → Merging α → Option (Merging α)) (inv : Merging α → Prop) (held : In heap t)
    (kept : ∀ s, inv s → ∀ a ∈ addrs t, s.heap.cell a = heap.cell a)
    (step : ∀ k s s', inv s → cb k s = some s' → inv s') (start : inv s)
    (enough : t.size < fuel) :
    iterPtr cb fuel (ptr t) s = (t.inorder.map Prod.snd).foldlM (fun s k => cb k s) s ∧
      ∀ s', iterPtr cb fuel (ptr t) s = some s' → inv s' := by
  obtain ⟨fuel, rfl⟩ := Nat.exists_eq_succ_of_ne_zero (ne_zero_of_lt enough)
  induction t generalizing s fuel with
  | nil => exact ⟨rfl, fun s' returned => Option.some.inj returned ▸ start⟩
  | node word val left right ihLeft ihRight =>
    obtain ⟨nonnull, contents, inLeft, inRight⟩ := held
    have leftSize : left.size < fuel := by simp only [ColourTree.size] at enough; omega
    have rightSize : right.size < fuel := by simp only [ColourTree.size] at enough; omega
    obtain ⟨fuel, rfl⟩ := Nat.exists_eq_succ_of_ne_zero (ne_zero_of_lt leftSize)
    have cell (s : Merging α) (holds : inv s) : s.heap.cell val.1 = nodeOf .left word val.2 (ptr left) (ptr right) :=
      (kept s holds val.1 ((@mem_addrs_build _ .left ..).mpr (.inl rfl))).trans contents
    have leftEq : s.heap.child .left val.1 = ptr left := by rw [Heap.child, cell s start]; rfl
    obtain ⟨first, holds1⟩ := ihLeft inLeft
      (fun s holds a mem => kept s holds a
        ((@mem_addrs_build _ .left ..).mpr (.inr (.inl mem)))) start fuel leftSize
    have later (s2 : Merging α) (holds2 : inv s2) := ihRight inRight
      (fun s holds a mem => kept s holds a ((@mem_addrs_build _ .left ..).mpr (.inr (.inr mem)))) (s := s2) holds2
      fuel rightSize
    have top : ptr (node word val left right) = val.1 := rfl
    rw [top, iterPtr, if_neg nonnull, leftEq, inorder, map_append, foldlM_append, ← first]
    cases result : iterPtr cb (fuel + 1) (ptr left) s with
    | none => exact ⟨rfl, fun s' returned => absurd returned.symm (Option.some_ne_none s')⟩
    | some s1 =>
      have isInv := holds1 s1 result
      have mem_eq : (s1.heap.cell val.1).mem = val.2 := by rw [cell s1 isInv]; rfl
      rw [bind_some, mem_eq, map_cons]
      simp only [bind_eq_bind, bind_some, foldlM_cons]
      cases called : cb val.2 s1 with
      | none => exact ⟨rfl, fun s' returned => absurd returned.symm (Option.some_ne_none s')⟩
      | some s2 =>
        have isInv2 := step val.2 s1 s2 isInv called
        have rightEq : s2.heap.child .right val.1 = ptr right := by rw [Heap.child, cell s2 isInv2]; rfl
        rw [bind_some, rightEq]
        exact later s2 isInv2

end Iteration

section Equal

variable (order : Comparison α) {a b c : α}

theorem Comparison.equal_refl (a : α) : order.cmp a a = 0 := by
  have := order.swap a a
  omega

variable {order}

theorem Comparison.equal_symm (equal : order.cmp a b = 0) : order.cmp b a = 0 := by
  have := order.swap a b
  have := order.swap b a
  omega

theorem Comparison.equal_trans (first : order.cmp a b = 0) (second : order.cmp b c = 0) : order.cmp a c = 0 := by
  have le := order.trans a b c (Int.le_of_eq first) (Int.le_of_eq second)
  have ge := order.trans c b a (Int.le_of_eq (Comparison.equal_symm second))
    (Int.le_of_eq (Comparison.equal_symm first))
  have := order.swap a c
  omega

end Equal

section Stored

variable (load : α → Option α) (order : Comparison α)

/-- The pointer `x` is stored in a key of the list, and there is no equal one among the known keys or
stored in an earlier key. -/
def Stored (known : α → Prop) : List α → α → Prop
  | [], _ => False
  | k :: rest, x => (load k = some x ∧ ∀ d, known d → order.cmp x d ≠ 0) ∨
      (∀ y, load k = some y → order.cmp x y ≠ 0) ∧ Stored known rest x

variable {load order} {known : α → Prop} {ks : List α} {x y k : α}

theorem Stored.new (stored : Stored load order known ks x) : ∀ d, known d → order.cmp x d ≠ 0 := by
  induction ks with
  | nil => exact stored.elim
  | cons k rest ih => exact stored.elim And.right fun later => ih later.2

theorem Stored.exists_key (stored : Stored load order known ks x) : ∃ k ∈ ks, load k = some x := by
  induction ks with
  | nil => exact stored.elim
  | cons k rest ih =>
    rcases stored with ⟨loaded, _⟩ | ⟨_, later⟩
    · exact ⟨k, .head _, loaded⟩
    · obtain ⟨j, mem, loaded⟩ := ih later
      exact ⟨j, mem_cons_of_mem k mem, loaded⟩

theorem Stored.unique (stored : Stored load order known ks x) (stored' : Stored load order known ks y)
    (equal : order.cmp x y = 0) : x = y := by
  induction ks with
  | nil => exact stored.elim
  | cons k rest ih =>
    rcases stored with ⟨loaded, _⟩ | ⟨apart, later⟩ <;> rcases stored' with ⟨loaded', _⟩ | ⟨apart', later'⟩
    · exact Option.some.inj (loaded.symm.trans loaded')
    · exact absurd (Comparison.equal_symm equal) (apart' x loaded)
    · exact absurd equal (apart y loaded')
    · exact ih later later'

/-- A pointer that nothing known is equal to has a first equal one. -/
theorem exists_stored (mem : k ∈ ks) (loaded : load k = some x) (new : ∀ d, known d → order.cmp x d ≠ 0) :
    ∃ y, Stored load order known ks y ∧ order.cmp x y = 0 := by
  induction ks with
  | nil => cases mem
  | cons j rest ih =>
    rcases mem_cons.mp mem with rfl | mem
    · exact ⟨x, .inl ⟨loaded, new⟩, order.equal_refl x⟩
    · obtain ⟨y, stored, equal⟩ := ih mem
      by_cases earlier : ∃ z, load j = some z ∧ order.cmp y z = 0
      · obtain ⟨z, loaded', equal'⟩ := earlier
        have equal'' := Comparison.equal_trans equal equal'
        exact ⟨z, .inl ⟨loaded', fun d isKnown same => new d isKnown (Comparison.equal_trans equal'' same)⟩, equal''⟩
      · exact ⟨y, .inr ⟨fun z loaded' same => earlier ⟨z, loaded', same⟩, stored⟩, equal⟩

private theorem stored_cons_known (loaded : load k = some y) (present : ∃ d, known d ∧ order.cmp y d = 0) :
    Stored load order known (k :: ks) x ↔ Stored load order known ks x := by
  obtain ⟨d, isKnown, equal⟩ := present
  constructor
  · rintro (⟨loaded', new⟩ | ⟨_, later⟩)
    · obtain rfl := Option.some.inj (loaded.symm.trans loaded')
      exact absurd equal (new d isKnown)
    · exact later
  · refine fun later => .inr ⟨fun z loaded' same => ?_, later⟩
    obtain rfl := Option.some.inj (loaded.symm.trans loaded')
    exact later.new d isKnown (Comparison.equal_trans same equal)

private theorem stored_cons_new (loaded : load k = some y) (absent : ∀ d, known d → order.cmp y d ≠ 0) :
    Stored load order known (k :: ks) x ↔ x = y ∨ Stored load order (fun d => known d ∨ d = y) ks x := by
  have later_iff (ks : List α) : Stored load order (fun d => known d ∨ d = y) ks x ↔
      order.cmp x y ≠ 0 ∧ Stored load order known ks x := by
    induction ks with
    | nil => exact iff_of_false id And.right
    | cons j rest ih =>
      simp only [Stored, ih, or_imp, forall_and, forall_eq]
      tauto
  rw [later_iff]
  constructor
  · rintro (⟨loaded', _⟩ | ⟨apart, later⟩)
    · exact .inl (Option.some.inj (loaded'.symm.trans loaded))
    · exact .inr ⟨apart y loaded, later⟩
  · rintro (rfl | ⟨apart, later⟩)
    · exact .inl ⟨loaded, absent⟩
    · exact .inr ⟨fun z loaded' => Option.some.inj (loaded.symm.trans loaded') ▸ apart, later⟩

end Stored

namespace OrderedTree

variable {order : Comparison α}

def keys (s : OrderedTree order) : List α := s.nodes.map Prod.snd

/-- The nodes of a tree that others have been inserted into. -/
structure Grows (s s' : OrderedTree order) : Prop where
  nodes : ∀ a ∈ addrs s'.tree, a ∈ addrs s.tree ∨ s.heap.next ≤ a
  others : ∀ a, a < s.heap.next → a ∉ addrs s.tree → s'.heap.cell a = s.heap.cell a
  next : s.heap.next ≤ s'.heap.next

theorem Grows.refl (s : OrderedTree order) : s.Grows s := ⟨fun _ => .inl, fun _ _ _ => rfl, le_rfl⟩

theorem Grows.trans {s s' s'' : OrderedTree order} (first : s.Grows s') (second : s'.Grows s'') : s.Grows s'' := by
  refine ⟨fun a mem => ?_, fun a old outside => ?_, le_trans first.next second.next⟩
  · rcases second.nodes a mem with before | new
    · exact first.nodes a before
    · exact .inr (le_trans first.next new)
  · rw [second.others a (lt_of_lt_of_le old first.next), first.others a old outside]
    exact fun mem => (first.nodes a mem).elim outside fun new => not_le.mpr old new

private theorem insert2p_step (s : OrderedTree order) (key : α) :
    (∃ d ∈ s.keys, order.cmp key d = 0) ∧
        (∃ x, insert2pNode order.cmp key s.heap s.root = some (s.heap, s.root, false, x)) ∨
      (∀ d ∈ s.keys, order.cmp key d ≠ 0) ∧ ∃ s' : OrderedTree order,
        (∃ x, insert2pNode order.cmp key s.heap s.root = some (s'.heap, s'.root, true, x)) ∧ s.Grows s' ∧
          (∀ k, k ∈ s'.keys ↔ k ∈ s.keys ∨ k = key) ∧
          (s.keys ≠ [] → ∃ a ∈ addrs s.tree, s'.heap.cell a ≠ s.heap.cell a) := by
  rcases s.locate_cases (order.probe key) with
    ⟨path, found, split, below, above⟩ | ⟨path, word, val, left, right, found, split, equal⟩
  · obtain ⟨heap', root', t', returned, held, sequence, others⟩ := s.insert_absent (order.probe key) key found
    have sorted : order.Sorted t'.inorder := by
      rw [sequence]
      exact sorted_insert (order.probe key) (split ▸ s.sorted) rfl below above
    have split' : s.tree.inorder = before path ++ after path := split
    have mem (a : Nat) : a ∈ addrs t' ↔ a ∈ addrs s.tree ∨ a = s.heap.next := by
      rw [addrs, addrs, sequence, split']
      simp [or_assoc, or_comm (a := a = s.heap.next)]
    have next : s.heap.next < heap'.next := held.fresh s.heap.next ((mem _).mpr (.inr rfl))
    refine .inr ⟨?_, ⟨heap', root', t', held, sorted⟩, ⟨s.heap.next, returned⟩,
      ⟨fun a isNode => ?_, fun a old outside => ?_, le_of_lt next⟩, fun k => ?_, fun some => ?_⟩
    · intro d isKey
      obtain ⟨val, isNode, rfl⟩ := mem_map.mp isKey
      exact s.absent_of_split (order.probe key) split below above val isNode
    · exact ((mem a).mp isNode).imp_right fun same => le_of_eq same.symm
    · exact others a outside (ne_of_lt old)
    · rw [keys, keys, nodes, nodes, sequence, split']
      simp [or_assoc, or_comm (a := k = key)]
    · refine changed_of_grown s.held held (fun none => some ?_) (fun a isNode => (mem a).mpr (.inl isNode)) ?_
      · rw [keys, nodes, none]
        rfl
      · rw [← length_inorder, ← length_inorder, sequence, split']
        simp only [length_append, length_cons]
        omega
  · exact .inl ⟨⟨val.2, mem_map_of_mem (by simp [split]), equal⟩, val.1,
      insertNode_present s.held found node_ne_nil⟩

section Run

variable {load : α → Option α}

theorem mergePtrCb_step (s : OrderedTree order) (past : List (Heap α)) (loaded : load k = some key) :
    (∃ d ∈ s.keys, order.cmp key d = 0) ∧
        mergePtrCb load order.cmp k ⟨s.heap, s.root, past⟩ = some ⟨s.heap, s.root, past ++ [s.heap]⟩ ∨
      (∀ d ∈ s.keys, order.cmp key d ≠ 0) ∧ ∃ s' : OrderedTree order,
        mergePtrCb load order.cmp k ⟨s.heap, s.root, past⟩ = some ⟨s'.heap, s'.root, past ++ [s'.heap]⟩ ∧ s.Grows s' ∧
          (∀ k, k ∈ s'.keys ↔ k ∈ s.keys ∨ k = key) ∧
          (s.keys ≠ [] → ∃ a ∈ addrs s.tree, s'.heap.cell a ≠ s.heap.cell a) := by
  rcases s.insert2p_step key with ⟨present, x, returned⟩ | ⟨absent, s', ⟨x, returned⟩, effect⟩
  · refine .inl ⟨present, ?_⟩
    rw [mergePtrCb, insert2pPtr, loaded, bind_some, returned]
    rfl
  · refine .inr ⟨absent, s', ?_, effect⟩
    rw [mergePtrCb, insert2pPtr, loaded, bind_some, returned]
    rfl

/-- What the calls for a list of keys have done, with the heaps after each of them. -/
structure Merged (load : α → Option α) (s : OrderedTree order) (ks : List α) (s' : OrderedTree order)
    (heaps : List (Heap α)) :
    Prop where
  grows : s.Grows s'
  keys : ∀ x, x ∈ s'.keys ↔ x ∈ s.keys ∨ Stored load order (· ∈ s.keys) ks x
  others : ∀ h ∈ heaps, ∀ a, a < s.heap.next → a ∉ addrs s.tree → h.cell a = s.heap.cell a
  still : (∀ x, ¬ Stored load order (· ∈ s.keys) ks x) → ∀ h ∈ heaps, h = s.heap
  changed : s.keys ≠ [] → (∃ x, Stored load order (· ∈ s.keys) ks x) → ∃ h ∈ heaps, ∃ a ∈ addrs s.tree,
    h.cell a ≠ s.heap.cell a

theorem merge_run {ks : List α} (readable : ∀ k ∈ ks, load k ≠ none) (s : OrderedTree order) (past : List (Heap α)) :
    ∃ s' : OrderedTree order, ∃ heaps, ks.foldlM (fun m k => mergePtrCb load order.cmp k m) ⟨s.heap, s.root, past⟩ =
      some ⟨s'.heap, s'.root, past ++ heaps⟩ ∧ Merged load s ks s' heaps := by
  induction ks generalizing s past with
  | nil =>
    refine ⟨s, [], by rw [append_nil]; rfl, .refl s, fun x => (or_iff_left id).symm, nofun, fun _ => nofun,
      fun _ none => ?_⟩
    exact none.elim fun _ => False.elim
  | cons k rest ih =>
    obtain ⟨canLoad, restReadable⟩ := forall_mem_cons.mp readable
    obtain ⟨key, loaded⟩ := Option.ne_none_iff_exists'.mp canLoad
    rcases s.mergePtrCb_step past loaded with ⟨present, called⟩ | ⟨absent, s1, called, grows1, keys1, changed1⟩
    · obtain ⟨s', heaps, returned, merged⟩ := ih restReadable s (past ++ [s.heap])
      have same (x : α) : Stored load order (· ∈ s.keys) (k :: rest) x ↔ Stored load order (· ∈ s.keys) rest x :=
        stored_cons_known loaded present
      refine ⟨s', s.heap :: heaps, ?_, merged.grows, fun x => ?_, ?_, fun none => ?_, fun some new => ?_⟩
      · rw [foldlM_cons, called, bind_eq_bind, bind_some, returned, append_assoc]
        rfl
      · rw [merged.keys, same]
      · exact forall_mem_cons.mpr ⟨fun _ _ _ => rfl, merged.others⟩
      · exact forall_mem_cons.mpr ⟨rfl, merged.still fun x stored => none x ((same x).mpr stored)⟩
      · obtain ⟨h, mem, rest⟩ := merged.changed some (new.imp fun x => (same x).mp)
        exact ⟨h, .tail _ mem, rest⟩
    · obtain ⟨s', heaps, returned, merged⟩ := ih restReadable s1 (past ++ [s1.heap])
      have known : (· ∈ s1.keys) = fun d => d ∈ s.keys ∨ d = key := funext fun d => propext (keys1 d)
      have cons (x : α) : Stored load order (· ∈ s.keys) (k :: rest) x ↔
          x = key ∨ Stored load order (fun d => d ∈ s.keys ∨ d = key) rest x := stored_cons_new loaded absent
      refine ⟨s', s1.heap :: heaps, ?_, grows1.trans merged.grows, fun x => ?_, ?_, fun none => ?_, fun some _ => ?_⟩
      · rw [foldlM_cons, called, bind_eq_bind, bind_some, returned, append_assoc]
        rfl
      · rw [merged.keys, keys1, known, cons, or_assoc]
      · refine forall_mem_cons.mpr ⟨grows1.others, fun h mem a old outside => ?_⟩
        rw [merged.others h mem a (lt_of_lt_of_le old grows1.next), grows1.others a old outside]
        exact fun isNode => (grows1.nodes a isNode).elim outside fun new => not_le.mpr old new
      · exact absurd ((cons key).mpr (.inl rfl)) (none key)
      · exact ⟨s1.heap, .head _, changed1 some⟩

private theorem merge_unreadable {ks : List α} (unreadable : ∃ k ∈ ks, load k = none) (s : OrderedTree order)
    (past : List (Heap α)) :
    ks.foldlM (fun m k => mergePtrCb load order.cmp k m) ⟨s.heap, s.root, past⟩ = none := by
  induction ks generalizing s past with
  | nil => exact absurd unreadable (by simp)
  | cons k rest ih =>
    rw [foldlM_cons]
    cases loaded : load k with
    | none => rw [mergePtrCb, insert2pPtr, loaded]; rfl
    | some key =>
      have later : ∃ k ∈ rest, load k = none := by simpa [loaded] using unreadable
      rcases s.mergePtrCb_step past loaded with ⟨_, called⟩ | ⟨_, s1, called, _⟩
      · rw [called]
        exact ih later s _
      · rw [called]
        exact ih later s1 _

end Run

/-- Another tree in the heap, with nodes of its own. -/
structure Source (dst : OrderedTree order) where
  root : Nat
  tree : Tree α
  held : Held dst.heap root tree
  sorted : order.Sorted tree.inorder
  apart : ∀ a ∈ addrs tree, a ∉ addrs dst.tree

namespace Source

variable {dst : OrderedTree order}

def keys (src : Source dst) : List α := src.tree.inorder.map Prod.snd

/-- A key of the source has no equal one in the destination. -/
def New (src : Source dst) (k : α) : Prop := k ∈ src.keys ∧ ∀ d ∈ dst.keys, order.cmp k d ≠ 0

/-- The keys of the destination and the new ones of the source. -/
def Unites (src : Source dst) (s' : OrderedTree order) : Prop := ∀ k, k ∈ s'.keys ↔ k ∈ dst.keys ∨ src.New k

variable (load : α → Option α)

def MergeCorrect (src : Source dst) : Prop :=
  ∃ s' : OrderedTree order, ∃ past, Returns (fun fuel => merge2p load order.cmp fuel dst.heap dst.root src.root)
    ⟨s'.heap, s'.root, past⟩ ∧ src.Unites s'

/-- All trees in the heap have their nodes as they were after each call, the old version of the
destination among them. -/
def CmergeCorrect (src : Source dst) : Prop :=
  ∃ s' : OrderedTree order, ∃ past, Returns (fun fuel => cmerge2p load order.cmp fuel dst.heap dst.root src.root)
    ⟨s'.heap, s'.root, past⟩ ∧ src.Unites s' ∧
      ∀ root t, Held dst.heap root t → ∀ h ∈ past, ∀ a ∈ addrs t, h.cell a = dst.heap.cell a

/-- The first pointers that are stored in the keys of the source are its new keys. -/
structure Loads (src : Source dst) : Prop where
  readable : ∀ k ∈ src.keys, load k ≠ none
  known : ∀ k ∈ src.keys, ∀ x, load k = some x →
    (∃ d ∈ dst.keys, order.cmp x d = 0) ∨ ∃ k', src.New k' ∧ order.cmp x k' = 0
  stored : ∀ k, src.New k → Stored load order (· ∈ dst.keys) src.keys k

variable {load}

variable (src : Source dst)

private theorem merge2p_eq {fuel : Nat} (enough : src.tree.size < fuel) :
    merge2p load order.cmp fuel dst.heap dst.root src.root =
      src.keys.foldlM (fun m k => mergePtrCb load order.cmp k m) ⟨dst.heap, dst.root, []⟩ := by
  have run := (iterPtr_eq (mergePtrCb load order.cmp)
    (fun m => ∃ s : OrderedTree order, m.heap = s.heap ∧ m.root = s.root ∧ dst.Grows s) (s := ⟨dst.heap, dst.root, []⟩)
    src.held.focused.subtree ?_ ?_ ⟨dst, rfl, rfl, .refl dst⟩ enough).1
  · rw [← src.held.root_eq] at run
    exact run
  · rintro m ⟨s, same, _, grows⟩ a mem
    rw [same]
    exact grows.others a (src.held.fresh a mem) (src.apart a mem)
  rintro k ⟨heap, root, past⟩ m' ⟨s, rfl, rfl, grows⟩ called
  cases loaded : load k with
  | none =>
    rw [mergePtrCb, insert2pPtr, loaded] at called
    cases called
  | some key =>
    rcases s.mergePtrCb_step past loaded with ⟨_, called'⟩ | ⟨_, s1, called', grows1, _⟩
    · obtain rfl := Option.some.inj (called'.symm.trans called)
      exact ⟨s, rfl, rfl, grows⟩
    · obtain rfl := Option.some.inj (called'.symm.trans called)
      exact ⟨s1, rfl, rfl, grows.trans grows1⟩

/-- The merge returns if all keys can be read, and else it does not. -/
theorem merge2p_spec (load : α → Option α) (src : Source dst) :
    (∀ k ∈ src.keys, load k ≠ none) ∧ (∃ s' : OrderedTree order, ∃ heaps,
        Returns (fun fuel => merge2p load order.cmp fuel dst.heap dst.root src.root) ⟨s'.heap, s'.root, heaps⟩ ∧
          Merged load dst src.keys s' heaps) ∨
      (∃ k ∈ src.keys, load k = none) ∧
        ∀ result, ¬ Returns (fun fuel => merge2p load order.cmp fuel dst.heap dst.root src.root) result := by
  by_cases readable : ∀ k ∈ src.keys, load k ≠ none
  · obtain ⟨s', heaps, returned, merged⟩ := merge_run readable dst []
    exact .inl ⟨readable, s', heaps, ⟨src.tree.size + 1, fun fuel enough => (src.merge2p_eq enough).trans returned⟩,
      merged⟩
  · push Not at readable
    refine .inr ⟨readable, ?_⟩
    rintro result ⟨bound, returns⟩
    have returned := returns (max bound (src.tree.size + 1)) (le_max_left ..)
    dsimp only at returned
    rw [src.merge2p_eq (Nat.le_max_right ..), merge_unreadable readable] at returned
    cases returned

variable {s' : OrderedTree order} {heaps : List (Heap α)}

theorem unites_iff
    (readable : ∀ k ∈ src.keys, load k ≠ none) (merged : Merged load dst src.keys s' heaps) :
    src.Unites s' ↔ src.Loads load := by
  have inserted (x : α) : Stored load order (· ∈ dst.keys) src.keys x → x ∉ dst.keys := fun stored isKey =>
    stored.new x isKey (order.equal_refl x)
  constructor
  · intro unites
    have stored (x : α) (isNew : x ∉ dst.keys) : Stored load order (· ∈ dst.keys) src.keys x ↔ src.New x := by
      have both := (merged.keys x).symm.trans (unites x)
      rwa [or_iff_right isNew, or_iff_right isNew] at both
    refine ⟨readable, fun k isKey x loaded => ?_, fun k isNew => ?_⟩
    · by_cases present : ∃ d ∈ dst.keys, order.cmp x d = 0
      · exact .inl present
      · obtain ⟨y, first, equal⟩ := exists_stored isKey loaded fun d isKnown same => present ⟨d, isKnown, same⟩
        exact .inr ⟨y, (stored y (inserted y first)).mp first, equal⟩
    · exact (stored k fun isKey => isNew.2 k isKey (order.equal_refl k)).mpr isNew
  · intro loads k
    rw [merged.keys]
    refine or_congr_right ⟨fun first => ?_, loads.stored k⟩
    obtain ⟨j, isKey, loaded⟩ := first.exists_key
    rcases loads.known j isKey k loaded with ⟨d, isKnown, equal⟩ | ⟨k', isNew, equal⟩
    · exact absurd equal (first.new d isKnown)
    · rwa [first.unique (loads.stored k' isNew) equal]

private theorem kept_iff
    (merged : Merged load dst src.keys s' heaps) :
    (∀ root t, Held dst.heap root t → ∀ h ∈ heaps, ∀ a ∈ addrs t, h.cell a = dst.heap.cell a) ↔
      dst.keys = [] ∨ ∀ k ∈ src.keys, ∀ x, load k = some x → ∃ d ∈ dst.keys, order.cmp x d = 0 := by
  constructor
  · intro kept
    by_contra! changes
    obtain ⟨some, k, isKey, x, loaded, absent⟩ := changes
    obtain ⟨y, first, _⟩ := exists_stored isKey loaded absent
    obtain ⟨h, mem, a, isNode, changed⟩ := merged.changed some ⟨y, first⟩
    exact changed (kept dst.root dst.tree dst.held h mem a isNode)
  · rintro (empty | present) root t held h mem a isNode
    · refine merged.others h mem a (held.fresh a isNode) ?_
      have none : dst.tree.inorder = [] := map_eq_nil_iff.mp empty
      rw [addrs, none]
      exact not_mem_nil
    · rw [merged.still (fun x first => ?_) h mem]
      obtain ⟨k, isKey, loaded⟩ := first.exists_key
      obtain ⟨d, isKnown, equal⟩ := present k isKey x loaded
      exact first.new d isKnown equal

theorem result_eq
    (returns : Returns (fun fuel => merge2p load order.cmp fuel dst.heap dst.root src.root) ⟨s'.heap, s'.root, heaps⟩)
    (returns' : Returns (fun fuel => merge2p load order.cmp fuel dst.heap dst.root src.root) ⟨s''.heap, s''.root, past⟩)
    (unites : src.Unites s'') : src.Unites s' ∧ past = heaps := by
  obtain ⟨sameHeap, sameRoot, samePast⟩ := Merging.mk.inj (returns'.unique returns)
  have held := s'.held.focused.subtree
  rw [← sameHeap] at held
  have sameTree : s''.tree = s'.tree := s''.held.focused.subtree.unique held
    (s''.held.root_eq.symm.trans (sameRoot.trans s'.held.root_eq))
  refine ⟨fun k => ?_, samePast⟩
  have isUnion := unites k
  rwa [OrderedTree.keys, nodes, sameTree] at isUnion

theorem mergeCorrect_iff : src.MergeCorrect load ↔ src.Loads load := by
  rcases merge2p_spec load src with ⟨readable, s', heaps, returns, merged⟩ | ⟨⟨k, isKey, none⟩, never⟩
  · have unites := src.unites_iff readable merged
    refine ⟨fun ⟨s'', past, returns', isUnion⟩ => unites.mp (src.result_eq returns returns' isUnion).1, fun loads => ?_⟩
    exact ⟨s', heaps, returns, unites.mpr loads⟩
  · exact iff_of_false (fun ⟨_, _, returns, _⟩ => never _ returns) fun loads => loads.readable k isKey none

private theorem cmergeCorrect_iff :
    src.CmergeCorrect load ↔ src.Loads load ∧
      (dst.keys = [] ∨ ∀ k ∈ src.keys, ∀ x, load k = some x → ∃ d ∈ dst.keys, order.cmp x d = 0) := by
  rcases merge2p_spec load src with ⟨readable, s', heaps, returns, merged⟩ | ⟨⟨k, isKey, none⟩, never⟩
  · have unites := src.unites_iff readable merged
    rw [← src.kept_iff merged]
    refine ⟨fun ⟨s'', past, returns', isUnion, kept⟩ => ?_, fun ⟨loads, kept⟩ => ?_⟩
    · obtain ⟨isUnion', rfl⟩ := src.result_eq returns returns' isUnion
      exact ⟨unites.mp isUnion', kept⟩
    · exact ⟨s', heaps, returns, unites.mpr loads, kept⟩
  · exact iff_of_false (fun ⟨_, _, returns, _⟩ => never _ returns) fun both => both.1.readable k isKey none

/-- The pointers that are stored in the keys of the source take the place of these keys, and the
destination is changed in place. -/
theorem merge2p_correct_iff (load : α → Option α) (src : Source dst) :
    (src.MergeCorrect load ↔ src.Loads load) ∧
      (src.CmergeCorrect load ↔ src.Loads load ∧
        (dst.keys = [] ∨ ∀ k ∈ src.keys, ∀ x, load k = some x → ∃ d ∈ dst.keys, order.cmp x d = 0)) :=
  ⟨src.mergeCorrect_iff, src.cmergeCorrect_iff⟩

end Source

section Example

/-- Addresses are compared as numbers. -/
def addresses : Comparison Nat where
  cmp a b := (a : Int) - b
  swap a b := by omega
  trans a b c := by omega

/-- The node of a tree with one key. -/
def oneNode : Heap Nat := ⟨fun _ => { isBlack := 1, left := 0, right := 0, mem := 100 }, 2⟩

def noKeys : OrderedTree addresses := ⟨oneNode, 0, nil, held_nil oneNode (by decide), Pairwise.nil⟩

def oneKey : Source noKeys where
  root := 1
  tree := node 1 (1, 100) nil nil
  held := ⟨⟨⟨by decide, rfl, trivial, trivial⟩, trivial, by decide⟩, rfl, by decide, by decide, ⟨1, 0, rfl, rfl, rfl⟩,
    rfl⟩
  sorted := pairwise_singleton _ _
  apart := fun _ _ => not_mem_nil

/-- The key 100 points to an object whose first word is 200, which is inserted. -/
theorem merge2p_inserts_word : ¬ oneKey.MergeCorrect fun key => if key = 100 then some 200 else none := by
  rw [oneKey.mergeCorrect_iff]
  intro loads
  have isNew : oneKey.New 100 := ⟨mem_singleton_self 100, nofun⟩
  obtain ⟨j, isKey, loaded⟩ := (loads.stored 100 isNew).exists_key
  obtain rfl := mem_singleton.mp isKey
  exact absurd loaded (by decide)

end Example

end OrderedTree

end Culibs.Cucon.Rbtree
