import Culibs.Cucon.Rbtree.Focus

namespace Culibs.Cucon.Rbtree

open ColourTree Function
open List (mem_cons_self nodup_cons)

variable {α : Type}

section Cell

variable (heap : Heap α) (p : Nat) (f : Rbnode α → Rbnode α)

@[simp] theorem cell_modify_self : (heap.modify p f).cell p = f (heap.cell p) :=
  update_self ..

theorem cell_modify_of_ne {a : Nat} (other : a ≠ p) : (heap.modify p f).cell a = heap.cell a :=
  update_of_ne other ..

@[simp] theorem next_modify : (heap.modify p f).next = heap.next := rfl

theorem modify_comm (g : Rbnode α → Rbnode α) (apart : p ≠ q) :
    (heap.modify p f).modify q g = (heap.modify q g).modify p f := by
  simp only [Heap.modify, update_of_ne apart, update_of_ne apart.symm, update_comm apart]

theorem cell_modify_of_notMem {addresses : List Nat} (fresh : p ∉ addresses) :
    ∀ a ∈ addresses, (heap.modify p f).cell a = heap.cell a :=
  fun _ mem => cell_modify_of_ne heap p f fun same => fresh (same ▸ mem)

end Cell

/-- Only nodes at the given addresses are written. -/
structure Writes (addresses : List Nat) (heap heap' : Heap α) : Prop where
  next : heap'.next = heap.next
  others : ∀ a, a ∉ addresses → heap'.cell a = heap.cell a

section Writes

variable {addresses addresses' : List Nat} {heap heap' heap'' : Heap α}

theorem Writes.refl : Writes addresses heap heap := ⟨rfl, fun _ _ => rfl⟩

theorem Writes.trans (first : Writes addresses heap heap') (second : Writes addresses' heap' heap'')
    (within : addresses' ⊆ addresses) : Writes addresses heap heap'' :=
  ⟨second.next.trans first.next, fun a outside =>
    (second.others a fun mem => outside (within mem)).trans (first.others a outside)⟩

theorem Writes.setWord {p : Nat} (writes : Writes addresses heap heap') (word : Nat) (mem : p ∈ addresses) :
    Writes addresses heap (heap'.setWord p word) :=
  ⟨writes.next, fun a outside =>
    (cell_modify_of_ne heap' p _ fun (same : a = p) => outside (same ▸ mem)).trans (writes.others a outside)⟩

end Writes

/-- Set the link to the subtree in focus. -/
def link (heap : Heap α) (path : Path α) (p : Nat) : Heap α :=
  match path with
  | [] => heap
  | frame :: _ => heap.setChild frame.side frame.val.1 p

@[simp] theorem next_link (heap : Heap α) (path : Path α) (p : Nat) : (link heap path p).next = heap.next := by
  cases path <;> rfl

theorem cell_link_of_notMem (heap : Heap α) (path : Path α) (p : Nat)
    (outside : a ∉ pathAddrs path) : (link heap path p).cell a = heap.cell a := by
  cases path with
  | nil => rfl
  | cons frame rest => exact cell_modify_of_ne _ _ _ fun same => outside (same ▸ .head _ ..)

theorem link_modify (heap : Heap α) (p : Nat) (f : Rbnode α → Rbnode α)
    (outside : q ∉ pathAddrs path) : (link heap path p).modify q f = link (heap.modify q f) path p := by
  cases path with
  | nil => rfl
  | cons frame rest => exact modify_comm _ _ _ _ fun same => outside (same ▸ .head _ ..)

section Focus

variable {heap heap' : Heap α} {path : Path α} {t t' : Tree α}

/-- A subtree at the same address takes the place of the one in focus. -/
theorem Focused.update (focused : Focused heap path t)
    (agree : ∀ a ∈ pathAddrs path, heap'.cell a = heap.cell a) (held : In heap' t')
    (same : ptr t' = ptr t) (distinct : (addrs t' ++ pathAddrs path).Nodup) : Focused heap' path t' :=
  ⟨held, same ▸ focused.above.congr agree, distinct⟩

theorem Focused.link (focused : Focused heap path t)
    (agree : ∀ a ∈ pathAddrs path, heap'.cell a = heap.cell a) (held : In heap' t')
    (distinct : (addrs t' ++ pathAddrs path).Nodup) : Focused (link heap' path (ptr t')) path t' := by
  have above := focused.above.congr agree
  cases path with
  | nil => exact ⟨held, trivial, distinct⟩
  | cons frame rest =>
    obtain ⟨nonnull, contents, sibling, outer⟩ := above
    have apart := (List.nodup_append.mp distinct).2.1
    have outside := (nodup_cons.mp apart).1
    have frameless : ∀ a ∈ addrs frame.sibling ++ pathAddrs rest,
        (Rbtree.link heap' (frame :: rest) (ptr t')).cell a = heap'.cell a :=
      cell_modify_of_notMem _ _ _ outside
    refine ⟨held.congr fun a mem => ?_, ⟨nonnull, ?_, ?_, ?_⟩, distinct⟩
    · refine cell_modify_of_ne _ _ _ fun same => ?_
      exact (List.nodup_append.mp distinct).2.2 a mem a (same ▸ .head _ ..) rfl
    · rw [Rbtree.link, Heap.setChild, cell_modify_self, contents, setChild_nodeOf]
    · exact sibling.congr fun a mem => frameless a (List.mem_append_left _ mem)
    · exact outer.congr fun a mem => frameless a (List.mem_append_right _ mem)

theorem Focused.patch_eq (focused : Focused heap path t) (some : t ≠ nil)
    (agree : ∀ a ∈ pathAddrs path, heap'.cell a = heap.cell a) (p : Nat) :
    patch heap' ((stack path).headD 0) (ptr t) p = Rbtree.link heap' path p := by
  cases path with
  | nil => rfl
  | cons frame rest =>
    have isRight := focused.child_iff (.inl some) .right
    rw [Heap.child, ← agree _ mem_cons_self, eq_comm] at isRight
    rw [patch, stack_cons, List.headD_cons, if_pos focused.above.1, Rbtree.link, Heap.child, if_congr isRight rfl rfl]
    cases frame.side <;> rfl

variable {side : Side} {word : Nat} {val : Nat × α} {near far : Tree α}

variable (word' : Nat)

theorem Focused.setWord (focused : Focused heap path (build side word val near far)) :
    Focused (heap.setWord val.1 word') path (build side word' val near far) := by
  obtain ⟨inNear, inFar, outside⟩ := focused.root_apart
  obtain ⟨nonnull, contents, near', far'⟩ := in_build.mp focused.subtree
  refine focused.update (cell_modify_of_notMem _ _ _ outside) ?_ (by simp) ?_
  · refine in_build.mpr ⟨nonnull, ?_, near'.congr ?_, far'.congr ?_⟩
    · rw [Heap.setWord, cell_modify_self, contents]
      cases side <;> rfl
    · exact cell_modify_of_notMem _ _ _ inNear
    · exact cell_modify_of_notMem _ _ _ inFar
  · rw [← setWord_build side word word', addrs_setWord]
    exact focused.distinct

theorem Focused.setWord_ptr (focused : Focused heap path t) (some : t ≠ nil) :
    Focused (heap.setWord (ptr t) word') path (t.setWord word') := by
  cases t with
  | nil => exact absurd rfl some
  | node word val left right => exact @Focused.setWord _ _ _ .left _ _ _ _ word' focused

theorem Focused.setWord_near (focused : Focused heap path (build side word val near far))
    (some : near ≠ nil) :
    Focused (heap.setWord (ptr near) word') path (build side word val (near.setWord word') far) :=
  focused_near.mp ((focused_near.mpr focused).setWord_ptr word' some)

theorem Focused.setWord_far (focused : Focused heap path (build side word val near far))
    (some : far ≠ nil) :
    Focused (heap.setWord (ptr far) word') path (build side word val near (far.setWord word')) :=
  focused_far.mp ((focused_far.mpr focused).setWord_ptr word' some)

theorem Focused.setWord_sibling
    (focused : Focused heap (frame :: path) t) (some : frame.sibling ≠ nil) :
    Focused (heap.setWord (ptr frame.sibling) word')
      ({ frame with sibling := frame.sibling.setWord word' } :: path) t :=
  focused_cons.mpr (focused.parent.setWord_far word' some)

variable {wordX : Nat} {valX : Nat × α} {b c : Tree α}

theorem Focused.lift
    (focused : Focused heap path (build side word val (build side wordX valX a b) c))
    (apart : valX'.1 ≠ 0 ∧ valX'.1 ≠ val.1 ∧ valX'.1 ∉ addrs a ++ (addrs b ++ (addrs c ++ pathAddrs path)))
    (cellX : heap'.cell valX'.1 = nodeOf side wordX valX'.2 (ptr a) val.1)
    (cellZ : heap'.cell val.1 = nodeOf side word val.2 (ptr b) (ptr c))
    (agree : ∀ x, x ≠ val.1 → x ≠ valX'.1 → heap'.cell x = heap.cell x) :
    Focused (Rbtree.link heap' path valX'.1) path (build side wordX valX' a (build side word val b c)) := by
  obtain ⟨nonnullX, other, outside⟩ := apart
  simp only [List.mem_append, not_or] at outside
  obtain ⟨notA, notB, notC, notPath⟩ := outside
  obtain ⟨valNotX, valNotC, valOutside⟩ := focused.root_apart
  rw [mem_addrs_build, not_or, not_or] at valNotX
  obtain ⟨nonnull, contents, inX, inC⟩ := in_build.mp focused.subtree
  obtain ⟨_, _, inA, inB⟩ := in_build.mp inX
  have held : In heap' (build side wordX valX' a (build side word val b c)) := by
    refine in_build.mpr ⟨nonnullX, ?_, inA.congr fun x mem => agree x ?_ ?_, in_build.mpr ⟨nonnull, cellZ,
      inB.congr fun x mem => agree x ?_ ?_, inC.congr fun x mem => agree x ?_ ?_⟩⟩
    · rw [cellX, ptr_build]
    · exact fun same => valNotX.2.1 (same ▸ mem)
    · exact fun same => notA (same ▸ mem)
    · exact fun same => valNotX.2.2 (same ▸ mem)
    · exact fun same => notB (same ▸ mem)
    · exact fun same => valNotC (same ▸ mem)
    · exact fun same => notC (same ▸ mem)
  rw [← ptr_build side wordX valX' a (build side word val b c)]
  refine focused.link (fun x mem => agree x ?_ ?_) held ?_
  · exact fun same => valOutside (same ▸ mem)
  · exact fun same => notPath (same ▸ mem)
  have before := nodup_cons.mp (nodup_addrs_build.mp focused.distinct)
  have below := nodup_cons.mp (nodup_addrs_build.mp before.2)
  rw [nodup_addrs_build, nodup_cons]
  refine ⟨by simp [notA, notB, notC, notPath, other], ?_⟩
  have order : (addrs a ++ (addrs (build side word val b c) ++ pathAddrs path)).Perm
      (val.1 :: (addrs a ++ (addrs b ++ (addrs c ++ pathAddrs path)))) := by
    refine (((addrs_build ..).append_right _).append_left _).trans ?_
    rw [List.cons_append, List.append_assoc]
    exact List.perm_middle
  rw [order.nodup_iff, nodup_cons]
  exact ⟨by simp [valNotX.2.1, valNotX.2.2, valNotC, valOutside], below.2⟩

theorem Focused.rotate {a : Tree α}
    (focused : Focused heap path (build side word val (build side wordX valX a b) c)) :
    ∃ heap', rotate side heap (val.1 :: stack path) = (heap', valX.1 :: stack path) ∧
      Writes (val.1 :: valX.1 :: pathAddrs path) heap heap' ∧
      Focused heap' path (build side wordX valX a (build side word val b c)) := by
  have child := focused_near.mpr focused
  obtain ⟨valXNotA, valXNotB, valXOutside⟩ := child.root_apart
  obtain ⟨valXNe, valXNotC, valXNotPath⟩ : valX.1 ≠ val.1 ∧ valX.1 ∉ addrs c ∧ valX.1 ∉ pathAddrs path := by
    simpa [pathAddrs, not_or] using valXOutside
  have firstChild : heap.child side val.1 = valX.1 := focused.child_eq.trans (ptr_build ..)
  have secondChild : heap.child side.flip valX.1 = ptr b := child.child_flip_eq
  -- Both nodes are written before the link, which the order of the writes allows.
  let inner := (heap.setChild side val.1 (ptr b)).setChild side.flip valX.1 val.1
  have cellX : inner.cell valX.1 = nodeOf side wordX valX.2 (ptr a) val.1 := by
    simp only [inner, Heap.setChild]
    rw [cell_modify_self, cell_modify_of_ne _ _ _ valXNe, child.cell_eq, setChild_flip_nodeOf]
  have cellZ : inner.cell val.1 = nodeOf side word val.2 (ptr b) (ptr c) := by
    simp only [inner, Heap.setChild]
    rw [cell_modify_of_ne _ _ _ valXNe.symm, cell_modify_self, focused.cell_eq, setChild_nodeOf]
  have agree : ∀ x, x ≠ val.1 → x ≠ valX.1 → inner.cell x = heap.cell x := fun x other otherX =>
    (cell_modify_of_ne _ _ _ otherX).trans (cell_modify_of_ne _ _ _ other)
  have lifted := focused.lift ⟨child.nonnull, valXNe, by simp [valXNotA, valXNotB, valXNotC, valXNotPath]⟩
    cellX cellZ agree
  have writes : Writes (val.1 :: valX.1 :: pathAddrs path) heap (Rbtree.link inner path valX.1) := by
    refine ⟨by simp [inner, Heap.setChild], fun x outside => ?_⟩
    simp only [List.mem_cons, not_or] at outside
    exact (cell_link_of_notMem _ _ _ outside.2.2).trans (agree x outside.1 outside.2.1)
  refine ⟨_, ?_, writes, lifted⟩
  have patched := focused.patch_eq (by simp)
    (cell_modify_of_notMem heap val.1 (Rbnode.setChild side (ptr b)) focused.root_apart.2.2) valX.1
  rw [ptr_build] at patched
  cases entries : stack path with
  | nil => cases path <;> cases entries
  | cons parent rest =>
    rw [entries, List.headD_cons] at patched
    simp only [Rbtree.rotate, firstChild, secondChild]
    rw [Heap.setChild, Heap.setChild, patched, link_modify _ _ _ valXNotPath]
    rfl

theorem Focused.rotate_flip
    (focused : Focused heap path (build side word val a (build side wordX valX b c))) :
    ∃ heap', Rbtree.rotate side.flip heap (val.1 :: stack path) = (heap', valX.1 :: stack path) ∧
      Writes (val.1 :: valX.1 :: pathAddrs path) heap heap' ∧
      Focused heap' path (build side wordX valX (build side word val a b) c) := by
  have mirrored : Focused heap path (build side.flip word val (build side.flip wordX valX c b) a) := by
    simpa only [build_flip] using focused
  simpa only [build_flip] using mirrored.rotate

theorem cell_alloc_of_ne (heap : Heap α) (node : Rbnode α) (other : a ≠ heap.next) :
    (heap.alloc node).cell a = heap.cell a := update_of_ne other ..

@[simp] theorem cell_alloc_self (heap : Heap α) (node : Rbnode α) :
    (heap.alloc node).cell heap.next = node := update_self ..

@[simp] theorem next_alloc (heap : Heap α) (node : Rbnode α) : (heap.alloc node).next = heap.next + 1 := rfl

/-- A node at an unused address takes the place of the root of the subtree in
focus, with the same subtrees. -/
theorem Focused.replaceRoot {word' : Nat}
    (focused : Focused heap path (build side word val near far)) (nonnull : val'.1 ≠ 0)
    (unused : val'.1 ∉ addrs near ∧ val'.1 ∉ addrs far ∧ val'.1 ∉ pathAddrs path)
    (agree : ∀ a, a ≠ val'.1 → heap'.cell a = heap.cell a)
    (written : heap'.cell val'.1 = nodeOf side word' val'.2 (ptr near) (ptr far)) :
    Focused (Rbtree.link heap' path val'.1) path (build side word' val' near far) := by
  obtain ⟨notNear, notFar, notPath⟩ := unused
  obtain ⟨_, _, inNear, inFar⟩ := in_build.mp focused.subtree
  rw [← ptr_build side word' val' near far]
  refine focused.link (fun a mem => agree a fun same => notPath (same ▸ mem)) ?_ ?_
  · exact in_build.mpr ⟨nonnull, written, inNear.congr fun a mem => agree a fun same => notNear (same ▸ mem),
      inFar.congr fun a mem => agree a fun same => notFar (same ▸ mem)⟩
  · have distinct := nodup_cons.mp (nodup_addrs_build.mp focused.distinct)
    rw [nodup_addrs_build, nodup_cons]
    exact ⟨by simp [notNear, notFar, notPath], distinct.2⟩

end Focus

end Culibs.Cucon.Rbtree
