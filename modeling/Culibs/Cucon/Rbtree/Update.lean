import Culibs.Cucon.Rbtree.Rebalance

namespace Culibs.Cucon.Rbtree

open ColourTree Nat
open List (headD_cons length_append length_cons mem_append nodup_cons)

variable {α : Type} {heap : Heap α} {path : Path α} {t : Tree α}
variable {t' : Tree α} {count : Nat}

section Held

/-- The colour word of the root, or zero for the empty tree. -/
def rootWord : Tree α → Nat
  | nil => 0
  | node word _ _ _ => word

/-- The heap holds a balanced tree at a root whose word is the number of nodes. -/
structure Held (heap : Heap α) (root : Nat) (t : Tree α) : Prop where
  focused : Focused heap [] t
  root_eq : root = ptr t
  fresh : ∀ a ∈ addrs t, a < heap.next
  positive : 0 < heap.next
  balanced : ∃ n, Balanced t n
  sized : rootWord t = t.size

variable {root : Nat}

theorem Held.black (held : Held heap root t) : t.isRed = false := by
  have sized := held.sized
  cases t with
  | nil => rfl
  | node word val left right =>
    have word_eq : word = left.size + right.size + 1 := sized
    simp [isRed, word_eq]

theorem Held.size_eq (held : Held heap root t) : size heap root = t.size := by
  rw [← held.sized, held.root_eq]
  cases t with
  | nil => rfl
  | node word val left right =>
    have nonnull : val.1 ≠ 0 := held.focused.subtree.1
    have contents : heap.cell val.1 = _ := held.focused.subtree.2.1
    rw [size, ptr, if_pos nonnull, contents]
    rfl

theorem held_nil (heap : Heap α) (pos : 0 < heap.next) : Held heap 0 nil :=
  ⟨⟨trivial, trivial, List.nodup_nil⟩, rfl, nofun, pos, ⟨0, rfl⟩, rfl⟩

theorem held_setWord (focused : Focused heap' [] (t'.setWord count))
    (fresh : ∀ a ∈ addrs t', a < heap'.next) (pos : 0 < heap'.next) (balanced : ∃ n, Balanced t' n)
    (sized : t'.size = count) : Held heap' (ptr t') (t'.setWord count) := by
  obtain ⟨n, height⟩ := balanced
  refine ⟨focused, (ptr_setWord _ _).symm, by rwa [addrs_setWord], pos, ?_, ?_⟩
  · cases t' with
    | nil => exact ⟨n, height⟩
    | node =>
      refine height.blacken ?_
      simp only [ColourTree.size] at sized
      omega
  · cases t' with
    | nil => rfl
    | node => exact sized.symm

end Held

variable {fuel : Nat} {path' : Path α}

section Search

/-- The comparison of a slot as one of a node. -/
def onSlot (compare : α → Int) (val : Nat × α) : Int := compare val.2

/-- The search ends at the place that `locate` finds. The last comparison tells
the side of an empty subtree. -/
theorem descend_refines (compare : α → Int) (cmp : Int) (focused : Focused heap path t) (enough : t.size < fuel)
    (last : ∀ frame ∈ path.head?, (cmp < 0 ↔ frame.side = .left)) :
    ∃ t' path' cmp', locate (onSlot compare) t path = (t', path') ∧ Focused heap path' t' ∧
      (t' = nil → descend compare heap fuel (ptr t) (stack path) cmp = some (0, stack path', cmp') ∧
        ∀ frame ∈ path'.head?, (cmp' < 0 ↔ frame.side = .left)) ∧
      (t' ≠ nil → descend compare heap fuel (ptr t) (stack path) cmp =
        some (ptr t', ptr t' :: stack path', cmp')) := by
  obtain ⟨fuel, rfl⟩ := exists_eq_succ_of_ne_zero (ne_zero_of_lt enough)
  induction t generalizing path fuel cmp with
  | nil => exact ⟨nil, path, cmp, rfl, focused, fun _ => ⟨rfl, last⟩, fun some => absurd rfl some⟩
  | node word val left right ihLeft ihRight =>
    have nonnull : val.1 ≠ 0 := focused.subtree.1
    have contents : heap.cell val.1 = _ := focused.subtree.2.1
    have leftSize : left.size < fuel := by simp only [ColourTree.size] at enough; omega
    have rightSize : right.size < fuel := by simp only [ColourTree.size] at enough; omega
    obtain ⟨fuel, rfl⟩ := exists_eq_succ_of_ne_zero (ne_zero_of_lt leftSize)
    have round : descend compare heap (fuel + 1 + 1) val.1 (stack path) cmp =
        if compare val.2 < 0 then descend compare heap (fuel + 1) (ptr left) (val.1 :: stack path) (compare val.2)
        else if 0 < compare val.2 then
          descend compare heap (fuel + 1) (ptr right) (val.1 :: stack path) (compare val.2)
        else some (val.1, val.1 :: stack path, compare val.2) := by
      rw [descend, if_neg nonnull, ← focused.subtree.child_left, ← focused.subtree.child_right, contents]
      rfl
    have top : ptr (node word val left right) = val.1 := rfl
    rw [top, round, locate, onSlot]
    by_cases negative : compare val.2 < 0
    · rw [if_pos negative, if_pos negative]
      refine @ihLeft (⟨.left, word, val, right⟩ :: path) _ (focused_cons.mpr focused) ?_ fuel leftSize
      simp [negative]
    · rw [if_neg negative, if_neg negative]
      by_cases pos : 0 < compare val.2
      · rw [if_pos pos, if_pos pos]
        refine @ihRight (⟨.right, word, val, left⟩ :: path) _ (focused_cons.mpr focused) ?_ fuel rightSize
        simp [negative]
      · rw [if_neg pos, if_neg pos]
        exact ⟨_, path, _, rfl, focused, fun none => absurd none node_ne_nil, fun _ => rfl⟩

theorem Held.search {compare : α → Int} (held : Held heap root t)
    (found : locate (onSlot compare) t [] = (t', path')) : ∃ cmp, Focused heap path' t' ∧ plug path' t' = t ∧
      (t' = nil → descend compare heap (t.size + 1) root [0] 0 = some (0, stack path', cmp) ∧
        ∀ frame ∈ path'.head?, (cmp < 0 ↔ frame.side = .left)) ∧
      (t' ≠ nil → descend compare heap (t.size + 1) root [0] 0 = some (ptr t', ptr t' :: stack path', cmp)) := by
  obtain ⟨t'', path'', cmp, found', focused, result⟩ :=
    descend_refines compare 0 held.focused (lt_succ_self _) (by simp)
  obtain ⟨rfl, rfl⟩ := Prod.mk.inj (found.symm.trans found')
  have rebuilt := plug_locate (onSlot compare) t []
  rw [found] at rebuilt
  rw [← held.root_eq] at result
  exact ⟨cmp, focused, rebuilt, result⟩

private theorem find1mMem_eq (compare : α → Int) (heap : Heap α) (fuel x : Nat) (sp : List Nat) (cmp : Int) :
    find1mMem compare heap fuel x = (descend compare heap fuel x sp cmp).map (·.1) := by
  induction fuel generalizing x sp cmp with
  | zero => rfl
  | succ fuel ih =>
    simp only [find1mMem, descend]
    split
    · rfl
    · split
      · exact ih ..
      · split
        · exact ih ..
        · rfl

theorem find1mMem_refines (compare : α → Int) (focused : Focused heap [] t) (enough : t.size < fuel) :
    find1mMem compare heap fuel (ptr t) = some (ptr (locate (onSlot compare) t []).1) := by
  obtain ⟨t', path', cmp, found, _, absent, present⟩ := descend_refines compare 0 focused enough (by simp)
  rw [find1mMem_eq compare heap fuel _ (stack []) 0, found]
  by_cases none : t' = nil
  · rw [(absent none).1, none]
    rfl
  · rw [present none]
    rfl

end Search

section Insert

variable {cmp : Int}

theorem Focused.attach_eq (slot : α) (focused : Focused heap path nil)
    (last : ∀ frame ∈ path.head?, (cmp < 0 ↔ frame.side = .left)) : attach slot heap (stack path) cmp =
      Rbtree.link (heap.alloc { isBlack := 0, left := 0, right := 0, mem := slot }) path heap.next := by
  cases path with
  | nil => rfl
  | cons frame rest =>
    have nonnull : frame.val.1 ≠ 0 := focused.above.1
    have side : (if cmp < 0 then Side.left else .right) = frame.side := by
      cases held : frame.side <;> simp_all
    simp only [Rbtree.attach, stack_cons, headD_cons, if_pos nonnull, side]
    rfl

theorem Focused.attach (slot : α) (focused : Focused heap path nil)
    (fresh : heap.next ∉ pathAddrs path) (pos : 0 < heap.next)
    (last : ∀ frame ∈ path.head?, (cmp < 0 ↔ frame.side = .left)) :
    Focused (attach slot heap (stack path) cmp) path (node 0 (heap.next, slot) nil nil) := by
  have held : In (heap.alloc { isBlack := 0, left := 0, right := 0, mem := slot }) (node 0 (heap.next, slot) nil nil) :=
    ⟨ne_of_gt pos, cell_alloc_self .., trivial, trivial⟩
  rw [focused.attach_eq slot last]
  refine focused.link ?_ held ?_
  · exact fun a member => cell_alloc_of_ne _ _ fun same => fresh (same ▸ member)
  · exact nodup_cons.mpr ⟨fresh, focused.distinct⟩

variable {root : Nat}

theorem insertNode_present {compare : α → Int} (held : Held heap root t)
    (found : locate (onSlot compare) t [] = (t', path')) (some : t' ≠ nil) :
    insertNode compare slot heap root = .some (heap, root, false, ptr t') := by
  obtain ⟨cmp, focused, _, _, result⟩ := held.search found
  have nonnull : ptr t' ≠ 0 := fun zero => some (focused.subtree.ptr_eq_zero.mp zero)
  simp only [insertNode, held.size_eq, result some]
  rw [if_pos nonnull]

theorem Held.attached (slot : α) (held : Held heap root t) (whole : plug path nil = t)
    (focused : Focused heap path nil) (last : ∀ frame ∈ path.head?, (cmp < 0 ↔ frame.side = .left)) :
    Focused ((attach slot heap (stack path) cmp).setWord heap.next 0) path (node 0 (heap.next, slot) nil nil) ∧
      ∃ m, Accepts path m ∧ Balanced (nil : Tree α) m := by
  have unused : heap.next ∉ pathAddrs path := by
    intro mem
    refine lt_irrefl _ (held.fresh heap.next ?_)
    rw [← whole, (addrs_plug path nil).mem_iff]
    exact List.mem_append_right _ mem
  obtain ⟨n, balanced⟩ := held.balanced
  obtain ⟨m, accepts, empty, _⟩ := accepts_of_balanced (whole.symm ▸ balanced) (whole.symm ▸ held.black)
  exact ⟨(focused.attach slot unused held.positive last).setWord_ptr 0 node_ne_nil, m, accepts, empty⟩

theorem insertNode_absent {compare : α → Int} (slot : α) (held : Held heap root t)
    (found : locate (onSlot compare) t [] = (nil, path')) :
    ∃ heap', insertNode compare slot heap root =
        some (heap', ptr (insertFix path' (node 0 (heap.next, slot) nil nil)), true, heap.next) ∧
      (∀ a, a ∉ addrs t → a ≠ heap.next → heap'.cell a = heap.cell a) ∧
      Held heap' (ptr (insertFix path' (node 0 (heap.next, slot) nil nil)))
        ((insertFix path' (node 0 (heap.next, slot) nil nil)).setWord (t.size + 1)) := by
  let leaf : Tree α := node 0 (heap.next, slot) nil nil
  obtain ⟨cmp, focused, whole, result, _⟩ := held.search found
  obtain ⟨descended, last⟩ := result rfl
  have old : t.inorder = before path' ++ after path' := by
    rw [← whole, inorder_plug]
    simp [inorder]
  have sequence : (insertFix path' leaf).inorder = before path' ++ (heap.next, slot) :: after path' := by
    rw [inorder_insertFix, inorder_plug]
    simp [leaf, inorder]
  obtain ⟨coloured, m, accepts, empty⟩ := held.attached slot whole focused last
  have enough : path'.length < (heap.next :: stack path').length + 1 := by
    simp only [stack, length_cons, length_append, List.length_map]
    omega
  obtain ⟨heap', sp', looped, writes, top, repaired⟩ := rebalanceLoop_refines coloured node_ne_nil accepts enough
  rw [focused.attach_eq slot last] at writes
  have allocated : heap'.next = heap.next + 1 := writes.next.trans (next_link ..)
  have nonempty : insertFix path' leaf ≠ nil := by
    intro none
    rw [none] at sequence
    simp [inorder] at sequence
  have nodes : ∀ a ∈ addrs (insertFix path' leaf), a ∈ addrs t ∨ a = heap.next := by
    intro a mem
    rw [addrs, sequence] at mem
    rw [addrs, old]
    simpa [or_assoc, or_comm (a := a = heap.next)] using mem
  refine ⟨heap'.setWord (ptr (insertFix path' leaf)) (t.size + 1), ?_, fun a outside other => ?_,
    held_setWord (repaired.setWord_ptr _ nonempty) ?_ (lt_of_lt_of_eq (succ_pos _) allocated.symm) ?_ ?_⟩
  · have looped' : rebalanceDtive (attach slot heap (stack path') cmp) (heap.next :: stack path') = some (heap', sp') :=
      looped
    simp only [insertNode, held.size_eq, descended]
    rw [if_neg (not_not.mpr rfl), looped']
    simp only [top, leaf]
  · have notAbove : a ∉ pathAddrs path' := fun mem =>
      outside (by rw [← whole, (addrs_plug path' nil).mem_iff]; exact List.mem_append_right _ mem)
    have notRoot : a ≠ ptr (insertFix path' leaf) := fun same =>
      (nodes a (same ▸ ptr_mem fun zero => nonempty (repaired.subtree.ptr_eq_zero.mp zero))).elim outside other
    have kept := writes.others a (by simp [addrs, inorder, other, notAbove])
    rw [Heap.setWord, cell_modify_of_ne _ _ _ notRoot, kept, Heap.setWord, cell_modify_of_ne _ _ _ other,
      cell_link_of_notMem _ _ _ notAbove, cell_alloc_of_ne _ _ other]
  · intro a mem
    refine lt_of_lt_of_eq ?_ allocated.symm
    rcases nodes a mem with before | rfl
    · exact lt_succ_of_lt (held.fresh a before)
    · exact lt_succ_self _
  · exact balanced_insertFix accepts ((@balanced_red _ .left _ _ _ _).mpr ⟨rfl, rfl, empty, empty⟩) rfl
  · rw [← length_inorder, ← length_inorder, sequence, old]
    simp only [length_append, length_cons]
    omega

end Insert

section Erase

theorem Focused.replaceChild_eq (focused : Focused heap path t) (some : t ≠ nil)
    (agree : ∀ a ∈ pathAddrs path, heap'.cell a = heap.cell a) (p : Nat) :
    replaceChild heap' ((stack path).headD 0) (ptr t) p = Rbtree.link heap' path p := by
  cases path with
  | nil => rfl
  | cons frame rest =>
    have isLeft := focused.child_iff (.inl some) .left
    rw [Heap.child, ← agree _ List.mem_cons_self] at isLeft
    rw [replaceChild, stack_cons, headD_cons, if_pos focused.above.1, Rbtree.link, Heap.child,
      if_congr isLeft rfl rfl]
    cases frame.side <;> rfl

theorem successorPath_refines {inner outer : Path α} (focused : Focused heap (inner ++ outer) t)
    (some : t ≠ nil) (enough : t.size ≤ fuel) :
    successorPath heap fuel (ptr t) (inner.map (·.val.1)) =
      .some (ptr (leftmost t inner).1, (leftmost t inner).2.map (·.val.1)) := by
  fun_induction leftmost t inner generalizing fuel with
  | case1 word val word' val' left right far frames ih =>
    obtain ⟨fuel, rfl⟩ := exists_eq_succ_of_ne_zero (n := fuel) (by simp only [ColourTree.size] at enough; omega)
    have child : heap.child .left val.1 = val'.1 := focused.subtree.child_left
    have nonnull : val'.1 ≠ 0 := focused.subtree.2.2.1.1
    have top : ptr (node word val (node word' val' left right) far) = val.1 := rfl
    rw [top, successorPath, child, if_pos nonnull]
    exact ih (focused_cons.mpr focused) node_ne_nil (by simp only [ColourTree.size] at enough ⊢; omega)
  | case2 t frames leaf =>
    cases t with
    | nil => exact absurd rfl some
    | node word val left right =>
      obtain ⟨fuel, rfl⟩ := exists_eq_succ_of_ne_zero (n := fuel) (by simp only [ColourTree.size] at enough; omega)
      have child := focused.subtree.child_left
      have empty : left = nil := by
        cases left with
        | nil => rfl
        | node word' val' left' right' => exact (leaf word val word' val' left' right' right rfl).elim
      subst empty
      have top : ptr (node word val nil right) = val.1 := rfl
      rw [top, successorPath, child, if_neg (by simp)]

variable {word n : Nat}

theorem eraseFinish_refines (focused : Focused heap path t) (accepts : Accepts path n)
    (deep : word ≠ 0 → n ≠ 0) (colour : unbalanced = true ↔ word ≠ 0) :
    ∃ heap', eraseFinish (count + 1) unbalanced heap (ptr t :: stack path) =
        some (heap', ptr (unlinkFix word path t)) ∧ heap'.next = heap.next ∧
      Focused heap' [] ((unlinkFix word path t).setWord count) := by
  suffices looped : ∃ heap1 sp', (if unbalanced then eraseLoop ((ptr t :: stack path).length + 1) heap (ptr t :: stack path)
      else some (heap, ptr t :: stack path)) = some (heap1, sp') ∧ heap1.next = heap.next ∧
      spRoot sp' = ptr (unlinkFix word path t) ∧ Focused (blackenTop heap1 sp') [] (unlinkFix word path t) by
    obtain ⟨heap1, sp', looped, next, top, repaired⟩ := looped
    have allocated : (blackenTop heap1 sp').next = heap.next := by
      unfold blackenTop
      split
      · exact next
      · exact next
    simp only [eraseFinish, looped, top]
    split
    · next nonnull =>
      refine ⟨_, rfl, allocated, repaired.setWord_ptr count fun none => ?_⟩
      rw [none] at nonnull
      exact nonnull rfl
    · next zero =>
      rw [not_not, repaired.subtree.ptr_eq_zero] at zero
      rw [zero] at repaired ⊢
      exact ⟨_, rfl, allocated, repaired⟩
  unfold unlinkFix
  by_cases black : word = 0
  · have balanced : unbalanced = false := by simpa [black] using colour
    rw [balanced, if_neg (not_not.mpr black)]
    exact ⟨heap, _, rfl, rfl, by rw [← ptr_setWord 1 t, spRoot_stack], focused_plug.mp (focused.blackenTop _)⟩
  · obtain ⟨m, rfl⟩ := exists_eq_succ_of_ne_zero (deep black)
    rw [colour.mpr black, if_pos rfl, if_pos black]
    refine eraseLoop_refines focused accepts ?_
    simp only [stack, length_cons, length_append, List.length_map]
    omega

variable {near : Tree α}
variable {val : Nat × α}

variable {side : Side} {far : Tree α}

theorem Focused.unbalanced_iff
    (focused : Focused heap path (build side word val near far)) :
    decide (¬ heap.isRed val.1 = true) = true ↔ word ≠ 0 := by
  rw [decide_eq_true_iff, Heap.isRed, focused.cell_eq, isBlack_nodeOf, beq_iff_eq]

variable {root : Nat}

private theorem rbtreeErase_single
    (focused : Focused heap path (build side word val nil near)) (single : side = .right → near ≠ nil)
    (accepts : Accepts path n) (balanced : Balanced (build side word val nil near) n)
    (sized : size heap root = count + 1) :
    ∃ heap', rbtreeErase heap root (val.1 :: stack path) = some (heap', ptr (unlinkFix word path near)) ∧
      heap'.next = heap.next ∧ Focused heap' [] ((unlinkFix word path near).setWord count) := by
  obtain ⟨_, _, _, inNear⟩ := in_build.mp focused.subtree
  have distinct : (addrs near ++ pathAddrs path).Nodup :=
    (nodup_cons.mp (nodup_addrs_build.mp focused.distinct)).2
  have linked := focused.link (fun _ _ => rfl) inNear distinct
  have replaced := focused.replaceChild_eq (by simp) (fun _ _ => rfl) (ptr near)
  rw [ptr_build] at replaced
  have first : heap.child side val.1 = 0 := focused.child_eq
  have second : heap.child side.flip val.1 = ptr near := focused.child_flip_eq
  have only : heap.child .left val.1 = 0 ∨ heap.child .right val.1 = 0 := by
    cases side with
    | left => exact .inl first
    | right => exact .inr first
  have x_eq : (if heap.child .left val.1 = 0 then heap.child .right val.1 else heap.child .left val.1) = ptr near := by
    cases side with
    | left => rw [if_pos first]; exact second
    | right =>
      rw [if_neg]
      · exact second
      · exact fun zero => single rfl (inNear.ptr_eq_zero.mp (second.symm.trans zero))
  have deep : word ≠ 0 → n ≠ 0 := by
    intro black
    obtain ⟨m, rfl, _⟩ := (balanced_black black).mp balanced
    exact succ_ne_zero m
  obtain ⟨heap', finished, next, repaired⟩ := eraseFinish_refines linked accepts deep focused.unbalanced_iff
  refine ⟨heap', ?_, next.trans (next_link ..), repaired⟩
  cases entries : stack path with
  | nil => exact absurd entries (by simp [stack])
  | cons parent rest =>
    rw [entries, headD_cons] at replaced
    rw [entries] at finished
    simp only [rbtreeErase, x_eq, replaced, sized]
    rw [if_pos only]
    exact finished

variable {left : Tree α}
variable {above path : Path α}

theorem unlinkSuccessor_eq (heap : Heap α) (p : Nat)
    (sides : ∀ frame ∈ above, frame.side = .left) :
    unlinkSuccessor heap val.1 p (above.map (·.val.1)) = link heap (above ++ ⟨.right, word, val, left⟩ :: path) p := by
  cases above with
  | nil => rfl
  | cons frame rest =>
    rw [List.cons_append, link, sides frame (List.mem_cons_self ..)]
    rfl

private theorem copyNode_written
    (focused : Focused heap path (build .right word val near far)) (other : y ≠ val.1) :
    (copyNode heap y val.1).cell y = nodeOf .right word (heap.cell y).mem (ptr near) (ptr far) ∧
      (∀ a, a ≠ y → (copyNode heap y val.1).cell a = heap.cell a) ∧ (copyNode heap y val.1).next = heap.next := by
  let heap1 := heap.setChild .left y (heap.child .left val.1)
  let heap2 := heap1.setChild .right y (heap1.child .right val.1)
  have kept1 : ∀ a, a ≠ y → heap1.cell a = heap.cell a := fun a apart => cell_modify_of_ne _ _ _ apart
  have kept2 : ∀ a, a ≠ y → heap2.cell a = heap.cell a := fun a apart =>
    (cell_modify_of_ne _ _ _ apart).trans (kept1 a apart)
  have leftEq : heap.child .left val.1 = ptr far := focused.child_flip_eq
  have rightEq : heap1.child .right val.1 = ptr near := by
    rw [Heap.child, kept1 _ other.symm]
    exact focused.child_eq
  have colour : (heap2.cell val.1).isBlack = word := by
    rw [kept2 _ other.symm, focused.cell_eq, isBlack_nodeOf]
  have last : copyNode heap y val.1 =
      heap2.modify y fun node => { node with isBlack := (heap2.cell val.1).isBlack } := rfl
  rw [last]
  refine ⟨?_, fun a apart => (cell_modify_of_ne _ _ _ apart).trans (kept2 a apart), rfl⟩
  rw [cell_modify_self, colour]
  simp only [heap2, Heap.setChild, cell_modify_self, rightEq]
  simp only [heap1, Heap.setChild, cell_modify_self, leftEq]
  rfl

theorem rbtreeErase_inner {wordY : Nat} {valY : Nat × α} {right x : Tree α}
    (focused : Focused heap path (node word val left right)) (leftSome : left ≠ nil) (rightSome : right ≠ nil)
    (found : leftmost right [] = (node wordY valY nil x, above)) (sides : ∀ frame ∈ above, frame.side = .left)
    (accepts : Accepts (above ++ ⟨.right, word, val, left⟩ :: path) n)
    (balanced : Balanced (node wordY valY nil x) n) (sized : size heap root = count + 1)
    (enough : right.size ≤ count + 1 + 1) :
    ∃ heap', rbtreeErase heap root (val.1 :: stack path) =
        some (heap', ptr (unlinkFix wordY (above ++ ⟨.right, word, valY, left⟩ :: path) x)) ∧
      heap'.next = heap.next ∧
      Focused heap' [] ((unlinkFix wordY (above ++ ⟨.right, word, valY, left⟩ :: path) x).setWord count) := by
  have rebuilt := plug_leftmost right []
  rw [found, plug_nil] at rebuilt
  have inRight : Focused heap (⟨.right, word, val, left⟩ :: path) right := focused_cons.mpr focused
  have successor := @successorPath_refines _ _ _ (count + 1 + 1) [] _ inRight rightSome enough
  rw [found] at successor
  have atY : Focused heap (above ++ ⟨.right, word, val, left⟩ :: path) (build .left wordY valY nil x) := by
    rw [focused_append]
    exact rebuilt ▸ inRight
  obtain ⟨_, notX, notPath⟩ := atY.root_apart
  -- The subtree of the successor takes its place.
  let heap1 := link heap (above ++ ⟨.right, word, val, left⟩ :: path) (ptr x)
  have atX : Focused heap1 (above ++ ⟨.right, word, val, left⟩ :: path) x :=
    atY.link (fun _ _ => rfl) (in_build.mp atY.subtree).2.2.2
      (nodup_cons.mp (nodup_addrs_build.mp atY.distinct)).2
  have cellY : heap1.cell valY.1 = nodeOf .left wordY valY.2 (ptr nil) (ptr x) :=
    (cell_link_of_notMem _ _ _ notPath).trans atY.cell_eq
  have atZ : Focused heap1 path (build .right word val (plug above x) left) :=
    focused_near.mp (focused_append.mp atX)
  rw [pathAddrs_append, pathAddrs, mem_append, List.mem_cons, mem_append] at notPath
  obtain ⟨notAbove, notZ, notLeft, notOuter⟩ : valY.1 ∉ pathAddrs above ∧ valY.1 ≠ val.1 ∧
      valY.1 ∉ addrs left ∧ valY.1 ∉ pathAddrs path := by
    simpa [not_or] using notPath
  have notNear : valY.1 ∉ addrs (plug above x) := by
    rw [(addrs_plug above x).mem_iff, mem_append]
    exact fun either => either.elim notX notAbove
  -- Then the successor takes the place of the erased node.
  obtain ⟨written, kept, next3⟩ := copyNode_written atZ notZ
  rw [cellY, mem_nodeOf] at written
  have replaced := atZ.replaceRoot atY.nonnull ⟨notNear, notLeft, notOuter⟩ kept written
  have replaced' := atZ.replaceChild_eq (by simp) (fun a mem => kept a fun same => notOuter (same ▸ mem)) valY.1
  have spliced := focused_append.mpr (focused_near.mpr replaced)
  have deep : wordY ≠ 0 → n ≠ 0 := by
    intro black
    obtain ⟨m, rfl, _⟩ := (@balanced_black _ .left _ _ _ _ _ black).mp balanced
    exact succ_ne_zero m
  have colour : decide (¬ heap1.isRed valY.1 = true) = true ↔ wordY ≠ 0 := by
    rw [decide_eq_true_iff, Heap.isRed, cellY, isBlack_nodeOf, beq_iff_eq]
  obtain ⟨heap', finished, next, repaired⟩ := eraseFinish_refines spliced (accepts.congr valY) deep colour
  refine ⟨heap', ?_, ?_, repaired⟩
  · have inner : ¬ (ptr left = 0 ∨ ptr right = 0) := by
      rw [focused.subtree.2.2.1.ptr_eq_zero, focused.subtree.2.2.2.ptr_eq_zero]
      exact fun either => either.elim leftSome rightSome
    have xEq : heap.child .right valY.1 = ptr x := atY.child_flip_eq
    have unlinked : _ = heap1 := unlinkSuccessor_eq heap (ptr x) sides
    cases entries : stack path with
    | nil => exact absurd entries (by simp [stack])
    | cons parent rest =>
      rw [entries, headD_cons, ptr_build] at replaced'
      rw [stack_append, stack_cons, entries] at finished
      have top : ptr (node wordY valY nil x) = valY.1 := rfl
      simp only [rbtreeErase, focused.subtree.child_left, focused.subtree.child_right, sized]
      rw [if_neg inner]
      rw [List.map_nil] at successor
      simp only [successor, top, xEq, unlinked, replaced']
      exact finished
  · rw [next, next_link, next3]
    exact next_link ..

theorem eraseNode_absent {compare : α → Int} (held : Held heap root t)
    (found : locate (onSlot compare) t [] = (nil, path')) : eraseNode compare heap root = some (heap, root, 0) := by
  obtain ⟨cmp, _, _, result, _⟩ := held.search found
  obtain ⟨descended, _⟩ := result rfl
  simp [eraseNode, held.size_eq, descended]

theorem eraseNode_present {compare : α → Int}
    (held : Held heap root t) (found : locate (onSlot compare) t [] = (node word val left right, path')) :
    ∃ heap', eraseNode compare heap root =
        some (heap', ptr (eraseAt path' (node word val left right)), val.1) ∧ heap'.next = heap.next ∧
      Held heap' (ptr (eraseAt path' (node word val left right)))
        ((eraseAt path' (node word val left right)).setWord (t.size - 1)) := by
  obtain ⟨cmp, focused, whole, _, result⟩ := held.search found
  have descended := result node_ne_nil
  have nonnull : val.1 ≠ 0 := focused.subtree.1
  have old : t.inorder = before path' ++ left.inorder ++ val :: (right.inorder ++ after path') := by
    rw [← whole, inorder_plug]
    simp [inorder]
  have sequence := inorder_eraseAt path' word val left right
  obtain ⟨count, counted⟩ : ∃ count, t.size = count + 1 := by
    refine ⟨t.size - 1, ?_⟩
    rw [← length_inorder, old, length_append, length_cons]
    omega
  have sized : size heap root = count + 1 := held.size_eq.trans counted
  obtain ⟨n, balanced⟩ := held.balanced
  have whole_balanced : Balanced (plug path' (node word val left right)) n := whole.symm ▸ balanced
  have whole_black : (plug path' (node word val left right)).isRed = false := whole.symm ▸ held.black
  suffices erased : ∃ heap', rbtreeErase heap root (val.1 :: stack path') =
      some (heap', ptr (eraseAt path' (node word val left right))) ∧ heap'.next = heap.next ∧
      Focused heap' [] ((eraseAt path' (node word val left right)).setWord count) by
    obtain ⟨heap', erased, next, repaired⟩ := erased
    refine ⟨heap', ?_, next, ?_⟩
    · have top : ptr (node word val left right) = val.1 := rfl
      simp only [eraseNode, held.size_eq, descended, top]
      rw [if_neg nonnull, erased]
    rw [counted]
    refine held_setWord repaired (fun a mem => ?_) (next ▸ held.positive)
      (balanced_eraseAt whole_balanced whole_black node_ne_nil) ?_
    · rw [addrs] at mem
      refine next ▸ held.fresh a ?_
      rw [addrs]
      grind
    · rw [← length_inorder] at counted ⊢
      rw [old] at counted
      rw [sequence]
      simp only [length_append, length_cons] at counted ⊢
      omega
  rcases eraseAt_cases path' word val left right with
    ⟨side, near, shape, single, erased⟩ | ⟨leftSome, rightSome, wordY, valY, x, above, first, rebuilt, sides, erased⟩
  · rw [shape] at focused whole_balanced whole_black
    obtain ⟨m, accepts, inner, _⟩ := accepts_of_balanced whole_balanced whole_black
    rw [erased]
    exact rbtreeErase_single focused single accepts inner sized
  have regrouped : plug path' (node word val left right) =
      plug (above ++ ⟨.right, word, val, left⟩ :: path') (node wordY valY nil x) := by
    rw [plug_append, rebuilt]
    rfl
  rw [regrouped] at whole_balanced whole_black
  obtain ⟨m, accepts, inner, _⟩ := accepts_of_balanced whole_balanced whole_black
  rw [erased]
  refine rbtreeErase_inner focused leftSome rightSome first sides accepts inner sized ?_
  rw [← counted, ← length_inorder, ← length_inorder, old]
  simp only [length_append, length_cons]
  omega

end Erase

section Store

/-- The effect of writing a slot on the nodes of a tree. -/
def store (p : Nat) (mem : α) (val : Nat × α) : Nat × α := if val.1 = p then (p, mem) else val

variable (p : Nat) (mem : α)

@[simp] theorem store_fst (val : Nat × α) : (store p mem val).1 = val.1 := by
  unfold store
  split
  · next same => exact same.symm
  · rfl

theorem store_of_ne (other : val.1 ≠ p) : store p mem val = val := if_neg other

theorem ptr_map_store (t : Tree α) : ptr (t.map (store p mem)) = ptr t := by
  cases t with
  | nil => rfl
  | node word val left right => exact store_fst p mem val

private theorem addrs_map_store (t : Tree α) : addrs (t.map (store p mem)) = addrs t := by
  rw [addrs, inorder_map, List.map_map]
  exact List.map_congr_left fun val _ => store_fst p mem val

theorem In.setMem (held : In heap t) : In (heap.setMem p mem) (t.map (store p mem)) := by
  induction t with
  | nil => trivial
  | node word val left right ihLeft ihRight =>
    obtain ⟨nonnull, contents, inLeft, inRight⟩ := held
    refine ⟨by rwa [store_fst], ?_, ihLeft inLeft, ihRight inRight⟩
    rw [store_fst, ptr_map_store, ptr_map_store]
    by_cases same : val.1 = p
    · subst same
      rw [Heap.setMem, cell_modify_self, contents, store, if_pos rfl]
      rfl
    · rw [Heap.setMem, cell_modify_of_ne _ _ _ same, contents, store_of_ne p mem same]

theorem Held.setMem (held : Held heap root t) :
    Held (heap.setMem p mem) root (t.map (store p mem)) := by
  obtain ⟨n, balanced⟩ := held.balanced
  refine ⟨⟨held.focused.subtree.setMem p mem, trivial, ?_⟩, ?_, ?_, held.positive, ⟨n, balanced_map.mpr balanced⟩, ?_⟩
  · rw [addrs_map_store]
    exact held.focused.distinct
  · rw [ptr_map_store]
    exact held.root_eq
  · rw [addrs_map_store]
    exact held.fresh
  · rw [size_map, ← held.sized]
    cases t <;> rfl

end Store

end Culibs.Cucon.Rbtree
