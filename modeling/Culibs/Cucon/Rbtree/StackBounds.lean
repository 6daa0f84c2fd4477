import Culibs.Cucon.Rbtree.Persist
import Culibs.Cucon.Rbtree.Slots

/-! The path stack is never indexed out of bounds: on a balanced tree the
operations that check each access to the stack do what the unchecked ones do. -/

namespace Culibs.Cucon.Rbtree

open ColourTree Option
open List (cons_append headD_cons length_append length_cons length_nil mem_append mem_cons nil_append nodup_cons)

variable {α : Type}

section Stack

variable {heap : Heap α} {path : Path α} {t : Tree α}

theorem stack_last (path : Path α) : (stack path).getLast? = some 0 := by simp [stack]

theorem length_stack (path : Path α) : (stack path).length = path.length + 1 := by simp [stack]

theorem map_sublist (path : Path α) : (path.map (·.val.1)).Sublist (pathAddrs path) := by
  induction path with
  | nil => exact List.Sublist.refl _
  | cons frame rest ih => exact (ih.trans (List.sublist_append_right ..)).cons_cons _

theorem InPath.nonnull (held : InPath heap path p) : ∀ q ∈ path.map (·.val.1), q ≠ 0 := by
  induction path generalizing p with
  | nil => exact nofun
  | cons frame rest ih =>
    intro q mem
    rcases mem_cons.mp mem with rfl | mem
    · exact held.1
    · exact ih held.2.2.2 q mem

theorem Spine.bound_stack (spine : Spine old heap path t) :
    ∀ p ∈ ptr t :: stack path, p < heap.next := by
  intro p mem
  by_cases null : p = 0
  · exact null ▸ Nat.zero_lt_of_lt spine.room
  · refine spine.bound p (mem_append.mpr ?_)
    rcases mem_cons.mp mem with rfl | mem
    · exact .inl (ptr_mem null)
    · rcases mem_append.mp mem with mem | mem
      · exact .inr ((map_sublist path).subset mem)
      · exact absurd (List.mem_singleton.mp mem) null

end Stack

namespace Checked

section Entries

theorem push_eq (p : Nat) (room : sp.length < slots) :
    push slots p sp = some (p :: sp) := if_pos room

theorem rotate_at (side : Side) (heap : Heap α) (inner : List Nat) (z parent : Nat) (rest : List Nat) :
    Checked.rotate side heap (inner ++ z :: parent :: rest) inner.length =
      some ((Rbtree.rotate side heap (z :: parent :: rest)).1,
        inner ++ (Rbtree.rotate side heap (z :: parent :: rest)).2) := by
  simp [Checked.rotate, Rbtree.rotate, store]

private theorem rotateCtive_at (junk newNode : Nat) (side : Side) (heap : Heap α) (inner : List Nat) (z parent : Nat)
    (rest : List Nat) :
    Checked.rotateCtive junk side newNode heap (inner ++ z :: parent :: rest) inner.length =
      some ((Rbtree.rotateCtive junk side newNode heap (z :: parent :: rest)).1,
        inner ++ (Rbtree.rotateCtive junk side newNode heap (z :: parent :: rest)).2) := by
  simp [Checked.rotateCtive, Rbtree.rotateCtive, store]

theorem spRoot_eq (long : 2 ≤ sp.length) : spRoot sp = some (Rbtree.spRoot sp) := by
  fun_induction Rbtree.spRoot sp with
  | case1 root null => rfl
  | case2 p rest other ih =>
    cases rest with
    | nil => exact absurd long (by simp)
    | cons q rest =>
      cases rest with
      | nil => exact absurd rfl (other q)
      | cons r rest => exact ih (by simp)
  | case3 => exact absurd long (by simp)

end Entries

variable {fuel : Nat}

section Search

theorem descend_eq {heap : Heap α} {compare : α → Int} {x : Nat} {sp : List Nat} {cmp : Int}
    {found : Nat × List Nat × Int} (descended : Rbtree.descend compare heap fuel x sp cmp = some found) :
    sp.length ≤ found.2.1.length ∧
      (found.2.1.length ≤ slots → descend slots compare heap fuel x sp cmp = some found) := by
  induction fuel generalizing x sp cmp with
  | zero => cases descended
  | succ fuel ih =>
    unfold Rbtree.descend at descended
    unfold descend
    split at descended
    · next null =>
      cases descended
      exact ⟨le_rfl, fun _ => if_pos null⟩
    · next nonnull =>
      rw [if_neg nonnull]
      -- One push, whatever the comparison says.
      suffices inner : (x :: sp).length ≤ found.2.1.length ∧ (found.2.1.length ≤ slots →
          (let cmp := compare (heap.cell x).mem
          if cmp < 0 then descend slots compare heap fuel (heap.child .left x) (x :: sp) cmp
          else if cmp > 0 then descend slots compare heap fuel (heap.child .right x) (x :: sp) cmp
          else some (x, x :: sp, cmp)) = some found) by
        refine ⟨Nat.le_of_succ_le inner.1, fun fits => ?_⟩
        rw [push_eq x (lt_of_lt_of_le inner.1 fits)]
        exact inner.2 fits
      dsimp only at descended ⊢
      split at descended
      · next negative =>
        rw [if_pos negative]
        exact ih descended
      · next notNegative =>
        rw [if_neg notNegative]
        split at descended
        · next pos =>
          rw [if_pos pos]
          exact ih descended
        · next notPositive =>
          rw [if_neg notPositive]
          cases descended
          exact ⟨le_rfl, fun _ => rfl⟩

theorem successorPath_eq {heap : Heap α}
    (outer : List Nat) (followed : Rbtree.successorPath heap fuel y above = some found)
    (fits : found.2.length + 1 + outer.length ≤ slots) :
    above.length ≤ found.2.length ∧
      successorPath slots heap fuel y (y :: (above ++ outer)) = some (found.1, found.1 :: (found.2 ++ outer)) := by
  induction fuel generalizing y above with
  | zero => cases followed
  | succ fuel ih =>
    unfold Rbtree.successorPath at followed
    unfold successorPath
    split at followed
    · next left =>
      obtain ⟨longer, inner⟩ := ih followed
      rw [length_cons] at longer
      have room : (y :: (above ++ outer)).length < slots := by
        rw [length_cons, length_append]
        omega
      rw [if_pos left, push_eq _ room]
      exact ⟨Nat.le_of_succ_le longer, inner⟩
    · next leaf =>
      rw [if_neg leaf]
      cases followed
      exact ⟨le_rfl, rfl⟩

end Search

theorem bind_spRoot {result : Option (Heap α × List Nat)}
    (long : ∀ fixed, result = some fixed → 2 ≤ fixed.2.length) (finish : Heap α → Nat → β) :
    (result.bind fun fixed => (spRoot fixed.2).bind fun root => some (finish fixed.1 root)) =
      result.map fun fixed => finish fixed.1 (Rbtree.spRoot fixed.2) := by
  cases result with
  | none => rfl
  | some fixed => rw [bind_some, spRoot_eq (long fixed rfl), bind_some, map_some]

variable {fixed : Heap α × List Nat}

section Insert

/-- A stack that ends with the `NULL` above the root, which is not red below the
top of the stack. -/
structure Capped (heap : Heap α) (sp : List Nat) : Prop where
  last : sp.getLast? = some 0
  distinct : sp.Nodup
  black : 2 ≤ sp.tail.length → heap.isRed (Rbtree.spRoot sp.tail) = false

private theorem spRoot_mem (long : 2 ≤ sp.length) : Rbtree.spRoot sp ∈ sp :=
  List.mem_of_getElem? (((if_pos long).symm.trans (spRoot_eq long)))

variable {heap heap' : Heap α} {sp0 sp1 sp2 : Nat} {rest above : List Nat}

theorem Capped.above_red (capped : Capped heap (sp0 :: sp1 :: rest)) (red : sp1 ≠ 0 ∧ heap.isRed sp1) :
    ∃ sp2 sp3 above, rest = sp2 :: sp3 :: above := by
  cases rest with
  | nil => exact absurd (some.inj capped.last) red.1
  | cons sp2 rest =>
    cases rest with
    | nil => exact absurd red.2 (by simpa [Rbtree.spRoot] using capped.black)
    | cons sp3 above => exact ⟨sp2, sp3, above, rfl⟩

theorem Capped.up (capped : Capped heap (sp0 :: sp1 :: sp2 :: sp3 :: above))
    (colours : ∀ p ∈ sp3 :: above, p ≠ sp2 → heap.isRed p = false → heap'.isRed p = false) :
    Capped heap' (sp2 :: sp3 :: above) := by
  have distinct := (nodup_cons.mp (nodup_cons.mp capped.distinct).2).2
  refine ⟨by simpa using capped.last, distinct, fun long => ?_⟩
  have mem : Rbtree.spRoot (sp3 :: above) ∈ sp3 :: above := spRoot_mem long
  refine colours _ mem (fun same => (nodup_cons.mp distinct).1 (same ▸ mem)) ?_
  cases above with
  | nil => exact absurd long (by simp)
  | cons sp4 above => exact capped.black (by simp)

theorem isRed_setWord_of_ne (heap : Heap α) (word : Nat) (other : q ≠ p) :
    (heap.setWord p word).isRed q = heap.isRed q := by
  rw [Heap.isRed, Heap.setWord, cell_modify_of_ne _ _ _ other]
  rfl

theorem isRed_becomeBlack (black : heap.isRed q = false) : (heap.becomeBlack p).isRed q = false := by
  by_cases same : q = p
  · subst same
    rw [Heap.isRed, Heap.becomeBlack, Heap.setWord, cell_modify_self]
    rfl
  · rwa [Heap.becomeBlack, isRed_setWord_of_ne _ _ same]

theorem isRed_setChild (heap : Heap α) (side : Side) (p child q : Nat) :
    (heap.setChild side p child).isRed q = heap.isRed q := by
  rw [Heap.isRed, isBlack_setChild]
  rfl

theorem isRed_patch (heap : Heap α) (p old new q : Nat) : (patch heap p old new).isRed q = heap.isRed q := by
  unfold patch
  split
  · split
    · exact isRed_setChild ..
    · exact isRed_setChild ..
  · rfl

theorem isRed_rotate (side : Side) (heap : Heap α) (z parent q : Nat) (rest : List Nat) :
    (Rbtree.rotate side heap (z :: parent :: rest)).1.isRed q = heap.isRed q := by
  simp only [Rbtree.rotate, isRed_setChild, isRed_patch]

private theorem rebalanceTurn_eq (side : Side) (heap : Heap α) (sp0 sp1 sp2 sp3 : Nat) (above : List Nat) :
    Checked.rebalanceTurn side heap (sp0 :: sp1 :: sp2 :: sp3 :: above) =
      some ((Rbtree.rebalanceTurn side heap sp0 sp1 sp2 (sp3 :: above)).1,
        sp0 :: (Rbtree.rebalanceTurn side heap sp0 sp1 sp2 (sp3 :: above)).2) := by
  by_cases crossed : sp0 = heap.child side.flip sp1
  · simp [Checked.rebalanceTurn, Rbtree.rebalanceTurn, Checked.rotate, Rbtree.rotate, store, crossed]
  · simp [Checked.rebalanceTurn, Rbtree.rebalanceTurn, Checked.rotate, Rbtree.rotate, store, crossed]

private theorem rebalanceTurn_black (side : Side) (heap : Heap α) (sp3 : Nat) (above : List Nat) (apart0 : sp0 ≠ sp2)
    (apart1 : sp1 ≠ sp2) : ∃ heap' s1 s2, Rbtree.rebalanceTurn side heap sp0 sp1 sp2 (sp3 :: above) =
      (heap', s1 :: s2 :: sp3 :: above) ∧ heap'.isRed s1 = false := by
  unfold Rbtree.rebalanceTurn
  have written (heap : Heap α) {p : Nat} (other : p ≠ sp2) :
      (((heap.becomeBlack p).becomeRed sp2)).isRed p = false := by
    rw [Heap.becomeRed, isRed_setWord_of_ne _ _ other, Heap.isRed, Heap.becomeBlack, Heap.setWord, cell_modify_self]
    rfl
  by_cases crossed : sp0 = heap.child side.flip sp1
  · refine ⟨_, heap.child side.flip sp1, _, by rw [if_pos crossed]; rfl, ?_⟩
    have lifted : heap.child side.flip sp1 ≠ sp2 := crossed ▸ apart0
    rw [isRed_rotate]
    exact written _ lifted
  · refine ⟨_, sp1, _, by rw [if_neg crossed]; rfl, ?_⟩
    rw [isRed_rotate]
    exact written _ apart1

theorem rebalanceLoop_stop (fuel : Nat) (stop : ¬ (sp1 ≠ 0 ∧ heap.isRed sp1)) :
    rebalanceLoop (fuel + 1) heap (sp0 :: sp1 :: rest) = some (heap, sp0 :: sp1 :: rest) := by
  exact if_neg stop

private theorem rebalanceLoop_eq (fuel : Nat) (capped : Capped heap (sp0 :: sp1 :: rest)) :
    rebalanceLoop fuel heap (sp0 :: sp1 :: rest) = Rbtree.rebalanceLoop fuel heap (sp0 :: sp1 :: rest) := by
  induction fuel generalizing heap sp0 sp1 rest with
  | zero => rfl
  | succ fuel ih =>
    by_cases red : sp1 ≠ 0 ∧ heap.isRed sp1
    · obtain ⟨sp2, sp3, above, rfl⟩ := capped.above_red red
      unfold rebalanceLoop Rbtree.rebalanceLoop
      simp only [List.getElem?_cons_succ, List.getElem?_cons_zero, bind_eq_bind, bind_some]
      rw [if_pos red, if_pos red]
      generalize (if sp1 = heap.child .left sp2 then Side.left else Side.right) = side
      by_cases uncle : heap.child side.flip sp2 ≠ 0 ∧ heap.isRed (heap.child side.flip sp2)
      · rw [if_pos uncle, if_pos uncle]
        refine ih (capped.up fun p _ other black => ?_)
        rw [Heap.becomeRed, isRed_setWord_of_ne _ _ other]
        exact isRed_becomeBlack (isRed_becomeBlack black)
      rw [if_neg uncle, if_neg uncle, rebalanceTurn_eq]
      have distinct := capped.distinct
      simp only [nodup_cons, mem_cons, not_or] at distinct
      obtain ⟨heap', s1, s2, turned, black⟩ := @rebalanceTurn_black _ _ _ sp2 side heap sp3 above
        distinct.1.2.1 distinct.2.1.1
      rw [turned]
      have stop : ¬ (s1 ≠ 0 ∧ heap'.isRed s1) := fun both => by simp [black] at both
      cases fuel with
      | zero => rfl
      | succ fuel => exact (rebalanceLoop_stop fuel stop).trans (rebalanceLoop_black stop).symm
    · rw [rebalanceLoop_stop fuel red, rebalanceLoop_black red]

theorem length_rebalanceLoop {heap : Heap α}
    (looped : Rbtree.rebalanceLoop fuel heap sp = some fixed) : 2 ≤ fixed.2.length := by
  fun_induction Rbtree.rebalanceLoop fuel heap sp with
  | case1 => cases looped
  | case2 => cases looped
  | case3 fuel heap sp0 sp1 red sp2 above side y uncle _ _ _ ih => exact ih looped
  | case4 fuel heap sp0 sp1 red sp2 above side y uncle turned ih => exact ih looped
  | case5 =>
    cases looped
    exact Nat.le_add_left ..
  | case6 => cases looped

end Insert

section Ctive

variable (junk : Nat) {newNode : Nat} {heap heap' : Heap α} {sp0 sp1 sp2 sp3 : Nat} {rest above : List Nat}

theorem isRed_newCopy_of_ne (heap : Heap α) (src : Nat) (other : q ≠ heap.next) :
    (newCopy junk heap src).isRed q = heap.isRed q := by
  rw [Heap.isRed, newCopy, cell_alloc_of_ne _ _ other]
  rfl

private theorem next_patch (heap : Heap α) (p old new : Nat) : (patch heap p old new).next = heap.next := by
  unfold patch
  split
  · split <;> rfl
  · rfl

theorem rotateCtive_lifts (newNode : Nat) (side : Side) (heap : Heap α) (z parent : Nat) (rest : List Nat) :
    ∃ heap' x, Rbtree.rotateCtive junk side newNode heap (z :: parent :: rest) = (heap', x :: parent :: rest) ∧
      (x = heap.child side z ∧ heap.next ≤ heap'.next ∨ x = heap.next ∧ heap.next < heap'.next) ∧
      ∀ q, q < heap.next → heap'.isRed q = heap.isRed q := by
  refine ⟨_, _, rfl, ?_, fun q before => ?_⟩
  · split
    · exact .inl ⟨rfl, by simp [Heap.setChild, next_patch]⟩
    · exact .inr ⟨rfl, by simp [Heap.setChild, next_patch, newCopy]⟩
  · rw [isRed_setChild, isRed_patch, isRed_setChild]
    split
    · rfl
    · rw [isRed_setChild, isRed_newCopy_of_ne _ _ _ (ne_of_lt before)]

theorem rebalanceTurnCtive_eq (newNode : Nat) (side : Side) (heap : Heap α) (sp0 sp1 sp2 sp3 : Nat)
    (above : List Nat) :
    Checked.rebalanceTurnCtive junk newNode side heap (sp0 :: sp1 :: sp2 :: sp3 :: above) =
      some ((Rbtree.rebalanceTurnCtive junk newNode side heap sp0 sp1 sp2 (sp3 :: above)).1,
        sp0 :: (Rbtree.rebalanceTurnCtive junk newNode side heap sp0 sp1 sp2 (sp3 :: above)).2) := by
  have inner := rotateCtive_at junk newNode side.flip heap [sp0] sp1 sp2 (sp3 :: above)
  have outer (heap : Heap α) (s1 : Nat) := rotateCtive_at junk newNode side heap [sp0, s1] sp2 sp3 above
  simp only [cons_append, nil_append, length_cons, length_nil, zero_add] at inner outer
  obtain ⟨heap1, x, turned, _⟩ := rotateCtive_lifts junk newNode side.flip heap sp1 sp2 (sp3 :: above)
  unfold Checked.rebalanceTurnCtive Rbtree.rebalanceTurnCtive
  simp only [List.getElem?_cons_succ, List.getElem?_cons_zero, bind_eq_bind, bind_some]
  by_cases crossed : sp0 = heap.child side.flip sp1
  · rw [if_pos crossed, if_pos crossed]
    exact outer ..
  · rw [if_neg crossed, if_neg crossed]
    exact outer ..

theorem rebalanceTurnCtive_black (newNode : Nat) (side : Side) (sp3 : Nat) (above : List Nat)
    (capped : Capped heap (sp0 :: sp1 :: sp2 :: sp3 :: above))
    (bound : ∀ p ∈ sp0 :: sp1 :: sp2 :: sp3 :: above, p < heap.next) :
    ∃ heap' s1 s2, Rbtree.rebalanceTurnCtive junk newNode side heap sp0 sp1 sp2 (sp3 :: above) =
      (heap', s1 :: s2 :: sp3 :: above) ∧ heap'.isRed s1 = false := by
  have distinct := capped.distinct
  simp only [nodup_cons, mem_cons, not_or] at distinct
  have before0 : sp0 < heap.next := bound sp0 (by simp)
  have before1 : sp1 < heap.next := bound sp1 (by simp)
  have before2 : sp2 < heap.next := bound sp2 (by simp)
  -- The node below the last rotation is one of the stack or a copy made before.
  have last (heap1 : Heap α) (s1 : Nat) (other : s1 ≠ sp2) (before : s1 < heap1.next) :
      ∃ heap' s2, Rbtree.rotateCtive junk side newNode ((heap1.becomeBlack s1).becomeRed sp2) (sp2 :: sp3 :: above) =
        (heap', s2 :: sp3 :: above) ∧ heap'.isRed s1 = false := by
    obtain ⟨heap', s2, turned, _, colours⟩ := rotateCtive_lifts junk newNode side
      ((heap1.becomeBlack s1).becomeRed sp2) sp2 sp3 above
    refine ⟨heap', s2, turned, (colours s1 before).trans ?_⟩
    rw [Heap.becomeRed, isRed_setWord_of_ne _ _ other, Heap.isRed, Heap.becomeBlack, Heap.setWord, cell_modify_self]
    rfl
  unfold Rbtree.rebalanceTurnCtive
  by_cases crossed : sp0 = heap.child side.flip sp1
  · obtain ⟨heap1, x, turned, lifted, _⟩ := rotateCtive_lifts junk newNode side.flip heap sp1 sp2 (sp3 :: above)
    rw [← crossed] at lifted
    have placed : x ≠ sp2 ∧ x < heap1.next := by
      rcases lifted with ⟨rfl, later⟩ | ⟨rfl, later⟩
      · exact ⟨distinct.1.2.1, lt_of_lt_of_le before0 later⟩
      · exact ⟨ne_of_gt before2, later⟩
    obtain ⟨heap', s2, rotated, black⟩ := last heap1 x placed.1 placed.2
    refine ⟨heap', x, s2, ?_, black⟩
    rw [if_pos crossed, turned]
    simp only [headD_cons, rotated]
  · obtain ⟨heap', s2, rotated, black⟩ := last heap sp1 distinct.2.1.1 before1
    refine ⟨heap', sp1, s2, ?_, black⟩
    rw [if_neg crossed]
    simp only [headD_cons, rotated]

theorem isRed_copyUncle (side : Side) (heap : Heap α) (grand y : Nat) (before : q < heap.next) :
    (copyUncle junk side heap grand y).isRed q = heap.isRed q := by
  simp only [copyUncle, setLinks, isRed_setChild]
  exact isRed_newCopy_of_ne _ _ _ (ne_of_lt before)

private theorem rebalanceCtive_stop (newNode fuel : Nat) (stop : ¬ (sp1 ≠ 0 ∧ heap.isRed sp1)) :
    rebalanceCtive junk newNode (fuel + 1) heap (sp0 :: sp1 :: rest) = some (heap, sp0 :: sp1 :: rest) := by
  exact if_neg stop

private theorem rebalanceCtive_eq (newNode fuel : Nat) (capped : Capped heap (sp0 :: sp1 :: rest))
    (bound : ∀ p ∈ sp0 :: sp1 :: rest, p < heap.next) :
    rebalanceCtive junk newNode fuel heap (sp0 :: sp1 :: rest) =
      Rbtree.rebalanceCtive junk newNode fuel heap (sp0 :: sp1 :: rest) := by
  induction fuel generalizing heap sp0 sp1 rest with
  | zero => rfl
  | succ fuel ih =>
    by_cases red : sp1 ≠ 0 ∧ heap.isRed sp1
    · obtain ⟨sp2, sp3, above, rfl⟩ := capped.above_red red
      unfold rebalanceCtive Rbtree.rebalanceCtive
      simp only [List.getElem?_cons_succ, List.getElem?_cons_zero, bind_eq_bind, bind_some]
      rw [if_pos red, if_pos red]
      generalize (if sp1 = heap.child .left sp2 then Side.left else Side.right) = side
      by_cases uncle : heap.child side.flip sp2 ≠ 0 ∧ heap.isRed (heap.child side.flip sp2)
      · rw [if_pos uncle, if_pos uncle]
        refine ih (capped.up fun p mem other black => ?_) fun p mem => ?_
        · have before : p < heap.next := bound p (by simp only [mem_cons] at mem ⊢; tauto)
          rw [Heap.becomeRed, isRed_setWord_of_ne _ _ other]
          exact isRed_becomeBlack (isRed_becomeBlack ((isRed_copyUncle junk side heap sp2 _ before).trans black))
        · exact Nat.lt_succ_of_lt (bound p (.tail _ (.tail _ mem)))
      · rw [if_neg uncle, if_neg uncle, rebalanceTurnCtive_eq]
        obtain ⟨heap', s1, s2, turned, black⟩ := rebalanceTurnCtive_black junk newNode side sp3 above capped bound
        rw [turned]
        have stop : ¬ (s1 ≠ 0 ∧ heap'.isRed s1) := fun both => by simp [black] at both
        cases fuel with
        | zero => rfl
        | succ fuel => exact (rebalanceCtive_stop junk newNode fuel stop).trans (rebalanceCtive_black stop).symm
    · rw [rebalanceCtive_stop junk newNode fuel red, rebalanceCtive_black red]

private theorem length_rebalanceCtive {heap : Heap α}
    (looped : Rbtree.rebalanceCtive junk newNode fuel heap sp = some fixed) : 2 ≤ fixed.2.length := by
  fun_induction Rbtree.rebalanceCtive junk newNode fuel heap sp with
  | case1 => cases looped
  | case2 => cases looped
  | case3 fuel heap sp0 sp1 red sp2 above side y uncle _ _ _ _ _ ih => exact ih looped
  | case4 fuel heap sp0 sp1 red sp2 above side y uncle turned ih => exact ih looped
  | case5 =>
    cases looped
    exact Nat.le_add_left ..
  | case6 => cases looped

private theorem length_copySpine (heap : Heap α) (s parent : Nat) (above : List Nat) :
    (Rbtree.copySpine junk heap (s :: parent :: above)).2.2.length = above.length + 1 := by
  induction above generalizing s parent with
  | nil => rfl
  | cons next above ih => exact congrArg (· + 1) (ih parent next)

/-- One round of the copying loop, at the entry `s` above the entries `inner`. -/
theorem copySpine_round {slots i : Nat} {inner : List Nat} (heap : Heap α) (x1 s parent : Nat) (above : List Nat) (counted : inner.length = i + 1)
    (fits : (inner ++ s :: parent :: above).length ≤ slots) :
    copySpine junk slots (i + 1) heap x1 (inner ++ s :: parent :: above) =
      copySpine junk slots i
        (setLinks (newCopy junk heap s) (if s = heap.child .left parent then .left else .right) x1 heap.next
          ((newCopy junk heap s).child
            (if s = heap.child .left parent then Side.left else .right).flip parent))
        heap.next (inner ++ s :: x1 :: above) := by
  have entry : (inner ++ s :: parent :: above)[i + 1]? = some s := by simp [← counted]
  have entry' : (inner ++ s :: parent :: above)[i + 2]? = some parent := by
    rw [← Nat.succ_eq_add_one, ← counted, List.getElem?_append_right (by omega)]
    simp
  have stored : store (inner ++ s :: parent :: above) (i + 2) x1 = some (inner ++ s :: x1 :: above) := by
    have within : i + 2 < (inner ++ s :: parent :: above).length := by
      simp only [length_append, length_cons]
      omega
    rw [store, if_pos within, List.set_append_right _ _ (by omega)]
    simp [counted]
  have asserted : (inner ++ s :: x1 :: above).length - 2 - (i + 1) < slots - 2 := by
    simp only [length_append, length_cons] at fits ⊢
    omega
  rw [copySpine]
  simp only [entry, entry', stored, bind_eq_bind, bind_some]
  exact if_pos asserted

private theorem copySpine_eq (heap : Heap α) (i : Nat) (inner : List Nat) (s parent : Nat) (above : List Nat)
    (counted : inner.length = i + 1) (last : (parent :: above).getLast? = some 0)
    (fits : (inner ++ s :: parent :: above).length ≤ slots) :
    copySpine junk slots (i + above.length) (newCopy junk heap (Rbtree.spRoot (s :: parent :: above))) heap.next
        (inner ++ s :: parent :: above) =
      copySpine junk slots i (Rbtree.copySpine junk heap (s :: parent :: above)).1
        (Rbtree.copySpine junk heap (s :: parent :: above)).2.1
        (inner ++ s :: (Rbtree.copySpine junk heap (s :: parent :: above)).2.2) := by
  induction above generalizing i inner s parent with
  | nil =>
    obtain rfl : parent = 0 := some.inj last
    rfl
  | cons next above ih =>
    have counted' : (inner ++ [s]).length = i + 1 + 1 := by simp [counted]
    have outer := ih (i + 1) (inner ++ [s]) parent next counted' (by simpa using last) (by simpa using fits)
    simp only [List.append_assoc, List.singleton_append] at outer
    have index : i + (next :: above).length = i + 1 + above.length := by
      rw [length_cons]
      omega
    have length := length_copySpine junk heap parent next above
    have fits' : (inner ++ s :: parent :: (Rbtree.copySpine junk heap (parent :: next :: above)).2.2).length ≤
        slots := by
      simp only [length_append, length_cons] at fits ⊢
      omega
    rw [index]
    exact outer.trans (copySpine_round junk _ _ s parent _ counted fits')

end Ctive

section Erase

variable {slots x parent : Nat} {heap : Heap α} {rest : List Nat}

theorem drop_spRoot (long : 2 ≤ sp.length) (last : sp.getLast? = some 0) :
    sp.drop (sp.length - 2) = [Rbtree.spRoot sp, 0] := by
  fun_induction Rbtree.spRoot sp with
  | case1 root null =>
    obtain rfl : null = 0 := some.inj last
    rfl
  | case2 p rest other ih =>
    cases rest with
    | nil => exact absurd long (by simp)
    | cons q rest =>
      cases rest with
      | nil => exact absurd rfl (other q)
      | cons r rest => exact ih (by simp) (by simpa using last)
  | case3 => exact absurd long (by simp)

section

variable (side : Side) (heap : Heap α)

private theorem eraseRaise_eq (q : Nat) (above : List Nat) (room : (x :: parent :: q :: above).length < slots) :
    eraseRaise slots side heap (x :: parent :: q :: above) =
      some ((Rbtree.eraseRaise side heap parent (q :: above)).1,
        x :: parent :: (Rbtree.eraseRaise side heap parent (q :: above)).2) := by
  unfold eraseRaise Rbtree.eraseRaise
  simp only [List.getElem?_cons_succ, List.getElem?_cons_zero, bind_eq_bind, bind_some]
  split
  · have turned (heap : Heap α) := rotate_at side.flip heap [x] parent q above
    simp only [cons_append, nil_append, length_cons, length_nil, zero_add] at turned
    rw [turned]
    simp only [bind_some, store, length_cons, Nat.zero_lt_succ, if_true, List.set_cons_zero]
    rw [push_eq]
    · rfl
    · exact room
  · rfl

private theorem eraseLift_eq (x parent q : Nat) (above : List Nat) :
    eraseLift side heap (x :: parent :: q :: above) = some ((Rbtree.eraseLift side heap parent (q :: above)).1,
      x :: (Rbtree.eraseLift side heap parent (q :: above)).2) := by
  have turned (heap : Heap α) := rotate_at side.flip heap [x] parent q above
  exact turned _

private theorem eraseTurn_eq (x parent q : Nat) (above : List Nat) :
    ∃ top, eraseTurn side heap (x :: parent :: q :: above) =
      some ((Rbtree.eraseTurn side heap parent (q :: above)).1,
        top :: (Rbtree.eraseTurn side heap parent (q :: above)).2) := by
  unfold eraseTurn Rbtree.eraseTurn
  simp only [List.getElem?_cons_succ, List.getElem?_cons_zero, bind_eq_bind, bind_some]
  split
  · simp only [bind_some, store, length_cons, Nat.zero_lt_succ, if_true, List.set_cons_zero]
    exact ⟨_, eraseLift_eq ..⟩
  · exact ⟨x, eraseLift_eq ..⟩

theorem eraseTurn_above (parent : Nat) (rest : List Nat) (some : rest ≠ []) :
    ∃ lifted, (Rbtree.eraseTurn side heap parent rest).2 = lifted :: rest := by
  cases rest with
  | nil => exact absurd rfl some
  | cons q above => exact ⟨_, rfl⟩

private theorem eraseRaise_above (parent q : Nat) (above : List Nat) :
    ∃ q' above', (Rbtree.eraseRaise side heap parent (q :: above)).2 = q' :: above' ∧
      above'.length ≤ above.length + 1 ∧ (q' :: above').getLast? = (q :: above).getLast? := by
  unfold Rbtree.eraseRaise
  dsimp only
  split
  · exact ⟨_, q :: above, rfl, le_rfl, List.getLast?_cons_cons⟩
  · exact ⟨q, above, rfl, Nat.le_succ _, rfl⟩

end

/-- The deletion loop stays in the stack when a slot is left for the push below a
red sibling. -/
theorem eraseLoop_eq (fuel : Nat) (last : (parent :: rest).getLast? = some 0)
    (room : (x :: parent :: rest).length < slots) :
    eraseLoop slots fuel heap (x :: parent :: rest) = Rbtree.eraseLoop fuel heap (x :: parent :: rest) := by
  induction fuel generalizing heap x parent rest with
  | zero => rfl
  | succ fuel ih =>
    unfold eraseLoop Rbtree.eraseLoop
    simp only [List.getElem?_cons_succ, List.getElem?_cons_zero, bind_eq_bind, bind_some]
    by_cases enters : parent ≠ 0 ∧ (x = 0 ∨ ¬ heap.isRed x)
    · rw [if_pos enters]
      cases rest with
      | nil => exact absurd (some.inj last) enters.1
      | cons q above =>
        rw [eraseRaise_eq _ _ _ _ room]
        generalize (if x = heap.child .left parent then Side.left else Side.right) = side
        obtain ⟨q', above', shape, longer, same⟩ := eraseRaise_above side heap parent q above
        have last' : (q' :: above').getLast? = some 0 := same.trans (by simpa using last)
        generalize Rbtree.eraseRaise side heap parent (q :: above) = raised at shape ⊢
        obtain ⟨heap1, rest1⟩ := raised
        obtain rfl : rest1 = q' :: above' := shape
        simp only [List.getElem?_cons_succ, List.getElem?_cons_zero, bind_some]
        split
        · refine ih last' ?_
          simp only [length_cons] at room ⊢
          omega
        · obtain ⟨top, turned⟩ := eraseTurn_eq side heap1 x parent q' above'
          obtain ⟨lifted, entries⟩ := eraseTurn_above side heap1 parent (q' :: above') (by simp)
          rw [turned, entries]
          have whole : (top :: lifted :: q' :: above').getLast? = some 0 := by simpa using last'
          simp only [bind_some]
          rw [drop_spRoot (by simp) whole]
          rfl
    · rw [if_neg enters, if_neg enters]

private theorem length_eraseLoop {heap : Heap α} (looped : Rbtree.eraseLoop fuel heap sp = some fixed) :
    2 ≤ fixed.2.length := by
  fun_induction Rbtree.eraseLoop fuel heap sp with
  | case1 => cases looped
  | case2 fuel heap x parent rest enters side raised heap' rest' y near far both ih => exact ih looped
  | case3 =>
    cases looped
    exact le_refl 2
  | case4 =>
    cases looped
    exact Nat.le_add_left ..
  | case5 => cases looped

private theorem eraseFinish_eq (treeSize : Nat) (isUnbalanced : Bool) (last : rest.getLast? = some 0)
    (room : (x :: rest).length < slots) :
    eraseFinish slots treeSize isUnbalanced heap (x :: rest) =
      Rbtree.eraseFinish treeSize isUnbalanced heap (x :: rest) := by
  cases rest with
  | nil => cases last
  | cons parent rest =>
    unfold eraseFinish Rbtree.eraseFinish
    rw [eraseLoop_eq _ last room]
    have fixes : ∀ fixed, (if isUnbalanced then Rbtree.eraseLoop ((x :: parent :: rest).length + 1) heap
        (x :: parent :: rest) else some (heap, x :: parent :: rest)) = some fixed → 2 ≤ fixed.2.length := by
      intro fixed looped
      split at looped
      · exact length_eraseLoop looped
      · cases looped
        exact Nat.le_add_left ..
    generalize (if isUnbalanced then Rbtree.eraseLoop ((x :: parent :: rest).length + 1) heap
        (x :: parent :: rest) else some (heap, x :: parent :: rest)) = result at fixes ⊢
    cases result with
    | none => rfl
    | some fixed =>
      obtain ⟨heap', sp⟩ := fixed
      have long : 2 ≤ sp.length := fixes _ rfl
      cases sp with
      | nil => cases long
      | cons sp0 sp =>
        simp only [bind_eq_bind, bind_some, List.getElem?_cons_zero, spRoot_eq long]
        rfl

theorem unlinkSuccessor_eq
    (followed : Rbtree.successorPath heap (fuel + 1) (heap.child .right z) [] = some (y, above)) :
    unlinkSuccessor heap z (heap.child .right z) x (y :: (above ++ outer)) =
      some (Rbtree.unlinkSuccessor heap z x above) := by
  unfold Rbtree.successorPath at followed
  unfold unlinkSuccessor
  split at followed
  · next left =>
    rw [if_pos left]
    have longer := (successorPath_eq [] followed (le_rfl)).1
    cases above with
    | nil => cases longer
    | cons q above => rfl
  · next leaf =>
    obtain ⟨-, rfl⟩ := Prod.mk.inj (some.inj followed)
    exact if_neg leaf

/-- The deletion of the node on top of the stack stays in the stack when the path
to its successor leaves a slot. -/
theorem rbtreeErase_eq (last : (parent :: rest).getLast? = some 0)
    (room : (z :: parent :: rest).length < slots)
    (deep : heap.child .left z ≠ 0 → heap.child .right z ≠ 0 → ∃ y above,
      Rbtree.successorPath heap (size heap root + 1) (heap.child .right z) [] = some (y, above) ∧
        above.length + 1 + (z :: parent :: rest).length < slots) :
    rbtreeErase slots heap root (z :: parent :: rest) = Rbtree.rbtreeErase heap root (z :: parent :: rest) := by
  unfold rbtreeErase Rbtree.rbtreeErase
  simp only [List.getElem?_cons_succ, List.getElem?_cons_zero, bind_eq_bind, bind_some]
  by_cases single : heap.child .left z = 0 ∨ heap.child .right z = 0
  · rw [if_pos single, if_pos single]
    exact eraseFinish_eq _ _ last room
  rw [if_neg single, if_neg single]
  obtain ⟨leftSome, rightSome⟩ := not_or.mp single
  obtain ⟨y, above, followed, fits⟩ := deep leftSome rightSome
  have checked := (successorPath_eq (z :: parent :: rest) followed (le_of_lt fits)).2
  rw [nil_append] at checked
  simp only [push_eq _ room, checked, unlinkSuccessor_eq followed, followed, bind_some]
  have index : (y :: (above ++ z :: parent :: rest)).length - (z :: parent :: rest).length = above.length + 1 := by
    simp only [length_cons, length_append]
    omega
  have stored : store (y :: (above ++ z :: parent :: rest)) (above.length + 1) y =
      some (y :: (above ++ y :: parent :: rest)) := by
    have within : above.length + 1 < (y :: (above ++ z :: parent :: rest)).length := by
      simp only [length_cons, length_append]
      omega
    rw [store, if_pos within, List.set_cons_succ, List.set_append_right _ _ (Nat.le_refl _), Nat.sub_self,
      List.set_cons_zero]
  rw [index, stored]
  refine eraseFinish_eq _ _ ?_ ?_
  · rw [List.getLast?_append, List.getLast?_cons_cons, last]
    rfl
  · simp only [length_cons, length_append] at fits ⊢
    omega

end Erase

section Held

variable {heap : Heap α} {root : Nat} {t : Tree α} {path : Path α}

private theorem root_black (focused : Focused heap path t) (accepts : Accepts path n) (below : path ≠ []) :
    heap.isRed (Rbtree.spRoot (stack path)) = false := by
  induction path generalizing t n with
  | nil => exact absurd rfl below
  | cons frame rest ih =>
    cases rest with
    | nil =>
      have contents := focused.parent.cell_eq
      have black : frame.word ≠ 0 := by
        intro red
        obtain ⟨_, above, _, none, _⟩ := accepts.2.1 red
        cases none
      have colour : heap.isRed frame.val.1 = false := by
        rw [Heap.isRed, contents]
        simpa using black
      exact colour
    | cons next rest =>
      have outer := ih focused.parent accepts.2.2 (by simp)
      cases rest <;> exact outer

theorem capped_stack (focused : Focused heap path t) (some : t ≠ nil) (accepts : Accepts path n) :
    Capped heap (ptr t :: stack path) := by
  have nonnull : ptr t ≠ 0 := fun zero => some (focused.subtree.ptr_eq_zero.mp zero)
  have above := focused.above.nonnull
  obtain ⟨_, outer, apart⟩ := List.nodup_append.mp focused.distinct
  refine ⟨?_, ?_, fun long => root_black focused accepts ?_⟩
  · rw [stack, ← cons_append, List.getLast?_concat]
  · rw [stack, nodup_cons, List.nodup_append, mem_append, List.mem_singleton, not_or]
    refine ⟨⟨fun mem => ?_, nonnull⟩, outer.sublist (map_sublist path), List.nodup_singleton 0,
      fun q mem p null => ?_⟩
    · exact apart _ (ptr_mem nonnull) _ ((map_sublist path).subset mem) rfl
    · rw [List.mem_singleton.mp null]
      exact above q mem
  · intro none
    simp [none] at long

theorem room_of_plug (held : Held heap root t) {t' : Tree α} (whole : plug path t' = t) :
    path.length + t'.depth + 3 ≤ stackSize (size heap root) := by
  obtain ⟨n, balanced⟩ := held.balanced
  have deep := balanced.depth_le_log2 held.black
  have fits := length_add_depth_le path t'
  rw [whole] at fits
  rw [stackSize, held.size_eq]
  omega

/-- The search of an operation ends below a node or at one, and what it pushes fits
in the stack. -/
theorem search_cases (held : Held heap root t) (compare : α → Int) :
    (∃ path cmp, Focused heap path nil ∧ plug path nil = t ∧ (∀ frame ∈ path.head?, (cmp < 0 ↔ frame.side = .left)) ∧
      Rbtree.descend compare heap (size heap root + 1) root [0] 0 = some (0, stack path, cmp) ∧
      descend (stackSize (size heap root)) compare heap (size heap root + 1) root [0] 0 = some (0, stack path, cmp)) ∨
    ∃ path word val left right cmp, Focused heap path (node word val left right) ∧
      plug path (node word val left right) = t ∧
      Rbtree.descend compare heap (size heap root + 1) root [0] 0 = some (val.1, val.1 :: stack path, cmp) ∧
      descend (stackSize (size heap root)) compare heap (size heap root + 1) root [0] 0 =
        some (val.1, val.1 :: stack path, cmp) := by
  rcases found : locate (onSlot compare) t [] with ⟨t', path⟩
  obtain ⟨cmp, focused, whole, absent, present⟩ := held.search found
  have room := room_of_plug held whole
  rw [← held.size_eq] at absent present
  cases t' with
  | nil =>
    obtain ⟨descended, last⟩ := absent rfl
    refine .inl ⟨path, cmp, focused, whole, last, descended, (descend_eq descended).2 ?_⟩
    rw [length_stack]
    omega
  | node word val left right =>
    have descended := present node_ne_nil
    refine .inr ⟨path, word, val, left, right, cmp, focused, whole, descended, (descend_eq descended).2 ?_⟩
    rw [length_cons, length_stack]
    omega

private theorem insertNode_eq (held : Held heap root t) (compare : α → Int) (slot : α) :
    insertNode compare slot heap root = Rbtree.insertNode compare slot heap root := by
  have first : push (stackSize (size heap root)) 0 [] = some [0] := push_eq 0 (Nat.succ_pos _)
  unfold insertNode Rbtree.insertNode
  rcases search_cases held compare with
    ⟨path, cmp, focused, whole, last, plain, checked⟩ |
    ⟨path, word, val, left, right, cmp, focused, whole, plain, checked⟩
  · have room : (stack path).length < stackSize (size heap root) := by
      have fits := room_of_plug held whole
      rw [length_stack]
      omega
    obtain ⟨coloured, m, accepts, _⟩ := held.attached slot whole focused last
    have capped := capped_stack coloured node_ne_nil accepts
    simp only [first, plain, checked, bind_eq_bind, bind_some, push_eq _ room]
    cases entries : stack path with
    | nil => exact absurd entries (by simp [stack])
    | cons parent rest =>
      rw [entries] at capped
      have loop : rebalanceLoop ((heap.next :: parent :: rest).length + 1)
          ((attach slot heap (parent :: rest) cmp).becomeRed heap.next) (heap.next :: parent :: rest) = _ :=
        rebalanceLoop_eq _ capped
      have same : attach slot heap [parent] cmp = attach slot heap (parent :: rest) cmp := rfl
      simp only [rebalanceDtive, Rbtree.rebalanceDtive, List.getElem?_cons_succ, List.getElem?_cons_zero,
        bind_eq_bind, bind_some, headD_cons]
      rw [same, loop]
      refine (bind_spRoot (fun fixed => length_rebalanceLoop)
        fun heap' root' => (heap'.setWord root' (size heap root + 1), root', true, heap.next)).trans ?_
      generalize Rbtree.rebalanceLoop _ _ _ = result
      cases result <;> rfl
  · have nonnull : val.1 ≠ 0 := focused.subtree.1
    simp only [first, plain, checked, bind_eq_bind, bind_some]
    rw [if_pos nonnull, if_pos nonnull]

private theorem copySpine_stack (junk : Nat) (heap : Heap α)
    (last : (parent :: above).getLast? = some 0) (fits : (x :: s :: parent :: above).length ≤ slots) :
    copySpine junk slots ((x :: s :: parent :: above).length - 3)
        (newCopy junk heap (Rbtree.spRoot (s :: parent :: above))) heap.next (x :: s :: parent :: above) =
      some ((Rbtree.copySpine junk heap (s :: parent :: above)).1,
        (Rbtree.copySpine junk heap (s :: parent :: above)).2.1,
        x :: s :: (Rbtree.copySpine junk heap (s :: parent :: above)).2.2) := by
  have copied := copySpine_eq junk heap 0 [x] s parent above rfl last fits
  have index : (x :: s :: parent :: above).length - 3 = 0 + above.length := by
    simp only [length_cons]
    omega
  rw [index]
  exact copied

theorem cinsert1mMem_eq [Inhabited α] (held : Held heap root t) (junk : Nat) (compare : α → Int) :
    cinsert1mMem junk compare heap root = Rbtree.cinsert1mMem junk compare heap root := by
  have first : push (stackSize (size heap root)) 0 [] = some [0] := push_eq 0 (Nat.succ_pos _)
  unfold cinsert1mMem Rbtree.cinsert1mMem
  simp only [first, bind_eq_bind, bind_some]
  by_cases null : root = 0
  · rw [if_pos null, if_pos null]
  rw [if_neg null, if_neg null]
  rcases search_cases held compare with
    ⟨path, cmp, focused, whole, last, plain, checked⟩ |
    ⟨path, word, val, left, right, cmp, focused, whole, plain, checked⟩
  · have room : (stack path).length < stackSize (size heap root) := by
      have fits := room_of_plug held whole
      rw [length_stack]
      omega
    cases path with
    | nil =>
      obtain rfl : nil = t := whole
      exact absurd held.root_eq null
    | cons frame rest =>
      obtain ⟨entries, coloured, _, m, _, accepts, _⟩ := held.copied junk default whole focused (last frame rfl)
      have capped := capped_stack coloured.focused node_ne_nil accepts
      simp only [plain, checked, bind_some, push_eq _ room]
      cases above : stack rest with
      | nil => exact absurd above (by simp [stack])
      | cons parent above' =>
        have fits : (heap.next :: frame.val.1 :: parent :: above').length ≤ stackSize (size heap root) := by
          rw [stack_cons, above] at room
          exact room
        have lastNull : (parent :: above').getLast? = some 0 := above ▸ stack_last rest
        have top : spRoot (heap.next :: frame.val.1 :: parent :: above') =
            some (Rbtree.spRoot (frame.val.1 :: parent :: above')) := spRoot_eq (by simp)
        have bound := coloured.bound_stack
        rw [← entries, stack_cons, above] at capped bound
        rw [stack_cons, above, top, bind_some, copySpine_stack junk _ lastNull fits]
        generalize Rbtree.copySpine junk _ (frame.val.1 :: parent :: above') = spine at capped bound ⊢
        have stored : store (heap.next :: frame.val.1 :: spine.2.2) 1 spine.2.1 =
            some (heap.next :: spine.2.1 :: spine.2.2) := rfl
        simp only [List.getElem?_cons_succ, List.getElem?_cons_zero, bind_some, stored, headD_cons]
        have loop := rebalanceCtive_eq junk heap.next ((heap.next :: spine.2.1 :: spine.2.2).length + 1) capped bound
        simp only [ptr] at loop
        rw [Heap.becomeRed, loop]
        refine (bind_spRoot (fun fixed => length_rebalanceCtive junk)
          fun heap' root' => (heap'.setWord root' (size heap root + 1), root', true, heap.next)).trans ?_
        generalize Rbtree.rebalanceCtive junk _ _ _ _ = result
        cases result <;> rfl
  · have nonnull : val.1 ≠ 0 := focused.subtree.1
    simp only [plain, checked, bind_some]
    rw [if_pos nonnull, if_pos nonnull]

private theorem successorPath_length (focused : Focused heap path t) (some : t ≠ nil) (enough : t.size ≤ fuel) :
    ∃ y above, Rbtree.successorPath heap fuel (ptr t) [] = .some (y, above) ∧ above.length + 1 ≤ t.depth := by
  refine ⟨_, _, @successorPath_refines _ _ _ _ [] _ focused some enough, ?_⟩
  obtain ⟨⟨word, val, right, shape⟩, _⟩ := leftmost_eq t [] some
  have fits := length_add_depth_le (leftmost t []).2 (leftmost t []).1
  rw [plug_leftmost, plug_nil, shape, depth] at fits
  rw [List.length_map]
  omega

private theorem size_le_plug (path : Path α) (t : Tree α) : t.size ≤ (plug path t).size := by
  rw [← length_inorder, ← length_inorder, inorder_plug]
  simp only [length_append]
  omega

theorem eraseNode_eq (held : Held heap root t) (compare : α → Int) :
    eraseNode compare heap root = Rbtree.eraseNode compare heap root := by
  have first : push (stackSize (size heap root)) 0 [] = some [0] := push_eq 0 (Nat.succ_pos _)
  unfold eraseNode Rbtree.eraseNode
  rcases search_cases held compare with
    ⟨path, cmp, focused, whole, last, plain, checked⟩ |
    ⟨path, word, val, left, right, cmp, focused, whole, plain, checked⟩
  · simp only [first, plain, checked, bind_eq_bind, bind_some]
    rfl
  have fits := room_of_plug held whole
  rw [depth] at fits
  simp only [first, plain, checked, bind_eq_bind, bind_some]
  have erased : rbtreeErase (stackSize (size heap root)) heap root (val.1 :: stack path) =
      Rbtree.rbtreeErase heap root (val.1 :: stack path) := by
    cases entries : stack path with
    | nil => exact absurd entries (by simp [stack])
    | cons parent rest =>
      have length := length_stack path
      rw [entries] at length
      refine rbtreeErase_eq (entries ▸ stack_last path) ?_ fun _ nonempty => ?_
      · rw [length_cons]
        omega
      rw [focused.subtree.child_right] at nonempty ⊢
      have some : right ≠ nil := fun none => nonempty (by rw [none, ptr_nil])
      have inRight : Focused heap (⟨.right, word, val, left⟩ :: path) right := focused_cons.mpr focused
      have enough : right.size ≤ size heap root + 1 := by
        have inner := size_le_plug path (node word val left right)
        rw [whole, ColourTree.size] at inner
        rw [held.size_eq]
        omega
      obtain ⟨y, above, followed, shorter⟩ := successorPath_length inRight some enough
      refine ⟨y, above, followed, ?_⟩
      rw [length_cons]
      omega
  rw [erased]
  cases Rbtree.rbtreeErase heap root (val.1 :: stack path) <;> rfl

end Held

end Checked

section Operations

/-- The operation of the code and the one that checks its accesses to the stack
give the same result. -/
def Agree {β : Type} (checked plain : Option β) : Prop := ∃ result, checked = some result ∧ plain = some result

variable {heap : Heap α} {root : Nat} {t : Tree α}

private theorem insertNode_some (held : Held heap root t) (compare : α → Int) (slot : α) :
    ∃ result, insertNode compare slot heap root = some result := by
  rcases found : locate (onSlot compare) t [] with ⟨t', path⟩
  by_cases absent : t' = nil
  · obtain ⟨heap', inserted, _⟩ := insertNode_absent slot held (absent ▸ found)
    exact ⟨_, inserted⟩
  · exact ⟨_, insertNode_present held found absent⟩

private theorem cinsert1mMem_some [Inhabited α] (held : Held heap root t) (junk : Nat) (compare : α → Int) :
    ∃ result, cinsert1mMem junk compare heap root = some result := by
  rcases found : locate (onSlot compare) t [] with ⟨t', path⟩
  by_cases absent : t' = nil
  · obtain ⟨heap', t', inserted, _⟩ := cinsert_absent junk held (absent ▸ found)
    exact ⟨_, inserted⟩
  · exact ⟨_, cinsert_present junk held found absent⟩

private theorem eraseNode_some (held : Held heap root t) (compare : α → Int) :
    ∃ result, eraseNode compare heap root = some result := by
  rcases found : locate (onSlot compare) t [] with ⟨t', path⟩
  cases t' with
  | nil => exact ⟨_, eraseNode_absent held found⟩
  | node word val left right =>
    obtain ⟨heap', erased, _⟩ := eraseNode_present held found
    exact ⟨_, erased⟩

/-- On every tree with the red-black invariant and for every comparison, no
insertion and no deletion leaves the slots of its path stack. -/
theorem stack_in_bounds [Inhabited α] (held : Held heap root t) :
    (∀ compare, Agree (Checked.insert1mMem compare heap root) (insert1mMem compare heap root)) ∧
    (∀ compare key, Agree (Checked.insert2pNode compare key heap root) (insert2pNode compare key heap root)) ∧
    (∀ junk compare, Agree (Checked.cinsert1mMem junk compare heap root) (cinsert1mMem junk compare heap root)) ∧
    (∀ compare key, Agree (Checked.erase2p compare key heap root) (erase2p compare key heap root)) ∧
    ∀ compare, Agree (Checked.erase1m compare heap root) (erase1m compare heap root) := by
  have inserts (compare : α → Int) (slot : α) :
      Agree (Checked.insertNode compare slot heap root) (insertNode compare slot heap root) := by
    obtain ⟨result, inserted⟩ := insertNode_some held compare slot
    exact ⟨result, (Checked.insertNode_eq held compare slot).trans inserted, inserted⟩
  have erases (compare : α → Int) : Agree (Checked.eraseNode compare heap root) (eraseNode compare heap root) := by
    obtain ⟨result, erased⟩ := eraseNode_some held compare
    exact ⟨result, (Checked.eraseNode_eq held compare).trans erased, erased⟩
  refine ⟨fun compare => inserts compare default, fun compare key => inserts (compare key) key, fun junk compare => ?_,
    fun compare key => erases (compare key), erases⟩
  obtain ⟨result, inserted⟩ := cinsert1mMem_some held junk compare
  exact ⟨result, (Checked.cinsert1mMem_eq held junk compare).trans inserted, inserted⟩

/-- Five nodes, where the sibling of the node with the slot one is red. -/
def redSibling : Heap Int :=
  { cell := fun p => ([⟨0, 0, 0, 0⟩, ⟨1, 0, 0, 1⟩, ⟨5, 1, 4, 2⟩, ⟨1, 0, 0, 3⟩, ⟨0, 3, 5, 4⟩, ⟨1, 0, 0, 5⟩] :
      List (Rbnode Int)).getD p ⟨0, 0, 0, 0⟩
    next := 6 }

/-- A deletion below a red sibling pushes its node again. -/
theorem stack_in_bounds_redSibling :
    Agree (Checked.erase1m (fun slot => 1 - slot) redSibling 2) (erase1m (fun slot => 1 - slot) redSibling 2) := by
  have held : Held redSibling 2 (node 5 (2, 2) (node 1 (1, 1) nil nil)
      (node 0 (4, 4) (node 1 (3, 3) nil nil) (node 1 (5, 5) nil nil))) := by
    refine ⟨⟨?_, trivial, by decide⟩, rfl, by decide, by decide, ⟨2, ?_⟩, rfl⟩
    · simp [In, redSibling, nodeOf, ptr]
    · simp [ColourTree.Balanced, isRed]
  exact (stack_in_bounds held).2.2.2.2 _

end Operations

end Culibs.Cucon.Rbtree
