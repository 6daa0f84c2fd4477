import Culibs.Cucon.Rbtree.Contents
import Culibs.Cucon.Rbtree.Ctive

namespace Culibs.Cucon.Rbtree

open ColourTree
open List (headD_cons length_cons mem_append mem_cons mem_cons_of_mem mem_cons_self nodup_cons)

variable {α : Type} {old heap : Heap α} {path rest : Path α} {t : Tree α}

/-- A node up to its address, except that the node at `x` is marked. -/
def tag (x : Nat) (val : Nat × α) : Bool × α := (val.1 == x, val.2)

/-- A focused tree whose path consists of copies made after the heap `old`, where
the siblings and the contents of `old` are as before. -/
structure Spine (old heap : Heap α) (path : Path α) (t : Tree α) : Prop where
  focused : Focused heap path t
  bound : ∀ a ∈ addrs t ++ pathAddrs path, a < heap.next
  copied : ∀ frame ∈ path, old.next ≤ frame.val.1 ∧ ∀ a ∈ addrs frame.sibling, a < old.next
  kept : ∀ a, a < old.next → heap.cell a = old.cell a
  room : old.next < heap.next

variable {frame : Frame (Nat × α)}

theorem Spine.up (spine : Spine old heap (frame :: rest) t) :
    Spine old heap rest (build frame.side frame.word frame.val t frame.sibling) := by
  refine ⟨spine.focused.parent, fun a mem => spine.bound a ?_, fun frame' mem => ?_, spine.kept, spine.room⟩
  · simp only [mem_append, mem_addrs_build, pathAddrs, mem_cons] at mem ⊢
    tauto
  · exact spine.copied frame' (.tail _ mem)

variable {side : Side} {word wordX : Nat} {val valX : Nat × α} {near far a b c : Tree α}

theorem Spine.setWord (word' : Nat) (spine : Spine old heap path (build side word val near far))
    (fresh : old.next ≤ val.1) : Spine old (heap.setWord val.1 word') path (build side word' val near far) := by
  refine ⟨spine.focused.setWord word', fun a mem => spine.bound a ?_, spine.copied, fun a below => ?_, spine.room⟩
  · simpa using mem
  · rw [Heap.setWord, cell_modify_of_ne _ _ _ (by omega)]
    exact spine.kept a below

/-- The child that a rotation lifts is copied unless it is the new node. -/
structure Lifted (junk : Nat) (old heap : Heap α) (side : Side) (wordX : Nat) (valX : Nat × α) (a : Tree α)
    (valX' : Nat × α) (heap1 : Heap α) : Prop where
  cell : ∃ far, heap1.cell valX'.1 = nodeOf side wordX valX'.2 (ptr a) far
  others : ∀ p, p ≠ valX'.1 → heap1.cell p = heap.cell p
  colours : ∀ p, p < heap.next → (heap1.cell p).isBlack = (heap.cell p).isBlack
  fresh : old.next ≤ valX'.1
  bound : valX'.1 < heap1.next
  grown : heap.next ≤ heap1.next
  same : tag old.next valX' = tag old.next valX
  apart : valX'.1 = valX.1 ∨ valX'.1 = heap.next

theorem Spine.lifted (junk : Nat) (spine : Spine old heap path (build side word val (build side wordX valX a b) c)) :
    let heap1 := if valX.1 = old.next then heap
      else (newCopy junk heap valX.1).setChild side heap.next (heap.child side valX.1)
    ∃ valX' : Nat × α, (if valX.1 = old.next then valX.1 else heap.next) = valX'.1 ∧
      Lifted junk old heap side wordX valX a valX' heap1 := by
  have child := focused_near.mpr spine.focused
  have below : valX.1 < heap.next := spine.bound _ (by simp)
  by_cases new : valX.1 = old.next
  · refine ⟨valX, if_pos new, ?_⟩
    simp only [if_pos new]
    exact ⟨⟨_, child.cell_eq⟩, fun _ _ => rfl, fun _ _ => rfl, le_of_eq new.symm, below, le_rfl, rfl, .inl rfl⟩
  refine ⟨(heap.next, valX.2), if_neg new, ?_⟩
  simp only [if_neg new]
  have written : ((newCopy junk heap valX.1).setChild side heap.next (heap.child side valX.1)).cell heap.next =
      nodeOf side wordX valX.2 (ptr a) junk := by
    rw [Heap.setChild, newCopy, child.cell_eq, child.child_eq]
    cases side <;> simp [nodeOf, Rbnode.setChild]
  have others : ∀ p, p ≠ heap.next →
      ((newCopy junk heap valX.1).setChild side heap.next (heap.child side valX.1)).cell p = heap.cell p :=
    fun p apart => (cell_modify_of_ne _ _ _ apart).trans (cell_alloc_of_ne _ _ apart)
  refine ⟨⟨junk, written⟩, others, fun p before => ?_, le_of_lt spine.room, Nat.lt_succ_self _, Nat.le_succ _, ?_, .inr rfl⟩
  · rw [others p (by omega)]
  · have last : heap.next ≠ old.next := ne_of_gt spine.room
    simp [tag, new, last]

variable {p q : Nat}

theorem link_kept (copied : ∀ frame ∈ path, old.next ≤ frame.val.1) (before : q < old.next) :
    (link heap path p).cell q = heap.cell q := by
  cases path with
  | nil => rfl
  | cons frame rest =>
    have fresh := copied frame (mem_cons_self ..)
    exact cell_modify_of_ne _ _ _ (by omega)

theorem isBlack_setChild (heap : Heap α) (side : Side) (p child q : Nat) :
    ((heap.setChild side p child).cell q).isBlack = (heap.cell q).isBlack := by
  by_cases same : q = p
  · subst same
    rw [Heap.setChild, cell_modify_self]
    cases side <;> rfl
  · rw [Heap.setChild, cell_modify_of_ne _ _ _ same]

private theorem isBlack_link (heap : Heap α) (path : Path α) (p q : Nat) :
    ((link heap path p).cell q).isBlack = (heap.cell q).isBlack := by
  cases path with
  | nil => rfl
  | cons frame rest => exact isBlack_setChild ..

variable (junk : Nat)

theorem Spine.rotateCtive
    (spine : Spine old heap path (build side word val (build side wordX valX a b) c)) (fresh : old.next ≤ val.1) :
    ∃ heap' valX', rotateCtive junk side old.next heap (val.1 :: stack path) = (heap', valX'.1 :: stack path) ∧
      Spine old heap' path (build side wordX valX' a (build side word val b c)) ∧ old.next ≤ valX'.1 ∧
      tag old.next valX' = tag old.next valX ∧ heap.next ≤ heap'.next ∧
      ∀ p, p < heap.next → (heap'.cell p).isBlack = (heap.cell p).isBlack := by
  have focused := spine.focused
  have child := focused_near.mpr focused
  obtain ⟨valX', chosen, lifted⟩ := spine.lifted junk
  let heap1 := if valX.1 = old.next then heap
    else (newCopy junk heap valX.1).setChild side heap.next (heap.child side valX.1)
  change Lifted junk old heap side wordX valX a valX' heap1 at lifted
  obtain ⟨farX, cellX⟩ := lifted.cell
  obtain ⟨valXNotA, valXNotB, valXOutside⟩ := child.root_apart
  obtain ⟨valXNe, valXNotC, valXNotPath⟩ : valX.1 ≠ val.1 ∧ valX.1 ∉ addrs c ∧ valX.1 ∉ pathAddrs path := by
    simpa [pathAddrs, not_or] using valXOutside
  have apart : valX'.1 ≠ 0 ∧ valX'.1 ≠ val.1 ∧ valX'.1 ∉ addrs a ++ (addrs b ++ (addrs c ++ pathAddrs path)) := by
    rcases lifted.apart with same | next
    · rw [same]
      exact ⟨child.nonnull, valXNe, by simp [valXNotA, valXNotB, valXNotC, valXNotPath]⟩
    · have unused : ∀ q ∈ addrs (build side word val (build side wordX valX a b) c) ++ pathAddrs path,
          q ≠ valX'.1 := fun q mem => by have := spine.bound q mem; omega
      refine ⟨by have := spine.room; omega, fun same => unused val.1 (by simp) same.symm, fun mem => ?_⟩
      refine unused valX'.1 ?_ rfl
      simp only [mem_append, mem_addrs_build] at mem ⊢
      tauto
  have notPath : valX'.1 ∉ pathAddrs path := fun mem => apart.2.2 (by simp [mem])
  have firstChild : heap.child side val.1 = valX.1 := focused.child_eq.trans (ptr_build ..)
  have secondChild : heap1.child side.flip valX.1 = ptr b := by
    by_cases new : valX.1 = old.next
    · simp only [heap1, if_pos new]
      exact child.child_flip_eq
    · rw [if_neg new] at chosen
      have below : valX.1 < heap.next := spine.bound _ (by simp)
      rw [Heap.child, lifted.others _ (by omega), child.cell_eq, child_flip_nodeOf]
  let inner := (heap1.setChild side val.1 (ptr b)).setChild side.flip valX'.1 val.1
  have cellX' : inner.cell valX'.1 = nodeOf side wordX valX'.2 (ptr a) val.1 := by
    simp only [inner, Heap.setChild]
    rw [cell_modify_self, cell_modify_of_ne _ _ _ apart.2.1, cellX, setChild_flip_nodeOf]
  have cellZ : inner.cell val.1 = nodeOf side word val.2 (ptr b) (ptr c) := by
    simp only [inner, Heap.setChild]
    rw [cell_modify_of_ne _ _ _ apart.2.1.symm, cell_modify_self, lifted.others _ apart.2.1.symm, focused.cell_eq,
      setChild_nodeOf]
  have agree : ∀ x, x ≠ val.1 → x ≠ valX'.1 → inner.cell x = heap.cell x := fun x other otherX =>
    ((cell_modify_of_ne _ _ _ otherX).trans (cell_modify_of_ne _ _ _ other)).trans (lifted.others x otherX)
  have placed := focused.lift apart cellX' cellZ agree
  have next : (Rbtree.link inner path valX'.1).next = heap1.next := next_link ..
  refine ⟨Rbtree.link inner path valX'.1, valX', ?_, ?_, lifted.fresh, lifted.same, next ▸ lifted.grown, fun p before => ?_⟩
  · have outside : ∀ q ∈ pathAddrs path, (heap1.setChild side val.1 (ptr b)).cell q = heap.cell q := by
      intro q mem
      have notZ : q ≠ val.1 := fun same => focused.root_apart.2.2 (same ▸ mem)
      have notX : q ≠ valX'.1 := fun same => notPath (same ▸ mem)
      exact (cell_modify_of_ne _ _ _ notZ).trans (lifted.others q notX)
    have patched := focused.patch_eq (by simp) outside valX'.1
    rw [ptr_build] at patched
    cases entries : stack path with
    | nil => cases path <;> cases entries
    | cons parent rest =>
      rw [entries, headD_cons] at patched
      have result : Rbtree.rotateCtive junk side old.next heap (val.1 :: parent :: rest) =
          ((patch (heap1.setChild side val.1 (heap1.child side.flip valX.1)) parent val.1 valX'.1).setChild
            side.flip valX'.1 val.1, valX'.1 :: parent :: rest) := by
        simp only [Rbtree.rotateCtive, firstChild, chosen]
        rfl
      rw [result, secondChild, patched, Heap.setChild, link_modify _ _ _ notPath]
      rfl
  · refine ⟨placed, fun q mem => ?_, spine.copied, fun q before => ?_, ?_⟩
    · have grown := lifted.grown
      rw [next]
      by_cases same : q = valX'.1
      · exact same ▸ lifted.bound
      · refine lt_of_lt_of_le (spine.bound q ?_) grown
        simp only [mem_append, mem_addrs_build] at mem ⊢
        tauto
    · rw [link_kept (fun frame mem => (spine.copied frame mem).1) before,
        agree q (by omega) (by have := lifted.fresh; omega)]
      exact spine.kept q before
    · have room := spine.room
      have grown := lifted.grown
      omega
  · rw [isBlack_link, isBlack_setChild, isBlack_setChild]
    exact lifted.colours p before

variable {wordP : Nat} {valP : Nat × α}

theorem Spine.copyUncle
    (spine : Spine old heap path (build side wordP valP t (build side word val near far))) (fresh : old.next ≤ valP.1)
    (uncle : val.1 < old.next) :
    Spine old (copyUncle junk side heap valP.1 val.1) path
        (build side wordP valP t (build side word (heap.next, val.2) near far)) ∧
      (Rbtree.copyUncle junk side heap valP.1 val.1).next = heap.next + 1 := by
  have room := spine.room
  have atUncle := focused_far.mpr spine.focused
  have unused : ∀ q ∈ addrs (build side wordP valP t (build side word val near far)) ++ pathAddrs path, q ≠ heap.next :=
    fun q mem => ne_of_lt (spine.bound q mem)
  simp only [mem_append, mem_addrs_build] at unused
  have notPath : heap.next ∉ pathAddrs (⟨side.flip, wordP, valP, t⟩ :: path : Path α) := by
    simp only [pathAddrs, mem_cons, mem_append]
    exact fun mem => unused heap.next (by tauto) rfl
  let heap1 := newCopy junk heap val.1
  let heap2 := link heap1 (⟨side.flip, wordP, valP, t⟩ :: path : Path α) heap.next
  have others : ∀ q, q ≠ heap.next → heap1.cell q = heap.cell q := fun q apart => cell_alloc_of_ne _ _ apart
  have ne_valP : val.1 ≠ valP.1 := by omega
  have ne_next : val.1 ≠ heap.next := by omega
  have cellY : heap2.cell val.1 = nodeOf side word val.2 (ptr near) (ptr far) :=
    (cell_modify_of_ne _ _ _ ne_valP).trans ((others _ ne_next).trans atUncle.cell_eq)
  have nearEq : heap2.child side val.1 = ptr near := by rw [Heap.child, cellY, child_nodeOf]
  have farEq : heap2.child side.flip val.1 = ptr far := by rw [Heap.child, cellY, child_flip_nodeOf]
  let linked := setLinks heap1 side heap.next (ptr near) (ptr far)
  have written : linked.cell heap.next = nodeOf side word val.2 (ptr near) (ptr far) := by
    simp only [linked, setLinks, Heap.setChild, cell_modify_self, heap1, newCopy, cell_alloc_self, atUncle.cell_eq]
    cases side <;> rfl
  have agree : ∀ q, q ≠ heap.next → linked.cell q = heap.cell q := fun q apart =>
    (cell_modify_of_ne _ _ _ apart).trans ((cell_modify_of_ne _ _ _ apart).trans (others q apart))
  have placed : Focused _ _ (build side word (heap.next, val.2) near far) := atUncle.replaceRoot (by simp only; omega)
    ⟨fun mem => unused _ (by tauto) rfl, fun mem => unused _ (by tauto) rfl, notPath⟩ agree written
  have result : Rbtree.copyUncle junk side heap valP.1 val.1 =
      link linked (⟨side.flip, wordP, valP, t⟩ :: path : Path α) heap.next := by
    have unfolded : Rbtree.copyUncle junk side heap valP.1 val.1 =
        setLinks heap2 side heap.next (heap2.child side val.1) (heap2.child side.flip val.1) := rfl
    rw [unfolded, nearEq, farEq, setLinks, Heap.setChild, Heap.setChild, link_modify _ _ _ notPath,
      link_modify _ _ _ notPath]
    rfl
  rw [result]
  refine ⟨⟨focused_far.mp placed, fun q mem => ?_, spine.copied, fun q before => ?_, ?_⟩, next_link ..⟩
  · have next : (link linked (⟨side.flip, wordP, valP, t⟩ :: path : Path α) heap.next).next = heap.next + 1 :=
      next_link ..
    by_cases same : q = heap.next
    · omega
    · refine Nat.lt_succ_of_lt (spine.bound q ?_)
      simp only [mem_append, mem_addrs_build] at mem ⊢
      tauto
  · have copied : ∀ frame ∈ (⟨side.flip, wordP, valP, t⟩ :: path : Path α), old.next ≤ frame.val.1 := by
      intro frame mem
      rcases mem_cons.mp mem with rfl | mem
      · exact fresh
      · exact (spine.copied frame mem).1
    rw [link_kept copied before, agree q (by omega)]
    exact spine.kept q before
  · exact Nat.lt_succ_of_lt room

theorem Spine.setWord_focus (word' : Nat) (spine : Spine old heap (frame :: rest) t) :
    Spine old (heap.setWord frame.val.1 word') rest (build frame.side word' frame.val t frame.sibling) :=
  spine.up.setWord word' (spine.copied frame (mem_cons_self ..)).1

variable {heap' : Heap α}

theorem Spine.rebalanceTurnCtive {parent grand : Frame (Nat × α)} (junk : Nat)
    (spine : Spine old heap (parent :: grand :: rest) t) (some : t ≠ nil) :
    let inner := if parent.side = grand.side then parent.plug t else ColourTree.rotate parent.side (parent.plug t)
    ∃ heap' sp1 top, rebalanceTurnCtive junk old.next grand.side heap (ptr t) parent.val.1 grand.val.1 (stack rest) =
        (heap', sp1 :: ptr top :: stack rest) ∧
      Spine old heap' rest top ∧ top ≠ nil ∧ old.next ≤ ptr top ∧ (heap'.cell sp1).isBlack = 1 ∧
      top.map (tag old.next) = (ColourTree.rotate grand.side
        (build grand.side 0 grand.val (inner.setWord 1) grand.sibling)).map (tag old.next) := by
  intro inner
  have freshGrand := (spine.copied grand (by simp)).1
  have freshParent := (spine.copied parent (by simp)).1
  unfold Rbtree.rebalanceTurnCtive
  by_cases aligned : parent.side = grand.side
  · have straight : ¬ ptr t = heap.child grand.side.flip parent.val.1 := by
      rw [spine.focused.child_iff (.inl some), aligned]
      exact Side.ne_flip _
    have coloured := (spine.setWord_focus 1).setWord_focus 0
    rw [aligned] at coloured
    obtain ⟨heap', valX', turned, placed, fresh, same, _, colours⟩ := coloured.rotateCtive junk freshGrand
    refine ⟨heap', parent.val.1, _, ?_, placed, by simp, by simpa using fresh,
      (by rw [colours _ (coloured.bound _ (by simp)), (focused_near.mpr coloured.focused).cell_eq, isBlack_nodeOf]),
      ?_⟩
    · rw [if_neg straight]
      simp only [headD_cons, Heap.becomeBlack, Heap.becomeRed, ptr_build]
      rw [turned]
    · simp only [inner, if_pos aligned, Frame.plug, aligned, setWord_build, rotate_build, map_build, same]
  · have flipped : grand.side = parent.side.flip := (parent.side.eq_or_flip grand.side).resolve_left (Ne.symm aligned)
    have crossed : ptr t = heap.child grand.side.flip parent.val.1 := by
      rw [spine.focused.child_iff (.inl some), flipped, Side.flip_flip]
    cases t with
    | nil => exact absurd rfl some
    | node word val left right =>
      obtain ⟨near, far, seen⟩ := exists_build parent.side word val left right
      rw [seen] at spine crossed ⊢
      obtain ⟨heap1, valX1, turned1, placed1, fresh1, same1, _, _⟩ := spine.up.rotateCtive junk freshParent
      have coloured := (placed1.setWord 1 fresh1).setWord_focus 0
      rw [← build_flip parent.side 1, ← flipped] at coloured
      obtain ⟨heap', valX', turned, placed, fresh, same, _, colours⟩ := coloured.rotateCtive junk freshGrand
      refine ⟨heap', valX1.1, _, ?_, placed, by simp, by simpa using fresh,
        (by rw [colours _ (coloured.bound _ (by simp)), (focused_near.mpr coloured.focused).cell_eq,
        isBlack_nodeOf]), ?_⟩
      · rw [stack_cons] at turned1
        rw [if_pos crossed, flipped, Side.flip_flip, turned1]
        simp only [headD_cons, Heap.becomeBlack, Heap.becomeRed, ptr_build]
        rw [← flipped, turned]
      · simp only [inner, if_neg aligned, Frame.plug, seen, rotate_build, setWord_build]
        rw [← build_flip parent.side 1, ← flipped, rotate_build]
        simp only [map_build, same, same1]

variable {t' : Tree α}

theorem Spine.write (spine : Spine old heap path t) (fresh : old.next ≤ p)
    (focused : Focused (heap.setWord p word') path t') (same : ∀ a, a ∈ addrs t' → a ∈ addrs t) :
    Spine old (heap.setWord p word') path t' := by
  refine ⟨focused, fun a mem => spine.bound a ?_, spine.copied, fun a below => ?_, spine.room⟩
  · rw [mem_append] at mem ⊢
    exact mem.imp_left (same a)
  · rw [Heap.setWord, cell_modify_of_ne _ _ _ (by omega)]
    exact spine.kept a below

theorem Spine.recolourUncle {sideP : Side} {sibling : Tree α}
    (spine : Spine old heap path
      (build side wordG valG (build sideP wordP valP t sibling) (build side word val near far)))
    (freshG : old.next ≤ valG.1) (freshP : old.next ≤ valP.1) (uncle : val.1 < old.next) :
    Spine old ((((Rbtree.copyUncle junk side heap valG.1 val.1).becomeBlack valP.1).becomeBlack heap.next).becomeRed
        valG.1) path
      (build side 0 valG (build sideP 1 valP t sibling) (build side 1 (heap.next, val.2) near far)) := by
  have copied := (spine.copyUncle junk freshG uncle).1
  have parent := copied.focused.setWord_near 1 (by simp)
  rw [ptr_build, setWord_build] at parent
  have parent' := copied.write freshP parent (by simp)
  have child := parent'.focused.setWord_far 1 (by simp)
  rw [ptr_build, setWord_build] at child
  exact (parent'.write (le_of_lt spine.room) child (by simp)).setWord 0 freshG

theorem rebalanceCtive_black {junk newNode fuel : Nat}
    (stop : ¬ (sp1 ≠ 0 ∧ heap.isRed sp1)) :
    rebalanceCtive junk newNode (fuel + 1) heap (sp0 :: sp1 :: above) = some (heap, sp0 :: sp1 :: above) := by
  unfold rebalanceCtive
  rw [if_neg stop]

private theorem ptr_plug_fresh (copied : ∀ frame ∈ path, old.next ≤ frame.val.1) (fresh : old.next ≤ ptr t) :
    old.next ≤ ptr (plug path t) := by
  induction path generalizing t with
  | nil => exact fresh
  | cons frame rest ih =>
    refine ih (fun frame' mem => copied frame' (.tail _ mem)) ?_
    rw [Frame.plug, ptr_build]
    exact copied frame (mem_cons_self ..)

theorem Spine.plug (spine : Spine old heap path t) : Spine old heap [] (plug path t) := by
  induction path generalizing t with
  | nil => exact spine
  | cons frame rest ih => exact ih spine.up

theorem Spine.rebalanceCtive {fuel n : Nat} (spine : Spine old heap path t) (some : t ≠ nil)
    (fresh : old.next ≤ ptr t) (accepts : Accepts path n) (enough : path.length < fuel) :
    ∃ heap' sp' t', rebalanceCtive junk old.next fuel heap (ptr t :: stack path) = .some (heap', sp') ∧
      spRoot sp' = ptr t' ∧ Spine old heap' [] t' ∧ t' ≠ nil ∧ old.next ≤ ptr t' ∧
      t'.map (tag old.next) = (insertFix path t).map (tag old.next) := by
  induction fuel generalizing heap path t n with
  | zero => exact absurd enough (Nat.not_lt_zero _)
  | succ fuel ih =>
    have copied : ∀ frame ∈ path, old.next ≤ frame.val.1 := fun frame mem => (spine.copied frame mem).1
    have stops (unchanged : insertFix path t = ColourTree.plug path t)
        (black : ∀ frame ∈ path.head?, frame.word ≠ 0) :
        ∃ heap' sp' t', Rbtree.rebalanceCtive junk old.next (fuel + 1) heap (ptr t :: stack path) = .some (heap', sp') ∧
          spRoot sp' = ptr t' ∧ Spine old heap' [] t' ∧ t' ≠ nil ∧ old.next ≤ ptr t' ∧
          t'.map (tag old.next) = (insertFix path t).map (tag old.next) := by
      refine ⟨heap, ptr t :: stack path, ColourTree.plug path t, ?_, spRoot_stack _ _, spine.plug, plug_ne_nil path some,
        ptr_plug_fresh copied fresh, by rw [unchanged]⟩
      cases path with
      | nil => exact rebalanceCtive_black (by simp)
      | cons frame rest =>
        have colour := spine.focused.parent.isRed_eq
        rw [ptr_build] at colour
        refine rebalanceCtive_black ?_
        rw [colour]
        simpa using black frame rfl
    cases path with
    | nil => exact stops rfl nofun
    | cons parent rest =>
      cases rest with
      | nil =>
        refine stops rfl fun frame first red => ?_
        obtain rfl : parent = frame := by simpa using first
        obtain ⟨_, above, _, none, _⟩ := accepts.2.1 red
        cases none
      | cons grand rest =>
        by_cases red : parent.word = 0
        · have parentRed := spine.focused.parent.isRed_eq.mpr (by simp [red])
          have side := spine.focused.parent.side_eq (.inl (by simp))
          have far := spine.focused.parent.parent.child_flip_eq
          rw [ptr_build] at parentRed side
          by_cases uncle : grand.sibling.isRed = true
          · have uncleRed := spine.focused.parent.sibling.isRed_eq.mpr uncle
            obtain ⟨_, covered, outer⟩ := accepts
            obtain ⟨freshGrand, siblingOld⟩ := spine.copied grand (by simp)
            have freshParent := (spine.copied parent (by simp)).1
            have room := spine.room
            have atGrand := spine.up.up
            have repaired : insertFix (parent :: grand :: rest) t = insertFix rest
                (build grand.side 0 grand.val ((parent.plug t).setWord 1) (grand.sibling.setWord 1)) := by
              rw [insertFix, if_neg (not_not.mpr red), if_pos uncle]
            rw [repaired]
            have unfolded : Rbtree.rebalanceCtive junk old.next (fuel + 1) heap (ptr t :: stack (parent :: grand :: rest)) =
                Rbtree.rebalanceCtive junk old.next fuel
                  ((((Rbtree.copyUncle junk grand.side heap grand.val.1 (ptr grand.sibling)).becomeBlack
                    parent.val.1).becomeBlack heap.next).becomeRed grand.val.1) (grand.val.1 :: stack rest) := by
              rw [stack_cons, stack_cons, Rbtree.rebalanceCtive, if_pos parentRed]
              simp only [side, far, if_pos uncleRed]
            rw [unfolded]
            generalize grand.sibling = sibling at uncle siblingOld atGrand
            cases sibling with
            | nil => cases uncle
            | node word val left right =>
              obtain ⟨near, far', seen⟩ := exists_build grand.side word val left right
              rw [seen] at siblingOld atGrand ⊢
              have before : val.1 < old.next := siblingOld _ (by simp)
              obtain ⟨heap', sp', t', looped, top, placed, some', fresh', same⟩ :=
                ih (atGrand.recolourUncle junk freshGrand freshParent before) (by simp) (by simpa using freshGrand)
                  outer.2.2 (by simp only [length_cons] at enough; omega)
              rw [ptr_build] at looped ⊢
              refine ⟨heap', sp', t', looped, top, placed, some', fresh', ?_⟩
              have marked : tag old.next (heap.next, val.2) = tag old.next val := by
                have new : heap.next ≠ old.next := by omega
                have other : val.1 ≠ old.next := by omega
                simp [tag, new, other]
              rw [same, insertFix_map, insertFix_map]
              simp only [Frame.plug, setWord_build, map_build, marked]
          · have uncleBlack := mt spine.focused.parent.sibling.isRed_eq.mp uncle
            obtain ⟨heap', sp1, top, turned, placed, topSome, topFresh, black, same⟩ :=
              spine.rebalanceTurnCtive junk some
            obtain ⟨fuel, rfl⟩ := Nat.exists_eq_succ_of_ne_zero (n := fuel)
              (by simp only [length_cons] at enough; omega)
            refine ⟨heap', ptr t :: sp1 :: ptr top :: stack rest, ColourTree.plug rest top, ?_, ?_, placed.plug, ?_, ?_, ?_⟩
            · rw [stack_cons, stack_cons, Rbtree.rebalanceCtive, if_pos parentRed]
              simp only [side, far, if_neg uncleBlack, turned]
              refine rebalanceCtive_black fun both => ?_
              rw [Heap.isRed, black] at both
              exact absurd both.2 (by decide)
            · rw [← spRoot_stack]
              cases rest <;> rfl
            · exact plug_ne_nil rest topSome
            · exact ptr_plug_fresh (fun frame mem => (placed.copied frame mem).1) topFresh
            · rw [insertFix, if_neg (not_not.mpr red), if_neg uncle, map_plug, map_plug, same]
        · refine stops ?_ fun frame first => ?_
          · rw [insertFix, if_pos red]
          · obtain rfl : parent = frame := by simpa using first
            exact red

section Copy

/-- The frames with consecutive new addresses, the outermost first. -/
def renumber (n : Nat) : Path α → Path α
  | [] => []
  | frame :: rest => { frame with val := (n + rest.length, frame.val.2) } :: renumber n rest

variable {n : Nat}

theorem mem_renumber (mem : p ∈ pathAddrs (renumber n path)) :
    p ∈ pathAddrs path ∨ (n ≤ p ∧ p < n + path.length) := by
  induction path with
  | nil => cases mem
  | cons frame rest ih =>
    simp only [renumber, pathAddrs, mem_cons, mem_append, length_cons] at mem ⊢
    rcases mem with rfl | mem | mem
    · exact .inr (by omega)
    · exact .inl (.inr (.inl mem))
    · rcases ih mem with mem | within
      · exact .inl (.inr (.inr mem))
      · exact .inr (by omega)

private theorem nodup_renumber (distinct : (pathAddrs path).Nodup) (bound : ∀ p ∈ pathAddrs path, p < n) :
    (pathAddrs (renumber n path)).Nodup := by
  induction path with
  | nil => exact List.nodup_nil
  | cons frame rest ih =>
    simp only [pathAddrs, nodup_cons, List.nodup_append] at distinct
    simp only [pathAddrs, mem_cons, mem_append] at bound
    simp only [renumber, pathAddrs, nodup_cons, List.nodup_append, mem_append, not_or]
    refine ⟨⟨fun mem => ?_, fun mem => ?_⟩, distinct.2.1, ih distinct.2.2.1 (fun p mem => bound p (by tauto)), ?_⟩
    · have := bound _ (.inr (.inl mem))
      omega
    · rcases mem_renumber mem with mem | within
      · have := bound _ (.inr (.inr mem))
        omega
      · omega
    · intro p mem q member' same
      rcases mem_renumber member' with member' | within
      · exact distinct.2.2.2 p mem q member' same
      · have := bound p (.inr (.inl mem))
        omega

theorem copied_renumber (bound : ∀ p ∈ pathAddrs path, p < m) (later : m ≤ n) :
    ∀ frame ∈ renumber n path, m ≤ frame.val.1 ∧ ∀ a ∈ addrs frame.sibling, a < m := by
  induction path with
  | nil => exact nofun
  | cons frame rest ih =>
    simp only [pathAddrs, mem_cons, mem_append] at bound
    intro frame' mem
    rcases mem_cons.mp mem with rfl | mem
    · exact ⟨Nat.le_add_right_of_le later, fun a listed => bound a (.inr (.inl listed))⟩
    · exact ih (fun p listed => bound p (by tauto)) frame' mem

private theorem map_renumber (later : x < n) (other : ∀ p ∈ pathAddrs path, p ≠ x) :
    (renumber n path).map (Frame.map (tag x)) = path.map (Frame.map (tag x)) := by
  induction path with
  | nil => rfl
  | cons frame rest ih =>
    simp only [pathAddrs, mem_cons, mem_append] at other
    have same : tag x (n + rest.length, frame.val.2) = tag x frame.val := by
      have new : n + rest.length ≠ x := by omega
      simp [tag, new, other frame.val.1 (.inl rfl)]
    rw [renumber, List.map_cons, List.map_cons, ih fun p mem => other p (by tauto)]
    simp only [Frame.map, same]

theorem setLinks_others (heap : Heap α) (side : Side) (p near far : Nat) (other : q ≠ p) :
    (setLinks heap side p near far).cell q = heap.cell q :=
  (cell_modify_of_ne _ _ _ other).trans (cell_modify_of_ne _ _ _ other)

variable {frame : Frame (Nat × α)}

private theorem copySpine_spec (junk : Nat) (focused : Focused heap (frame :: rest) t)
    (bound : ∀ p ∈ pathAddrs (frame :: rest), p < heap.next) :
    ∃ heap', copySpine junk heap (stack (frame :: rest)) =
        (heap', heap.next + rest.length, stack (renumber heap.next rest)) ∧
      heap'.cell (heap.next + rest.length) =
        { isBlack := frame.word, left := junk, right := junk, mem := frame.val.2 } ∧
      InPath heap' (renumber heap.next rest) (heap.next + rest.length) ∧
      (∀ p, p < heap.next → heap'.cell p = heap.cell p) ∧ heap'.next = heap.next + rest.length + 1 := by
  induction rest generalizing frame t with
  | nil =>
    have source := focused.parent.cell_eq
    refine ⟨newCopy junk heap frame.val.1, rfl, ?_, trivial, fun p before => cell_alloc_of_ne _ _ (ne_of_lt before), rfl⟩
    refine (cell_alloc_self ..).trans ?_
    rw [source, isBlack_nodeOf, mem_nodeOf]
  | cons parent outer ih =>
    have boundOuter : ∀ p ∈ pathAddrs (parent :: outer), p < heap.next := fun p member =>
      bound p (.tail _ (List.mem_append_right _ member))
    obtain ⟨heap1, copied, top, above, kept, next⟩ := ih focused.parent boundOuter
    have atParent := focused.parent
    have frameOld : frame.val.1 < heap.next := bound _ (mem_cons_self ..)
    have parentOld : parent.val.1 < heap.next := boundOuter _ (mem_cons_self ..)
    have side : (if frame.val.1 = heap1.child .left parent.val.1 then Side.left else Side.right) = parent.side := by
      have test := atParent.side_eq (.inl (by simp))
      rw [ptr_build] at test
      rw [Heap.child, kept _ parentOld]
      exact test
    let x1 := heap.next + outer.length
    let x0 := heap.next + (parent :: outer).length
    have x0_eq : heap1.next = x0 := next
    let heap2 := newCopy junk heap1 frame.val.1
    have others : ∀ p, p ≠ x0 → heap2.cell p = heap1.cell p := fun p apart => cell_alloc_of_ne _ _ (x0_eq ▸ apart)
    have newCell : heap2.cell x0 = { isBlack := frame.word, left := junk, right := junk, mem := frame.val.2 } := by
      rw [← x0_eq]
      refine (cell_alloc_self ..).trans ?_
      rw [kept _ frameOld, atParent.cell_eq, isBlack_nodeOf, mem_nodeOf]
    have far : heap2.child parent.side.flip parent.val.1 = ptr parent.sibling := by
      rw [Heap.child, others _ (by simp only [x0, length_cons]; omega), kept _ parentOld]
      exact focused.parent.parent.child_flip_eq
    let heap3 := setLinks heap2 parent.side x1 x0 (ptr parent.sibling)
    have apart : x0 ≠ x1 := by simp only [x0, x1, length_cons]; omega
    have result : copySpine junk heap (stack (frame :: parent :: outer)) =
        (heap3, x0, stack (renumber heap.next (parent :: outer))) := by
      rw [stack_cons] at copied
      rw [stack_cons, stack_cons]
      cases entries : stack outer with
      | nil => exact absurd entries (by simp [stack])
      | cons q above =>
        rw [entries] at copied
        rw [copySpine, copied]
        · simp only [side, x0_eq]
          exact congrArg (fun p => (setLinks heap2 parent.side x1 x0 p, x0, stack (renumber heap.next (parent :: outer)))) far
        · simp
    have unchanged : ∀ p, p < x1 → heap3.cell p = heap1.cell p := by
      intro p before
      have below : p ≠ x1 ∧ p ≠ x0 := by
        omega
      exact (setLinks_others _ _ _ _ _ below.1).trans (others p below.2)
    have kept3 : ∀ p, p < heap.next → heap3.cell p = heap.cell p := fun p before =>
      (unchanged p (Nat.lt_of_lt_of_le before (Nat.le_add_right ..))).trans (kept p before)
    refine ⟨heap3, result, (setLinks_others _ _ _ _ _ apart).trans newCell, ⟨?_, ?_, ?_, ?_⟩, kept3,
      congrArg (· + 1) next⟩
    · exact Nat.ne_of_gt (Nat.lt_of_lt_of_le (Nat.zero_lt_of_lt frameOld) (Nat.le_add_right ..))
    · have source : heap2.cell x1 = _ := (others x1 apart.symm).trans top
      have written : heap3.cell x1 = ((heap2.cell x1).setChild parent.side x0).setChild parent.side.flip
          (ptr parent.sibling) := by
        simp only [heap3, setLinks, Heap.setChild, cell_modify_self]
      refine written.trans ?_
      rw [source]
      cases parent.side <;> rfl
    · refine focused.parent.above.2.2.1.congr fun p member => kept3 p (boundOuter p ?_)
      exact .tail _ (List.mem_append_left _ member)
    · refine above.congr fun p member => unchanged p ?_
      rcases mem_renumber member with member | within
      · have before := boundOuter p (.tail _ (List.mem_append_right _ member))
        exact Nat.lt_of_lt_of_le before (Nat.le_add_right ..)
      · exact within.2

private theorem spine_attach (junk : Nat) (slot : α) (focused : Focused heap (frame :: rest) nil)
    (bound : ∀ p ∈ pathAddrs (frame :: rest), p < heap.next) :
    let heap1 := heap.alloc { isBlack := 0, left := 0, right := 0, mem := slot }
    let spine := copySpine junk heap1 (stack (frame :: rest))
    let heap2 := setLinks spine.1 frame.side spine.2.1 heap.next (spine.1.child frame.side.flip frame.val.1)
    spine.2.1 :: spine.2.2 = stack (renumber (heap.next + 1) (frame :: rest)) ∧
      Spine heap heap2 (renumber (heap.next + 1) (frame :: rest)) (node 0 (heap.next, slot) nil nil) := by
  intro heap1 spine heap2
  have agree : ∀ p, p < heap.next → heap1.cell p = heap.cell p := fun p before =>
    cell_alloc_of_ne _ _ (ne_of_lt before)
  have focused1 : Focused heap1 (frame :: rest) nil :=
    ⟨trivial, focused.above.congr fun p member => agree p (bound p member), focused.distinct⟩
  obtain ⟨heap', copied, top, above, kept, next⟩ := copySpine_spec junk focused1 fun p member =>
    Nat.lt_succ_of_lt (bound p member)
  have spine_eq : spine = (heap', heap.next + 1 + rest.length, stack (renumber (heap.next + 1) rest)) := copied
  let x1 := heap.next + 1 + rest.length
  have frameOld : frame.val.1 < heap.next := bound _ (mem_cons_self ..)
  have kept' : ∀ p, p < heap.next → heap'.cell p = heap.cell p := fun p before =>
    (kept p (Nat.lt_succ_of_lt before)).trans (agree p before)
  have far : heap'.child frame.side.flip frame.val.1 = ptr frame.sibling := by
    rw [Heap.child, kept' _ frameOld]
    exact focused.parent.child_flip_eq
  have heap2_eq : heap2 = setLinks heap' frame.side x1 heap.next (ptr frame.sibling) := by
    simp only [heap2, spine_eq, far]
    rfl
  have unchanged : ∀ p, p < x1 → heap2.cell p = heap'.cell p := fun p before =>
    heap2_eq ▸ setLinks_others _ _ _ _ _ (ne_of_lt before)
  have kept2 : ∀ p, p < heap.next → heap2.cell p = heap.cell p := fun p before =>
    (unchanged p (by omega)).trans (kept' p before)
  have next2 : heap2.next = x1 + 1 := by
    rw [heap2_eq]
    exact next
  refine ⟨by rw [spine_eq]; rfl, ⟨⟨⟨?_, ?_, trivial, trivial⟩, ⟨?_, ?_, ?_, ?_⟩, ?_⟩, fun a member => ?_,
    copied_renumber bound (Nat.le_succ _), kept2, by omega⟩⟩
  · exact ne_of_gt (Nat.zero_lt_of_lt frameOld)
  · rw [unchanged _ (by omega), kept _ (Nat.lt_succ_self _)]
    exact cell_alloc_self ..
  · exact Nat.ne_of_gt (Nat.lt_of_lt_of_le (Nat.succ_pos heap.next) (Nat.le_add_right ..))
  · have written : heap2.cell x1 = ((heap'.cell x1).setChild frame.side heap.next).setChild frame.side.flip
        (ptr frame.sibling) := by
      simp only [heap2_eq, setLinks, Heap.setChild, cell_modify_self]
    refine written.trans ?_
    rw [show heap'.cell x1 = _ from top]
    cases frame.side <;> rfl
  · refine focused.above.2.2.1.congr fun p member => kept2 p (bound p ?_)
    exact .tail _ (List.mem_append_left _ member)
  · refine above.congr fun p member => unchanged p ?_
    rcases mem_renumber member with member | within
    · have before := bound p (.tail _ (List.mem_append_right _ member))
      omega
    · exact within.2
  · refine nodup_cons.mpr ⟨fun member => ?_, nodup_renumber focused.distinct fun p member =>
      Nat.lt_succ_of_lt (bound p member)⟩
    rcases mem_renumber member with member | within
    · exact Nat.lt_irrefl _ (bound _ member)
    · exact Nat.lt_irrefl _ within.1
  · rw [next2]
    rcases mem_append.mp member with own | above
    · have same : a = heap.next := by simpa [addrs, inorder] using own
      omega
    · rcases mem_renumber above with listed | within
      · have before := bound a listed
        omega
      · simp only [length_cons] at within
        omega

end Copy

variable {root : Nat}
variable {compare : α → Int} {path' : Path α}

theorem cinsert_present [Inhabited α]
    (held : Held heap root t) (found : locate (onSlot compare) t [] = (t', path')) (some : t' ≠ nil) :
    cinsert1mMem junk compare heap root = .some (heap, root, false, ptr t') := by
  obtain ⟨cmp, focused, _, _, result⟩ := held.search found
  have nonnull : ptr t' ≠ 0 := fun zero => some (focused.subtree.ptr_eq_zero.mp zero)
  have rooted : root ≠ 0 := by
    rw [held.root_eq]
    intro zero
    rw [held.focused.subtree.ptr_eq_zero.mp zero] at found
    exact some (Prod.mk.inj found).1.symm
  simp only [cinsert1mMem, held.size_eq, result some]
  rw [if_neg rooted, if_pos nonnull]

theorem Held.copied (junk : Nat) {cmp : Int} (slot : α)
    (held : Held heap root t) (whole : ColourTree.plug (frame :: rest) nil = t)
    (focused : Focused heap (frame :: rest) nil) (last : cmp < 0 ↔ frame.side = .left) :
    let heap1 := heap.alloc { isBlack := 0, left := 0, right := 0, mem := slot }
    let spine := copySpine junk heap1 (stack (frame :: rest))
    let side := if cmp < 0 then Side.left else .right
    let heap2 := setLinks spine.1 side spine.2.1 heap.next (spine.1.child side.flip frame.val.1)
    spine.2.1 :: spine.2.2 = stack (renumber (heap.next + 1) (frame :: rest)) ∧
      Spine heap (heap2.setWord heap.next 0) (renumber (heap.next + 1) (frame :: rest))
        (node 0 (heap.next, slot) nil nil) ∧
      (renumber (heap.next + 1) (frame :: rest)).map (Frame.map (tag heap.next)) =
        (frame :: rest).map (Frame.map (tag heap.next)) ∧
      ∃ m, Accepts (frame :: rest) m ∧ Accepts (renumber (heap.next + 1) (frame :: rest)) m ∧
        Balanced (nil : Tree α) m := by
  intro heap1 spine side heap2
  have bound : ∀ p ∈ pathAddrs (frame :: rest), p < heap.next := by
    intro p member
    refine held.fresh p ?_
    rw [← whole, (addrs_plug (frame :: rest) nil).mem_iff]
    exact List.mem_append_right _ member
  have side_eq : side = frame.side := by
    simp only [side, last]
    cases frame.side <;> rfl
  obtain ⟨entries, placed⟩ := spine_attach junk slot focused bound
  have marked : (renumber (heap.next + 1) (frame :: rest)).map (Frame.map (tag heap.next)) =
      (frame :: rest).map (Frame.map (tag heap.next)) :=
    map_renumber (Nat.lt_succ_self _) fun p member => ne_of_lt (bound p member)
  obtain ⟨n, balanced⟩ := held.balanced
  obtain ⟨m, accepts, empty, _⟩ := accepts_of_balanced (whole.symm ▸ balanced) (whole.symm ▸ held.black)
  refine ⟨entries, ?_, marked, m, accepts, ?_, empty⟩
  · simp only [heap2, side_eq]
    exact @Spine.setWord _ _ _ _ .left _ _ _ _ 0 placed (le_rfl)
  · rw [← @accepts_map _ _ (tag heap.next), marked, accepts_map]
    exact accepts

/-- A constructive insertion of a new key keeps the old cells and builds the tree
of the destructive one, up to the addresses of the other nodes. -/
theorem cinsert_absent [Inhabited α]
    (held : Held heap root t) (found : locate (onSlot compare) t [] = (nil, path')) :
    ∃ heap' t', cinsert1mMem junk compare heap root = some (heap', ptr t', true, heap.next) ∧
      Held heap' (ptr t') t' ∧ (∀ a, a < heap.next → heap'.cell a = heap.cell a) ∧ heap.next < heap'.next ∧
      t'.map (tag heap.next) = ((insertFix path' (node 0 (heap.next, default) nil nil)).setWord (t.size + 1)).map
        (tag heap.next) := by
  let leaf : Tree α := node 0 (heap.next, default) nil nil
  cases t with
  | nil =>
    obtain ⟨-, rfl⟩ := Prod.mk.inj found
    have rooted : root = 0 := held.root_eq
    let heap' := heap.alloc { isBlack := 1, left := 0, right := 0, mem := default }
    have focused : Focused heap' [] (node 1 (heap.next, default) nil nil) :=
      ⟨⟨ne_of_gt held.positive, cell_alloc_self .., trivial, trivial⟩, trivial, by simp [addrs, inorder, pathAddrs]⟩
    have fresh : ∀ a ∈ addrs (node 1 (heap.next, (default : α)) nil nil), a < heap'.next := by
      intro a member
      have same : a = heap.next := by simpa [addrs, inorder] using member
      exact same ▸ Nat.lt_succ_self _
    refine ⟨heap', node 1 (heap.next, default) nil nil, ?_, ⟨focused, rfl, fresh, Nat.succ_pos _, ⟨1, ?_⟩, rfl⟩,
      fun a before => cell_alloc_of_ne _ _ (ne_of_lt before), Nat.lt_succ_self _, rfl⟩
    · simp only [cinsert1mMem, rooted, if_true]
      rfl
    · exact (@balanced_black _ .left _ _ _ _ _ one_ne_zero).mpr ⟨0, rfl, rfl, rfl⟩
  | node word val left right =>
    obtain ⟨cmp, focused, whole, result, _⟩ := held.search found
    obtain ⟨descended, last⟩ := result rfl
    have rooted : root ≠ 0 := by
      rw [held.root_eq]
      exact held.focused.subtree.1
    cases path' with
    | nil => cases whole
    | cons frame rest =>
      obtain ⟨entries, coloured, marked, m, accepts, accepts', empty⟩ :=
        held.copied junk default whole focused (last frame rfl)
      have enough : (renumber (heap.next + 1) (frame :: rest)).length <
          (heap.next :: stack (renumber (heap.next + 1) (frame :: rest))).length + 1 := by
        simp only [stack, length_cons, List.length_append, List.length_map]
        omega
      obtain ⟨heap', sp', t', looped, top, placed, some, fresh, same⟩ :=
        coloured.rebalanceCtive junk node_ne_nil (le_rfl) accepts' enough
      have repaired : t'.map (tag heap.next) = (insertFix (frame :: rest) leaf).map (tag heap.next) := by
        rw [same, insertFix_map, insertFix_map, marked]
      have leaf_balanced : Balanced leaf m := (@balanced_red _ .left _ _ _ _).mpr ⟨rfl, rfl, empty, empty⟩
      obtain ⟨k, fixed⟩ := balanced_insertFix accepts leaf_balanced rfl
      have sized : t'.size = (node word val left right).size + 1 := by
        have count := congrArg ColourTree.size repaired
        rw [size_map, size_map, ← length_inorder (insertFix _ _), inorder_insertFix, inorder_plug] at count
        rw [count, ← whole, ← length_inorder, inorder_plug]
        simp only [leaf, inorder, List.length_append, length_cons, List.length_nil]
        omega
      have held' : Held _ _ (t'.setWord ((node word val left right).size + 1)) := held_setWord
        (placed.focused.setWord_ptr _ some) (fun a member => placed.bound a (List.mem_append_left _ member))
          (Nat.zero_lt_of_lt placed.room)
        ⟨k, by rw [← @balanced_map _ _ (tag heap.next), repaired, balanced_map]; exact fixed⟩ sized
      refine ⟨heap'.setWord (ptr t') ((node word val left right).size + 1),
        t'.setWord ((node word val left right).size + 1), ?_, ?_, fun a before => ?_, placed.room, ?_⟩
      · have looped' : rebalanceCtive junk heap.next _ _ (heap.next :: stack (renumber (heap.next + 1) (frame :: rest))) =
            .some (heap', sp') := looped
        rw [ptr_setWord]
        simp only [cinsert1mMem, held.size_eq, descended]
        rw [if_neg rooted, if_neg (not_not.mpr rfl)]
        simp only [stack_cons, headD_cons] at entries looped' ⊢
        simp only [entries, Heap.becomeRed]
        rw [looped']
        simp only [top]
      · rw [ptr_setWord]
        exact held'
      · rw [Heap.setWord, cell_modify_of_ne _ _ _ (by omega)]
        exact placed.kept a before
      · rw [map_setWord, map_setWord, repaired]

theorem Held.congr (held : Held heap root t)
    (agree : ∀ a, a < heap.next → heap'.cell a = heap.cell a) (grown : heap.next ≤ heap'.next) :
    Held heap' root t :=
  ⟨⟨held.focused.subtree.congr fun a mem => agree a (held.fresh a mem), trivial, held.focused.distinct⟩,
    held.root_eq, fun a mem => lt_of_lt_of_le (held.fresh a mem) grown,
    lt_of_lt_of_le held.positive grown, held.balanced, held.sized⟩

/-- Storing a key in the new node makes trees with the same marked node equal up
to addresses. -/
theorem map_store_eq (key : α) (same : t.map (tag x) = t'.map (tag x)) :
    (t.map (store x key)).map Prod.snd = (t'.map (store x key)).map Prod.snd := by
  have through : Prod.snd ∘ store x key = (fun marked : Bool × α => if marked.1 then key else marked.2) ∘ tag x := by
    funext val
    by_cases new : val.1 = x <;> simp [store, tag, new]
  rw [map_map, map_map, through, ← map_map, ← map_map, same]

variable {order : Comparison α}

theorem Comparison.sorted_congr
    (same : xs.map Prod.snd = ys.map Prod.snd) (sorted : order.Sorted ys) : order.Sorted xs := by
  have listed : (ys.map Prod.snd).Pairwise fun x y => order.cmp x y < 0 := List.pairwise_map.mpr sorted
  rw [← same] at listed
  exact List.pairwise_map.mp listed

/-- Every node of the heap before is as it was. -/
def Keeps (heap heap' : Heap α) : Prop :=
  (∀ a, a < heap.next → heap'.cell a = heap.cell a) ∧ heap.next ≤ heap'.next

section Versions

variable [Inhabited α]

/-- What the caller of an insertion does with the slot of a new node. -/
def storeNew (isNew : Bool) (heap : Heap α) (x : Nat) (key : α) : Heap α := if isNew then heap.setMem x key else heap

/-- A tree is the one, up to addresses, that `cucon_rbtree_insert1m_mem` makes of
the tree at a root. -/
def MatchesDtive {order : Comparison α} (probe : Probe order) (heap : Heap α) (root : Nat) (t' : Tree α) : Prop :=
  ∃ heap' root' isNew x t, insert1mMem probe.compare heap root = some (heap', root', isNew, x) ∧
    Held (storeNew isNew heap' x probe.key) root' t ∧ t'.map Prod.snd = t.map Prod.snd

variable {order : Comparison α}

private theorem cinsert_keeps (junk : Nat) (s : OrderedTree order) (probe : Probe order) :
    ∃ heap' root' isNew x, cinsert1mMem junk probe.compare s.heap s.root = some (heap', root', isNew, x) ∧
      ∃ s' : OrderedTree order, s'.heap = storeNew isNew heap' x probe.key ∧ s'.root = root' ∧
        (∀ a, a < s.heap.next → s'.heap.cell a = s.heap.cell a) ∧ s.heap.next ≤ s'.heap.next ∧
        MatchesDtive probe s.heap s.root s'.tree := by
  rcases s.locate_cases probe with
    ⟨path, found, split, below, above⟩ | ⟨path, word, val, left, right, found, _, _⟩
  · obtain ⟨heap', t', returned, held, kept, grown, same⟩ := cinsert_absent junk s.held found
    obtain ⟨heapD, returnedD, _, heldD⟩ := insertNode_absent default s.held found
    have equal := map_store_eq probe.key same
    have sequence : ((insertFix path (node 0 (s.heap.next, default) nil nil)).setWord (s.tree.size + 1)).inorder =
        before path ++ (s.heap.next, default) :: after path := by
      rw [inorder_setWord, inorder_insertFix, inorder_plug]
      simp [inorder]
    have sortedD : order.Sorted (before path ++ (s.heap.next, probe.key) :: after path) :=
      OrderedTree.sorted_insert probe (split ▸ s.sorted) rfl below above
    rw [← s.inorder_map_store probe.key split sequence] at sortedD
    have sorted : order.Sorted (t'.map (store s.heap.next probe.key)).inorder := by
      refine Comparison.sorted_congr ?_ sortedD
      rw [← inorder_map, equal, inorder_map]
    have kept' : ∀ a, a < s.heap.next → (heap'.setMem s.heap.next probe.key).cell a = s.heap.cell a := by
      intro a before
      rw [Heap.setMem, cell_modify_of_ne _ _ _ (ne_of_lt before)]
      exact kept a before
    exact ⟨heap', ptr t', true, s.heap.next, returned, ⟨_, _, _, held.setMem s.heap.next probe.key, sorted⟩, rfl, rfl,
      kept', le_of_lt grown, heapD, _, true, s.heap.next, _, returnedD, heldD.setMem s.heap.next probe.key, equal⟩
  · exact ⟨s.heap, s.root, false, val.1, cinsert_present junk s.held found node_ne_nil, s, rfl, rfl, fun _ _ => rfl,
      le_rfl, s.heap, s.root, false, val.1, s.tree, insertNode_present s.held found node_ne_nil, s.held, rfl⟩

/-- An operation on a list of trees, which are numbered. -/
inductive CtiveOp (order : Comparison α) where
  | clone (i : Nat)
  | cinsert (i : Nat) (probe : Probe order)

/-- The code of an operation: `cucon_rbtree_new_copy_ctive` adds a tree with the
same root, and `cucon_rbtree_cinsert1m_mem` replaces a root. Nothing happens on a
tree that does not exist. -/
def CtiveOp.apply (junk : Nat) {order : Comparison α} : CtiveOp order → Heap α × List Nat → Option (Heap α × List Nat)
  | clone i, (heap, roots) => some (heap, roots ++ roots[i]?.toList)
  | cinsert i probe, (heap, roots) =>
    match roots[i]? with
    | none => some (heap, roots)
    | some root =>
      (cinsert1mMem junk probe.compare heap root).map fun (heap', root', isNew, x) =>
        (storeNew isNew heap' x probe.key, roots.set i root')

/-- A sequence of operations. -/
def runCtive (junk : Nat) {order : Comparison α} (ops : List (CtiveOp order)) (start : Heap α × List Nat) :
    Option (Heap α × List Nat) :=
  ops.foldlM (fun state op => op.apply junk state) start

/-- Trees that share a heap. -/
structure Versions (order : Comparison α) where
  heap : Heap α
  trees : List (Nat × Tree α)
  held : ∀ entry ∈ trees, Held heap entry.1 entry.2 ∧ order.Sorted entry.2.inorder

/-- The roots in the variables of the program. -/
abbrev Versions.roots {order : Comparison α} (v : Versions order) : List Nat := v.trees.map Prod.fst

/-- What an operation does to the trees: a clone is the same tree, and an inserted
one is as the destructive insertion would have made it. -/
def CtiveOp.Effect {order : Comparison α} (v v' : Versions order) : CtiveOp order → Prop
  | clone i => v'.trees = v.trees ++ v.trees[i]?.toList
  | cinsert i probe => ∀ entry, v.trees[i]? = some entry → ∃ entry', v'.trees = v.trees.set i entry' ∧
      MatchesDtive probe v.heap entry.1 entry'.2

theorem ctive_step (junk : Nat) (v : Versions order) (op : CtiveOp order) :
    ∃ v' : Versions order, op.apply junk (v.heap, v.roots) = some (v'.heap, v'.roots) ∧ op.Effect v v' ∧
      Keeps v.heap v'.heap := by
  cases op with
  | clone i =>
    refine ⟨⟨v.heap, v.trees ++ v.trees[i]?.toList, fun entry mem => ?_⟩, ?_, rfl, fun _ _ => rfl, le_rfl⟩
    · rcases mem_append.mp mem with mem | mem
      · exact v.held entry mem
      · exact v.held entry (List.mem_of_getElem? (Option.mem_toList.mp mem))
    · have listed : ∀ found : Option (Nat × Tree α), (found.map Prod.fst).toList = found.toList.map Prod.fst := by
        intro found
        cases found <;> rfl
      simp [CtiveOp.apply, Versions.roots, listed]
  | cinsert i probe =>
    cases present : v.trees[i]? with
    | none =>
      refine ⟨v, ?_, fun entry found => absurd (present.symm.trans found) nofun, fun _ _ => rfl, le_rfl⟩
      simp [CtiveOp.apply, Versions.roots, present]
    | some entry =>
      obtain ⟨held, sorted⟩ := v.held entry (List.mem_of_getElem? present)
      obtain ⟨heap', root', isNew, x, returned, s', stored, rfl, kept, grown, matched⟩ :=
        cinsert_keeps junk ⟨v.heap, entry.1, entry.2, held, sorted⟩ probe
      refine ⟨⟨s'.heap, v.trees.set i (s'.root, s'.tree), fun entry' mem => ?_⟩, ?_, ?_, kept, grown⟩
      · rcases List.mem_or_eq_of_mem_set mem with mem | rfl
        · exact ⟨(v.held entry' mem).1.congr kept grown, (v.held entry' mem).2⟩
        · exact ⟨s'.held, s'.sorted⟩
      · simp [CtiveOp.apply, Versions.roots, present, returned, stored, List.map_set]
      · intro entry' found
        obtain rfl := Option.some.inj (present.symm.trans found)
        exact ⟨(s'.root, s'.tree), rfl, matched⟩

private theorem ctive_run (junk : Nat) (ops : List (CtiveOp order)) (v : Versions order) :
    ∃ v' : Versions order, runCtive junk ops (v.heap, v.roots) = some (v'.heap, v'.roots) ∧ Keeps v.heap v'.heap := by
  induction ops generalizing v with
  | nil => exact ⟨v, rfl, fun _ _ => rfl, le_rfl⟩
  | cons op rest ih =>
    obtain ⟨v1, applied, _, keeps1⟩ := ctive_step junk v op
    obtain ⟨v', result, keeps⟩ := ih v1
    refine ⟨v', ?_, (⟨fun a before => (keeps.1 a (lt_of_lt_of_le before keeps1.2)).trans (keeps1.1 a before),
      le_trans keeps1.2 keeps.2⟩)⟩
    rw [runCtive, List.foldlM_cons, applied]
    exact result

/-- In every sequence of clones and constructive insertions that starts with a
tree, each operation leaves every tree as it was except the one it is on, and
makes that one what the destructive insertion would have made it. -/
theorem ctive_persistent (junk : Nat) (s : OrderedTree order) (ops : List (CtiveOp order))
    (op : CtiveOp order) :
    ∃ v v' : Versions order, runCtive junk ops (s.heap, [s.root]) = some (v.heap, v.roots) ∧
      Held v.heap s.root s.tree ∧ Keeps s.heap v.heap ∧
      runCtive junk (ops ++ [op]) (s.heap, [s.root]) = some (v'.heap, v'.roots) ∧
      op.Effect v v' ∧ Keeps v.heap v'.heap ∧ ∀ entry ∈ v.trees, Held v'.heap entry.1 entry.2 := by
  let start : Versions order := ⟨s.heap, [(s.root, s.tree)], fun entry member => by
    rw [List.mem_singleton.mp member]
    exact ⟨s.held, s.sorted⟩⟩
  obtain ⟨v, result, keeps⟩ := ctive_run junk ops start
  obtain ⟨v', applied, effect, keeps'⟩ := ctive_step junk v op
  refine ⟨v, v', result, s.held.congr keeps.1 keeps.2, keeps, ?_, effect, keeps', fun entry member =>
    (v.held entry member).1.congr keeps'.1 keeps'.2⟩
  have before : ops.foldlM (fun state op => op.apply junk state) (s.heap, [s.root]) = some (v.heap, v.roots) := result
  rw [runCtive, List.foldlM_append, before]
  simp [List.foldlM_cons, applied]

end Versions

end Culibs.Cucon.Rbtree
