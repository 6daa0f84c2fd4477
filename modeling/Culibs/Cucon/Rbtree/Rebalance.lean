import Culibs.Cucon.Rbtree.Step
import Culibs.Foundation.RedBlack

namespace Culibs.Cucon.Rbtree

open ColourTree Nat
open List (headD_cons length_cons mem_append mem_cons)

variable {α : Type} {heap : Heap α} {rest path : Path α} {t : Tree α}
variable {frame : Frame (Nat × α)}

theorem Focused.setWord_focus (word' : Nat) (focused : Focused heap (frame :: rest) t) :
    Focused (heap.setWord frame.val.1 word') rest (build frame.side word' frame.val t frame.sibling) :=
  focused.parent.setWord word'

variable {fuel : Nat}

section Insert

theorem rebalanceLoop_black {rest : List Nat}
    (stop : ¬ (sp1 ≠ 0 ∧ heap.isRed sp1)) :
    rebalanceLoop (fuel + 1) heap (sp0 :: sp1 :: rest) = some (heap, sp0 :: sp1 :: rest) := by
  unfold rebalanceLoop
  rw [if_neg stop]

variable {parent grand : Frame (Nat × α)}

theorem rebalanceTurn_refines
    (focused : Focused heap (parent :: grand :: rest) t) (some : t ≠ nil) :
    let inner := if parent.side = grand.side then parent.plug t else ColourTree.rotate parent.side (parent.plug t)
    let top := ColourTree.rotate grand.side (build grand.side 0 grand.val (inner.setWord 1) grand.sibling)
    ∃ heap', rebalanceTurn grand.side heap (ptr t) parent.val.1 grand.val.1 (stack rest) =
        (heap', ptr top :: ptr top :: stack rest) ∧
      Writes (addrs t ++ pathAddrs (parent :: grand :: rest)) heap heap' ∧ top.isRed = false ∧
      Focused heap' rest top := by
  intro inner top
  unfold rebalanceTurn
  by_cases aligned : parent.side = grand.side
  · have straight : ¬ ptr t = heap.child grand.side.flip parent.val.1 := by
      rw [focused.child_iff (.inl some), aligned]
      exact Side.ne_flip _
    have coloured := (focused.setWord_focus 1).setWord_focus 0
    obtain ⟨heap', turned, writes, lifted⟩ := Focused.rotate (aligned ▸ coloured)
    have shape : top = build grand.side 1 parent.val t (build grand.side 0 grand.val parent.sibling grand.sibling) := by
      simp only [top, inner, if_pos aligned, Frame.plug, aligned, setWord_build, rotate_build]
    rw [if_neg straight, shape]
    refine ⟨heap', ?_, ((Writes.refl.setWord 1 ?_).setWord 0 ?_).trans writes ?_, by simp, lifted⟩
    · simp only [headD_cons, ptr_build, Heap.becomeBlack, Heap.becomeRed]
      rw [turned]
    · simp [pathAddrs]
    · simp [pathAddrs]
    · intro a
      simp only [pathAddrs, mem_cons, mem_append]
      tauto
  · have flipped : grand.side = parent.side.flip := (parent.side.eq_or_flip grand.side).resolve_left (Ne.symm aligned)
    have crossed : ptr t = heap.child grand.side.flip parent.val.1 := by
      rw [focused.child_iff (.inl some), flipped, Side.flip_flip]
    cases t with
    | nil => exact absurd rfl some
    | node word val left right =>
      obtain ⟨near, far, seen⟩ := exists_build parent.side word val left right
      rw [seen] at focused crossed ⊢
      obtain ⟨heap1, turned1, writes1, lifted1⟩ := focused.parent.rotate
      have coloured := (lifted1.setWord 1).setWord_focus 0
      rw [← build_flip parent.side 1, ← flipped] at coloured
      obtain ⟨heap', turned, writes, lifted⟩ := coloured.rotate
      have shape : top = build grand.side 1 val (build parent.side parent.word parent.val far parent.sibling)
          (build grand.side 0 grand.val near grand.sibling) := by
        simp only [top, inner, if_neg aligned, Frame.plug, seen, rotate_build, setWord_build]
        rw [← build_flip parent.side 1, ← flipped, rotate_build]
      rw [if_pos crossed, shape]
      refine ⟨heap', ?_, (((Writes.refl.trans writes1 ?_).setWord 1 ?_).setWord 0 ?_).trans writes ?_, by simp, lifted⟩
      · rw [flipped, Side.flip_flip]
        rw [stack_cons] at turned1
        rw [turned1]
        simp only [headD_cons, ptr_build, Heap.becomeBlack, Heap.becomeRed]
        rw [← flipped, turned]
      all_goals
        try intro a
        simp only [pathAddrs, mem_cons, mem_append, mem_addrs_build]
        tauto

private theorem rebalanceLoop_stops (focused : Focused heap (frame :: rest) t) (black : frame.word ≠ 0) :
    ∃ heap' sp', rebalanceLoop (fuel + 1) heap (ptr t :: stack (frame :: rest)) = some (heap', sp') ∧
      Writes (addrs t ++ pathAddrs (frame :: rest)) heap heap' ∧ spRoot sp' = ptr (plug (frame :: rest) t) ∧
      Focused heap' [] (plug (frame :: rest) t) := by
  refine ⟨heap, ptr t :: stack (frame :: rest), rebalanceLoop_black ?_, .refl, spRoot_stack _ _,
    focused_plug.mp focused⟩
  have colour := focused.parent.isRed_eq
  rw [ptr_build] at colour
  rw [colour]
  simpa using black

private theorem rebalanceLoop_round
    (focused : Focused heap (parent :: grand :: rest) t) (red : parent.word = 0) :
    rebalanceLoop (fuel + 1) heap (ptr t :: stack (parent :: grand :: rest)) =
      if grand.sibling.isRed = true then
        rebalanceLoop fuel (((heap.setWord parent.val.1 1).setWord (ptr grand.sibling) 1).setWord grand.val.1 0)
          (grand.val.1 :: stack rest)
      else
        let turned := rebalanceTurn grand.side heap (ptr t) parent.val.1 grand.val.1 (stack rest)
        rebalanceLoop fuel turned.1 (ptr t :: turned.2) := by
  have parentRed := focused.parent.isRed_eq.mpr (by simp [red])
  have side := focused.parent.side_eq (.inl (by simp))
  have far := focused.parent.parent.child_flip_eq
  rw [ptr_build] at parentRed side
  rw [stack_cons, stack_cons, rebalanceLoop, if_pos parentRed]
  simp only [side, far, focused.parent.sibling.isRed_eq]
  rfl

theorem rebalanceLoop_refines {n : Nat} (focused : Focused heap path t) (some : t ≠ nil)
    (accepts : Accepts path n) (enough : path.length < fuel) :
    ∃ heap' sp', rebalanceLoop fuel heap (ptr t :: stack path) = .some (heap', sp') ∧
      Writes (addrs t ++ pathAddrs path) heap heap' ∧ spRoot sp' = ptr (insertFix path t) ∧
      Focused heap' [] (insertFix path t) := by
  obtain ⟨fuel, rfl⟩ := exists_eq_succ_of_ne_zero (ne_zero_of_lt enough)
  fun_induction insertFix path t generalizing heap fuel n with
  | case1 t => exact ⟨heap, _, rebalanceLoop_black (by simp), .refl, rfl, focused⟩
  | case2 parent t =>
    have black : parent.word ≠ 0 := by
      intro red
      obtain ⟨_, above, _, none, _⟩ := accepts.2.1 red
      cases none
    exact rebalanceLoop_stops focused black
  | case3 parent grand rest t black => exact rebalanceLoop_stops focused black
  | case4 parent grand rest t red uncle ih =>
    rw [not_not] at red
    simp only [Frame.plug, setWord_build] at ih ⊢
    obtain ⟨_, covered, outer⟩ := accepts
    have uncleSome : grand.sibling ≠ nil := by
      intro none
      simp [none] at uncle
    have coloured := ((focused.setWord_focus 1).setWord_sibling 1 uncleSome).setWord_focus 0
    obtain ⟨fuel, rfl⟩ := exists_eq_succ_of_ne_zero (n := fuel) (by simp only [length_cons] at enough; omega)
    have uncleMem := ptr_mem fun zero => uncleSome (focused.parent.sibling.subtree.ptr_eq_zero.mp zero)
    obtain ⟨heap', sp', looped, writes, repaired⟩ :=
      ih coloured (by simp) outer.2.2 fuel (by simp only [length_cons] at enough; omega)
    rw [ptr_build] at looped
    rw [rebalanceLoop_round focused red, if_pos uncle]
    refine ⟨heap', sp', looped, (((Writes.refl.setWord 1 ?_).setWord 1 ?_).setWord 0 ?_).trans writes ?_, repaired⟩
    · simp [pathAddrs]
    · simp [pathAddrs, uncleMem]
    · simp [pathAddrs]
    · intro a
      simp only [pathAddrs, mem_cons, mem_append, mem_addrs_build, addrs_setWord]
      tauto
  | case5 parent grand rest t red uncle =>
    rw [not_not] at red
    obtain ⟨heap', turned, writes, topBlack, lifted⟩ := rebalanceTurn_refines focused some
    obtain ⟨fuel, rfl⟩ := exists_eq_succ_of_ne_zero (n := fuel) (by simp only [length_cons] at enough; omega)
    simp only [rebalanceLoop_round focused red, if_neg uncle, turned]
    refine ⟨heap', _, rebalanceLoop_black ?_, writes, ?_, focused_plug.mp lifted⟩
    · rw [lifted.isRed_eq, topBlack]
      exact Bool.false_ne_true
    · rw [← spRoot_stack]
      cases rest <;> rfl

end Insert

section Erase

variable {side : Side} {word wordP : Nat} {val valP : Nat × α} {near far : Tree α}

private theorem eraseLift_refines (focused : Focused heap path (build side wordP valP t (build side word val near far)))
    (some : far ≠ nil) :
    ∃ heap', eraseLift side heap valP.1 (stack path) = (heap', val.1 :: stack path) ∧
      heap'.next = heap.next ∧
      Focused heap' path (build side wordP val (build side 1 valP t near) (far.setWord 1)) := by
  have y : heap.child side.flip valP.1 = val.1 := focused.child_flip_eq.trans (ptr_build ..)
  have colour : (heap.cell valP.1).isBlack = wordP := by rw [focused.cell_eq, isBlack_nodeOf]
  have coloured := (focused.setWord_far wordP (by simp)).setWord 1
  rw [ptr_build, setWord_build] at coloured
  have farEq := (focused_far.mpr coloured).child_flip_eq
  have farNonnull : ptr far ≠ 0 := fun zero =>
    some ((focused_far.mpr (focused_far.mpr coloured)).subtree.ptr_eq_zero.mp zero)
  have written := focused_far.mp ((focused_far.mpr coloured).setWord_far 1 some)
  obtain ⟨heap', turned, writes, lifted⟩ := written.rotate_flip
  refine ⟨heap', ?_, writes.next, lifted⟩
  simp only [eraseLift, y, colour, Heap.becomeBlack, farEq, ne_eq, farNonnull, not_false_eq_true, if_true]
  exact turned

theorem eraseTurn_refines (focused : Focused heap path (build side wordP valP t (build side word val near far)))
    (red : ¬ (near.isRed = false ∧ far.isRed = false)) :
    ∃ heap', eraseTurn side heap valP.1 (stack path) =
        (heap', ptr (eraseRotate side wordP valP t (build side word val near far)) :: stack path) ∧
      heap'.next = heap.next ∧ Focused heap' path (eraseRotate side wordP valP t (build side word val near far)) := by
  have y : heap.child side.flip valP.1 = val.1 := focused.child_flip_eq.trans (ptr_build ..)
  have inner := focused_far.mpr focused
  have nearEq := inner.child_eq
  have farEq := inner.child_flip_eq
  have farBlack := (focused_far.mpr inner).not_isRed_eq
  unfold eraseTurn eraseRotate
  simp only [y, nearEq, farEq, farBlack, view_build]
  by_cases black : far.isRed = false
  · cases near with
    | nil => exact absurd ⟨rfl, black⟩ red
    | node wordN valN left right =>
      obtain ⟨a, b, seen⟩ := exists_build side wordN valN left right
      rw [seen] at inner nearEq ⊢
      have coloured := (inner.setWord_near 1 (by simp)).setWord 0
      rw [setWord_build, ptr_build] at coloured
      obtain ⟨heap1, turned1, writes, leaned⟩ := coloured.rotate
      obtain ⟨heap', turned, next, lifted⟩ := eraseLift_refines (focused_far.mp leaned) (by simp)
      have shape : ColourTree.rotate side.flip (build side 1 valP t (setFarWord side 1
          ((ColourTree.rotate side (build side 0 val ((build side wordN valN a b).setWord 1) far)).setWord wordP))) =
          build side wordP valN (build side 1 valP t a) ((build side 0 val b far).setWord 1) := by
        rw [setWord_build, rotate_build, setWord_build, setFarWord_build, ColourTree.rotate_flip]
      have colour : ¬ far.isRed = true := by simp [black]
      rw [if_pos black, if_neg colour, shape, ptr_build, ptr_build]
      simp only [stack_cons] at turned1
      refine ⟨heap', ?_, next.trans writes.next, lifted⟩
      simp only [Heap.becomeBlack, Heap.becomeRed]
      rw [turned1]
      exact turned
  · have farRed : far.isRed = true := by simpa using black
    have some : far ≠ nil := by
      intro none
      simp [none] at farRed
    obtain ⟨heap', turned, next, lifted⟩ := eraseLift_refines focused some
    rw [if_neg black, if_pos farRed, setWord_build, setFarWord_build, ColourTree.rotate_flip, ptr_build]
    exact ⟨heap', turned, next, lifted⟩

theorem eraseRaise_red (focused : Focused heap path (build side wordP valP t (build side 0 val near far))) :
    ∃ heap', eraseRaise side heap valP.1 (stack path) = (heap', val.1 :: stack path) ∧
      heap'.next = heap.next ∧ Focused heap' path (build side 1 val (build side 0 valP t near) far) := by
  have y : heap.child side.flip valP.1 = val.1 := focused.child_flip_eq.trans (ptr_build ..)
  have red : heap.isRed val.1 = true := by
    rw [Heap.isRed, (focused_far.mpr focused).cell_eq, isBlack_nodeOf]
    rfl
  have coloured := (focused.setWord_far 1 (by simp)).setWord 0
  rw [setWord_build, ptr_build] at coloured
  obtain ⟨heap', turned, writes, lifted⟩ := coloured.rotate_flip
  refine ⟨heap', ?_, writes.next, lifted⟩
  simp only [eraseRaise, y, red, if_true, Heap.becomeBlack, Heap.becomeRed]
  exact turned

theorem eraseRaise_black (focused : Focused heap path (build side wordP valP t (build side word val near far)))
    (black : word ≠ 0) : eraseRaise side heap valP.1 (stack path) = (heap, stack path) := by
  have y : heap.child side.flip valP.1 = val.1 := focused.child_flip_eq.trans (ptr_build ..)
  have colour : heap.isRed val.1 = false := by
    rw [Heap.isRed, (focused_far.mpr focused).cell_eq]
    simpa using black
  rw [eraseRaise, y, colour]
  exact if_neg Bool.false_ne_true

private theorem erase_test (focused : Focused heap path (build side wordP valP t (build side word val near far))) :
    heap.child side.flip valP.1 = val.1 ∧
      (((heap.child side val.1 = 0 ∨ ¬ heap.isRed (heap.child side val.1) = true) ∧
        (heap.child side.flip val.1 = 0 ∨ ¬ heap.isRed (heap.child side.flip val.1) = true)) ↔
        near.isRed = false ∧ far.isRed = false) := by
  have inner := focused_far.mpr focused
  refine ⟨focused.child_flip_eq.trans (ptr_build ..), ?_⟩
  rw [inner.child_eq, inner.child_flip_eq, (focused_near.mpr inner).not_isRed_eq,
    (focused_far.mpr inner).not_isRed_eq]

theorem Focused.blackenTop (focused : Focused heap path t) (rest : List Nat) :
    Focused (blackenTop heap (ptr t :: rest)) path (t.setWord 1) := by
  unfold Rbtree.blackenTop
  cases t with
  | nil => exact focused
  | node word val left right =>
    rw [if_pos fun zero => by cases focused.subtree.ptr_eq_zero.mp zero]
    exact focused.setWord_ptr 1 (by simp)

theorem eraseLoop_stop {rest : List Nat} (stop : ¬ (parent ≠ 0 ∧ (x = 0 ∨ ¬ heap.isRed x))) :
    eraseLoop (fuel + 1) heap (x :: parent :: rest) = some (heap, x :: parent :: rest) := by
  rw [eraseLoop, if_neg stop]

theorem eraseLoop_red (fuel : Nat) (focused : Focused heap (frame :: rest) t) (red : t.isRed = true) :
    eraseLoop (fuel + 1) heap (ptr t :: stack (frame :: rest)) = some (heap, ptr t :: stack (frame :: rest)) ∧
      Focused (blackenTop heap (ptr t :: stack (frame :: rest))) [] (plug (frame :: rest) (t.setWord 1)) := by
  refine ⟨eraseLoop_stop fun both => ?_, focused_plug.mp (focused.blackenTop _)⟩
  rw [focused.not_isRed_eq, red] at both
  cases both.2

private theorem eraseLoop_step (fuel : Nat) (focused : Focused heap (frame :: rest) t)
    (black : t.isRed = false) (some : frame.sibling ≠ nil)
    (focused1 : Focused heap1 path1 (build frame.side wordP frame.val t (build frame.side word val near far)))
    (raised : eraseRaise frame.side heap frame.val.1 (stack rest) = (heap1, stack path1)) :
    (near.isRed = false ∧ far.isRed = false →
      eraseLoop (fuel + 1) heap (ptr t :: stack (frame :: rest)) =
        eraseLoop fuel (heap1.setWord val.1 0) (frame.val.1 :: stack path1)) ∧
    (¬ (near.isRed = false ∧ far.isRed = false) →
      ∃ heap', eraseLoop (fuel + 1) heap (ptr t :: stack (frame :: rest)) =
          .some (heap', [ptr (plug path1 (eraseRotate frame.side wordP frame.val t
            (build frame.side word val near far))), 0]) ∧
        heap'.next = heap1.next ∧
        Focused heap' [] (plug path1 (eraseRotate frame.side wordP frame.val t
          (build frame.side word val near far)))) := by
  have enters : frame.val.1 ≠ 0 ∧ (ptr t = 0 ∨ ¬ heap.isRed (ptr t)) :=
    ⟨focused.parent.nonnull, focused.not_isRed_eq.mpr black⟩
  obtain ⟨y, children⟩ := erase_test focused1
  rw [stack_cons, eraseLoop, if_pos enters]
  simp only [focused.side_eq (.inr some), raised, y, children]
  constructor
  · intro both
    rw [if_pos both]
    rfl
  · intro other
    obtain ⟨heap', turned, next, lifted⟩ := eraseTurn_refines focused1 other
    rw [if_neg other, turned, spRoot_stack]
    exact ⟨heap', rfl, next, focused_plug.mp lifted⟩

theorem eraseLoop_refines {n : Nat} (focused : Focused heap path t) (accepts : Accepts path (n + 1))
    (enough : path.length < fuel) :
    ∃ heap' sp', eraseLoop fuel heap (ptr t :: stack path) = some (heap', sp') ∧
      heap'.next = heap.next ∧ spRoot sp' = ptr (eraseFix path t) ∧
      Focused (blackenTop heap' sp') [] (eraseFix path t) := by
  obtain ⟨fuel, rfl⟩ := exists_eq_succ_of_ne_zero (ne_zero_of_lt enough)
  fun_induction eraseFix path t generalizing heap fuel n with
  | case1 t =>
    exact ⟨heap, [ptr t, 0], eraseLoop_stop (by simp), rfl, (ptr_setWord 1 t).symm, focused.blackenTop _⟩
  | case2 frame rest t red =>
    obtain ⟨stops, final⟩ := eraseLoop_red fuel focused red
    exact ⟨heap, _, stops, rfl, by rw [← ptr_setWord 1 t, spRoot_stack], final⟩
  | case3 frame rest t black none =>
    have missing := accepts.1
    rw [view_eq_none.mp none] at missing
    cases missing
  | case4 frame rest t black val near far none seen =>
    have sibling := accepts.1
    rw [view_eq_some.mp seen] at sibling
    have children := sibling.red_children rfl
    rw [view_eq_none.mp none] at children
    cases children.2.2.1
  | case5 frame rest t black val near far wordN valN near' far' inner both seen =>
    -- The raised sibling leaves a red parent, where the loop stops.
    have shape := view_eq_some.mp seen
    have red : t.isRed = false := by simpa using black
    have parent := focused.parent
    rw [shape] at parent
    obtain ⟨heap1, raised, next, focused1⟩ := eraseRaise_red parent
    have below := focused_near.mpr focused1
    rw [view_eq_some.mp inner] at below ⊢
    have step := (eraseLoop_step fuel focused red (by simp [shape]) below raised).1 both
    have coloured := below.setWord_far 0 (by simp)
    rw [ptr_build, setWord_build] at coloured
    obtain ⟨fuel, rfl⟩ := exists_eq_succ_of_ne_zero (n := fuel) (by simp only [length_cons] at enough; omega)
    obtain ⟨stops, final⟩ := eraseLoop_red fuel coloured (by simp)
    rw [ptr_build] at stops final
    rw [setWord_build] at final ⊢
    refine ⟨_, _, step.trans stops, next, ?_, final⟩
    rw [← ptr_build frame.side 1 frame.val t (build frame.side 0 valN near' far'), spRoot_stack]
    rfl
  | case6 frame rest t black val near far wordN valN near' far' inner both seen =>
    have shape := view_eq_some.mp seen
    have red : t.isRed = false := by simpa using black
    have parent := focused.parent
    rw [shape] at parent
    obtain ⟨heap1, raised, next, focused1⟩ := eraseRaise_red parent
    have below := focused_near.mpr focused1
    rw [view_eq_some.mp inner] at below ⊢
    obtain ⟨heap', turned, next', lifted⟩ :=
      (eraseLoop_step fuel focused red (by simp [shape]) below raised).2 both
    exact ⟨heap', _, turned, next'.trans next, (ptr_setWord _ _).symm, lifted.blackenTop [0]⟩
  | case7 frame rest t black word val near far seen siblingBlack both ih =>
    have shape := view_eq_some.mp seen
    have red : t.isRed = false := by simpa using black
    have parent := focused.parent
    rw [shape] at parent ih ⊢
    have step := (eraseLoop_step fuel focused red (by simp [shape]) parent
      (eraseRaise_black parent siblingBlack)).1 both
    have coloured := parent.setWord_far 0 (by simp)
    rw [ptr_build] at coloured
    have outer : ∃ m, Accepts rest (m + 1) := by
      by_cases word : frame.word = 0
      · exact ⟨n, by simpa [word] using accepts.2.2⟩
      · exact ⟨n + 1, by simpa [word] using accepts.2.2⟩
    obtain ⟨m, accepts'⟩ := outer
    obtain ⟨fuel, rfl⟩ := exists_eq_succ_of_ne_zero (n := fuel) (by simp only [length_cons] at enough; omega)
    have rounds := ih coloured accepts' fuel (by simp only [length_cons] at enough; omega)
    rw [ptr_build] at rounds
    rw [step]
    exact rounds
  | case8 frame rest t black word val near far seen siblingBlack both =>
    have shape := view_eq_some.mp seen
    have red : t.isRed = false := by simpa using black
    have parent := focused.parent
    rw [shape] at parent ⊢
    obtain ⟨heap', turned, next, lifted⟩ := (eraseLoop_step fuel focused red (by simp [shape]) parent
      (eraseRaise_black parent siblingBlack)).2 both
    exact ⟨heap', _, turned, next, (ptr_setWord _ _).symm, lifted.blackenTop [0]⟩

end Erase

end Culibs.Cucon.Rbtree
