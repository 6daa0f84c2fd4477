import Culibs.Foundation.ColourTree
import Mathlib.Tactic.Ring

/-! Red-black balance and its repair after an insertion and a deletion, as
functions on a subtree and the frames above it. -/

namespace Culibs.ColourTree

open List

section Balance

variable {β γ : Type} {frames : List (Frame β)} {t : ColourTree β} {side : Side} {val : β} {near far : ColourTree β}
  {n : Nat}

/-- A tree of the given number of black nodes on every path, where the children
of red nodes are black. The root may be red. -/
def Balanced : ColourTree β → Nat → Prop
  | nil, n => n = 0
  | node word _ left right, n =>
    if word = 0 then left.isRed = false ∧ right.isRed = false ∧ Balanced left n ∧ Balanced right n
    else ∃ m, n = m + 1 ∧ Balanced left m ∧ Balanced right m

@[simp] theorem balanced_nil : Balanced (nil : ColourTree β) n ↔ n = 0 := Iff.rfl

theorem balanced_red :
    Balanced (build side 0 val near far) n ↔
      near.isRed = false ∧ far.isRed = false ∧ Balanced near n ∧ Balanced far n := by
  cases side with
  | left => simp [build, Balanced]
  | right =>
    constructor
    · rintro ⟨farBlack, nearBlack, farBalanced, nearBalanced⟩
      exact ⟨nearBlack, farBlack, nearBalanced, farBalanced⟩
    · rintro ⟨nearBlack, farBlack, nearBalanced, farBalanced⟩
      exact ⟨farBlack, nearBlack, farBalanced, nearBalanced⟩

variable {word : Nat}

theorem balanced_black (black : word ≠ 0) :
    Balanced (build side word val near far) n ↔ ∃ m, n = m + 1 ∧ Balanced near m ∧ Balanced far m := by
  cases side with
  | left => simp [build, Balanced, black]
  | right =>
    simp only [build, Balanced, black, if_false]
    exact exists_congr fun m => and_congr_right fun _ => And.comm

variable {f : β → γ} {n : Nat}

theorem balanced_map {t : ColourTree β} : Balanced (t.map f) n ↔ Balanced t n := by
  induction t generalizing n with
  | nil => rfl
  | node word val left right ihLeft ihRight => simp only [map, Balanced, isRed_map, ihLeft, ihRight]

/-- Red nodes have black children. -/
def RedChildrenBlack : ColourTree β → Prop
  | nil => True
  | node word _ left right =>
    (word = 0 → left.isRed = false ∧ right.isRed = false) ∧ RedChildrenBlack left ∧ RedChildrenBlack right

/-- The number of black nodes on each path from the root to an empty subtree. -/
def blackCounts : ColourTree β → List Nat
  | nil => [0]
  | node word _ left right =>
    (blackCounts left ++ blackCounts right).map fun count => if word = 0 then count else count + 1

theorem Balanced.redChildrenBlack (balanced : Balanced t n) : RedChildrenBlack t := by
  induction t generalizing n with
  | nil => trivial
  | node word val left right ihLeft ihRight =>
    unfold Balanced at balanced
    split at balanced
    · obtain ⟨leftBlack, rightBlack, left', right'⟩ := balanced
      exact ⟨fun _ => ⟨leftBlack, rightBlack⟩, ihLeft left', ihRight right'⟩
    · next black =>
      obtain ⟨m, _, left', right'⟩ := balanced
      exact ⟨fun red => absurd red black, ihLeft left', ihRight right'⟩

theorem Balanced.blackCounts_eq (balanced : Balanced t n) : ∀ count ∈ blackCounts t, count = n := by
  induction t generalizing n with
  | nil => simpa [blackCounts] using balanced.symm
  | node word val left right ihLeft ihRight =>
    intro count mem
    obtain ⟨inner, listed, rfl⟩ := mem_map.mp mem
    unfold Balanced at balanced
    split at balanced
    · next red =>
      rw [if_pos red]
      rcases mem_append.mp listed with listed | listed
      · exact ihLeft balanced.2.2.1 inner listed
      · exact ihRight balanced.2.2.2 inner listed
    · next black =>
      obtain ⟨m, rfl, left', right'⟩ := balanced
      rw [if_neg black]
      rcases mem_append.mp listed with listed | listed
      · rw [ihLeft left' inner listed]
      · rw [ihRight right' inner listed]

/-- The frames turn a balanced subtree of the given black height into a balanced
tree. Red frames lie below black ones, so the outermost one is black. -/
def Accepts : List (Frame β) → Nat → Prop
  | [], _ => True
  | frame :: rest, n =>
    Balanced frame.sibling n ∧
      (frame.word = 0 → frame.sibling.isRed = false ∧ ∃ above outer, rest = above :: outer ∧ above.word ≠ 0) ∧
      Accepts rest (if frame.word = 0 then n else n + 1)

theorem accepts_map {frames : List (Frame β)} :
    Accepts (frames.map (Frame.map f)) n ↔ Accepts frames n := by
  induction frames generalizing n with
  | nil => rfl
  | cons frame rest ih =>
    have covered : (∃ above outer, rest.map (Frame.map f) = above :: outer ∧ above.word ≠ 0) ↔
        ∃ above outer, rest = above :: outer ∧ above.word ≠ 0 := by
      cases rest with
      | nil => simp
      | cons first others => simp [Frame.map]
    simp only [map_cons, Accepts, covered, ih]
    simp only [Frame.map, balanced_map, isRed_map]
    exact Iff.rfl

/-- The innermost frame is not red. -/
def BlackTop (frames : List (Frame β)) : Prop := ∀ frame ∈ frames.head?, frame.word ≠ 0

theorem balanced_plug (accepts : Accepts frames n) (balanced : Balanced t n)
    (safe : t.isRed = false ∨ BlackTop frames) : ∃ m, Balanced (plug frames t) m := by
  induction frames generalizing t n with
  | nil => exact ⟨n, balanced⟩
  | cons frame rest ih =>
    obtain ⟨sibling, red, outer⟩ := accepts
    by_cases word : frame.word = 0
    · obtain ⟨siblingBlack, above, _, rfl, aboveBlack⟩ := red word
      have black : t.isRed = false := safe.resolve_right fun top => top frame rfl word
      refine ih outer ?_ (.inr ?_)
      · rw [Frame.plug, word, balanced_red]
        exact ⟨black, siblingBlack, balanced, sibling⟩
      · intro frame' first
        simp only [head?_cons, Option.mem_def, Option.some.injEq] at first
        subst first
        exact aboveBlack
    · rw [if_neg word] at outer
      refine ih outer ?_ (.inl ?_)
      · rw [Frame.plug, balanced_black word]
        exact ⟨n, rfl, balanced, sibling⟩
      · simpa [Frame.plug] using word

theorem Balanced.blacken (balanced : Balanced t n) (black : word ≠ 0) :
    ∃ m, Balanced (t.setWord word) m := by
  cases t with
  | nil => exact ⟨n, balanced⟩
  | node old val left right =>
    unfold Balanced at balanced
    simp only [setWord, Balanced, black, if_false]
    split at balanced
    · exact ⟨n + 1, n, rfl, balanced.2.2⟩
    · exact ⟨n, balanced⟩

section Insert

/-- Repair after an insertion: the subtree has become red. -/
def insertFix : List (Frame β) → ColourTree β → ColourTree β
  | [], t => t
  | [parent], t => parent.plug t
  | parent :: grand :: rest, t =>
    if parent.word ≠ 0 then plug (parent :: grand :: rest) t
    else if grand.sibling.isRed then
      insertFix rest (build grand.side 0 grand.val ((parent.plug t).setWord 1) (grand.sibling.setWord 1))
    else
      let inner := if parent.side = grand.side then parent.plug t else rotate parent.side (parent.plug t)
      plug rest (rotate grand.side (build grand.side 0 grand.val (inner.setWord 1) grand.sibling))

theorem inorder_insertFix (frames : List (Frame β)) (t : ColourTree β) :
    (insertFix frames t).inorder = (plug frames t).inorder := by
  fun_induction insertFix frames t with
  | case1 => rfl
  | case2 => rfl
  | case3 => rfl
  | case4 parent grand rest t red uncle ih =>
    rw [ih, plug_cons, plug_cons]
    apply inorder_plug_congr
    obtain ⟨side, word, val, sibling⟩ := grand
    cases side <;> simp [Frame.plug, build, inorder]
  | case5 parent grand rest t red uncle inner =>
    apply inorder_plug_congr
    rw [inorder_rotate]
    have same : inner.inorder = (parent.plug t).inorder := by
      simp only [inner]
      split
      · rfl
      · exact inorder_rotate _ _
    obtain ⟨side, word, val, sibling⟩ := grand
    cases side <;> simp [Frame.plug, build, inorder] at same ⊢ <;> simp [same]

theorem insertFix_map (f : β → γ) (frames : List (Frame β)) (t : ColourTree β) :
    (insertFix frames t).map f = insertFix (frames.map (Frame.map f)) (t.map f) := by
  fun_induction insertFix frames t with
  | case1 t => rfl
  | case2 parent t => simp [insertFix, Frame.plug, Frame.map]
  | case3 parent grand rest t black =>
    rw [map_plug]
    simp [insertFix, Frame.map, black]
  | case4 parent grand rest t red uncle ih =>
    rw [ih]
    simp [insertFix, Frame.map, red, uncle, Frame.plug]
  | case5 parent grand rest t red uncle inner =>
    rw [map_plug, map_rotate, map_build, map_setWord]
    have innerMap : inner.map f = if parent.side = grand.side then (parent.map f).plug (t.map f)
        else rotate parent.side ((parent.map f).plug (t.map f)) := by
      simp only [inner]
      split
      · exact Frame.map_plug ..
      · rw [map_rotate, Frame.map_plug]
    rw [innerMap]
    simp [insertFix, Frame.map, red, uncle]

theorem Balanced.red_children (balanced : Balanced (build side word val near far) n)
    (red : word = 0) : near.isRed = false ∧ far.isRed = false ∧ Balanced near n ∧ Balanced far n := by
  subst red
  exact balanced_red.mp balanced

theorem Balanced.blacken_red (balanced : Balanced t n) (red : t.isRed = true) :
    Balanced (t.setWord 1) (n + 1) := by
  cases t with
  | nil => cases red
  | node word val left right =>
    have zero : word = 0 := by simpa [isRed] using red
    have children := @Balanced.red_children _ .left _ _ _ _ _ balanced zero
    exact (@balanced_black _ .left _ _ _ _ _ one_ne_zero).mpr ⟨n, rfl, children.2.2⟩

theorem balanced_insertFix (accepts : Accepts frames n) (balanced : Balanced t n) (red : t.isRed = true) :
    ∃ m, Balanced (insertFix frames t) m := by
  fun_induction insertFix frames t generalizing n with
  | case1 t => exact ⟨n, balanced⟩
  | case2 parent t =>
    refine @balanced_plug _ [parent] _ _ accepts balanced (.inr fun frame first word => ?_)
    obtain rfl : parent = frame := by simpa using first
    obtain ⟨_, above, _, none, _⟩ := accepts.2.1 word
    cases none
  | case3 parent grand rest t black =>
    refine balanced_plug accepts balanced (.inr fun frame first => ?_)
    obtain rfl : parent = frame := by simpa using first
    exact black
  | case4 parent grand rest t parentRed uncle ih =>
    rw [ne_eq, not_not] at parentRed
    obtain ⟨sibling, covered, outer⟩ := accepts
    obtain ⟨siblingBlack, above, _, same, aboveBlack⟩ := covered parentRed
    obtain ⟨rfl, rfl⟩ := cons.inj same
    rw [if_pos parentRed] at outer
    obtain ⟨uncleBalanced, _, outer⟩ := outer
    rw [if_neg aboveBlack] at outer
    refine ih outer ?_ (by simp)
    rw [balanced_red]
    refine ⟨?_, ?_, ?_, uncleBalanced.blacken_red uncle⟩
    · simp [Frame.plug]
    · cases grand.sibling <;> rfl
    · rw [Frame.plug, setWord_build]
      exact (balanced_black one_ne_zero).mpr ⟨n, rfl, balanced, sibling⟩
  | case5 parent grand rest t parentRed uncle =>
    rename_i inner
    rw [ne_eq, not_not] at parentRed
    obtain ⟨sibling, covered, outer⟩ := accepts
    obtain ⟨siblingBlack, above, _, same, aboveBlack⟩ := covered parentRed
    obtain ⟨rfl, rfl⟩ := cons.inj same
    rw [if_pos parentRed] at outer
    obtain ⟨uncleBalanced, _, outer⟩ := outer
    rw [if_neg aboveBlack] at outer
    have uncleBlack : grand.sibling.isRed = false := by simpa using uncle
    suffices raised : Balanced (rotate grand.side (build grand.side 0 grand.val (inner.setWord 1) grand.sibling))
        (n + 1) ∧ (rotate grand.side (build grand.side 0 grand.val (inner.setWord 1) grand.sibling)).isRed = false from
      balanced_plug outer raised.1 (.inl raised.2)
    simp only [inner, Frame.plug]
    split
    · next aligned =>
      rw [aligned, setWord_build, rotate_build]
      refine ⟨(balanced_black one_ne_zero).mpr ⟨n, rfl, balanced, ?_⟩, by simp⟩
      exact balanced_red.mpr ⟨siblingBlack, uncleBlack, sibling, uncleBalanced⟩
    · next crossed =>
      have flipped : grand.side = parent.side.flip := by
        rcases parent.side.eq_or_flip grand.side with same | flipped
        · exact absurd same.symm crossed
        · exact flipped
      cases t with
      | nil => cases red
      | node word val left right =>
        obtain ⟨near, far, seen⟩ := exists_build parent.side word val left right
        have zero : word = 0 := by simpa [isRed] using red
        rw [seen] at balanced ⊢
        have children := balanced.red_children zero
        rw [rotate_build, setWord_build, flipped, ← build_flip parent.side 1 val, rotate_build]
        refine ⟨(balanced_black one_ne_zero).mpr ⟨n, rfl, ?_, ?_⟩, by simp⟩
        · rw [parentRed, balanced_red]
          exact ⟨children.2.1, siblingBlack, children.2.2.2, sibling⟩
        · exact balanced_red.mpr ⟨children.1, uncleBlack, children.2.2.1, uncleBalanced⟩

end Insert

section Erase

/-- Repair with rotations below a node whose subtree on the side lacks a black
node, where the sibling is black and has a red child. -/
def eraseRotate (side : Side) (word : Nat) (val : β) (t sibling : ColourTree β) : ColourTree β :=
  match view side sibling with
  | none => build side word val t sibling
  | some (_, valY, near, far) =>
    let leaning := if far.isRed then sibling else rotate side (build side 0 valY (near.setWord 1) far)
    rotate side.flip (build side 1 val t (setFarWord side 1 (leaning.setWord word)))

/-- Repair after a deletion: the subtree lacks a black node. -/
def eraseFix : List (Frame β) → ColourTree β → ColourTree β
  | [], t => t.setWord 1
  | frame :: rest, t =>
    if t.isRed then plug (frame :: rest) (t.setWord 1)
    else
      match view frame.side frame.sibling with
      | none => plug (frame :: rest) t
      | some (word, val, near, far) =>
        if word = 0 then
          match view frame.side near with
          | none => plug (frame :: rest) t
          | some (_, _, near', far') =>
            if near'.isRed = false ∧ far'.isRed = false then
              plug rest (build frame.side 1 val (build frame.side 1 frame.val t (near.setWord 0)) far)
            else
              (plug rest (build frame.side 1 val (eraseRotate frame.side 0 frame.val t near) far)).setWord 1
        else if near.isRed = false ∧ far.isRed = false then
          eraseFix rest (build frame.side frame.word frame.val t (frame.sibling.setWord 0))
        else (plug rest (eraseRotate frame.side frame.word frame.val t frame.sibling)).setWord 1

theorem inorder_eraseRotate (side : Side) (word : Nat) (val : β) (t sibling : ColourTree β) :
    (eraseRotate side word val t sibling).inorder = (build side word val t sibling).inorder := by
  unfold eraseRotate
  split
  · rfl
  · next wordY valY near far seen =>
    obtain rfl := view_eq_some.mp seen
    simp only
    rw [inorder_rotate]
    have same (leaning : ColourTree β)
        (equal : leaning.inorder = (build side wordY valY near far).inorder) :
        (build side 1 val t (setFarWord side 1 (leaning.setWord word))).inorder =
          (build side word val t (build side wordY valY near far)).inorder := by
      cases side <;> simp [build, inorder] at equal ⊢ <;> simp [equal]
    apply same
    split
    · rfl
    · rw [inorder_rotate]
      cases side <;> simp [build, inorder]

theorem inorder_eraseFix (frames : List (Frame β)) (t : ColourTree β) :
    (eraseFix frames t).inorder = (plug frames t).inorder := by
  fun_induction eraseFix frames t with
  | case1 => simp
  | case2 frame rest t red => exact inorder_plug_congr (inorder_setWord 1 t) (frame :: rest)
  | case3 => rfl
  | case4 => rfl
  | case5 frame rest t black val near far _ _ _ _ _ _ seen =>
    rw [plug_cons, Frame.plug, view_eq_some.mp seen]
    apply inorder_plug_congr
    cases frame.side <;> simp [build, inorder]
  | case6 frame rest t black val near far _ _ _ _ _ _ seen =>
    rw [inorder_setWord, plug_cons, Frame.plug, view_eq_some.mp seen]
    apply inorder_plug_congr
    cases frame.side <;> simp [build, inorder, inorder_eraseRotate]
  | case7 frame rest t black word val near far seen _ _ ih =>
    obtain ⟨side, wordP, valP, sibling⟩ := frame
    rw [ih]
    apply inorder_plug_congr
    cases side <;> simp [Frame.plug, build, inorder]
  | case8 frame rest t black word val near far seen _ _ =>
    obtain ⟨side, wordP, valP, sibling⟩ := frame
    rw [inorder_setWord]
    apply inorder_plug_congr
    cases side <;> simp [Frame.plug, build, inorder, inorder_eraseRotate]

/-- A subtree that lacks a black node. A red one only has to become black. -/
def Deficit (t : ColourTree β) (n : Nat) : Prop :=
  if t.isRed then Balanced (t.setWord 1) (n + 1) else Balanced t n

variable {word : Nat}

theorem Balanced.black_children (balanced : Balanced (build side word val near far) (n + 1))
    (black : word ≠ 0) : Balanced near n ∧ Balanced far n := by
  obtain ⟨m, height, children⟩ := (balanced_black black).mp balanced
  obtain rfl : n = m := by omega
  exact children

/-- A black node with black children can become red, at the cost of a black node. -/
theorem Balanced.redden (balanced : Balanced (build side word val near far) (n + 1))
    (black : word ≠ 0) (nearBlack : near.isRed = false) (farBlack : far.isRed = false) :
    Balanced ((build side word val near far).setWord 0) n := by
  rw [setWord_build]
  exact balanced_red.mpr ⟨nearBlack, farBlack, balanced.black_children black⟩

/-- The rotations leave a node of the old colour over two black subtrees, both
with the missing black node. -/
theorem balanced_eraseRotate (side : Side) (word : Nat) (val : β)
    (balanced : Balanced t n) (children : Balanced near n ∧ Balanced far n)
    (red : ¬ (near.isRed = false ∧ far.isRed = false)) :
    ∃ top a b, eraseRotate side word val t (build side wordY valY near far) = build side word top a b ∧
      a.isRed = false ∧ b.isRed = false ∧ Balanced a (n + 1) ∧ Balanced b (n + 1) := by
  unfold eraseRotate
  simp only [view_build]
  by_cases farRed : far.isRed = true
  · refine ⟨valY, build side 1 val t near, far.setWord 1, ?_, by simp, ?_, ?_, children.2.blacken_red farRed⟩
    · rw [if_pos farRed, setWord_build, setFarWord_build, rotate_flip]
    · cases far <;> rfl
    · exact (balanced_black one_ne_zero).mpr ⟨n, rfl, balanced, children.1⟩
  have farBlack : far.isRed = false := by simpa using farRed
  cases near with
  | nil => exact absurd ⟨rfl, farBlack⟩ red
  | node wordN valN left right =>
    obtain ⟨a, b, seen⟩ := exists_build side wordN valN left right
    rw [seen] at children red ⊢
    have zero : wordN = 0 := by simpa [farBlack] using red
    have inner := children.1.red_children zero
    refine ⟨valN, build side 1 val t a, build side 1 valY b far, ?_, by simp, by simp, ?_, ?_⟩
    · rw [if_neg farRed, setWord_build, rotate_build, setWord_build, setFarWord_build, setWord_build, rotate_flip]
    · exact (balanced_black one_ne_zero).mpr ⟨n, rfl, balanced, inner.2.2.1⟩
    · exact (balanced_black one_ne_zero).mpr ⟨n, rfl, inner.2.2.2, children.2⟩

variable {frame : Frame β}

theorem Accepts.red_sibling
    (accepts : Accepts (frame :: rest) (n + 1)) (seen : frame.sibling = build frame.side 0 val near far) :
    frame.word ≠ 0 ∧ (near.isRed = false ∧ far.isRed = false ∧ Balanced near (n + 1) ∧ Balanced far (n + 1)) ∧
      Accepts rest (n + 1 + 1) := by
  obtain ⟨sibling, covered, outer⟩ := accepts
  have black : frame.word ≠ 0 := fun red => by
    have siblingBlack := (covered red).1
    simp [seen] at siblingBlack
  rw [if_neg black] at outer
  rw [seen] at sibling
  exact ⟨black, sibling.red_children rfl, outer⟩

theorem balanced_eraseFix (accepts : Accepts frames (n + 1)) (deficit : Deficit t n) :
    ∃ m, Balanced (eraseFix frames t) m := by
  unfold Deficit at deficit
  fun_induction eraseFix frames t generalizing n with
  | case1 t =>
    split at deficit
    · exact ⟨n + 1, deficit⟩
    · exact deficit.blacken one_ne_zero
  | case2 frame rest t red =>
    rw [if_pos red] at deficit
    exact @balanced_plug _ (frame :: rest) _ _ accepts deficit (.inl (by cases t <;> rfl))
  | case3 frame rest t black none =>
    have missing := accepts.1
    rw [view_eq_none.mp none] at missing
    cases missing
  | case4 frame rest t black val near far none seen =>
    have sibling := accepts.1
    rw [view_eq_some.mp seen] at sibling
    have children := sibling.red_children rfl
    rw [view_eq_none.mp none] at children
    cases children.2.2.1
  | case5 frame rest t black val near far wordN valN near' far' inner both seen =>
    rw [if_neg black] at deficit
    obtain ⟨upper, children, outer⟩ := accepts.red_sibling (view_eq_some.mp seen)
    have nearBalanced := children.2.2.1
    have nearBlack := children.1
    rw [view_eq_some.mp inner] at nearBalanced nearBlack ⊢
    have lowered := nearBalanced.redden (by simpa using nearBlack) both.1 both.2
    refine balanced_plug outer ((balanced_black one_ne_zero).mpr ⟨n + 1, rfl, ?_, children.2.2.2⟩)
      (.inl (by simp))
    exact (balanced_black one_ne_zero).mpr ⟨n, rfl, deficit, lowered⟩
  | case6 frame rest t black val near far wordN valN near' far' inner both seen =>
    rw [if_neg black] at deficit
    obtain ⟨upper, children, outer⟩ := accepts.red_sibling (view_eq_some.mp seen)
    have nearBalanced := children.2.2.1
    have nearBlack := children.1
    rw [view_eq_some.mp inner] at nearBalanced nearBlack ⊢
    obtain ⟨top, a, b, rotated, aBlack, bBlack, aBalanced, bBalanced⟩ :=
      balanced_eraseRotate frame.side 0 frame.val deficit
        (nearBalanced.black_children (by simpa using nearBlack)) both
    rw [rotated]
    obtain ⟨m, whole⟩ := balanced_plug outer
      ((balanced_black one_ne_zero).mpr ⟨n + 1, rfl,
        balanced_red.mpr ⟨aBlack, bBlack, aBalanced, bBalanced⟩, children.2.2.2⟩) (.inl (by simp))
    exact whole.blacken one_ne_zero
  | case7 frame rest t black word val near far seen siblingBlack both ih =>
    rw [if_neg black] at deficit
    obtain ⟨sibling, _, outer⟩ := accepts
    rw [view_eq_some.mp seen] at sibling ih ⊢
    have lowered := sibling.redden siblingBlack both.1 both.2
    by_cases red : frame.word = 0
    · rw [if_pos red] at outer
      refine ih outer ?_
      rw [if_pos (by simp [red]), setWord_build]
      exact (balanced_black one_ne_zero).mpr ⟨n, rfl, deficit, lowered⟩
    · rw [if_neg red] at outer
      refine ih outer ?_
      rw [if_neg (by simp [red])]
      exact (balanced_black red).mpr ⟨n, rfl, deficit, lowered⟩
  | case8 frame rest t black word val near far seen siblingBlack both =>
    rw [if_neg black] at deficit
    obtain ⟨sibling, covered, outer⟩ := accepts
    rw [view_eq_some.mp seen] at sibling ⊢
    obtain ⟨top, a, b, rotated, aBlack, bBlack, aBalanced, bBalanced⟩ :=
      balanced_eraseRotate frame.side frame.word frame.val deficit
        (sibling.black_children siblingBlack) both
    rw [rotated]
    have accepts' : Accepts ({ frame with val := top, sibling := b } :: rest) (n + 1) :=
      ⟨bBalanced, fun red => ⟨bBlack, (covered red).2⟩, outer⟩
    obtain ⟨m, whole⟩ := balanced_plug accepts' aBalanced (.inl aBlack)
    exact whole.blacken one_ne_zero

/-- Every subtree of a balanced tree with a black root is balanced, and red only
below a black node. -/
theorem accepts_of_balanced (balanced : Balanced (plug frames t) n) (black : (plug frames t).isRed = false) :
    ∃ m, Accepts frames m ∧ Balanced t m ∧
      (t.isRed = true → ∃ above outer, frames = above :: outer ∧ above.word ≠ 0) := by
  induction frames generalizing t with
  | nil => exact ⟨n, trivial, balanced, fun red => absurd (red.symm.trans black) (by decide)⟩
  | cons frame rest ih =>
    obtain ⟨m, outer, inner, covered⟩ := ih balanced black
    by_cases word : frame.word = 0
    · obtain ⟨tBlack, siblingBlack, tBalanced, sibling⟩ := inner.red_children word
      refine ⟨m, ⟨sibling, fun _ => ⟨siblingBlack, covered (by simp [Frame.plug, word])⟩, ?_⟩, tBalanced, ?_⟩
      · rwa [if_pos word]
      · intro red
        exact absurd (red.symm.trans tBlack) (by decide)
    · obtain ⟨height, rfl, tBalanced, sibling⟩ := (balanced_black word).mp inner
      refine ⟨height, ⟨sibling, fun red => absurd red word, ?_⟩, tBalanced, fun _ => ⟨frame, rest, rfl, word⟩⟩
      rwa [if_neg word]

theorem Accepts.congr {inner outer : List (Frame β)} (val : β)
    (accepts : Accepts (inner ++ frame :: outer) n) : Accepts (inner ++ { frame with val } :: outer) n := by
  induction inner generalizing n with
  | nil => exact accepts
  | cons first rest ih =>
    obtain ⟨sibling, covered, above⟩ := accepts
    refine ⟨sibling, fun red => ⟨(covered red).1, ?_⟩, ih above⟩
    obtain ⟨next, others, same, black⟩ := (covered red).2
    cases rest with
    | nil =>
      obtain ⟨rfl, rfl⟩ := cons.inj same
      exact ⟨_, _, rfl, black⟩
    | cons second rest =>
      obtain ⟨rfl, rfl⟩ := cons.inj same
      exact ⟨_, _, rfl, black⟩

/-- Repair after a node with the given word gave its place to its only subtree. -/
def unlinkFix (word : Nat) (frames : List (Frame β)) (t : ColourTree β) : ColourTree β :=
  if word ≠ 0 then eraseFix frames t else plug frames (t.setWord 1)

theorem inorder_unlinkFix (word : Nat) (frames : List (Frame β)) (t : ColourTree β) :
    (unlinkFix word frames t).inorder = before frames ++ t.inorder ++ after frames := by
  unfold unlinkFix
  split
  · rw [inorder_eraseFix, inorder_plug]
  · rw [inorder_plug, inorder_setWord]

theorem balanced_unlinkFix (accepts : Accepts frames n)
    (balanced : Balanced (build side word val nil t) n) : ∃ m, Balanced (unlinkFix word frames t) m := by
  unfold unlinkFix
  by_cases black : word = 0
  · rw [if_neg (not_not.mpr black)]
    obtain ⟨_, tBlack, rfl, tBalanced⟩ := balanced.red_children black
    have empty : t = nil := by
      cases t with
      | nil => rfl
      | node word' val' left right =>
        have black' : word' ≠ 0 := by simpa [isRed] using tBlack
        obtain ⟨m, height, _⟩ := (@balanced_black _ .left _ _ _ _ _ black').mp tBalanced
        cases height
    subst empty
    exact balanced_plug accepts (balanced_nil.mpr rfl) (.inl rfl)
  · rw [if_pos black]
    obtain ⟨m, rfl, rfl, tBalanced⟩ := (balanced_black black).mp balanced
    refine balanced_eraseFix accepts ?_
    unfold Deficit
    split
    · next red => exact tBalanced.blacken_red red
    · exact tBalanced

/-- Removal of the node in focus. An inner node gives its place and its colour to
its successor. -/
def eraseAt (frames : List (Frame β)) : ColourTree β → ColourTree β
  | nil => plug frames nil
  | node word _ nil right => unlinkFix word frames right
  | node word _ left nil => unlinkFix word frames left
  | node word _ left right =>
    match leftmost right [] with
    | (node wordY valY _ x, above) => unlinkFix wordY (above ++ ⟨.right, word, valY, left⟩ :: frames) x
    | (nil, _) => plug frames nil

/-- An erased node has at most one subtree, or a successor below it. -/
theorem eraseAt_cases (frames : List (Frame β)) (word : Nat) (val : β) (left right : ColourTree β) :
    (∃ side near, node word val left right = build side word val nil near ∧ (side = .right → near ≠ nil) ∧
      eraseAt frames (node word val left right) = unlinkFix word frames near) ∨
    (left ≠ nil ∧ right ≠ nil ∧ ∃ wordY valY x above,
      leftmost right [] = (node wordY valY nil x, above) ∧ plug above (node wordY valY nil x) = right ∧
      (∀ frame ∈ above, frame.side = .left) ∧
      eraseAt frames (node word val left right) =
        unlinkFix wordY (above ++ ⟨.right, word, valY, left⟩ :: frames) x) := by
  cases left with
  | nil => exact .inl ⟨.left, right, rfl, nofun, rfl⟩
  | node wordL valL leftL rightL =>
    cases right with
    | nil => exact .inl ⟨.right, node wordL valL leftL rightL, rfl, fun _ => node_ne_nil, rfl⟩
    | node wordR valR leftR rightR =>
      obtain ⟨⟨wordY, valY, x, first⟩, above, frames', sides⟩ :=
        leftmost_eq (node wordR valR leftR rightR) [] (by simp)
      rw [append_nil] at frames'
      have found : leftmost (node wordR valR leftR rightR) [] = (node wordY valY nil x, above) :=
        Prod.ext first frames'
      have rebuilt := plug_leftmost (node wordR valR leftR rightR) []
      rw [found] at rebuilt
      refine .inr ⟨node_ne_nil, node_ne_nil, wordY, valY, x, above, found, rebuilt, sides, ?_⟩
      rw [eraseAt, found] <;> exact nofun

theorem before_left (sides : ∀ frame ∈ frames, frame.side = .left) : before frames = [] := by
  induction frames with
  | nil => rfl
  | cons frame rest ih =>
    rw [before, sides frame (mem_cons_self ..)]
    exact ih fun frame' mem => sides frame' (.tail _ mem)

theorem inorder_eraseAt (frames : List (Frame β)) (word : Nat) (val : β) (left right : ColourTree β) :
    (eraseAt frames (node word val left right)).inorder =
      before frames ++ (left.inorder ++ right.inorder) ++ after frames := by
  rcases eraseAt_cases frames word val left right with
    ⟨side, near, shape, _, erased⟩ | ⟨_, _, wordY, valY, x, above, _, rebuilt, sides, erased⟩
  · rw [erased, inorder_unlinkFix]
    cases side with
    | left => obtain ⟨-, -, rfl, rfl⟩ := node.inj shape; simp [inorder]
    | right => obtain ⟨-, -, rfl, rfl⟩ := node.inj shape; simp [inorder]
  · have whole := inorder_plug (above ++ ⟨.right, word, valY, left⟩ :: frames) x
    rw [erased, inorder_unlinkFix, ← whole, plug_append, plug_cons, inorder_plug]
    have rest : (plug above (node wordY valY nil x)).inorder = valY :: (plug above x).inorder := by
      rw [inorder_plug, inorder_plug, before_left sides]
      rfl
    rw [← rebuilt, rest]
    simp [Frame.plug, build, inorder]

theorem balanced_eraseAt (balanced : Balanced (plug frames t) n) (black : (plug frames t).isRed = false)
    (some : t ≠ nil) : ∃ m, Balanced (eraseAt frames t) m := by
  cases t with
  | nil => exact absurd rfl some
  | node word val left right =>
    rcases eraseAt_cases frames word val left right with
      ⟨side, near, shape, _, erased⟩ | ⟨_, _, wordY, valY, x, above, _, rebuilt, _, erased⟩
    · rw [shape] at balanced black
      rw [erased]
      obtain ⟨m, accepts, inner, _⟩ := accepts_of_balanced balanced black
      exact balanced_unlinkFix accepts inner
    have regrouped : plug frames (node word val left right) =
        plug (above ++ ⟨.right, word, val, left⟩ :: frames) (node wordY valY nil x) := by
      rw [plug_append, rebuilt]
      rfl
    rw [regrouped] at balanced black
    rw [erased]
    obtain ⟨m, accepts, inner, _⟩ := accepts_of_balanced balanced black
    exact @balanced_unlinkFix _ _ _ .left _ _ _ (accepts.congr valY) inner

end Erase

end Balance

section Depth

variable {β : Type}

/-- The number of nodes on the longest path from the root. -/
def depth : ColourTree β → Nat
  | nil => 0
  | node _ _ left right => max left.depth right.depth + 1

theorem depth_build (side : Side) (word : Nat) (val : β) (near far : ColourTree β) :
    (build side word val near far).depth = max near.depth far.depth + 1 := by
  cases side with
  | left => rfl
  | right => exact congrArg (· + 1) (max_comm ..)

variable {t : ColourTree β} {n : Nat}

/-- No path has more red nodes than black ones, apart from a red root. -/
theorem Balanced.depth_le (balanced : Balanced t n) :
    t.depth ≤ 2 * n + 1 ∧ (t.isRed = false → t.depth ≤ 2 * n) := by
  induction t generalizing n with
  | nil => exact ⟨Nat.zero_le _, fun _ => Nat.zero_le _⟩
  | node word val left right ihLeft ihRight =>
    unfold Balanced at balanced
    rw [depth, isRed]
    split at balanced
    · next red =>
      obtain ⟨leftBlack, rightBlack, left', right'⟩ := balanced
      have leftDepth := (ihLeft left').2 leftBlack
      have rightDepth := (ihRight right').2 rightBlack
      exact ⟨by omega, fun black => by simp [red] at black⟩
    · obtain ⟨m, rfl, left', right'⟩ := balanced
      have leftDepth := (ihLeft left').1
      have rightDepth := (ihRight right').1
      exact ⟨by omega, fun _ => by omega⟩

theorem Balanced.two_pow_le (balanced : Balanced t n) : 2 ^ n ≤ t.size + 1 := by
  induction t generalizing n with
  | nil =>
    obtain rfl : n = 0 := balanced
    exact le_refl 1
  | node word val left right ihLeft ihRight =>
    unfold Balanced at balanced
    rw [size]
    split at balanced
    · have leftSize := ihLeft balanced.2.2.1
      omega
    · obtain ⟨m, rfl, left', right'⟩ := balanced
      have leftSize := ihLeft left'
      have rightSize := ihRight right'
      omega

/-- The depth of a balanced tree with a black root is at most twice the logarithm
of its size. -/
theorem Balanced.depth_le_log2 (balanced : Balanced t n) (black : t.isRed = false) :
    t.depth ≤ 2 * (t.size + 1).log2 := by
  have height : n ≤ (t.size + 1).log2 := (Nat.le_log2 (Nat.succ_ne_zero _)).mpr balanced.two_pow_le
  calc t.depth ≤ 2 * n := balanced.depth_le.2 black
    _ ≤ 2 * (t.size + 1).log2 := Nat.mul_le_mul_left 2 height

theorem length_add_depth_le (frames : List (Frame β)) (t : ColourTree β) :
    frames.length + t.depth ≤ (plug frames t).depth := by
  induction frames generalizing t with
  | nil => exact le_of_eq (zero_add _)
  | cons frame rest ih =>
    have upper := ih (frame.plug t)
    rw [Frame.plug, depth_build] at upper
    rw [plug_cons, Frame.plug, length_cons]
    omega

end Depth

end Culibs.ColourTree
