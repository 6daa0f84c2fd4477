/-! Binary trees with a colour word at each node, zipper frames that record the
way from a subtree to the root, and rotations. Mirrored cases are one case with
a side as parameter. -/

namespace Culibs

open List

inductive Side where
  | left
  | right
deriving DecidableEq

namespace Side

def flip : Side → Side
  | left => right
  | right => left

variable (side : Side)

@[simp] theorem flip_flip : side.flip.flip = side := by cases side <;> rfl

@[simp] theorem ne_flip : side ≠ side.flip := by cases side <;> decide

theorem eq_or_flip (other : Side) : other = side ∨ other = side.flip := by
  cases side <;> cases other <;> decide

end Side

/-- A tree with a colour word and a value at each node. The word zero is red. -/
inductive ColourTree (β : Type) where
  | nil
  | node (word : Nat) (val : β) (left right : ColourTree β)

namespace ColourTree

variable {β γ : Type}

/-- A node given by its subtree on one side and the one on the other. -/
def build (side : Side) (word : Nat) (val : β) (near far : ColourTree β) : ColourTree β :=
  match side with
  | .left => node word val near far
  | .right => node word val far near

variable (side : Side)

theorem build_flip (word : Nat) (val : β) (near far : ColourTree β) :
    build side.flip word val near far = build side word val far near := by
  cases side <;> rfl

theorem exists_build (word : Nat) (val : β) (left right : ColourTree β) :
    ∃ near far, node word val left right = build side word val near far := by
  cases side with
  | left => exact ⟨left, right, rfl⟩
  | right => exact ⟨right, left, rfl⟩

@[simp] theorem build_ne_nil (word : Nat) (val : β) (near far : ColourTree β) :
    build side word val near far ≠ nil := by
  cases side <;> simp [build]

theorem node_ne_nil : node word val left right ≠ nil := by
  simp

/-- A node taken apart into its subtree on one side and the one on the other. -/
def view (side : Side) : ColourTree β → Option (Nat × β × ColourTree β × ColourTree β)
  | nil => none
  | node word val left right =>
    match side with
    | .left => some (word, val, left, right)
    | .right => some (word, val, right, left)

@[simp] theorem view_build (word : Nat) (val : β) (near far : ColourTree β) :
    view side (build side word val near far) = some (word, val, near, far) := by
  cases side <;> rfl

variable {t : ColourTree β}

theorem view_eq_none {side : Side} : view side t = none ↔ t = nil := by
  cases t <;> cases side <;> simp [view]

theorem view_eq_some {side : Side} :
    view side t = some (word, val, near, far) ↔ t = build side word val near far := by
  cases t with
  | nil => simp [view, (build_ne_nil side word val near far).symm]
  | node =>
    cases side with
    | left => simp [view, build]
    | right =>
      simp only [view, build, Option.some.injEq, Prod.mk.injEq, node.injEq]
      exact and_congr_right fun _ => and_congr_right fun _ => And.comm

def inorder : ColourTree β → List β
  | nil => []
  | node _ val left right => left.inorder ++ val :: right.inorder

/-- Number of nodes. -/
def size : ColourTree β → Nat
  | nil => 0
  | node _ _ left right => left.size + right.size + 1

theorem length_inorder (t : ColourTree β) : t.inorder.length = t.size := by
  induction t with
  | nil => rfl
  | node word val left right ihLeft ihRight =>
    simp only [inorder, length_append, length_cons, ihLeft, ihRight, size]
    omega

def isRed : ColourTree β → Bool
  | nil => false
  | node word _ _ _ => word == 0

@[simp] theorem isRed_nil : (nil : ColourTree β).isRed = false := rfl

@[simp] theorem isRed_build (word : Nat) (val : β) (near far : ColourTree β) :
    (build side word val near far).isRed = (word == 0) := by
  cases side <;> rfl

/-- Overwrite the colour word of the root. -/
def setWord (word : Nat) : ColourTree β → ColourTree β
  | nil => nil
  | node _ val left right => node word val left right

@[simp] theorem setWord_build (word word' : Nat) (val : β) (near far : ColourTree β) :
    (build side word val near far).setWord word' = build side word' val near far := by
  cases side <;> rfl

@[simp] theorem inorder_setWord (word : Nat) (t : ColourTree β) : (t.setWord word).inorder = t.inorder := by
  cases t <;> rfl

/-- Overwrite the colour word of the child of the root opposite to a side. -/
def setFarWord (side : Side) (word' : Nat) : ColourTree β → ColourTree β
  | nil => nil
  | node word val left right =>
    match side with
    | .left => node word val left (right.setWord word')
    | .right => node word val (left.setWord word') right

@[simp] theorem setFarWord_build (word word' : Nat) (val : β) (near far : ColourTree β) :
    setFarWord side word' (build side word val near far) =
      build side word val near (far.setWord word') := by
  cases side <;> rfl

@[simp] theorem inorder_setFarWord (word' : Nat) (t : ColourTree β) :
    (setFarWord side word' t).inorder = t.inorder := by
  cases t with
  | nil => rfl
  | node => cases side <;> simp [setFarWord, inorder]

/-- Lift the child on a side to the top. -/
def rotate (side : Side) : ColourTree β → ColourTree β
  | nil => nil
  | node word val left right =>
    match side, left, right with
    | .left, node wordX valX a b, c => node wordX valX a (node word val b c)
    | .right, a, node wordX valX b c => node wordX valX (node word val a b) c
    | _, left, right => node word val left right

@[simp] theorem rotate_build (word wordX : Nat) (val valX : β) (a b c : ColourTree β) :
    rotate side (build side word val (build side wordX valX a b) c) =
      build side wordX valX a (build side word val b c) := by
  cases side <;> rfl

theorem rotate_flip (word wordX : Nat) (val valX : β) (a b c : ColourTree β) :
    rotate side.flip (build side word val a (build side wordX valX b c)) =
      build side wordX valX (build side word val a b) c := by
  cases side <;> rfl

theorem inorder_rotate (t : ColourTree β) : (rotate side t).inorder = t.inorder := by
  unfold rotate
  split
  · rfl
  · split <;> simp [inorder]

/-- Apply a function to the values. -/
def map (f : β → γ) : ColourTree β → ColourTree γ
  | nil => nil
  | node word val left right => node word (f val) (left.map f) (right.map f)

variable (f : β → γ)

@[simp] theorem map_build (side : Side) (word : Nat) (val : β) (near far : ColourTree β) :
    (build side word val near far).map f = build side word (f val) (near.map f) (far.map f) := by
  cases side <;> rfl

@[simp] theorem isRed_map (t : ColourTree β) : (t.map f).isRed = t.isRed := by
  cases t <;> rfl

@[simp] theorem size_map (t : ColourTree β) : (t.map f).size = t.size := by
  induction t with
  | nil => rfl
  | node word val left right ihLeft ihRight => simp [map, size, ihLeft, ihRight]

theorem map_map (g : γ → δ) (t : ColourTree β) : (t.map f).map g = t.map (g ∘ f) := by
  induction t with
  | nil => rfl
  | node word val left right ihLeft ihRight => simp [map, ihLeft, ihRight]

@[simp] theorem map_setWord (word : Nat) (t : ColourTree β) :
    (t.setWord word).map f = (t.map f).setWord word := by
  cases t <;> rfl

theorem inorder_map (t : ColourTree β) : (t.map f).inorder = t.inorder.map f := by
  induction t with
  | nil => rfl
  | node word val left right ihLeft ihRight => simp [map, inorder, ihLeft, ihRight]

/-- A step on the way to the root: the node there, the side the way comes from
and the subtree on the other side. -/
structure Frame (β : Type) where
  side : Side
  word : Nat
  val : β
  sibling : ColourTree β

namespace Frame

def plug (frame : Frame β) (t : ColourTree β) : ColourTree β :=
  build frame.side frame.word frame.val t frame.sibling

/-- The same node seen from the sibling. -/
def other (frame : Frame β) (t : ColourTree β) : Frame β :=
  { frame with side := frame.side.flip, sibling := t }

variable (frame : Frame β)

theorem plug_other (t : ColourTree β) :
    (frame.other t).plug frame.sibling = frame.plug t := build_flip ..

def map (f : β → γ) (frame : Frame β) : Frame γ :=
  { side := frame.side, word := frame.word, val := f frame.val, sibling := frame.sibling.map f }

end Frame

/-- Put a subtree under the frames above it, innermost frame first. -/
def plug : List (Frame β) → ColourTree β → ColourTree β
  | [], t => t
  | frame :: rest, t => plug rest (frame.plug t)

@[simp] theorem plug_nil (t : ColourTree β) : plug [] t = t := rfl

@[simp] theorem plug_cons (frame : Frame β) (rest : List (Frame β)) (t : ColourTree β) :
    plug (frame :: rest) t = plug rest (frame.plug t) := rfl

theorem plug_append (inner outer : List (Frame β)) (t : ColourTree β) :
    plug (inner ++ outer) t = plug outer (plug inner t) := by
  induction inner generalizing t with
  | nil => rfl
  | cons frame inner ih => exact ih _

/-- The values before and after a hole in order. -/
def before : List (Frame β) → List β
  | [] => []
  | frame :: rest =>
    match frame.side with
    | .left => before rest
    | .right => before rest ++ (frame.sibling.inorder ++ [frame.val])

def after : List (Frame β) → List β
  | [] => []
  | frame :: rest =>
    match frame.side with
    | .left => frame.val :: frame.sibling.inorder ++ after rest
    | .right => after rest

variable (frames : List (Frame β))

theorem inorder_plug (t : ColourTree β) :
    (plug frames t).inorder = before frames ++ t.inorder ++ after frames := by
  induction frames generalizing t with
  | nil => simp [before, after]
  | cons frame rest ih =>
    obtain ⟨side, word, val, sibling⟩ := frame
    rw [plug_cons, ih]
    cases side <;> simp [Frame.plug, build, inorder, before, after]

theorem inorder_plug_congr (same : t.inorder = t'.inorder)
    (frames : List (Frame β)) : (plug frames t).inorder = (plug frames t').inorder := by
  rw [inorder_plug, inorder_plug, same]

theorem plug_ne_nil (some : t ≠ nil) : plug frames t ≠ nil := by
  induction frames generalizing t with
  | nil => exact some
  | cons frame rest ih => exact ih (by simp [Frame.plug])

theorem map_rotate (side : Side) (t : ColourTree β) :
    (rotate side t).map f = rotate side (t.map f) := by
  cases t with
  | nil => rfl
  | node word val left right =>
    cases side with
    | left => cases left <;> rfl
    | right => cases right <;> rfl

theorem Frame.map_plug (frame : Frame β) (t : ColourTree β) :
    (frame.plug t).map f = (frame.map f).plug (t.map f) := map_build ..

theorem map_plug (t : ColourTree β) :
    (plug frames t).map f = plug (frames.map (Frame.map f)) (t.map f) := by
  induction frames generalizing t with
  | nil => rfl
  | cons frame rest ih =>
    rw [plug_cons, ih]
    simp [Frame.plug, Frame.map]

/-- The frames met by a search that stops at a value comparing equal or at an
empty subtree. The comparison is negative for a search key before the value. -/
def locate (compare : β → Int) : ColourTree β → List (Frame β) → ColourTree β × List (Frame β)
  | nil, frames => (nil, frames)
  | node word val left right, frames =>
    if compare val < 0 then locate compare left (⟨.left, word, val, right⟩ :: frames)
    else if 0 < compare val then locate compare right (⟨.right, word, val, left⟩ :: frames)
    else (node word val left right, frames)

theorem plug_locate (compare : β → Int) (t : ColourTree β) (frames : List (Frame β)) :
    plug (locate compare t frames).2 (locate compare t frames).1 = plug frames t := by
  induction t generalizing frames with
  | nil => rfl
  | node word val left right ihLeft ihRight =>
    unfold locate
    split
    · exact ihLeft _
    · split
      · exact ihRight _
      · rfl

/-- A comparison with a key that is ordered with the listed values. -/
def Cuts (compare : β → Int) (vals : List β) : Prop :=
  vals.Pairwise fun x y => (0 ≤ compare y → 0 < compare x) ∧ (compare x ≤ 0 → compare y < 0)

/-- The search ends at a value that compares equal, or between the smaller and
the greater values. -/
theorem locate_cuts {compare : β → Int} {frames : List (Frame β)}
    (cuts : Cuts compare (plug frames t).inorder) (below : ∀ x ∈ before frames, 0 < compare x)
    (above : ∀ x ∈ after frames, compare x < 0) :
    (∀ x ∈ before (locate compare t frames).2, 0 < compare x) ∧
      (∀ x ∈ after (locate compare t frames).2, compare x < 0) ∧
      ((locate compare t frames).1 = nil ∨ ∃ word val left right,
        (locate compare t frames).1 = node word val left right ∧ compare val = 0) := by
  induction t generalizing frames with
  | nil => exact ⟨below, above, .inl rfl⟩
  | node word val left right ihLeft ihRight =>
    have spread := cuts
    rw [Cuts, inorder_plug, inorder] at spread
    have inner := (pairwise_append.mp (pairwise_append.mp spread).1).2.1
    obtain ⟨_, right', apart⟩ := pairwise_append.mp inner
    unfold locate
    split
    · next negative =>
      refine ihLeft cuts below ?_
      intro x mem
      rcases mem_append.mp mem with own | outer
      · rcases mem_cons.mp own with rfl | own
        · exact negative
        · exact ((pairwise_cons.mp right').1 x own).2 (Int.le_of_lt negative)
      · exact above x outer
    · split
      · next pos =>
        refine ihRight cuts ?_ above
        intro x mem
        rcases mem_append.mp mem with outer | own
        · exact below x outer
        · rcases mem_append.mp own with own | own
          · exact (apart x own val (mem_cons_self ..)).1 (Int.le_of_lt pos)
          · rw [mem_singleton.mp own]
            exact pos
      · next notNegative notPositive =>
        exact ⟨below, above, .inr ⟨word, val, left, right, rfl, by omega⟩⟩

/-- The first node of a nonempty subtree and the frames above it. -/
def leftmost : ColourTree β → List (Frame β) → ColourTree β × List (Frame β)
  | node word val (node word' val' left right) far, frames =>
    leftmost (node word' val' left right) (⟨.left, word, val, far⟩ :: frames)
  | t, frames => (t, frames)

theorem plug_leftmost (t : ColourTree β) (frames : List (Frame β)) :
    plug (leftmost t frames).2 (leftmost t frames).1 = plug frames t := by
  fun_induction leftmost t frames with
  | case1 word val word' val' left right far frames ih => exact ih
  | case2 => rfl

/-- The first node has no left subtree, and the frames above it are left ones. -/
theorem leftmost_eq (t : ColourTree β) (frames : List (Frame β)) (some : t ≠ nil) :
    (∃ word val right, (leftmost t frames).1 = node word val nil right) ∧
      ∃ inner, (leftmost t frames).2 = inner ++ frames ∧ ∀ frame ∈ inner, frame.side = .left := by
  fun_induction leftmost t frames with
  | case1 word val word' val' left right far frames ih =>
    obtain ⟨shape, inner, above, sides⟩ := ih (by simp)
    refine ⟨shape, inner ++ [⟨.left, word, val, far⟩], by simp [above], fun frame mem => ?_⟩
    rcases mem_append.mp mem with mem | mem
    · exact sides frame mem
    · rw [mem_singleton.mp mem]
  | case2 t frames leaf =>
    cases t with
    | nil => exact absurd rfl some
    | node word val left right =>
      cases left with
      | nil => exact ⟨⟨word, val, right, rfl⟩, [], rfl, by simp⟩
      | node word' val' left' right' => exact (leaf word val word' val' left' right' right rfl).elim

end ColourTree

end Culibs
