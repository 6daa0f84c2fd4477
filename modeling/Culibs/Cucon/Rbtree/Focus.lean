import Culibs.Cucon.Rbtree.Basic
import Mathlib.Data.List.Nodup

/-! Trees held by a heap, seen from a focus: the subtree at the top of the stack
and the frames for the rest of the stack. Each write of the code is one step on
the focused tree. -/

namespace Culibs.Cucon.Rbtree

open ColourTree

variable {α : Type}

/-- A tree with the address of each node beside the contents of its slot. -/
abbrev Tree (α : Type) := ColourTree (Nat × α)

abbrev Path (α : Type) := List (Frame (Nat × α))

def ptr : Tree α → Nat
  | nil => 0
  | node _ val _ _ => val.1

@[simp] theorem ptr_nil : ptr (nil : Tree α) = 0 := rfl

@[simp] theorem ptr_build (side : Side) (word : Nat) (val : Nat × α) (near far : Tree α) :
    ptr (build side word val near far) = val.1 := by
  cases side <;> rfl

@[simp] theorem ptr_setWord (word : Nat) (t : Tree α) : ptr (t.setWord word) = ptr t := by
  cases t <;> rfl

/-- The contents of a node with its links seen from a side. -/
def nodeOf (side : Side) (word : Nat) (mem : α) (near far : Nat) : Rbnode α :=
  match side with
  | .left => { isBlack := word, left := near, right := far, mem }
  | .right => { isBlack := word, left := far, right := near, mem }

section Node

variable (side : Side) (word : Nat) (mem : α) (near far : Nat)

@[simp] theorem isBlack_nodeOf : (nodeOf side word mem near far).isBlack = word := by
  cases side <;> rfl

@[simp] theorem mem_nodeOf : (nodeOf side word mem near far).mem = mem := by cases side <;> rfl

@[simp] theorem child_nodeOf : (nodeOf side word mem near far).child side = near := by
  cases side <;> rfl

@[simp] theorem child_flip_nodeOf : (nodeOf side word mem near far).child side.flip = far := by
  cases side <;> rfl

@[simp] theorem setChild_nodeOf (p : Nat) :
    (nodeOf side word mem near far).setChild side p = nodeOf side word mem p far := by
  cases side <;> rfl

@[simp] theorem setChild_flip_nodeOf (p : Nat) :
    (nodeOf side word mem near far).setChild side.flip p = nodeOf side word mem near p := by
  cases side <;> rfl

end Node

/-- The heap holds the nodes of a tree. -/
def In (heap : Heap α) : Tree α → Prop
  | nil => True
  | node word val left right =>
    val.1 ≠ 0 ∧ heap.cell val.1 = nodeOf .left word val.2 (ptr left) (ptr right) ∧
      In heap left ∧ In heap right

/-- The heap holds the frames above a subtree at the address `p`. -/
def InPath (heap : Heap α) : Path α → Nat → Prop
  | [], _ => True
  | frame :: rest, p =>
    frame.val.1 ≠ 0 ∧
      heap.cell frame.val.1 = nodeOf frame.side frame.word frame.val.2 p (ptr frame.sibling) ∧
      In heap frame.sibling ∧ InPath heap rest frame.val.1

def addrs (t : Tree α) : List Nat := t.inorder.map Prod.fst

def pathAddrs : Path α → List Nat
  | [] => []
  | frame :: rest => frame.val.1 :: (addrs frame.sibling ++ pathAddrs rest)

/-- The entries of the stack above a subtree. -/
def stack (path : Path α) : List Nat := path.map (·.val.1) ++ [0]

@[simp] theorem stack_nil : stack ([] : Path α) = [0] := rfl

@[simp] theorem stack_cons (frame : Frame (Nat × α)) (rest : Path α) :
    stack (frame :: rest) = frame.val.1 :: stack rest := rfl

@[simp] theorem addrs_setWord (word : Nat) (t : Tree α) : addrs (t.setWord word) = addrs t := by
  rw [addrs, inorder_setWord, addrs]

theorem addrs_build (side : Side) (word : Nat) (val : Nat × α) (near far : Tree α) :
    (addrs (build side word val near far)).Perm (val.1 :: (addrs near ++ addrs far)) := by
  cases side with
  | left =>
    simp only [addrs, build, inorder, List.map_append, List.map_cons]
    exact List.perm_middle
  | right =>
    simp only [addrs, build, inorder, List.map_append, List.map_cons]
    exact List.perm_middle.trans (List.perm_append_comm.cons _)

variable {side : Side} {word : Nat} {val : Nat × α} {near far : Tree α}

@[simp] theorem mem_addrs_build :
    a ∈ addrs (build side word val near far) ↔ a = val.1 ∨ a ∈ addrs near ∨ a ∈ addrs far := by
  rw [(addrs_build side word val near far).mem_iff, List.mem_cons, List.mem_append]

theorem nodup_addrs_build :
    (addrs (build side word val near far) ++ rest).Nodup ↔
      (val.1 :: (addrs near ++ (addrs far ++ rest))).Nodup := by
  rw [((addrs_build side word val near far).append_right rest).nodup_iff, List.cons_append, List.append_assoc]

variable {heap : Heap α}

theorem in_build :
    In heap (build side word val near far) ↔ val.1 ≠ 0 ∧
      heap.cell val.1 = nodeOf side word val.2 (ptr near) (ptr far) ∧ In heap near ∧ In heap far := by
  cases side with
  | left => exact Iff.rfl
  | right => exact and_congr_right fun _ => and_congr_right fun _ => And.comm

variable {t : Tree α}

theorem ptr_mem (nonnull : ptr t ≠ 0) : ptr t ∈ addrs t := by
  cases t with
  | nil => exact absurd rfl nonnull
  | node word val left right => simp [addrs, inorder, ptr]

theorem In.ptr_eq_zero (held : In heap t) : ptr t = 0 ↔ t = nil := by
  cases t with
  | nil => simp
  | node word val left right => simpa [ptr] using held.1

theorem In.nonnull (held : In heap t) : ∀ a ∈ addrs t, a ≠ 0 := by
  induction t with
  | nil => exact nofun
  | node word val left right ihLeft ihRight =>
    intro a mem
    rcases (@mem_addrs_build _ .left ..).mp mem with rfl | mem | mem
    · exact held.1
    · exact ihLeft held.2.2.1 a mem
    · exact ihRight held.2.2.2 a mem

variable {heap' : Heap α}

theorem In.congr (held : In heap t)
    (agree : ∀ a ∈ addrs t, heap'.cell a = heap.cell a) : In heap' t := by
  induction t with
  | nil => trivial
  | node word val left right ihLeft ihRight =>
    obtain ⟨nonnull, contents, inLeft, inRight⟩ := held
    have members (a : Nat) : a ∈ addrs (node word val left right) ↔
        a = val.1 ∨ a ∈ addrs left ∨ a ∈ addrs right := @mem_addrs_build _ .left ..
    refine ⟨nonnull, (agree _ ((members _).mpr (.inl rfl))).trans contents, ?_, ?_⟩
    · exact ihLeft inLeft fun a mem => agree a ((members a).mpr (.inr (.inl mem)))
    · exact ihRight inRight fun a mem => agree a ((members a).mpr (.inr (.inr mem)))

variable {path : Path α}

theorem InPath.congr (held : InPath heap path p)
    (agree : ∀ a ∈ pathAddrs path, heap'.cell a = heap.cell a) : InPath heap' path p := by
  induction path generalizing p with
  | nil => trivial
  | cons frame rest ih =>
    obtain ⟨nonnull, contents, sibling, outer⟩ := held
    refine ⟨nonnull, (agree _ (List.mem_cons_self ..)).trans contents, ?_, ?_⟩
    · exact sibling.congr fun a mem => agree a (.tail _ (List.mem_append_left _ mem))
    · exact ih outer fun a mem => agree a (.tail _ (List.mem_append_right _ mem))

/-- The heap holds a subtree and the frames above it, at different addresses. -/
structure Focused (heap : Heap α) (path : Path α) (t : Tree α) : Prop where
  subtree : In heap t
  above : InPath heap path (ptr t)
  distinct : (addrs t ++ pathAddrs path).Nodup

variable {frame : Frame (Nat × α)}

theorem focused_cons :
    Focused heap (frame :: rest) t ↔ Focused heap rest (frame.plug t) := by
  have order : (addrs t ++ pathAddrs (frame :: rest)).Nodup ↔
      (addrs (frame.plug t) ++ pathAddrs rest).Nodup := by
    rw [Frame.plug, nodup_addrs_build]
    exact List.perm_middle.nodup_iff
  constructor
  · intro focused
    obtain ⟨nonnull, contents, sibling, outer⟩ := focused.above
    exact ⟨in_build.mpr ⟨nonnull, contents, focused.subtree, sibling⟩, by rwa [Frame.plug, ptr_build],
      order.mp focused.distinct⟩
  · intro focused
    obtain ⟨nonnull, contents, held, sibling⟩ := in_build.mp focused.subtree
    have outer := focused.above
    rw [Frame.plug, ptr_build] at outer
    exact ⟨held, ⟨nonnull, contents, sibling, outer⟩, order.mpr focused.distinct⟩

theorem focused_plug :
    Focused heap path t ↔ Focused heap [] (plug path t) := by
  induction path generalizing t with
  | nil => rfl
  | cons frame rest ih => rw [focused_cons, ih, plug_cons]

theorem focused_append {inner outer : Path α} :
    Focused heap (inner ++ outer) t ↔ Focused heap outer (plug inner t) := by
  rw [focused_plug, plug_append, ← focused_plug]

section Read

variable {heap : Heap α} {path rest : Path α} {side : Side} {word : Nat} {val : Nat × α} {near far t : Tree α}

theorem focused_near : Focused heap (⟨side, word, val, far⟩ :: path) near ↔
    Focused heap path (build side word val near far) := focused_cons

theorem focused_far : Focused heap (⟨side.flip, word, val, near⟩ :: path) far ↔
    Focused heap path (build side word val near far) := by
  rw [focused_cons, Frame.plug, build_flip]

theorem Focused.sibling (focused : Focused heap (frame :: rest) t) :
    Focused heap (frame.other t :: rest) frame.sibling := by
  rw [focused_cons, Frame.plug_other]
  exact focused_cons.mp focused

section

variable (focused : Focused heap path (build side word val near far))

include focused

theorem Focused.nonnull : val.1 ≠ 0 :=
  (in_build.mp focused.subtree).1

theorem Focused.cell_eq : heap.cell val.1 = nodeOf side word val.2 (ptr near) (ptr far) :=
  (in_build.mp focused.subtree).2.1

theorem Focused.child_eq : heap.child side val.1 = ptr near := by
  rw [Heap.child, focused.cell_eq, child_nodeOf]

theorem Focused.child_flip_eq : heap.child side.flip val.1 = ptr far := by
  rw [Heap.child, focused.cell_eq, child_flip_nodeOf]

theorem Focused.root_apart : val.1 ∉ addrs near ∧ val.1 ∉ addrs far ∧ val.1 ∉ pathAddrs path := by
  have distinct := List.nodup_cons.mp (nodup_addrs_build.mp focused.distinct)
  simpa [not_or] using distinct.1

end

variable {left right : Tree α}

theorem In.child_left (held : In heap (node word val left right)) :
    heap.child .left val.1 = ptr left := by
  rw [Heap.child, held.2.1]
  rfl

theorem In.child_right (held : In heap (node word val left right)) :
    heap.child .right val.1 = ptr right := by
  rw [Heap.child, held.2.1]
  rfl

theorem Focused.isRed_eq (focused : Focused heap path t) :
    (ptr t ≠ 0 ∧ heap.isRed (ptr t)) ↔ t.isRed = true := by
  cases t with
  | nil => simp
  | node word val left right =>
    have nonnull : val.1 ≠ 0 := focused.subtree.1
    have contents : heap.cell val.1 = _ := focused.subtree.2.1
    simp [Heap.isRed, ptr, isRed, contents, nonnull]

theorem Focused.not_isRed_eq (focused : Focused heap path t) :
    (ptr t = 0 ∨ ¬ heap.isRed (ptr t)) ↔ t.isRed = false := by
  rw [← Bool.not_eq_true, ← focused.isRed_eq, not_and_or, not_not]

/-- A subtree and its sibling are at different addresses unless both are empty. -/
theorem Focused.ptr_ne (focused : Focused heap (frame :: rest) t)
    (some : t ≠ nil ∨ frame.sibling ≠ nil) : ptr t ≠ ptr frame.sibling := by
  intro same
  have sibling : In heap frame.sibling := focused.above.2.2.1
  have nonnull : ptr t ≠ 0 := by
    rcases some with held | held
    · exact fun zero => held (focused.subtree.ptr_eq_zero.mp zero)
    · exact fun zero => held (sibling.ptr_eq_zero.mp (same ▸ zero))
  have mem := ptr_mem nonnull
  have member' : ptr t ∈ addrs frame.sibling := same ▸ ptr_mem (same ▸ nonnull)
  have apart := (List.nodup_append.mp focused.distinct).2.2
  exact apart _ mem _ (.tail _ (List.mem_append_left _ member')) rfl

theorem Focused.parent (focused : Focused heap (frame :: rest) t) :
    Focused heap rest (build frame.side frame.word frame.val t frame.sibling) :=
  focused_cons.mp focused

theorem Focused.child_iff (focused : Focused heap (frame :: rest) t)
    (some : t ≠ nil ∨ frame.sibling ≠ nil) (side : Side) :
    ptr t = heap.child side frame.val.1 ↔ frame.side = side := by
  rcases frame.side.eq_or_flip side with rfl | rfl
  · exact iff_of_true focused.parent.child_eq.symm rfl
  · rw [focused.parent.child_flip_eq]
    exact iff_of_false (focused.ptr_ne some) (Side.ne_flip _)

theorem Focused.side_eq (focused : Focused heap (frame :: rest) t)
    (some : t ≠ nil ∨ frame.sibling ≠ nil) :
    (if ptr t = heap.child .left frame.val.1 then Side.left else Side.right) = frame.side := by
  simp only [focused.child_iff some]
  cases frame.side <;> rfl

end Read

theorem pathAddrs_append (inner outer : Path α) :
    pathAddrs (inner ++ outer) = pathAddrs inner ++ pathAddrs outer := by
  induction inner with
  | nil => rfl
  | cons frame inner ih => simp [pathAddrs, ih]

theorem stack_append (inner outer : Path α) : stack (inner ++ outer) = inner.map (·.val.1) ++ stack outer := by
  simp [stack]

theorem addrs_plug (path : Path α) (t : Tree α) : (addrs (plug path t)).Perm (addrs t ++ pathAddrs path) := by
  induction path generalizing t with
  | nil => simp [pathAddrs]
  | cons frame rest ih =>
    refine (ih _).trans ?_
    refine ((addrs_build ..).append_right _).trans ?_
    rw [pathAddrs, List.cons_append, List.append_assoc]
    exact List.perm_middle.symm

theorem spRoot_stack (path : Path α) (t : Tree α) : spRoot (ptr t :: stack path) = ptr (plug path t) := by
  induction path generalizing t with
  | nil => rfl
  | cons frame rest ih =>
    have above : spRoot (ptr t :: stack (frame :: rest)) = spRoot (frame.val.1 :: stack rest) := by
      cases rest <;> rfl
    rw [above, ← ptr_build frame.side frame.word frame.val t frame.sibling, ih]
    rfl

end Culibs.Cucon.Rbtree
