import Culibs.Cucon.Rbtree.Update

/-! The constructive insertion of `cucon/rbtree.c`, which copies the nodes it
changes. The links of a new copy are arbitrary until they are set. -/

namespace Culibs.Cucon.Rbtree

variable {α : Type}

section Code

variable (junk : Nat)

/-- `cucon_rbnode_new_copy` in a copier that fills in the slot. The copy is at the
address `heap.next`. -/
def newCopy (heap : Heap α) (src : Nat) : Heap α :=
  heap.alloc { isBlack := (heap.cell src).isBlack, left := junk, right := junk, mem := (heap.cell src).mem }

/-- `cuconP_rbnode_rotate_right_ctive` and its mirror image. -/
def rotateCtive (side : Side) (newNode : Nat) (heap : Heap α) : List Nat → Heap α × List Nat
  | z :: parent :: rest =>
    let xSrc := heap.child side z
    let xDst := if xSrc = newNode then xSrc else heap.next
    let heap := if xSrc = newNode then heap
      else (newCopy junk heap xSrc).setChild side heap.next (heap.child side xSrc)
    let heap := heap.setChild side z (heap.child side.flip xSrc)
    let heap := patch heap parent z xDst
    let heap := heap.setChild side.flip xDst z
    (heap, xDst :: parent :: rest)
  | sp => (heap, sp)

/-- Set both links of a node. -/
def setLinks (heap : Heap α) (side : Side) (p near far : Nat) : Heap α :=
  (heap.setChild side p near).setChild side.flip p far

/-- Copies of the nodes on the stack down to the top one, whose links are not set.
Gives the top copy and the copies above it. -/
def copySpine (heap : Heap α) : List Nat → Heap α × Nat × List Nat
  | [root, _] => (newCopy junk heap root, heap.next, [0])
  | s :: parent :: above =>
    let upper := copySpine heap (parent :: above)
    let heap := upper.1
    let x1 := upper.2.1
    let x0 := heap.next
    let side := if s = heap.child .left parent then Side.left else Side.right
    let heap := newCopy junk heap s
    (setLinks heap side x1 x0 (heap.child side.flip parent), x0, x1 :: upper.2.2)
  | _ => (heap, 0, [0])

/-- A red uncle is copied before it is recoloured. -/
def copyUncle (side : Side) (heap : Heap α) (sp2 y : Nat) : Heap α :=
  let yCp := heap.next
  let heap := newCopy junk heap y
  let heap := heap.setChild side.flip sp2 yCp
  setLinks heap side yCp (heap.child side y) (heap.child side.flip y)

/-- The rotations of the constructive insertion. -/
def rebalanceTurnCtive (newNode : Nat) (side : Side) (heap : Heap α) (sp0 sp1 sp2 : Nat) (above : List Nat) :
    Heap α × List Nat :=
  let turned :=
    if sp0 = heap.child side.flip sp1 then rotateCtive junk side.flip newNode heap (sp1 :: sp2 :: above)
    else (heap, sp1 :: sp2 :: above)
  let sp1 := turned.2.headD 0
  let heap := turned.1.becomeBlack sp1
  let heap := heap.becomeRed sp2
  let turned := rotateCtive junk side newNode heap (sp2 :: above)
  (turned.1, sp1 :: turned.2)

/-- The rebalancing loop of `cucon_rbtree_cinsert1m_mem`. -/
def rebalanceCtive (newNode : Nat) : Nat → Heap α → List Nat → Option (Heap α × List Nat)
  | 0, _, _ => none
  | fuel + 1, heap, sp0 :: sp1 :: rest =>
    if sp1 ≠ 0 ∧ heap.isRed sp1 then
      match rest with
      | [] => none
      | sp2 :: above =>
        let side := if sp1 = heap.child .left sp2 then Side.left else Side.right
        let y := heap.child side.flip sp2
        if y ≠ 0 ∧ heap.isRed y then
          let yCp := heap.next
          let heap := copyUncle junk side heap sp2 y
          let heap := heap.becomeBlack sp1
          let heap := heap.becomeBlack yCp
          let heap := heap.becomeRed sp2
          rebalanceCtive newNode fuel heap (sp2 :: above)
        else
          let turned := rebalanceTurnCtive junk newNode side heap sp0 sp1 sp2 above
          rebalanceCtive newNode fuel turned.1 (sp0 :: turned.2)
    else some (heap, sp0 :: sp1 :: rest)
  | _ + 1, _, _ => none

/-- `cucon_rbtree_cinsert1m_mem`: the heap, the root, whether a node was inserted,
and the new or the equal node. -/
def cinsert1mMem [Inhabited α] (compare : α → Int) (heap : Heap α) (root : Nat) :
    Option (Heap α × Nat × Bool × Nat) :=
  let treeSize := size heap root
  if root = 0 then
    some (heap.alloc { isBlack := 1, left := 0, right := 0, mem := default }, heap.next, true, heap.next)
  else
    match descend compare heap (treeSize + 1) root [0] 0 with
    | none => none
    | some (x, sp, cmp) =>
      if x ≠ 0 then some (heap, root, false, x)
      else
        let parent := sp.headD 0
        let x := heap.next
        let heap := heap.alloc { isBlack := 0, left := 0, right := 0, mem := default }
        let spine := copySpine junk heap sp
        let heap := spine.1
        let x1 := spine.2.1
        let side := if cmp < 0 then Side.left else Side.right
        let heap := setLinks heap side x1 x (heap.child side.flip parent)
        let heap := heap.becomeRed x
        let sp := x :: x1 :: spine.2.2
        match rebalanceCtive junk x (sp.length + 1) heap sp with
        | none => none
        | some (heap, sp) =>
          let root := spRoot sp
          some (heap.setWord root (treeSize + 1), root, true, x)

end Code

end Culibs.Cucon.Rbtree
