import Culibs.Foundation.ColourTree
import Mathlib.Logic.Function.Basic

/-! Red-black trees of `cucon/rbtree.c`: nodes in a heap without links to their
parents, and a stack of the nodes from the current one to the root. A pointer is
a number with zero for `NULL`. A stack is listed from `sp[0]` upwards and ends
with the `NULL` above the root. -/

namespace Culibs.Cucon

/-- `struct cucon_rbnode` with its slot. The colour word of the root holds the
number of nodes. -/
structure Rbnode (α : Type) where
  isBlack : Nat
  left : Nat
  right : Nat
  mem : α

namespace Rbnode

variable {α : Type}

def child (side : Side) (node : Rbnode α) : Nat :=
  match side with
  | .left => node.left
  | .right => node.right

def setChild (side : Side) (p : Nat) (node : Rbnode α) : Rbnode α :=
  match side with
  | .left => { node with left := p }
  | .right => { node with right := p }

end Rbnode

namespace Rbtree

/-- The nodes by their address and the next address the allocator gives out. -/
structure Heap (α : Type) where
  cell : Nat → Rbnode α
  next : Nat

variable {α : Type}

namespace Heap

def modify (heap : Heap α) (p : Nat) (f : Rbnode α → Rbnode α) : Heap α :=
  { heap with cell := Function.update heap.cell p (f (heap.cell p)) }

def setChild (heap : Heap α) (side : Side) (p child : Nat) : Heap α :=
  heap.modify p (Rbnode.setChild side child)

def setWord (heap : Heap α) (p word : Nat) : Heap α :=
  heap.modify p fun node => { node with isBlack := word }

def becomeBlack (heap : Heap α) (p : Nat) : Heap α := heap.setWord p 1

def becomeRed (heap : Heap α) (p : Nat) : Heap α := heap.setWord p 0

/-- What the caller does with the slot of a new node. -/
def setMem (heap : Heap α) (p : Nat) (mem : α) : Heap α :=
  heap.modify p fun node => { node with mem }

/-- A fresh node at the address `heap.next`. -/
def alloc (heap : Heap α) (node : Rbnode α) : Heap α :=
  { cell := Function.update heap.cell heap.next node, next := heap.next + 1 }

def child (heap : Heap α) (side : Side) (p : Nat) : Nat := (heap.cell p).child side

def isRed (heap : Heap α) (p : Nat) : Bool := (heap.cell p).isBlack == 0

end Heap

/-- `cucon_rbtree_size`. -/
def size (heap : Heap α) (root : Nat) : Nat := if root ≠ 0 then (heap.cell root).isBlack else 0

/-- `*sp_root`, the entry below the final `NULL`. -/
def spRoot : List Nat → Nat
  | [root, _] => root
  | _ :: rest => spRoot rest
  | [] => 0

/-- Make `p`, which was linked to `old`, link to `new`. -/
def patch (heap : Heap α) (p old new : Nat) : Heap α :=
  if p ≠ 0 then
    if heap.child .right p = old then heap.setChild .right p new else heap.setChild .left p new
  else heap

/-- `cuconP_rbnode_rotate_right` and its mirror image. -/
def rotate (side : Side) (heap : Heap α) : List Nat → Heap α × List Nat
  | z :: parent :: rest =>
    let x := heap.child side z
    let heap := heap.setChild side z (heap.child side.flip x)
    let heap := patch heap parent z x
    let heap := heap.setChild side.flip x z
    (heap, x :: parent :: rest)
  | sp => (heap, sp)

/-- The rotations of `cuconP_rbtree_rebalance_dtive`: the heap and the stack from
`sp[1]` on. -/
def rebalanceTurn (side : Side) (heap : Heap α) (sp0 sp1 sp2 : Nat) (above : List Nat) :
    Heap α × List Nat :=
  let turned :=
    if sp0 = heap.child side.flip sp1 then rotate side.flip heap (sp1 :: sp2 :: above)
    else (heap, sp1 :: sp2 :: above)
  let sp1 := turned.2.headD 0
  let heap := turned.1.becomeBlack sp1
  let heap := heap.becomeRed sp2
  let turned := rotate side heap (sp2 :: above)
  (turned.1, sp1 :: turned.2)

/-- The loop of `cuconP_rbtree_rebalance_dtive`. The side is the one of `sp[1]`
below `sp[2]`. -/
def rebalanceLoop : Nat → Heap α → List Nat → Option (Heap α × List Nat)
  | 0, _, _ => none
  | fuel + 1, heap, sp0 :: sp1 :: rest =>
    if sp1 ≠ 0 ∧ heap.isRed sp1 then
      match rest with
      | [] => none
      | sp2 :: above =>
        let side := if sp1 = heap.child .left sp2 then Side.left else Side.right
        let y := heap.child side.flip sp2
        if y ≠ 0 ∧ heap.isRed y then
          let heap := heap.becomeBlack sp1
          let heap := heap.becomeBlack y
          let heap := heap.becomeRed sp2
          rebalanceLoop fuel heap (sp2 :: above)
        else
          let turned := rebalanceTurn side heap sp0 sp1 sp2 above
          rebalanceLoop fuel turned.1 (sp0 :: turned.2)
    else some (heap, sp0 :: sp1 :: rest)
  | _ + 1, _, _ => none

def rebalanceDtive (heap : Heap α) (sp : List Nat) : Option (Heap α × List Nat) :=
  rebalanceLoop (sp.length + 1) (heap.becomeRed (sp.headD 0)) sp

/-- The search loop of the insertions and deletions: the node that compares equal
or `NULL`, the stack and the last comparison. -/
def descend (compare : α → Int) (heap : Heap α) :
    Nat → Nat → List Nat → Int → Option (Nat × List Nat × Int)
  | 0, _, _, _ => none
  | fuel + 1, x, sp, cmp =>
    if x = 0 then some (0, sp, cmp)
    else
      let sp := x :: sp
      let cmp := compare (heap.cell x).mem
      if cmp < 0 then descend compare heap fuel (heap.child .left x) sp cmp
      else if cmp > 0 then descend compare heap fuel (heap.child .right x) sp cmp
      else some (x, sp, cmp)

/-- A new node below the last node of a search, or at the root. -/
def attach (slot : α) (heap : Heap α) (sp : List Nat) (cmp : Int) : Heap α :=
  let x := heap.next
  let heap := heap.alloc { isBlack := 0, left := 0, right := 0, mem := slot }
  let parent := sp.headD 0
  if parent ≠ 0 then heap.setChild (if cmp < 0 then .left else .right) parent x else heap

/-- The common part of the destructive insertions: the heap, the root, whether a
node was inserted, and the new or the equal node. The slot of a new node holds
`slot` when the insertion returns. -/
def insertNode (compare : α → Int) (slot : α) (heap : Heap α) (root : Nat) :
    Option (Heap α × Nat × Bool × Nat) :=
  let treeSize := size heap root
  match descend compare heap (treeSize + 1) root [0] 0 with
  | none => none
  | some (x, sp, cmp) =>
    if x ≠ 0 then some (heap, root, false, x)
    else
      let x := heap.next
      let heap := attach slot heap sp cmp
      match rebalanceDtive heap (x :: sp) with
      | none => none
      | some (heap, sp) =>
        let root := spRoot sp
        some (heap.setWord root (treeSize + 1), root, true, x)

/-- `cucon_rbtree_insert1m_mem`. The slot of a new node is left as allocated. -/
def insert1mMem [Inhabited α] (compare : α → Int) (heap : Heap α) (root : Nat) :
    Option (Heap α × Nat × Bool × Nat) := insertNode compare default heap root

/-- `cucon_rbtree_insert2p_node`. -/
def insert2pNode (compare : α → α → Int) (key : α) (heap : Heap α) (root : Nat) :
    Option (Heap α × Nat × Bool × Nat) := insertNode (compare key) key heap root

/-- The loop that follows the left links to the successor. -/
def successorPath (heap : Heap α) : Nat → Nat → List Nat → Option (Nat × List Nat)
  | 0, _, _ => none
  | fuel + 1, y, above =>
    if heap.child .left y ≠ 0 then successorPath heap fuel (heap.child .left y) (y :: above)
    else some (y, above)

/-- The first step of the loop of `_rbtree_erase`: a red sibling moves above the
parent. Gives the heap and the stack above the parent. -/
def eraseRaise (side : Side) (heap : Heap α) (parent : Nat) (rest : List Nat) : Heap α × List Nat :=
  let y := heap.child side.flip parent
  if heap.isRed y then
    let heap := heap.becomeBlack y
    let heap := heap.becomeRed parent
    rotate side.flip heap (parent :: rest)
  else (heap, rest)

/-- The last rotation of `_rbtree_erase`, which lifts the sibling. -/
def eraseLift (side : Side) (heap : Heap α) (parent : Nat) (rest : List Nat) : Heap α × List Nat :=
  let y := heap.child side.flip parent
  let heap := heap.setWord y (heap.cell parent).isBlack
  let heap := heap.becomeBlack parent
  let far := heap.child side.flip y
  let heap := if far ≠ 0 then heap.becomeBlack far else heap
  rotate side.flip heap (parent :: rest)

/-- The rotations that end the loop of `_rbtree_erase`. -/
def eraseTurn (side : Side) (heap : Heap α) (parent : Nat) (rest : List Nat) : Heap α × List Nat :=
  let y := heap.child side.flip parent
  let far := heap.child side.flip y
  let heap :=
    if far = 0 ∨ ¬ heap.isRed far then
      let heap := heap.becomeBlack (heap.child side y)
      let heap := heap.becomeRed y
      (rotate side heap (y :: parent :: rest)).1
    else heap
  eraseLift side heap parent rest

/-- The rebalancing loop of `_rbtree_erase`. The side is the one of `sp[0]` below
`sp[1]`. -/
def eraseLoop : Nat → Heap α → List Nat → Option (Heap α × List Nat)
  | 0, _, _ => none
  | fuel + 1, heap, x :: parent :: rest =>
    if parent ≠ 0 ∧ (x = 0 ∨ ¬ heap.isRed x) then
      let side := if x = heap.child .left parent then Side.left else Side.right
      let raised := eraseRaise side heap parent rest
      let heap := raised.1
      let rest := raised.2
      let y := heap.child side.flip parent
      let near := heap.child side y
      let far := heap.child side.flip y
      if (near = 0 ∨ ¬ heap.isRed near) ∧ (far = 0 ∨ ¬ heap.isRed far) then
        eraseLoop fuel (heap.becomeRed y) (parent :: rest)
      else
        let turned := eraseTurn side heap parent rest
        some (turned.1, [spRoot turned.2, 0])
    else some (heap, x :: parent :: rest)
  | _ + 1, _, _ => none

/-- Make the top of the stack black. -/
def blackenTop (heap : Heap α) (sp : List Nat) : Heap α :=
  if sp.headD 0 ≠ 0 then heap.becomeBlack (sp.headD 0) else heap

/-- The end of `_rbtree_erase` from the rebalancing on: the heap and the root. -/
def eraseFinish (treeSize : Nat) (isUnbalanced : Bool) (heap : Heap α) (sp : List Nat) :
    Option (Heap α × Nat) :=
  match if isUnbalanced then eraseLoop (sp.length + 1) heap sp else some (heap, sp) with
  | none => none
  | some (heap, sp) =>
    let heap := blackenTop heap sp
    let root := spRoot sp
    some (if root ≠ 0 then heap.setWord root (treeSize - 1) else heap, root)

/-- Make the parent of `z` link to `x` in place of `z`. -/
def replaceChild (heap : Heap α) (parent z x : Nat) : Heap α :=
  if parent ≠ 0 then
    if z = heap.child .left parent then heap.setChild .left parent x
    else heap.setChild .right parent x
  else heap

/-- Put `x` in place of the successor of `z` below the nodes `above`. -/
def unlinkSuccessor (heap : Heap α) (z x : Nat) : List Nat → Heap α
  | [] => heap.setChild .right z x
  | q :: _ => heap.setChild .left q x

/-- Give `y` the links and the colour of `z`. -/
def copyNode (heap : Heap α) (y z : Nat) : Heap α :=
  let heap := heap.setChild .left y (heap.child .left z)
  let heap := heap.setChild .right y (heap.child .right z)
  heap.setWord y (heap.cell z).isBlack

/-- `_rbtree_erase` of the node on top of the stack. -/
def rbtreeErase (heap : Heap α) (root : Nat) : List Nat → Option (Heap α × Nat)
  | z :: parent :: rest =>
    let treeSize := size heap root
    if heap.child .left z = 0 ∨ heap.child .right z = 0 then
      let x := if heap.child .left z = 0 then heap.child .right z else heap.child .left z
      let isUnbalanced := ¬ heap.isRed z
      let heap := replaceChild heap parent z x
      eraseFinish treeSize isUnbalanced heap (x :: parent :: rest)
    else
      match successorPath heap (treeSize + 1) (heap.child .right z) [] with
      | none => none
      | some (y, above) =>
        let x := heap.child .right y
        let heap := unlinkSuccessor heap z x above
        let isUnbalanced := ¬ heap.isRed y
        let heap := replaceChild (copyNode heap y z) parent z y
        eraseFinish treeSize isUnbalanced heap (x :: (above ++ y :: parent :: rest))
  | _ => none

/-- `RBTREE_ERASE`: the heap, the root and the erased node or `NULL`. -/
def eraseNode (compare : α → Int) (heap : Heap α) (root : Nat) : Option (Heap α × Nat × Nat) :=
  let treeSize := size heap root
  match descend compare heap (treeSize + 1) root [0] 0 with
  | none => none
  | some (z, spZ, _) =>
    if z = 0 then some (heap, root, 0)
    else
      match rbtreeErase heap root spZ with
      | none => none
      | some (heap, root) => some (heap, root, z)

/-- `cucon_rbtree_erase1m`. -/
def erase1m (compare : α → Int) (heap : Heap α) (root : Nat) : Option (Heap α × Nat × Nat) :=
  eraseNode compare heap root

/-- `cucon_rbtree_erase2p`. -/
def erase2p (compare : α → α → Int) (key : α) (heap : Heap α) (root : Nat) :
    Option (Heap α × Nat × Nat) := eraseNode (compare key) heap root

/-- `cucon_rbtree_find1m_mem`, with fuel for its loop. -/
def find1mMem (compare : α → Int) (heap : Heap α) : Nat → Nat → Option Nat
  | 0, _ => none
  | fuel + 1, x =>
    if x = 0 then some 0
    else
      let cmp := compare (heap.cell x).mem
      if cmp < 0 then find1mMem compare heap fuel (heap.child .left x)
      else if cmp > 0 then find1mMem compare heap fuel (heap.child .right x)
      else some x

/-- `cucon_rbtree_find2p_node`. -/
def find2pNode (compare : α → α → Int) (key : α) (heap : Heap α) (fuel root : Nat) : Option Nat :=
  find1mMem (compare key) heap fuel root

end Rbtree

end Culibs.Cucon
