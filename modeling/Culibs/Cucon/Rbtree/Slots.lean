import Culibs.Cu.Int
import Culibs.Cucon.Rbtree.Ctive

/-! The path stack of `cucon/rbtree.c` as an array: the operations again, where
each access to a slot fails when it is out of bounds. A stack is listed from
`sp[0]` to the last slot of the array, so that `sp[i]` is in the array when it is
in the list, and `--sp` when the list is shorter than the array. -/

namespace Culibs.Cucon.Rbtree

/-- `stack_size`. -/
def stackSize (treeSize : Nat) : Nat := 2 * (treeSize + 1).log2 + 3

namespace Checked

variable {α : Type}

/-- `*--sp = p` in an array of the given number of slots. -/
def push (slots p : Nat) (sp : List Nat) : Option (List Nat) :=
  if sp.length < slots then some (p :: sp) else none

/-- `sp[i] = p`. -/
def store (sp : List Nat) (i p : Nat) : Option (List Nat) :=
  if i < sp.length then some (sp.set i p) else none

/-- `*sp_root`, in the slot before the last one. -/
def spRoot (sp : List Nat) : Option Nat := if 2 ≤ sp.length then sp[sp.length - 2]? else none

section Insert

/-- `cuconP_rbnode_rotate_right(sp + i)` and its mirror image. -/
def rotate (side : Side) (heap : Heap α) (sp : List Nat) (i : Nat) : Option (Heap α × List Nat) := do
  let z ← sp[i]?
  let x := heap.child side z
  let heap := heap.setChild side z (heap.child side.flip x)
  let parent ← sp[i + 1]?
  let heap := patch heap parent z x
  let heap := heap.setChild side.flip x z
  let sp ← store sp i x
  some (heap, sp)

def rebalanceTurn (side : Side) (heap : Heap α) (sp : List Nat) : Option (Heap α × List Nat) := do
  let sp0 ← sp[0]?
  let sp1 ← sp[1]?
  let turned ← (if sp0 = heap.child side.flip sp1 then rotate side.flip heap sp 1 else some (heap, sp))
  let sp1 ← turned.2[1]?
  let heap := turned.1.becomeBlack sp1
  let sp2 ← turned.2[2]?
  let heap := heap.becomeRed sp2
  rotate side heap turned.2 2

def rebalanceLoop : Nat → Heap α → List Nat → Option (Heap α × List Nat)
  | 0, _, _ => none
  | fuel + 1, heap, sp => do
    let sp1 ← sp[1]?
    if sp1 ≠ 0 ∧ heap.isRed sp1 then
      let sp2 ← sp[2]?
      let side := if sp1 = heap.child .left sp2 then Side.left else Side.right
      let y := heap.child side.flip sp2
      if y ≠ 0 ∧ heap.isRed y then
        let heap := heap.becomeBlack sp1
        let heap := heap.becomeBlack y
        let heap := heap.becomeRed sp2
        rebalanceLoop fuel heap (sp.drop 2)
      else
        let turned ← rebalanceTurn side heap sp
        rebalanceLoop fuel turned.1 turned.2
    else some (heap, sp)

def rebalanceDtive (heap : Heap α) (sp : List Nat) : Option (Heap α × List Nat) := do
  let sp0 ← sp[0]?
  rebalanceLoop (sp.length + 1) (heap.becomeRed sp0) sp

def descend (slots : Nat) (compare : α → Int) (heap : Heap α) :
    Nat → Nat → List Nat → Int → Option (Nat × List Nat × Int)
  | 0, _, _, _ => none
  | fuel + 1, x, sp, cmp =>
    if x = 0 then some (0, sp, cmp)
    else do
      let sp ← push slots x sp
      let cmp := compare (heap.cell x).mem
      if cmp < 0 then descend slots compare heap fuel (heap.child .left x) sp cmp
      else if cmp > 0 then descend slots compare heap fuel (heap.child .right x) sp cmp
      else some (x, sp, cmp)

def insertNode (compare : α → Int) (slot : α) (heap : Heap α) (root : Nat) :
    Option (Heap α × Nat × Bool × Nat) := do
  let treeSize := size heap root
  let slots := stackSize treeSize
  let sp ← push slots 0 []
  let found ← descend slots compare heap (treeSize + 1) root sp 0
  if found.1 ≠ 0 then some (heap, root, false, found.1)
  else
    let x := heap.next
    let sp ← push slots x found.2.1
    let parent ← sp[1]?
    let heap := attach slot heap [parent] found.2.2
    let fixed ← rebalanceDtive heap sp
    let root ← spRoot fixed.2
    some (fixed.1.setWord root (treeSize + 1), root, true, x)

/-- `cucon_rbtree_insert1m_mem`. -/
def insert1mMem [Inhabited α] (compare : α → Int) (heap : Heap α) (root : Nat) :
    Option (Heap α × Nat × Bool × Nat) := insertNode compare default heap root

/-- `cucon_rbtree_insert2p_node`. -/
def insert2pNode (compare : α → α → Int) (key : α) (heap : Heap α) (root : Nat) :
    Option (Heap α × Nat × Bool × Nat) := insertNode (compare key) key heap root

end Insert

section Ctive

variable (junk : Nat)

/-- `cuconP_rbnode_rotate_right_ctive(sp + i)` and its mirror image. -/
def rotateCtive (side : Side) (newNode : Nat) (heap : Heap α) (sp : List Nat) (i : Nat) :
    Option (Heap α × List Nat) := do
  let z ← sp[i]?
  let xSrc := heap.child side z
  let xDst := if xSrc = newNode then xSrc else heap.next
  let heap := if xSrc = newNode then heap
    else (newCopy junk heap xSrc).setChild side heap.next (heap.child side xSrc)
  let heap := heap.setChild side z (heap.child side.flip xSrc)
  let parent ← sp[i + 1]?
  let heap := patch heap parent z xDst
  let heap := heap.setChild side.flip xDst z
  let sp ← store sp i xDst
  some (heap, sp)

/-- The loop that copies the path, with `sp + i + 1` for `sp` in the round `i`, and
its assertion. The copy of the parent of `sp[0]` is `x1`. -/
def copySpine (slots : Nat) : Nat → Heap α → Nat → List Nat → Option (Heap α × Nat × List Nat)
  | 0, heap, x1, sp => some (heap, x1, sp)
  | i + 1, heap, x1, sp => do
    let s ← sp[i + 1]?
    let parent ← sp[i + 2]?
    let x0 := heap.next
    let side := if s = heap.child .left parent then Side.left else Side.right
    let heap := newCopy junk heap s
    let heap := setLinks heap side x1 x0 (heap.child side.flip parent)
    let sp ← store sp (i + 2) x1
    if sp.length - 2 - (i + 1) < slots - 2 then copySpine slots i heap x0 sp else none

def rebalanceTurnCtive (newNode : Nat) (side : Side) (heap : Heap α) (sp : List Nat) :
    Option (Heap α × List Nat) := do
  let sp0 ← sp[0]?
  let sp1 ← sp[1]?
  let turned ← (if sp0 = heap.child side.flip sp1 then rotateCtive junk side.flip newNode heap sp 1
    else some (heap, sp))
  let sp1 ← turned.2[1]?
  let heap := turned.1.becomeBlack sp1
  let sp2 ← turned.2[2]?
  let heap := heap.becomeRed sp2
  rotateCtive junk side newNode heap turned.2 2

def rebalanceCtive (newNode : Nat) : Nat → Heap α → List Nat → Option (Heap α × List Nat)
  | 0, _, _ => none
  | fuel + 1, heap, sp => do
    let sp1 ← sp[1]?
    if sp1 ≠ 0 ∧ heap.isRed sp1 then
      let sp2 ← sp[2]?
      let side := if sp1 = heap.child .left sp2 then Side.left else Side.right
      let y := heap.child side.flip sp2
      if y ≠ 0 ∧ heap.isRed y then
        let yCp := heap.next
        let heap := copyUncle junk side heap sp2 y
        let heap := heap.becomeBlack sp1
        let heap := heap.becomeBlack yCp
        let heap := heap.becomeRed sp2
        rebalanceCtive newNode fuel heap (sp.drop 2)
      else
        let turned ← rebalanceTurnCtive junk newNode side heap sp
        rebalanceCtive newNode fuel turned.1 turned.2
    else some (heap, sp)

/-- `cucon_rbtree_cinsert1m_mem`. -/
def cinsert1mMem [Inhabited α] (compare : α → Int) (heap : Heap α) (root : Nat) :
    Option (Heap α × Nat × Bool × Nat) := do
  let treeSize := size heap root
  let slots := stackSize treeSize
  let sp ← push slots 0 []
  if root = 0 then
    some (heap.alloc { isBlack := 1, left := 0, right := 0, mem := default }, heap.next, true, heap.next)
  else
    let found ← descend slots compare heap (treeSize + 1) root sp 0
    if found.1 ≠ 0 then some (heap, root, false, found.1)
    else
      let x := heap.next
      let heap := heap.alloc { isBlack := 0, left := 0, right := 0, mem := default }
      let sp ← push slots x found.2.1
      let s ← spRoot sp
      let spine ← copySpine junk slots (sp.length - 3) (newCopy junk heap s) heap.next sp
      let heap := spine.1
      let parent ← spine.2.2[1]?
      let side := if found.2.2 < 0 then Side.left else Side.right
      let heap := setLinks heap side spine.2.1 x (heap.child side.flip parent)
      let sp ← store spine.2.2 1 spine.2.1
      let sp0 ← sp[0]?
      let fixed ← rebalanceCtive junk x (sp.length + 1) (heap.becomeRed sp0) sp
      let root ← spRoot fixed.2
      some (fixed.1.setWord root (treeSize + 1), root, true, x)

end Ctive

section Erase

variable (slots : Nat)

/-- The loop to the successor. The node `y` is on top of the stack. -/
def successorPath (heap : Heap α) : Nat → Nat → List Nat → Option (Nat × List Nat)
  | 0, _, _ => none
  | fuel + 1, y, sp =>
    if heap.child .left y ≠ 0 then do
      let sp ← push slots (heap.child .left y) sp
      successorPath heap fuel (heap.child .left y) sp
    else some (y, sp)

/-- A red sibling moves above the parent, which is pushed again below it. The
assertions read `sp[2]`. -/
def eraseRaise (side : Side) (heap : Heap α) (sp : List Nat) : Option (Heap α × List Nat) := do
  let x ← sp[0]?
  let z ← sp[1]?
  let y := heap.child side.flip z
  if heap.isRed y then
    let heap := heap.becomeBlack y
    let heap := heap.becomeRed z
    let turned ← rotate side.flip heap sp 1
    let sp ← store turned.2 0 z
    let sp ← push slots x sp
    let _ ← sp[2]?
    some (turned.1, sp)
  else some (heap, sp)

def eraseLift (side : Side) (heap : Heap α) (sp : List Nat) : Option (Heap α × List Nat) := do
  let parent ← sp[1]?
  let y := heap.child side.flip parent
  let heap := heap.setWord y (heap.cell parent).isBlack
  let heap := heap.becomeBlack parent
  let far := heap.child side.flip y
  let heap := if far ≠ 0 then heap.becomeBlack far else heap
  rotate side.flip heap sp 1

def eraseTurn (side : Side) (heap : Heap α) (sp : List Nat) : Option (Heap α × List Nat) := do
  let parent ← sp[1]?
  let y := heap.child side.flip parent
  let far := heap.child side.flip y
  if far = 0 ∨ ¬ heap.isRed far then
    let heap := heap.becomeBlack (heap.child side y)
    let heap := heap.becomeRed y
    let sp ← store sp 0 y
    let turned ← rotate side heap sp 0
    eraseLift side turned.1 turned.2
  else eraseLift side heap sp

def eraseLoop : Nat → Heap α → List Nat → Option (Heap α × List Nat)
  | 0, _, _ => none
  | fuel + 1, heap, sp => do
    let x ← sp[0]?
    let parent ← sp[1]?
    if parent ≠ 0 ∧ (x = 0 ∨ ¬ heap.isRed x) then
      let side := if x = heap.child .left parent then Side.left else Side.right
      let raised ← eraseRaise slots side heap sp
      let heap := raised.1
      let parent ← raised.2[1]?
      let y := heap.child side.flip parent
      let near := heap.child side y
      let far := heap.child side.flip y
      if (near = 0 ∨ ¬ heap.isRed near) ∧ (far = 0 ∨ ¬ heap.isRed far) then
        eraseLoop fuel (heap.becomeRed y) (raised.2.drop 1)
      else
        let turned ← eraseTurn side heap raised.2
        -- Here `sp = sp_root`.
        some (turned.1, turned.2.drop (turned.2.length - 2))
    else some (heap, sp)

def eraseFinish (treeSize : Nat) (isUnbalanced : Bool) (heap : Heap α) (sp : List Nat) :
    Option (Heap α × Nat) := do
  let fixed ← (if isUnbalanced then eraseLoop slots (sp.length + 1) heap sp else some (heap, sp))
  let sp0 ← fixed.2[0]?
  let heap := blackenTop fixed.1 [sp0]
  let root ← spRoot fixed.2
  some (if root ≠ 0 then heap.setWord root (treeSize - 1) else heap, root)

/-- Put `x` in place of the successor of `z`, whose right child is `first`. -/
def unlinkSuccessor (heap : Heap α) (z first x : Nat) (sp : List Nat) : Option (Heap α) :=
  if heap.child .left first ≠ 0 then do
    let q ← sp[1]?
    some (heap.setChild .left q x)
  else some (heap.setChild .right z x)

/-- `_rbtree_erase`. The slot `sp_z[0]` is at `sp.length - spZ.length` from `sp` on. -/
def rbtreeErase (heap : Heap α) (root : Nat) (spZ : List Nat) : Option (Heap α × Nat) := do
  let treeSize := size heap root
  let z ← spZ[0]?
  let parent ← spZ[1]?
  if heap.child .left z = 0 ∨ heap.child .right z = 0 then
    let x := if heap.child .left z = 0 then heap.child .right z else heap.child .left z
    let isUnbalanced := ¬ heap.isRed z
    let heap := replaceChild heap parent z x
    let sp ← store spZ 0 x
    eraseFinish slots treeSize isUnbalanced heap sp
  else
    let first := heap.child .right z
    let sp ← push slots first spZ
    let found ← successorPath slots heap (treeSize + 1) first sp
    let y := found.1
    let x := heap.child .right y
    let heap ← unlinkSuccessor heap z first x found.2
    let isUnbalanced := ¬ heap.isRed y
    let heap := replaceChild (copyNode heap y z) parent z y
    let sp ← store found.2 (found.2.length - spZ.length) y
    let sp ← store sp 0 x
    eraseFinish slots treeSize isUnbalanced heap sp

end Erase

/-- `RBTREE_ERASE`. -/
def eraseNode (compare : α → Int) (heap : Heap α) (root : Nat) : Option (Heap α × Nat × Nat) := do
  let treeSize := size heap root
  let slots := stackSize treeSize
  let sp ← push slots 0 []
  let found ← descend slots compare heap (treeSize + 1) root sp 0
  if found.1 = 0 then some (heap, root, 0)
  else
    let erased ← rbtreeErase slots heap root found.2.1
    some (erased.1, erased.2, found.1)

/-- `cucon_rbtree_erase1m`. -/
def erase1m (compare : α → Int) (heap : Heap α) (root : Nat) : Option (Heap α × Nat × Nat) :=
  eraseNode compare heap root

/-- `cucon_rbtree_erase2p`. -/
def erase2p (compare : α → α → Int) (key : α) (heap : Heap α) (root : Nat) :
    Option (Heap α × Nat × Nat) := eraseNode (compare key) heap root

end Checked

end Culibs.Cucon.Rbtree
