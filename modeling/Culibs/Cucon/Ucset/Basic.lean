import Culibs.Cu.Int
import Mathlib.Data.Fintype.Pi

/-! Constructive integer sets of `cucon/ucset.c`: key arithmetic, bitset leaves
and the recursive operations. Nodes are hash-consed, so a node is its contents
and pointer comparison is equality. Assertions are left out. -/

namespace Culibs.Cucon

open Cu

/-- The `BITSET_SIZEW` words of a leaf. -/
abbrev Bitset := Fin 2 → Word

instance bitsetSizew_neZero : NeZero 2 := ⟨by decide⟩

/-- `cucon_ucset_t`. The two constructors are the two hash-consed types. The
code tells them apart by `_key_is_leaflike` of the stored key. -/
inductive Ucset where
  | null
  | leaf (key : Word) (bitset : Bitset)
  | node (key : Word) (left right : Ucset)
deriving DecidableEq

namespace Ucset

/-- `BITSET_MASK`. -/
def bitsetMask : Word := 127

def keyCovers (key0 key1 : Word) : Bool :=
  let mask0 := ~~~(key0 ^^^ (key0 - 1))
  key0 != 0 && (key0 &&& mask0) == (key1 &&& mask0) && ((key1 &&& ~~~mask0) != 0 || key1 == 0)

def keyCoverseq (key0 key1 : Word) : Bool :=
  let mask0 := ~~~(key0 ^^^ (key0 - 1))
  (key0 &&& mask0) == (key1 &&& mask0)

def keyIsLeaflike (key : Word) : Bool :=
  if key = 0 then true else (key ^^^ (key - 1)) < 128

def keyJoin (k0 k1 : Word) : Word :=
  let k := uintptrDcover (k0 ^^^ k1)
  (k0 &&& ~~~k) ||| ((k >>> 1) + 1)

def keyMax (k : Word) : Word := k ||| (k - 1)

def leafKey (key : Word) : Word := (key &&& ~~~bitsetMask) ||| ((bitsetMask + 1) >>> 1)

/-- The stored key word, whose lowest bit is the presence bit of the node. -/
def rawKey : Ucset → Word
  | null => 0
  | leaf key _ => key
  | node key _ _ => key

def left : Ucset → Ucset
  | node _ left _ => left
  | _ => null

def right : Ucset → Ucset
  | node _ _ right => right
  | _ => null

def bitset : Ucset → Bitset
  | leaf _ bitset => bitset
  | _ => fun _ => 0

@[simp] theorem rawKey_node (key : Word) (left right : Ucset) : (node key left right).rawKey = key := rfl

@[simp] theorem left_node (key : Word) (l right : Ucset) : (node key l right).left = l := rfl

@[simp] theorem right_node (key : Word) (left r : Ucset) : (node key left r).right = r := rfl

def ucnodeKey (node : Ucset) : Word := node.rawKey &&& ~~~1

/-- `node->key & 1`. -/
def hasKey (node : Ucset) : Bool := node.rawKey &&& 1 != 0

def ucnodeNew (key : Word) (left right : Ucset) : Ucset := node key left right

/-- Number of nodes, the measure of the recursive operations. -/
def size : Ucset → Nat
  | null => 0
  | leaf _ _ => 1
  | node _ left right => left.size + right.size + 1

variable {node : Ucset}

theorem size_left_lt (nonnull : node ≠ null) : node.left.size < node.size := by
  cases node with
  | null => exact absurd rfl nonnull
  | leaf => simp [left, size]
  | node => simp only [left_node, size]; omega

theorem size_right_lt (nonnull : node ≠ null) : node.right.size < node.size := by
  cases node with
  | null => exact absurd rfl nonnull
  | leaf => simp [right, size]
  | node => simp only [right_node, size]; omega

theorem size_left_le (node : Ucset) : node.left.size ≤ node.size := by
  cases node <;> simp [left, size]; omega

private theorem size_right_le (node : Ucset) : node.right.size ≤ node.size := by
  cases node <;> simp [right, size]; omega

/-- `key/CU_WORD_P2WIDTH` after masking by `BITSET_MASK`. -/
def bitsetIndex (key : Word) : Fin 2 := Fin.ofNat 2 ((key &&& bitsetMask).toNat / 64)

/-- `CU_WORD_C(1) << key%CU_WORD_P2WIDTH` after masking by `BITSET_MASK`. -/
def bitsetBit (key : Word) : Word := (1 : Word) <<< ((key &&& bitsetMask).toNat % 64)

def setBit (bitset : Bitset) (key : Word) : Bitset :=
  Function.update bitset (bitsetIndex key) (bitset (bitsetIndex key) ||| bitsetBit key)

def ucleafFind (node : Ucset) (key : Word) : Bool :=
  node.bitset (bitsetIndex key) &&& bitsetBit key != 0

def ucleafNew (key : Word) : Ucset := leaf (leafKey key) (setBit (fun _ => 0) key)

def ucleafInsert (src : Ucset) (addKey : Word) : Ucset :=
  leaf src.rawKey (setBit src.bitset addKey)

def ucleafErase (src : Ucset) (delKey : Word) : Ucset :=
  let bits := src.bitset (bitsetIndex delKey)
  if bits &&& bitsetBit delKey = 0 then src
  else
    let bitset := Function.update src.bitset (bitsetIndex delKey) (bits &&& ~~~(bitsetBit delKey))
    if ∃ i, bitset i ≠ 0 then leaf src.rawKey bitset else null

def ucleafUnion (lhs rhs : Ucset) : Ucset :=
  leaf lhs.rawKey fun i => lhs.bitset i ||| rhs.bitset i

def ucleafIsecn (lhs rhs : Ucset) : Ucset :=
  let bitset := fun i => lhs.bitset i &&& rhs.bitset i
  if ∃ i, bitset i ≠ 0 then leaf lhs.rawKey bitset else null

def ucleafMinus (lhs rhs : Ucset) : Ucset :=
  let bitset := fun i => lhs.bitset i &&& ~~~(rhs.bitset i)
  if ∃ i, bitset i ≠ 0 then leaf lhs.rawKey bitset else null

def singleton (key : Word) : Ucset :=
  if keyIsLeaflike key then ucleafNew key else ucnodeNew (key ||| 1) null null

/-- The branches of `cucon_ucset_insert` for a key outside the block of the node. -/
def insertBeside (node : Ucset) (nodeKey key : Word) : Ucset :=
  if keyCovers key nodeKey then
    if nodeKey < key then ucnodeNew (key ||| 1) node null
    else ucnodeNew (key ||| 1) null node
  else
    let keyNode := if keyIsLeaflike key then ucleafNew key else ucnodeNew (key ||| 1) null null
    let j := uintptrDcover (key ^^^ nodeKey)
    let j := (key &&& ~~~j) ||| ((j >>> 1) + 1)
    if key < nodeKey then ucnodeNew j keyNode node else ucnodeNew j node keyNode

/-- The end of the branches that rebuild a node from what is left of its
subtrees. -/
def collapse (key : Word) (left right : Ucset) : Ucset :=
  if key &&& 1 = 0 ∧ left = null then right
  else if key &&& 1 = 0 ∧ right = null then left
  else ucnodeNew key left right

/-- A node rebuilt around a new left subtree. -/
def replaceLeft (node newLeft : Ucset) : Ucset :=
  if newLeft = null ∧ ¬ hasKey node then node.right else ucnodeNew node.rawKey newLeft node.right

/-- A node rebuilt around a new right subtree. -/
def replaceRight (node newRight : Ucset) : Ucset :=
  if newRight = null ∧ ¬ hasKey node then node.left else ucnodeNew node.rawKey node.left newRight

def insert (node : Ucset) (key : Word) : Ucset :=
  if _nonnull : node = null then
    if keyIsLeaflike key then ucleafNew key else ucnodeNew (key ||| 1) null null
  else
    let nodeKey := ucnodeKey node
    if key = nodeKey then
      if keyIsLeaflike key then ucleafInsert node key
      else if hasKey node then node
      else ucnodeNew (node.rawKey ||| 1) node.left node.right
    else if keyCovers nodeKey key then
      if keyIsLeaflike nodeKey then
        if ucleafFind node key then node else ucleafInsert node key
      else if key < nodeKey then
        let newLeft := insert node.left key
        if newLeft ≠ node.left then ucnodeNew node.rawKey newLeft node.right else node
      else
        let newRight := insert node.right key
        if newRight ≠ node.right then ucnodeNew node.rawKey node.left newRight else node
    else insertBeside node nodeKey key
termination_by node.size
decreasing_by
  · exact size_left_lt _nonnull
  · exact size_right_lt _nonnull

def erase (node : Ucset) (key : Word) : Ucset :=
  if _nonnull : node = null then null
  else
    let nodeKey := ucnodeKey node
    if key = nodeKey then
      if keyIsLeaflike nodeKey then ucleafErase node key
      else if hasKey node then
        if node.left = null then node.right
        else if node.right = null then node.left
        else ucnodeNew (node.rawKey &&& ~~~1) node.left node.right
      else node
    else if keyCovers nodeKey key then
      if keyIsLeaflike nodeKey then ucleafErase node key
      else if key < nodeKey then
        let newLeft := erase node.left key
        if newLeft ≠ node.left then replaceLeft node newLeft else node
      else
        let newRight := erase node.right key
        if newRight ≠ node.right then replaceRight node newRight else node
    else node
termination_by node.size
decreasing_by
  · exact size_left_lt _nonnull
  · exact size_right_lt _nonnull

def find (node : Ucset) (key : Word) : Bool :=
  if _nonnull : node = null then false
  else
    let nodeKey := ucnodeKey node
    if !keyCoverseq nodeKey key then false
    else if keyIsLeaflike nodeKey then ucleafFind node key
    else if key = nodeKey then hasKey node
    else if key < nodeKey then find node.left key
    else find node.right key
termination_by node.size
decreasing_by
  · exact size_left_lt _nonnull
  · exact size_right_lt _nonnull

variable {lhs rhs : Ucset}

private theorem measure_children (nonnull : lhs ≠ null) (flag : Nat) (small : flag ≤ 1) :
    2 * (lhs.left.size + rhs.left.size) + flag < 2 * (lhs.size + rhs.size) ∧
      2 * (lhs.right.size + rhs.right.size) + flag < 2 * (lhs.size + rhs.size) ∧
      2 * (lhs.left.size + rhs.size) + flag < 2 * (lhs.size + rhs.size) ∧
      2 * (lhs.right.size + rhs.size) + flag < 2 * (lhs.size + rhs.size) ∧
      2 * (rhs.size + lhs.left.size) + flag < 2 * (lhs.size + rhs.size) ∧
      2 * (rhs.size + lhs.right.size) + flag < 2 * (lhs.size + rhs.size) := by
  have := size_left_lt nonnull
  have := size_right_lt nonnull
  have := size_left_le rhs
  have := size_right_le rhs
  omega

/-- Both orders of a pair have the same size. The flag is set when the code
swaps its arguments, which it does only once in a row. -/
def pairMeasure (lhs rhs : Ucset) : Nat :=
  2 * (lhs.size + rhs.size) + if keyCovers (ucnodeKey rhs) (ucnodeKey lhs) then 0 else 1

private theorem pairMeasure_lt
    (smaller : ∀ flag ≤ 1, 2 * (lhs'.size + rhs'.size) + flag < 2 * (lhs.size + rhs.size)) :
    pairMeasure lhs' rhs' < pairMeasure lhs rhs := by
  have := smaller (if keyCovers (ucnodeKey rhs') (ucnodeKey lhs') then 0 else 1) (by split <;> omega)
  simp only [pairMeasure]
  omega

private theorem pairMeasure_swap
    (covered : keyCovers (ucnodeKey lhs) (ucnodeKey rhs) = true)
    (not_covering : ¬ keyCovers (ucnodeKey rhs) (ucnodeKey lhs) = true) :
    pairMeasure rhs lhs < pairMeasure lhs rhs := by
  simp only [pairMeasure, covered, not_covering, if_true]
  simp only [Bool.false_eq_true, if_false]
  omega

def union (lhs rhs : Ucset) : Ucset :=
  if _nonnull0 : lhs = null then rhs
  else if _nonnull1 : rhs = null then lhs
  else
    let lhsKey := ucnodeKey lhs
    let rhsKey := ucnodeKey rhs
    if lhsKey = rhsKey then
      if keyIsLeaflike lhsKey then ucleafUnion lhs rhs
      else
        let left := union lhs.left rhs.left
        let right := union lhs.right rhs.right
        ucnodeNew (lhs.rawKey ||| rhs.rawKey) left right
    else if _covers : keyCovers rhsKey lhsKey then
      if lhsKey < rhsKey then
        let left := union lhs rhs.left
        ucnodeNew rhs.rawKey left rhs.right
      else
        let right := union lhs rhs.right
        ucnodeNew rhs.rawKey rhs.left right
    else if _covered : keyCovers lhsKey rhsKey then union rhs lhs
    else
      let j := uintptrDcover (lhsKey ^^^ rhsKey)
      let j := (lhsKey &&& ~~~j) ||| ((j >>> 1) + 1)
      if lhsKey < rhsKey then ucnodeNew j lhs rhs else ucnodeNew j rhs lhs
termination_by pairMeasure lhs rhs
decreasing_by
  · exact pairMeasure_lt fun flag small => (measure_children _nonnull0 flag small).1
  · exact pairMeasure_lt fun flag small => (measure_children _nonnull0 flag small).2.1
  · exact pairMeasure_lt fun flag small => by
      have := (@measure_children _ lhs _nonnull1 flag small).2.2.2.2.1
      omega
  · exact pairMeasure_lt fun flag small => by
      have := (@measure_children _ lhs _nonnull1 flag small).2.2.2.2.2
      omega
  · exact pairMeasure_swap _covered _covers

def isecn (lhs rhs : Ucset) : Ucset :=
  if _nonnull : lhs = null ∨ rhs = null then null
  else
    let lhsKey := ucnodeKey lhs
    let rhsKey := ucnodeKey rhs
    if lhsKey = rhsKey then
      if keyIsLeaflike lhsKey then ucleafIsecn lhs rhs
      else
        let key := lhs.rawKey &&& rhs.rawKey
        let left := isecn lhs.left rhs.left
        let right := isecn lhs.right rhs.right
        collapse key left right
    else if _covers : keyCovers rhsKey lhsKey then
      if lhsKey < rhsKey then isecn lhs rhs.left else isecn lhs rhs.right
    else if _covered : keyCovers lhsKey rhsKey then isecn rhs lhs
    else null
termination_by pairMeasure lhs rhs
decreasing_by
  all_goals obtain ⟨_nonnull0, _nonnull1⟩ := not_or.mp _nonnull
  · exact pairMeasure_lt fun flag small => (measure_children _nonnull0 flag small).1
  · exact pairMeasure_lt fun flag small => (measure_children _nonnull0 flag small).2.1
  · exact pairMeasure_lt fun flag small => by
      have := (@measure_children _ lhs _nonnull1 flag small).2.2.2.2.1
      omega
  · exact pairMeasure_lt fun flag small => by
      have := (@measure_children _ lhs _nonnull1 flag small).2.2.2.2.2
      omega
  · exact pairMeasure_swap _covered _covers

def compl (lhs rhs : Ucset) : Ucset :=
  if _nonnull0 : lhs = null then null
  else if _nonnull1 : rhs = null then lhs
  else
    let lhsKey := ucnodeKey lhs
    let rhsKey := ucnodeKey rhs
    if lhsKey = rhsKey then
      if keyIsLeaflike lhsKey then ucleafMinus lhs rhs
      else
        let key := lhs.rawKey &&& ~~~(rhs.rawKey &&& 1)
        let left := compl lhs.left rhs.left
        let right := compl lhs.right rhs.right
        collapse key left right
    else if keyCovers lhsKey rhsKey then
      if rhsKey < lhsKey then replaceLeft lhs (compl lhs.left rhs)
      else replaceRight lhs (compl lhs.right rhs)
    else if keyCovers rhsKey lhsKey then
      if lhsKey < rhsKey then compl lhs rhs.left else compl lhs rhs.right
    else lhs
termination_by lhs.size + rhs.size
decreasing_by
  all_goals
    have := size_left_lt _nonnull0
    have := size_right_lt _nonnull0
    have := size_left_lt _nonnull1
    have := size_right_lt _nonnull1
    omega

end Ucset

end Culibs.Cucon
