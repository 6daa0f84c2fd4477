import Culibs.Cu.Int

/-! Associative trees of expressions from `cuex/atree.c`. Nodes are hash-consed,
so a node is its contents and pointer comparison is equality. -/

namespace Culibs

/-- `cu_order_t`. -/
inductive Cu.Order where
  | none
  | lt
  | gt
  | eq
deriving DecidableEq

namespace Cuex

open Cu

/-- A tree with at least one element: the element itself, any expression that is
not a `cuex_anode`, or a `cuex_anode`. -/
inductive Atree (α : Type) where
  | leaf (value : α)
  | anode (centre : Word) (left right : Atree α)
deriving DecidableEq

namespace Atree

variable {α : Type}

def pairCentre (left right : Word) : Word :=
  let mask := uintptrDcover (left ^^^ right)
  (left &&& ~~~mask) ||| ((mask + 1) >>> 1)

def centreToMin (centre : Word) : Word :=
  let mask := centre ^^^ (centre - 1)
  centre &&& ~~~mask

def centreToMax (centre : Word) : Word :=
  let mask := centre ^^^ (centre - 1)
  centre ||| mask

/-- The loop of `cuex_atree_find`. -/
def findLoop (getKey : α → Word) (tree : Atree α) (key : Word) : Option α :=
  match tree with
  | leaf value => if getKey value = key then some value else none
  | anode centre left right =>
    if key < centre then
      if key < centreToMin centre then none else findLoop getKey left key
    else
      if centreToMax centre < key then none else findLoop getKey right key

/-- `atree_insert`. The result is `none` where the code returns `NULL`. -/
def insertLoop (getKey : α → Word) (mergeValues : α → α → Option α) (tree : Atree α) (value : α) :
    Option (Atree α) :=
  let valueKey := getKey value
  match tree with
  | leaf old =>
    let atreeKey := getKey old
    if valueKey = atreeKey then (mergeValues old value).map leaf
    else if valueKey < atreeKey then some (anode (pairCentre valueKey atreeKey) (leaf value) (leaf old))
    else some (anode (pairCentre atreeKey valueKey) (leaf old) (leaf value))
  | anode centre left right =>
    if valueKey < centre then
      if valueKey < centreToMin centre then
        some (anode (pairCentre valueKey centre) (leaf value) (anode centre left right))
      else do
        let left ← insertLoop getKey mergeValues left value
        some (anode centre left right)
    else
      if centreToMax centre < valueKey then
        some (anode (pairCentre centre valueKey) (anode centre left right) (leaf value))
      else do
        let right ← insertLoop getKey mergeValues right value
        some (anode centre left right)

/-- `atree_insert_rev`, a second copy of the code that merges with the arguments reversed. -/
def insertRevLoop (getKey : α → Word) (mergeValues : α → α → Option α) (tree : Atree α) (value : α) :
    Option (Atree α) :=
  insertLoop getKey (fun old value => mergeValues value old) tree value

/-- `atree_erase`: the tree that is left and what was stored to `elt_out`. -/
def eraseLoop (getKey : α → Word) (tree : Atree α) (key : Word) : Option (Atree α) × Option α :=
  match tree with
  | leaf value =>
    let atreeKey := getKey value
    if key = atreeKey then (none, some value) else (some (leaf value), none)
  | anode centre left right =>
    if key < centre then
      if key < centreToMin centre then (some (anode centre left right), none)
      else
        let (newLeft, elt) := eraseLoop getKey left key
        match newLeft with
        | none => (some right, elt)
        | some newLeft => (some (anode centre newLeft right), elt)
    else
      if centreToMax centre < key then (some (anode centre left right), none)
      else
        let (newRight, elt) := eraseLoop getKey right key
        match newRight with
        | none => (some left, elt)
        | some newRight => (some (anode centre left newRight), elt)

/-- Number of nodes, the measure of the recursion over two trees. -/
def size : Atree α → Nat
  | leaf _ => 1
  | anode _ left right => left.size + right.size + 1

/-- `atree_union`. -/
def unionLoop (getKey : α → Word) (mergeValues : α → α → Option α) (tree0 tree1 : Atree α) :
    Option (Atree α) :=
  match tree0, tree1 with
  | leaf value0, tree1 => insertRevLoop getKey mergeValues tree1 value0
  | tree0, leaf value1 => insertLoop getKey mergeValues tree0 value1
  | anode centre0 left0 right0, anode centre1 left1 right1 =>
    let tree0 := anode centre0 left0 right0
    let tree1 := anode centre1 left1 right1
    if centre0 = centre1 then do
      let left ← unionLoop getKey mergeValues left0 left1
      let right ← unionLoop getKey mergeValues right0 right1
      some (anode centre0 left right)
    else if centre0 < centre1 then
      let max0 := centreToMax centre0
      if max0 < centre1 then
        let min1 := centreToMin centre1
        if max0 < min1 then some (anode (pairCentre centre0 centre1) tree0 tree1)
        else do
          let left ← unionLoop getKey mergeValues tree0 left1
          some (anode centre1 left right1)
      else do
        let right ← unionLoop getKey mergeValues right0 tree1
        some (anode centre0 left0 right)
    else
      let max1 := centreToMax centre1
      if max1 < centre0 then
        let min0 := centreToMin centre0
        if max1 < min0 then some (anode (pairCentre centre1 centre0) tree1 tree0)
        else do
          let left ← unionLoop getKey mergeValues left0 tree1
          some (anode centre0 left right0)
      else do
        let right ← unionLoop getKey mergeValues tree0 right1
        some (anode centre1 left1 right)
termination_by tree0.size + tree1.size
decreasing_by all_goals (simp only [size]; omega)

/-- What `atree_isecn` returns for two nodes of one centre. -/
def isecnNode (centre : Word) (newLeft newRight : Option (Atree α)) : Option (Atree α) :=
  match newLeft, newRight with
  | none, newRight => newRight
  | some newLeft, none => some newLeft
  | some newLeft, some newRight => some (anode centre newLeft newRight)

/-- `atree_isecn`. -/
def isecnLoop (getKey : α → Word) (mergeValues : α → α → Option α) (tree0 tree1 : Atree α) :
    Option (Atree α) :=
  match tree0, tree1 with
  | leaf value0, tree1 => do
    let leaf1 ← findLoop getKey tree1 (getKey value0)
    (mergeValues value0 leaf1).map leaf
  | tree0, leaf value1 => do
    let leaf0 ← findLoop getKey tree0 (getKey value1)
    (mergeValues leaf0 value1).map leaf
  | anode centre0 left0 right0, anode centre1 left1 right1 =>
    let tree0 := anode centre0 left0 right0
    let tree1 := anode centre1 left1 right1
    if centre0 = centre1 then
      isecnNode centre0 (isecnLoop getKey mergeValues left0 left1) (isecnLoop getKey mergeValues right0 right1)
    else if centre0 < centre1 then
      let max0 := centreToMax centre0
      if max0 < centre1 then
        let min1 := centreToMin centre1
        if max0 < min1 then none else isecnLoop getKey mergeValues tree0 left1
      else isecnLoop getKey mergeValues right0 tree1
    else
      let max1 := centreToMax centre1
      if max1 < centre0 then
        let min0 := centreToMin centre0
        if max1 < min0 then none else isecnLoop getKey mergeValues left0 tree1
      else isecnLoop getKey mergeValues tree0 right1
termination_by tree0.size + tree1.size
decreasing_by all_goals (simp only [size]; omega)

/-- `atree_subseteq`. -/
def subseteqLoop [DecidableEq α] (getKey : α → Word) (valueSubseteq : α → α → Bool)
    (tree0 tree1 : Atree α) : Bool :=
  if tree0 = tree1 then true
  else
    match tree0, tree1 with
    | leaf value0, tree1 =>
      match findLoop getKey tree1 (getKey value0) with
      | some leaf1 => valueSubseteq value0 leaf1
      | none => false
    | anode .., leaf _ => false
    | anode centre0 left0 right0, anode centre1 left1 right1 =>
      if centre0 = centre1 then
        if ¬ subseteqLoop getKey valueSubseteq left0 left1 then false
        else subseteqLoop getKey valueSubseteq right0 right1
      else if centre0 < centre1 then
        let min1 := centreToMin centre1
        if min1 < centre0 then subseteqLoop getKey valueSubseteq (anode centre0 left0 right0) left1
        else false
      else
        let max1 := centreToMax centre1
        if centre0 < max1 then subseteqLoop getKey valueSubseteq (anode centre0 left0 right0) right1
        else false
termination_by tree0.size + tree1.size
decreasing_by all_goals (simp only [size]; omega)

/-- `atree_order`. -/
def orderLoop [DecidableEq α] (getKey : α → Word) (valueSubseteq : α → α → Bool)
    (valueOrder : α → α → Order) (tree0 tree1 : Atree α) : Order :=
  if tree0 = tree1 then .eq
  else
    match tree0, tree1 with
    | leaf value0, leaf value1 =>
      if getKey value0 = getKey value1 then valueOrder value0 value1 else .none
    | leaf value0, anode centre1 left1 right1 =>
      match findLoop getKey (anode centre1 left1 right1) (getKey value0) with
      | some leaf1 => if valueSubseteq value0 leaf1 then .lt else .none
      | none => .none
    | anode centre0 left0 right0, leaf value1 =>
      match findLoop getKey (anode centre0 left0 right0) (getKey value1) with
      | some leaf0 => if valueSubseteq value1 leaf0 then .gt else .none
      | none => .none
    | anode centre0 left0 right0, anode centre1 left1 right1 =>
      let tree0 := anode centre0 left0 right0
      let tree1 := anode centre1 left1 right1
      if centre0 = centre1 then
        let leftOrder := orderLoop getKey valueSubseteq valueOrder left0 left1
        if leftOrder = .none then .none
        else
          let rightOrder := orderLoop getKey valueSubseteq valueOrder right0 right1
          if leftOrder = rightOrder then leftOrder
          else if leftOrder = .eq then rightOrder
          else if rightOrder = .eq then leftOrder
          else .none
      else if centre0 < centre1 then
        let max0 := centreToMax centre0
        if max0 < centre1 then
          let min1 := centreToMin centre1
          if max0 < min1 then .none
          else if subseteqLoop getKey valueSubseteq tree0 left1 then .lt else .none
        else if subseteqLoop getKey valueSubseteq tree1 right0 then .gt else .none
      else
        let max1 := centreToMax centre1
        if max1 < centre0 then
          let min0 := centreToMin centre0
          if max1 < min0 then .none
          else if subseteqLoop getKey valueSubseteq tree1 left0 then .gt else .none
        else if subseteqLoop getKey valueSubseteq tree0 right1 then .lt else .none
termination_by tree0.size + tree1.size
decreasing_by all_goals (simp only [size]; omega)

/-! The functions of `cuex/atree.h`. A `cuex_t` that is a tree is `none` where
it is `NULL`, the empty tree. -/

def empty : Option (Atree α) := none

def find (getKey : α → Word) (tree : Option (Atree α)) (key : Word) : Option α :=
  match tree with
  | none => none
  | some tree => findLoop getKey tree key

def mergeAsFirst (e0 _e1 : α) : Option α := some e0

def mergeAsSecond (_e0 e1 : α) : Option α := some e1

def mergeDisjoin (_e0 _e1 : α) : Option α := none

def deepInsert (getKey : α → Word) (mergeValues : α → α → Option α) (tree : Option (Atree α)) (value : α) :
    Option (Atree α) :=
  match tree with
  | none => some (leaf value)
  | some tree => insertLoop getKey mergeValues tree value

def insert (getKey : α → Word) (tree : Option (Atree α)) (value : α) : Option (Atree α) :=
  deepInsert getKey mergeAsFirst tree value

def replace (getKey : α → Word) (tree : Option (Atree α)) (value : α) : Option (Atree α) :=
  deepInsert getKey mergeAsSecond tree value

def erase (getKey : α → Word) (tree : Option (Atree α)) (key : Word) : Option (Atree α) :=
  match tree with
  | none => none
  | some tree => (eraseLoop getKey tree key).1

/-- `cuex_atree_find_erase`: the new value of `*tree` and the returned element. -/
def findErase (getKey : α → Word) (tree : Option (Atree α)) (key : Word) : Option (Atree α) × Option α :=
  match tree with
  | none => (none, none)
  | some tree => eraseLoop getKey tree key

def deepUnion (getKey : α → Word) (mergeValues : α → α → Option α) (tree0 tree1 : Option (Atree α)) :
    Option (Atree α) :=
  match tree0, tree1 with
  | none, tree1 => tree1
  | tree0, none => tree0
  | some tree0, some tree1 => unionLoop getKey mergeValues tree0 tree1

def leftUnion (getKey : α → Word) (tree0 tree1 : Option (Atree α)) : Option (Atree α) :=
  deepUnion getKey mergeAsFirst tree0 tree1

def disjointUnion (getKey : α → Word) (tree0 tree1 : Option (Atree α)) : Option (Atree α) :=
  deepUnion getKey mergeDisjoin tree0 tree1

def deepIsecn (getKey : α → Word) (mergeValues : α → α → Option α) (tree0 tree1 : Option (Atree α)) :
    Option (Atree α) :=
  match tree0, tree1 with
  | none, _ => none
  | _, none => none
  | some tree0, some tree1 => isecnLoop getKey mergeValues tree0 tree1

def leftIsecn (getKey : α → Word) (tree0 tree1 : Option (Atree α)) : Option (Atree α) :=
  deepIsecn getKey mergeAsFirst tree0 tree1

def subseteqTrue (_e0 _e1 : α) : Bool := true

def orderEq (_e0 _e1 : α) : Order := .eq

def subseteq [DecidableEq α] (getKey : α → Word) (tree0 tree1 : Option (Atree α)) : Bool :=
  if tree0 = tree1 then true
  else
    match tree0, tree1 with
    | none, _ => true
    | _, none => false
    | some tree0, some tree1 => subseteqLoop getKey subseteqTrue tree0 tree1

def order [DecidableEq α] (getKey : α → Word) (tree0 tree1 : Option (Atree α)) : Order :=
  if tree0 = tree1 then .eq
  else
    match tree0, tree1 with
    | none, _ => .lt
    | _, none => .gt
    | some tree0, some tree1 => orderLoop getKey subseteqTrue orderEq tree0 tree1

end Atree

end Cuex

end Culibs
