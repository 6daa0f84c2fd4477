import Culibs.Cu.Int

/-! Constructive integer maps of `cucon/ucmap.c`. Nodes are hash-consed, so a
node is its contents and pointer comparison is equality. -/

namespace Culibs.Cucon

open Cu

/-- `cucon_ucmap_t`. The presence of a binding, the lowest bit of the left
pointer in the code, is a field of its own. -/
inductive Ucmap where
  | null
  | node (key : Word) (hasValue : Bool) (value : Word) (left right : Ucmap)
deriving DecidableEq

namespace Ucmap

def keyCovers (key0 key1 : Word) : Bool :=
  let mask0 := ~~~(key0 ^^^ (key0 - 1))
  (key0 &&& mask0) == (key1 &&& mask0) && (key1 &&& ~~~mask0) != 0

def keyCoverseq (key0 key1 : Word) : Bool :=
  let mask0 := ~~~(key0 ^^^ (key0 - 1))
  (key0 &&& mask0) == (key1 &&& mask0)

def keyJoin (k0 k1 : Word) : Word :=
  let k := uintptrDcover (k0 ^^^ k1)
  (k0 &&& ~~~k) ||| ((k >>> 1) + 1)

/-- The greatest key below a node, `cur_max` of the code. -/
def keyMax (k : Word) : Word := k ||| (k - 1)

def nodeNewVal (key : Word) (left right : Ucmap) (val : Word) : Ucmap := node key true val left right

def nodeNewNoval (key : Word) (left right : Ucmap) : Ucmap := node key false 0 left right

/-- A copy of a node with other subtrees. -/
def nodeNewLr (srcNode left right : Ucmap) : Ucmap :=
  match srcNode with
  | null => null
  | node key hasValue value _ _ => node key hasValue value left right

def insert (top : Ucmap) (key val : Word) : Ucmap :=
  match top with
  | null => nodeNewVal key null null val
  | node nodeKey hasValue value left right =>
    let top := node nodeKey hasValue value left right
    if nodeKey = key then
      if value = val then top else nodeNewVal nodeKey left right val
    else if keyCovers nodeKey key then
      if key < nodeKey then
        let newLeft := insert left key val
        if newLeft ≠ left then nodeNewLr top newLeft right else top
      else
        let newRight := insert right key val
        if newRight ≠ right then nodeNewLr top left newRight else top
    else if keyCovers key nodeKey then
      if nodeKey < key then nodeNewVal key top null val else nodeNewVal key null top val
    else
      let keyNode := nodeNewVal key null null val
      let j := keyJoin key nodeKey
      if key < nodeKey then nodeNewNoval j keyNode top else nodeNewNoval j top keyNode

def erase (top : Ucmap) (key : Word) : Ucmap :=
  match top with
  | null => null
  | node nodeKey hasValue value left right =>
    let top := node nodeKey hasValue value left right
    if nodeKey = key then
      if hasValue then
        if left = null then right
        else if right = null then left
        else nodeNewNoval nodeKey left right
      else top
    else if keyCovers nodeKey key then
      if key < nodeKey then
        let newLeft := erase left key
        if newLeft = null ∧ ¬ hasValue then right
        else if newLeft ≠ left then nodeNewLr top newLeft right
        else top
      else
        let newRight := erase right key
        if newRight = null ∧ ¬ hasValue then left
        else if newRight ≠ right then nodeNewLr top left newRight
        else top
    else top

/-- `cucon_ucmap_find`, with the value instead of the flag and the out-parameter. -/
def find (top : Ucmap) (key : Word) : Option Word :=
  match top with
  | null => none
  | node nodeKey hasValue value left right =>
    if key = nodeKey then
      if hasValue then some value else none
    else if keyCoverseq nodeKey key then
      if key < nodeKey then find left key else find right key
    else none

/-- `cucon_ucmap_eq`. -/
def eq : Ucmap → Ucmap → Bool
  | null, null => true
  | null, node .. => false
  | node .., null => false
  | node key0 hasValue0 value0 left0 right0, node key1 hasValue1 value1 left1 right1 =>
    if node key0 hasValue0 value0 left0 right0 = node key1 hasValue1 value1 left1 right1 then true
    else if key0 ≠ key1 then false
    else if hasValue0 ≠ hasValue1 then false
    else if value0 ≠ value1 then false
    else if ¬ eq left0 left1 then false
    else eq right0 right1

/-- Number of nodes, the measure of the recursive operations. -/
def size : Ucmap → Nat
  | null => 0
  | node _ _ _ left right => left.size + right.size + 1

def leftUnion (map0 map1 : Ucmap) : Ucmap :=
  match map0, map1 with
  | null, map1 => map1
  | map0, null => map0
  | node k0 hasValue0 value0 left0 right0, node k1 hasValue1 value1 left1 right1 =>
    let map0 := node k0 hasValue0 value0 left0 right0
    let map1 := node k1 hasValue1 value1 left1 right1
    if k0 = k1 then
      nodeNewLr (if hasValue0 then map0 else map1) (leftUnion left0 left1) (leftUnion right0 right1)
    else if keyCovers k0 k1 then
      if k1 < k0 then nodeNewLr map0 (leftUnion left0 map1) right0
      else nodeNewLr map0 left0 (leftUnion right0 map1)
    else if keyCovers k1 k0 then
      if k0 < k1 then nodeNewLr map1 (leftUnion map0 left1) right1
      else nodeNewLr map1 left1 (leftUnion map0 right1)
    else
      let k := keyJoin k0 k1
      if k0 < k1 then nodeNewNoval k map0 map1 else nodeNewNoval k map1 map0
termination_by map0.size + map1.size
decreasing_by all_goals (simp only [size]; omega)

/-- `cucon_ucmap_combined_union`. The closure may keep a state, and is called
after the unions of the subtrees. -/
def combinedUnion {σ : Type} (f : Word → Word → σ → Word × σ) (map0 map1 : Ucmap) (state : σ) :
    Ucmap × σ :=
  match map0, map1 with
  | null, map1 => (map1, state)
  | map0, null => (map0, state)
  | node k0 hasValue0 value0 left0 right0, node k1 hasValue1 value1 left1 right1 =>
    let map0 := node k0 hasValue0 value0 left0 right0
    let map1 := node k1 hasValue1 value1 left1 right1
    if k0 = k1 then
      let left := combinedUnion f left0 left1 state
      let right := combinedUnion f right0 right1 left.2
      if ¬ hasValue0 then
        if ¬ hasValue1 then (nodeNewNoval k0 left.1 right.1, right.2)
        else (nodeNewLr map1 left.1 right.1, right.2)
      else if ¬ hasValue1 then (nodeNewLr map0 left.1 right.1, right.2)
      else
        let val := f value0 value1 right.2
        (nodeNewVal k0 left.1 right.1 val.1, val.2)
    else if keyCovers k0 k1 then
      if k1 < k0 then
        let left := combinedUnion f left0 map1 state
        (nodeNewLr map0 left.1 right0, left.2)
      else
        let right := combinedUnion f right0 map1 state
        (nodeNewLr map0 left0 right.1, right.2)
    else if keyCovers k1 k0 then
      if k0 < k1 then
        let left := combinedUnion f map0 left1 state
        (nodeNewLr map1 left.1 right1, left.2)
      else
        let right := combinedUnion f map0 right1 state
        (nodeNewLr map1 left1 right.1, right.2)
    else
      let k := keyJoin k0 k1
      if k0 < k1 then (nodeNewNoval k map0 map1, state) else (nodeNewNoval k map1 map0, state)
termination_by map0.size + map1.size
decreasing_by all_goals (simp only [size]; omega)

end Ucmap

end Culibs.Cucon
