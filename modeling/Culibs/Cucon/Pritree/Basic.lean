import Culibs.Cu.Int

/-! Priority trees of `cucon/pritree.c`. The nodes are linked in both directions, and
an operation is `none` where the code dereferences `NULL`. Assertions are left out. -/

namespace Culibs.Cucon

open Function

namespace Pritree

/-- The links `left` and `right` of a node. -/
inductive Branch where
  | left | right
deriving DecidableEq

def Branch.other : Branch → Branch
  | left => right
  | right => left

end Pritree

open Pritree

/-- `struct cucon_prinode` of all nodes. -/
structure Prinodes (α : Type) where
  priority : Nat → α
  prior : Nat → Option Nat
  child : Branch → Nat → Option Nat

/-- `struct cucon_pritree`. -/
structure Pritree (α : Type) where
  nodes : Prinodes α
  front : Option Nat
  size : Word

namespace Prinodes

variable {α : Type} (nodes : Prinodes α)

def setPriority (t : Nat) (priority : α) : Prinodes α :=
  { nodes with priority := update nodes.priority t priority }

def setPrior (t : Nat) (prior : Option Nat) : Prinodes α :=
  { nodes with prior := update nodes.prior t prior }

def setChild (side : Branch) (t : Nat) (child : Option Nat) : Prinodes α :=
  { nodes with child := update nodes.child side (update (nodes.child side) t child) }

/-- The assignment `tx->prior = t` where `tx` is not `NULL`. -/
def adopt (tx : Option Nat) (t : Nat) : Prinodes α := tx.elim nodes fun tx => nodes.setPrior tx (some t)

/-- The child `tc` on a side takes the place of `t`, and `t` that of `tc`. -/
def swapChild (side : Branch) (t : Nat) : Option (Prinodes α) :=
  let tp := nodes.prior t
  (nodes.child side t).map fun tc =>
    let near := nodes.child side tc
    let far := nodes.child side.other tc
    let nodes := tp.elim nodes fun tp =>
      if nodes.child side tp = some t then nodes.setChild side tp (some tc)
      else nodes.setChild side.other tp (some tc)
    let nodes := nodes.setPrior tc tp
    let nodes := nodes.setChild side tc (some t)
    let nodes := nodes.setChild side.other tc (nodes.child side.other t)
    let nodes := nodes.adopt (nodes.child side.other tc) tc
    let nodes := nodes.setPrior t (some tc)
    let nodes := (nodes.setChild side t near).adopt near t
    (nodes.setChild side.other t far).adopt far t

/-- `_swap_left`. -/
def swapLeft (t : Nat) : Option (Prinodes α) := nodes.swapChild .left t

/-- `_swap_right`. -/
def swapRight (t : Nat) : Option (Prinodes α) := nodes.swapChild .right t

end Prinodes

namespace Pritree

variable {α : Type}

/-- `cucon_pritree_init`. -/
def init (nodes : Prinodes α) : Pritree α := { nodes, front := none, size := 0 }

variable [LinearOrder α]

/-- The loop of `_increase_priority_to`. The number of rounds is bounded by the number of nodes. -/
def increaseLoop : Nat → Pritree α → Nat → Nat → α → Option (Pritree α)
  | 0, _, _, _, _ => none
  | rounds + 1, tree, t, tp, priority =>
    if tree.nodes.priority tp < priority then
      (if tree.nodes.child .left tp = some t then tree.nodes.swapLeft tp else tree.nodes.swapRight tp).bind fun nodes =>
        match nodes.prior t with
        | none => some { tree with nodes, front := some t }
        | some tp => increaseLoop rounds { tree with nodes } t tp priority
    else some tree

/-- `_increase_priority_to`. -/
def increasePriorityTo (tree : Pritree α) (t : Nat) (priority : α) : Option (Pritree α) :=
  let tree := { tree with nodes := tree.nodes.setPriority t priority }
  match tree.nodes.prior t with
  | none => some tree
  | some tp => increaseLoop (tree.size.toNat + 1) tree t tp priority

/-- The loop of `_decrease_priority_to`, where the children are read at its head. -/
def decreaseLoop : Nat → Prinodes α → Nat → α → Option (Prinodes α)
  | 0, _, _, _ => none
  | rounds + 1, nodes, t, priority =>
    match nodes.child .left t, nodes.child .right t with
    | none, _ => some nodes
    | some tl, none => if nodes.priority tl ≤ priority then some nodes else nodes.swapLeft t
    | some tl, some tr =>
      if nodes.priority tl ≥ nodes.priority tr then
        if nodes.priority tl ≤ priority then some nodes
        else (nodes.swapLeft t).bind fun nodes => decreaseLoop rounds nodes t priority
      else if nodes.priority tr ≤ priority then some nodes
      else (nodes.swapRight t).bind fun nodes => decreaseLoop rounds nodes t priority

/-- What `_decrease_priority_to` does at the root, where the result is `none` if the function returns, and else the
new front. -/
def decreaseFront (nodes : Prinodes α) (t : Nat) (front : Option Nat) (priority : α) : Option (Option Nat) :=
  match nodes.prior t, nodes.child .left t, nodes.child .right t with
  | none, some tl, none => if nodes.priority tl ≤ priority then none else some (some tl)
  | none, some tl, some tr =>
    if nodes.priority tl < nodes.priority tr then
      if nodes.priority tr ≤ priority then none else some (some tr)
    else if nodes.priority tl ≤ priority then none
    else some (some tl)
  | _, _, _ => some front

/-- `_decrease_priority_to`. -/
def decreasePriorityTo (tree : Pritree α) (t : Nat) (priority : α) : Option (Pritree α) :=
  let nodes := tree.nodes.setPriority t priority
  match decreaseFront nodes t tree.front priority with
  | none => some { tree with nodes }
  | some front => (decreaseLoop (tree.size.toNat + 1) nodes t priority).map fun nodes => { tree with nodes, front }

/-- `cucon_pritree_change_priority`. -/
def changePriority (tree : Pritree α) (t : Nat) (priority : α) : Option (Pritree α) :=
  if priority > tree.nodes.priority t then increasePriorityTo tree t priority
  else if priority < tree.nodes.priority t then decreasePriorityTo tree t priority
  else some tree

/-- The conversion of the `int` that `1 << l` is to `size_t`. -/
def intBit (l : Nat) : Word := (1#32 <<< l).signExtend 64

/-- The side on which a node with the number `n` is, according to the bit `m`. -/
def pathSide (n m : Word) : Branch := if n &&& m = 0 then .left else .right

/-- A step of `cucon_pritree_pop` from the removed node to the child where the last node is. -/
def popStep (tree : Pritree α) (prinode : Nat) (n m : Word) : Option (Pritree α) :=
  let side := pathSide n m
  (tree.nodes.child side prinode).bind fun tc =>
    (tree.nodes.swapChild side prinode).bind fun nodes =>
      decreasePriorityTo { tree with nodes } tc (nodes.priority tc)

/-- The loop of `cucon_pritree_pop`. -/
def popLoop : Nat → Pritree α → Nat → Word → Word → Option (Pritree α)
  | 0, _, _, _, _ => none
  | rounds + 1, tree, prinode, n, m =>
    let m := m >>> 1
    if m > 0 then (popStep tree prinode n m).bind fun tree => popLoop rounds tree prinode n m
    else some tree

/-- The end of `cucon_pritree_pop`. -/
def unlink (nodes : Prinodes α) (prinode : Nat) : Option (Prinodes α) :=
  (nodes.prior prinode).map fun tp =>
    if nodes.child .left tp = some prinode then nodes.setChild .left tp none else nodes.setChild .right tp none

variable [BoundedOrder α]

/-- `cucon_pritree_pop`, where `DBL_MAX` is the top of the order. -/
def pop (tree : Pritree α) : Option (Pritree α) :=
  let n := tree.size
  let tree := { tree with size := n - 1 }
  if n = 1 then some { tree with front := none }
  else do
    let prinode ← tree.front
    let tree := { tree with nodes := tree.nodes.setPriority prinode ⊥ }
    let l := Cu.ulongFloorLog2 n
    let m := intBit (l - 1)
    let tree ← popStep tree prinode n m
    let tree := { tree with front := tree.nodes.prior prinode }
    let tree ← popLoop 64 tree prinode n m
    let nodes ← unlink tree.nodes prinode
    some { tree with nodes }

/-- `cucon_pritree_erase`. -/
def erase (tree : Pritree α) (prinode : Nat) : Option (Pritree α) :=
  (increasePriorityTo tree prinode ⊤).bind pop

omit [LinearOrder α] [BoundedOrder α] in
/-- The loop of `cucon_pritree_insert_init`, with the node and the bit where it ends. -/
def insertLoop (nodes : Prinodes α) (n : Word) : Nat → Option Nat → Word → Option (Option Nat × Word)
  | 0, _, _ => none
  | rounds + 1, t, m =>
    let m := m >>> 1
    if m > 1 then t.bind fun t => insertLoop nodes n rounds (nodes.child (pathSide n m) t) m
    else some (t, m)

omit [BoundedOrder α] in
/-- `cucon_pritree_insert_init`. -/
def insertInit (tree : Pritree α) (newprinode : Nat) (priority : α) : Option (Pritree α) :=
  let n := tree.size + 1
  let tree := { tree with size := n }
  let nodes := tree.nodes
  if n = 1 then
    let nodes := (nodes.setPriority newprinode priority).setPrior newprinode none
    some { tree with
      nodes := (nodes.setChild .left newprinode none).setChild .right newprinode none
      front := some newprinode }
  else do
    let (t, m) ← insertLoop nodes n 64 tree.front (intBit (Cu.ulongFloorLog2 n))
    let t ← t
    let nodes := nodes.setChild (pathSide n m) t (some newprinode)
    let nodes := nodes.setPrior newprinode (some t)
    let nodes := (nodes.setChild .left newprinode none).setChild .right newprinode none
    increasePriorityTo { tree with nodes } newprinode priority

end Pritree

end Culibs.Cucon
