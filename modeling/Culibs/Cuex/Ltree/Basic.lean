import Culibs.Cu.Int

/-! Left-packed trees of `cuex/ltree.c`. Nodes are hash-consed operations, so a
node is its depth and its operands. -/

namespace Culibs.Cuex

open Cu List

/-- A tree with at least one element: the element itself, or an operation
`CUEXP_OXR_LTREE(depth, arity)`, whose arity is the number of operands. -/
inductive Ltree (α : Type) where
  | leaf (value : α)
  | node (depth : Nat) (subs : List (Ltree α))

namespace Ltree

variable {α : Type}

def log2Fanout : Nat := 2

def fanout : Nat := 1 <<< log2Fanout

def fanoutMask : Nat := fanout - 1

/-- `1 << n` in the type `int`, undefined where the result does not fit. -/
def intShift (n : Nat) : Option Nat := if n < 31 then some (2 ^ n) else none

/-- The loop of `cuex_ltree_size`, which follows the last operands. -/
def sizeLoop (accu : Nat) (x : Ltree α) : Option Nat :=
  match x with
  | leaf _ => some (accu + 1)
  | node k subs =>
    if nonempty : subs = [] then none
    else do
      let r := subs.length - 1
      let subnodeSize ← intShift (log2Fanout * (k - 1))
      sizeLoop (accu + r * subnodeSize) (subs.getLast nonempty)
termination_by sizeOf x
decreasing_by
  have := sizeOf_lt_of_mem (getLast_mem nonempty)
  simp only [node.sizeOf_spec]
  omega

def size (x : Option (Ltree α)) : Option Nat :=
  match x with
  | none => some 0
  | some x => sizeLoop 0 x

/-- `struct cuex_ltree_itr`. The stack holds a subtree for each level of the tree. -/
structure Itr (α : Type) where
  iCur : Nat
  iEnd : Nat
  stack : Nat → Option (Ltree α)

def Itr.isEnd (itr : Itr α) : Bool := itr.iCur == itr.iEnd

def opnAt (x : Option (Ltree α)) (i : Nat) : Option (Ltree α) :=
  match x with
  | some (node _ subs) => subs[i]?
  | _ => none

/-- The loop of `cuex_ltree_itr_init_full` with the assignment to `stack[0]`. -/
def initStack (k : Nat) (x : Option (Ltree α)) (stack : Nat → Option (Ltree α)) : Nat → Option (Ltree α) :=
  match k with
  | 0 => Function.update stack 0 x
  | k + 1 => initStack k (opnAt x 0) (Function.update stack (k + 1) x)

/-- `cuex_ltree_itr_init_full`, undefined where the size of the tree is. -/
def Itr.initFull (x : Option (Ltree α)) : Option (Itr α) :=
  match x with
  | none => some ⟨0, 0, initStack 0 x fun _ => none⟩
  | some (node k _) => do
    let iEnd ← size x
    some ⟨0, iEnd, initStack k x fun _ => none⟩
  | some (leaf _) => some ⟨0, 1, initStack 0 x fun _ => none⟩

/-- What the entry `x` at level `k` of the stack gives at the level below. -/
def subAt (k index : Nat) (x : Option (Ltree α)) : Option (Ltree α) :=
  match x with
  | some (node depth subs) => if depth < k then some (node depth subs) else subs[index]?
  | x => x

/-- The loop of `cuex_ltree_itr_get`: the stack below level `k` for the element `j`. -/
def descend (j k : Nat) (stack : Nat → Option (Ltree α)) : Nat → Option (Ltree α) :=
  match k with
  | 0 => stack
  | k + 1 =>
    let index := (j >>> (log2Fanout * k)) &&& fanoutMask
    descend j k (Function.update stack k (subAt (k + 1) index (stack (k + 1))))

/-- `cuex_ltree_itr_get`, which returns `none` for `NULL`. -/
def Itr.get (itr : Itr α) : Option (Ltree α) × Itr α :=
  let i := itr.iCur
  let j := i + 1
  if itr.iEnd ≤ j then
    if itr.iEnd < j then (none, itr) else (itr.stack 0, { itr with iCur := j })
  else
    let k := (bitCount (BitVec.ofNat 64 (i ^^^ j)) - 1) / log2Fanout
    (itr.stack 0, { itr with iCur := j, stack := descend j (k + 1) itr.stack })

/-- The loop that draws up to `n` subtrees from an iterator. -/
def collect (fresh : Itr α → Option (Ltree α × Itr α)) (n : Nat) (itr : Itr α) : Option (List (Ltree α) × Itr α) :=
  match n with
  | 0 => some ([], itr)
  | n + 1 =>
    if itr.isEnd then some ([], itr)
    else do
      let (x, itr) ← fresh itr
      let (v, itr) ← collect fresh n itr
      some (x :: v, itr)

/-- `ltree_fresh`, undefined where the iterator returns `NULL`. -/
def fresh (depth : Nat) (itr : Itr α) : Option (Ltree α × Itr α) :=
  match depth with
  | 0 =>
    match itr.get with
    | (none, _) => none
    | (some x, itr) => some (x, itr)
  | depth + 1 => do
    let (v, itr) ← collect (fresh depth) fanout itr
    match v with
    | [x] => some (x, itr)
    | v => some (node (depth + 1) v, itr)

/-- The last loop of `ltree_fill`, at a depth with some operands in place. The
loop may go on for a number of levels. -/
def fillLoop (levels depth : Nat) (v : List (Ltree α)) (itr : Itr α) : Option (Ltree α × Itr α) := do
  let (more, itr) ← collect (fresh (depth - 1)) (fanout - v.length) itr
  let x := node depth (v ++ more)
  match levels with
  | 0 => some (x, itr)
  | levels + 1 => if itr.isEnd then some (x, itr) else fillLoop levels (depth + 1) [x] itr

/-- `ltree_fill`. -/
def fill (xdepth : Nat) (x : Ltree α) (itr : Itr α) : Option (Ltree α × Itr α) :=
  match x with
  | leaf a => if xdepth = 0 then some (leaf a, itr) else fillLoop (xdepth - 1) 1 [leaf a] itr
  | node depth subs =>
    if nonempty : subs = [] then none
    else do
      let (sub, itr) ←
        if 1 < depth then fill (depth - 1) (subs.getLast nonempty) itr else some (subs.getLast nonempty, itr)
      fillLoop (xdepth - depth) depth (subs.dropLast ++ [sub]) itr
termination_by sizeOf x
decreasing_by
  have := sizeOf_lt_of_mem (getLast_mem nonempty)
  simp only [node.sizeOf_spec]
  omega

/-- The loop of `cuex_ltree_concat`. Every round takes an element, so that the
number of elements left bounds the rounds. -/
def concatLoop (rounds depth : Nat) (x : Ltree α) (itr : Itr α) : Option (Ltree α) :=
  if itr.isEnd then some x
  else
    match rounds with
    | 0 => none
    | rounds + 1 => do
      let (v, itr) ← collect (fresh depth) (fanout - 1) itr
      concatLoop rounds (depth + 1) (node (depth + 1) (x :: v)) itr

/-- `cuex_ltree_concat`. The outer option is undefined behaviour, the inner one the empty tree. -/
def concat (x y : Option (Ltree α)) : Option (Option (Ltree α)) :=
  match x, y with
  | none, y => some y
  | x, none => some x
  | some x, some y => do
    let itr ← Itr.initFull (some y)
    let result ←
      match x with
      | node depth subs => do
        let (x, itr) ← fill depth (node depth subs) itr
        concatLoop (itr.iEnd - itr.iCur) depth x itr
      | leaf a => concatLoop (itr.iEnd - itr.iCur) 0 (leaf a) itr
    some (some result)

/-! The same with a source, which is the list of the elements it will return. -/

/-- The loop that draws up to `n` subtrees from a source. -/
def collectSource (fresh : List α → Option (Ltree α) × List α) (n : Nat) (source : List α) :
    List (Ltree α) × List α :=
  match n with
  | 0 => ([], source)
  | n + 1 =>
    match fresh source with
    | (none, source) => ([], source)
    | (some x, source) =>
      let (v, source) := collectSource fresh n source
      (x :: v, source)

/-- `ltree_fresh_source`. -/
def freshSource (depth : Nat) (source : List α) : Option (Ltree α) × List α :=
  match depth with
  | 0 =>
    match source with
    | [] => (none, [])
    | a :: source => (some (leaf a), source)
  | depth + 1 =>
    let (v, source) := collectSource (freshSource depth) fanout source
    match v with
    | [] => (none, source)
    | [x] => (some x, source)
    | v => (some (node (depth + 1) v), source)

/-- The last loop of `ltree_fill_source`, which returns when the source is empty. -/
def fillLoopSource (levels depth : Nat) (v : List (Ltree α)) (source : List α) : Ltree α × List α :=
  let (more, source) := collectSource (freshSource (depth - 1)) (fanout - v.length) source
  let x := node depth (v ++ more)
  if (v ++ more).length < fanout then (x, source)
  else
    match levels with
    | 0 => (x, source)
    | levels + 1 => fillLoopSource levels (depth + 1) [x] source

/-- `ltree_fill_source`. -/
def fillSource (xdepth : Nat) (x : Ltree α) (source : List α) : Ltree α × List α :=
  match x with
  | leaf a => if xdepth = 0 then (leaf a, source) else fillLoopSource (xdepth - 1) 1 [leaf a] source
  | node depth subs =>
    if nonempty : subs = [] then (node depth subs, source)
    else
      let (sub, source) :=
        if 1 < depth then fillSource (depth - 1) (subs.getLast nonempty) source
        else (subs.getLast nonempty, source)
      fillLoopSource (xdepth - depth) depth (subs.dropLast ++ [sub]) source
termination_by sizeOf x
decreasing_by
  have := sizeOf_lt_of_mem (getLast_mem nonempty)
  simp only [node.sizeOf_spec]
  omega

/-- The endless loop of `cuex_ltree_append_from_source`. Every round but the
last takes elements, so that the number of elements left bounds the rounds. -/
def appendLoop (rounds depth : Nat) (x : Ltree α) (source : List α) : Ltree α :=
  match rounds with
  | 0 => x
  | rounds + 1 =>
    let (v, source) := collectSource (freshSource depth) (fanout - 1) source
    if v = [] then x
    else if v.length < fanout - 1 then node (depth + 1) (x :: v)
    else appendLoop rounds (depth + 1) (node (depth + 1) (x :: v)) source

/-- `cuex_ltree_append_from_source`, and `cuex_ltree_append_from_array` with the source of an array. -/
def appendFromSource (x : Option (Ltree α)) (source : List α) : Option (Ltree α) :=
  match x with
  | none =>
    match source with
    | [] => none
    | a :: source => some (appendLoop (source.length + 1) 0 (leaf a) source)
  | some (node depth subs) =>
    let (x, source) := fillSource depth (node depth subs) source
    some (appendLoop (source.length + 1) depth x source)
  | some (leaf a) => some (appendLoop (source.length + 1) 0 (leaf a) source)

/-- `cuex_ltree_from_source` and `cuex_ltree_from_array`. -/
def fromArray (eltArray : List α) : Option (Ltree α) := appendFromSource none eltArray

/-- The loop of `cuex_ltree_from_valist`, which appends up to 32 arguments at a time. -/
def fromValistLoop (ltree : Option (Ltree α)) (vl : List α) : Option (Ltree α) :=
  let buf := vl.take 32
  let ltree := appendFromSource ltree buf
  if buf.length < 32 then ltree else fromValistLoop ltree (vl.drop 32)
termination_by vl.length
decreasing_by
  rename_i full
  simp only [buf, length_take] at full
  rw [length_drop]
  omega

def fromValist (vl : List α) : Option (Ltree α) := fromValistLoop none vl

end Ltree

end Culibs.Cuex
