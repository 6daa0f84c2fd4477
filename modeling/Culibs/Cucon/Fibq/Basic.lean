/-! The queue-optimised Fibonacci heap of cucon/fibq.c, built with or without the
assertions of `cu/debug.h`. -/

namespace Culibs.Cucon.Fibq

/-- A chain of `struct cucon_fibqnode` linked by `siblings`. A node is in one chain only. -/
inductive Chain (α : Type) where
  | null
  | node (item : α) (children : Chain α) (mark : Bool) (degree : Nat) (siblings : Chain α)
deriving DecidableEq, Repr

/-- A node without the link to its siblings, as it stands in `nodes_by_degree`. -/
structure Node (α : Type) where
  item : α
  children : Chain α
  mark : Bool
  degree : Nat
deriving DecidableEq, Repr

/-- `struct cucon_fibq`. The tail pointer is the link at the end of `roots`. -/
structure Queue (α : Type) where
  card : Nat
  roots : Chain α
deriving DecidableEq, Repr

/-- What stops a call: an index of `nodes_by_degree` that is not below `maxp_degree`, the assertion
on the mark of a linked root, or an assertion on links and a read through `NULL`. -/
inductive Fault where
  | index
  | mark
  | links
deriving DecidableEq, Repr

/-- `cu_debug_assert`, which tests nothing under `CU_NDEBUG`. -/
def debugAssert (debug : Bool) (fault : Fault) (test : Bool) : Except Fault Unit :=
  if debug && !test then .error fault else .ok ()

variable {α : Type}

namespace Chain

def isNull : Chain α → Bool
  | null => true
  | node .. => false

/-- Writes the link at the end of a chain. -/
def append : Chain α → Chain α → Chain α
  | null, rest => rest
  | node item children mark degree siblings, rest =>
    node item children mark degree (siblings.append rest)

/-- The loop that clears the marks of a chain. -/
def clearMarks : Chain α → Chain α
  | null => null
  | node item children _ degree siblings => node item children false degree siblings.clearMarks

/-- The number of nodes linked by `siblings`. -/
def length : Chain α → Nat
  | null => 0
  | node _ _ _ _ siblings => siblings.length + 1

/-- The number of all nodes, children included. -/
def size : Chain α → Nat
  | null => 0
  | node _ children _ _ siblings => children.size + siblings.size + 1

/-- The number of all nodes that a filter keeps. -/
def kept (keep : α → Bool) : Chain α → Nat
  | null => 0
  | node item children _ _ siblings =>
    children.kept keep + siblings.kept keep + (keep item).toNat

end Chain

/-- The node with its link to the siblings. -/
def Node.link (root : Node α) (siblings : Chain α) : Chain α :=
  .node root.item root.children root.mark root.degree siblings

/-- `*Q->root_tail = nodes`, with the tail at the end of the nodes from then on. -/
def Queue.append (queue : Queue α) (nodes : Chain α) : Queue α :=
  { queue with roots := queue.roots.append nodes }

/-- `cu_size_ceil_log2`, one more than the floor for one less, which the table has as -1 at zero. -/
def sizeCeilLog2 (card : Nat) : Nat := if card ≤ 1 then 0 else (card - 1).log2 + 1

/-- `_max_degree` -/
def maxDegree (card : Nat) : Nat := (3 * sizeCeilLog2 card + 1) / 2

/-- `cucon_fibq_init` -/
def init : Queue α := { card := 0, roots := .null }

/-- `cucon_fibq_insert` -/
def insert (prioreq : α → α → Bool) (queue : Queue α) (item : α) : Queue α :=
  match queue.roots with
  | .null => { card := queue.card + 1, roots := .node item .null false 0 .null }
  | .node first children mark degree siblings =>
    if prioreq item first then
      { card := queue.card + 1
        roots := .node item .null false 0 (.node first children mark degree siblings) }
    else
      { queue.append (.node item .null false 0 .null) with card := queue.card + 1 }

/-- `nodes_by_degree` with its `maxp_degree` places. -/
abbrev NodesByDegree (α : Type) := List (Option (Node α))

/-- One of two roots becomes the first child of the other, which gets the new degree. -/
def join (prioreq : α → α → Bool) (y root : Node α) (degree : Nat) : Node α :=
  if !prioreq y.item root.item then
    { root with children := y.link root.children, degree := degree }
  else
    { y with children := root.link y.children, degree := degree }

theorem place_decreasing {nodes : NodesByDegree α} {degree : Nat} {slot : Option (Node α)}
    (inside : nodes[degree]? = some slot) :
    (nodes.set degree none).length - (degree + 1) < nodes.length - degree := by
  have bound := (List.getElem?_eq_some_iff.mp inside).1
  rw [List.length_set]
  omega

section Debug

variable (debug : Bool)

/-- The links at one root. The degree is tested before the first link and after any link, in the
build without assertions by the index itself. A root that stood first still has its mark. -/
def place (prioreq : α → α → Bool) (nodes : NodesByDegree α) (degree : Nat) (root : Node α) :
    Except Fault (NodesByDegree α) :=
  match _inside : nodes[degree]? with
  | none => .error .index
  | some none => .ok (nodes.set degree (some root))
  | some (some y) =>
    let root := join prioreq y root (degree + 1)
    if nodes.length ≤ degree + 1 then .error .index
    else if debug && root.mark then .error .mark
    else place prioreq (nodes.set degree none) (degree + 1) root
termination_by nodes.length - degree
decreasing_by exact place_decreasing _inside

/-- The loop over the roots after the first. -/
def placeEach (prioreq : α → α → Bool) : Chain α → NodesByDegree α → Except Fault (NodesByDegree α)
  | .null, nodes => .ok nodes
  | .node item children _ degree siblings, nodes =>
    place debug prioreq nodes degree ⟨item, children, false, degree⟩ >>= placeEach prioreq siblings

/-- The first node from a place on, with the places after it. -/
def nextRoot : NodesByDegree α → Option (Node α × NodesByDegree α)
  | [] => none
  | none :: nodes => nextRoot nodes
  | some root :: nodes => some (root, nodes)

/-- The loop that prepends the rest of the roots. -/
def rechain (prioreq : α → α → Bool) : NodesByDegree α → Node α → Chain α → Chain α
  | [], minRoot, roots => minRoot.link roots
  | none :: nodes, minRoot, roots => rechain prioreq nodes minRoot roots
  | some root :: nodes, minRoot, roots =>
    if !prioreq minRoot.item root.item then rechain prioreq nodes root (minRoot.link roots)
    else rechain prioreq nodes minRoot (root.link roots)

/-- The chain of roots made from the array. The first search has no bound of its own. -/
def recreate (prioreq : α → α → Bool) (nodes : NodesByDegree α) : Except Fault (Chain α) :=
  match nextRoot nodes with
  | none => .error .index
  | some (minRoot, nodes) =>
    match nextRoot nodes with
    | none => .ok (minRoot.link .null)
    | some (root, nodes) =>
      if prioreq minRoot.item root.item then .ok (rechain prioreq nodes minRoot (root.link .null))
      else .ok (rechain prioreq nodes root (minRoot.link .null))

/-- `_update_min`. The mark of the first root stays as it is, and its place is not asserted. -/
def updateMin (prioreq : α → α → Bool) (queue : Queue α) : Except Fault (Queue α) :=
  match queue.roots with
  | .null => .error .links
  | .node item children mark degree siblings =>
    if degree < maxDegree queue.card then do
      let nodes := (List.replicate (maxDegree queue.card) none).set degree
        (some ⟨item, children, mark, degree⟩)
      let nodes ← placeEach debug prioreq siblings nodes
      let roots ← recreate prioreq nodes
      .ok { queue with roots := roots }
    else .error .index

/-- `cucon_fibq_pop_front`, with the popped node, if any. -/
def popFront (prioreq : α → α → Bool) (queue : Queue α) : Except Fault (Option α × Queue α) :=
  match queue.card, queue.roots with
  | 0, roots => do
    debugAssert debug .links roots.isNull
    .ok (none, queue)
  | 1, .null => do
    debugAssert debug .links false
    .ok (none, init)
  | 1, .node item children _ _ siblings => do
    debugAssert debug .links (children.isNull && siblings.isNull)
    .ok (some item, init)
  | _ + 2, .null => .error .links
  | 2, .node _ .null _ _ .null => .error .links
  | 2, .node item (.node first children _ degree siblings) _ _ .null =>
    .ok (some item, { card := 1, roots := .node first children false degree siblings })
  | 2, .node item _ _ _ siblings => .ok (some item, { card := 1, roots := siblings })
  | card + 3, .node item children _ _ siblings => do
    let queue ← updateMin debug prioreq { card := card + 3, roots := siblings.append children }
    .ok (some item, { queue with card := queue.card - 1 })

end Debug

/-- What `_filter` leaves of a chain, how many nodes it dropped from the chain, and the queue. -/
structure Filtered (α : Type) where
  chain : Chain α
  rmCount : Nat
  queue : Queue α
deriving DecidableEq, Repr

/-- `_filter` -/
def filter (keep : α → Bool) : Chain α → Queue α → Filtered α
  | .null, queue => ⟨.null, 0, queue⟩
  | .node item children mark degree siblings, queue =>
    let sub := filter keep children queue
    if keep item then
      if 0 < sub.rmCount then
        if mark || 1 < sub.rmCount then
          let rest := filter keep siblings
            (sub.queue.append (.node item sub.chain false (degree - sub.rmCount) .null))
          { rest with rmCount := rest.rmCount + 1 }
        else
          let rest := filter keep siblings sub.queue
          { rest with chain := .node item sub.chain true (degree - sub.rmCount) rest.chain }
      else
        let rest := filter keep siblings sub.queue
        { rest with chain := .node item sub.chain mark degree rest.chain }
    else
      let raised := sub.queue.append sub.chain.clearMarks
      let rest := filter keep siblings { raised with card := raised.card - 1 }
      { rest with rmCount := rest.rmCount + 1 }

/-- The loop over the roots of `cucon_fibq_filter_d`. -/
def filterRoots (keep : α → Bool) : Chain α → Queue α → Queue α
  | .null, queue => queue
  | .node item children mark degree siblings, queue =>
    let sub := filter keep children queue
    if keep item then
      filterRoots keep siblings
        (sub.queue.append (.node item sub.chain mark (degree - sub.rmCount) .null))
    else
      let raised := sub.queue.append sub.chain.clearMarks
      filterRoots keep siblings { raised with card := raised.card - 1 }

section Runs

variable (debug : Bool) (prioreq : α → α → Bool)

/-- `cucon_fibq_filter_d` -/
def filterD (keep : α → Bool) (queue : Queue α) : Except Fault (Queue α) :=
  match queue.roots with
  | .null => .ok queue
  | roots => updateMin debug prioreq (filterRoots keep roots { queue with roots := .null })

/-- The calls on a queue. -/
inductive Op (α : Type) where
  | insert (item : α)
  | popFront
  | filterD (keep : α → Bool)

/-- One call. -/
def step (queue : Queue α) : Op α → Except Fault (Queue α)
  | .insert item => .ok (insert prioreq queue item)
  | .popFront => (popFront debug prioreq queue).map Prod.snd
  | .filterD keep => filterD debug prioreq keep queue

/-- A sequence of calls. -/
def run : List (Op α) → Queue α → Except Fault (Queue α)
  | [], queue => .ok queue
  | op :: ops, queue => step debug prioreq queue op >>= run ops

/-- The filter takes one child of 2, which is first in the next pairing and still has its mark: the
build with assertions stops there. -/
example : (match run true (fun a b : Nat => decide (a ≤ b)) ([0, 1, 8, 6, 7, 2, 5, 3, 4].map .insert ++
    [.popFront, .filterD fun n => n != 5, .popFront]) init with
    | .error fault => decide (fault = .mark)
    | .ok _ => false) = true := by
  decide +kernel

end Runs

end Culibs.Cucon.Fibq
