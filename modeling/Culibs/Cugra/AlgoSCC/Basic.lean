import Culibs.Cugra.Graph.Basic
import Culibs.Foundation.ArcSearch

/-! The walk over strongly connected components of `cugra/algo_SCC.c`. A step that is not defined, such as an overflow of
the vertex numbers, has no result. -/

namespace Culibs.Cugra

/-- A graph by the vertices that are adjacent to each by its arcs, in the order of the links. -/
structure Graph (V : Type) where
  vertices : List V
  adjacent : Direction → V → List V
  nodup : vertices.Nodup
  closed : ∀ dir, ∀ v ∈ vertices, ∀ w ∈ adjacent dir v, w ∈ vertices
  converse : ∀ v w, w ∈ adjacent .directionOut v ↔ v ∈ adjacent .directionIn w

namespace AlgoSCC

/-- The calls of the functions of `cugra_walk_SCC_vt`. The value that `enter_component` returns is the number of its
earlier calls. -/
inductive Call (V : Type) where
  | enterComponent (cpt : Nat)
  | passVertex (cpt : Nat) (v : V)
  | leaveComponent (cpt : Nat)
  | connectComponents (cpt subCpt : Nat)
deriving DecidableEq

structure Vinfo where
  index : Nat
  cpt : Option Nat
deriving DecidableEq

/-- The state of a walk, with the calls made and the number of components entered. -/
structure State (V : Type) where
  vinfoMap : V → Option Vinfo
  cptStack : List Nat
  indexPool : Nat
  vertexStack : List V
  calls : List (Call V)
  components : Nat

def intMax : Nat := 2 ^ 31 - 1

variable {V : Type} [DecidableEq V]

namespace State

omit [DecidableEq V] in
def start : State V := ⟨fun _ => none, [], 0, [], [], 0⟩

omit [DecidableEq V] in
def call (st : State V) (c : Call V) : State V := { st with calls := st.calls ++ [c] }

def setInfo (st : State V) (v : V) (f : Vinfo → Vinfo) : State V :=
  { st with vinfoMap := Function.update st.vinfoMap v ((st.vinfoMap v).map f) }

/-- The metadata of a new vertex. -/
def create (st : State V) (tail : V) : State V :=
  { st with
    vinfoMap := Function.update st.vinfoMap tail (some ⟨st.indexPool, none⟩)
    indexPool := st.indexPool + 1
    vertexStack := tail :: st.vertexStack }

/-- The loop that pops vertices up to the root of the component. -/
def passVertices (cpt : Nat) (tail : V) : List V → State V → Option (State V)
  | [], _ => none
  | v :: next, st =>
    let st := ({ st with vertexStack := next }.call (.passVertex cpt v)).setInfo v fun info => { info with cpt := some cpt }
    if v = tail then some st else passVertices cpt tail next st

omit [DecidableEq V] in
/-- The loop that pops components down to the mark. -/
def connectComponents (cpt mark : Nat) : List Nat → State V → Option (State V)
  | [], st => if mark = 0 then some { st with cptStack := [] } else none
  | subCpt :: rest, st =>
    if rest.length + 1 = mark then some { st with cptStack := subCpt :: rest }
    else connectComponents cpt mark rest (st.call (.connectComponents cpt subCpt))

/-- What is done for the root of a component. -/
def processComponent (st : State V) (tail : V) (mark : Nat) : Option (State V) := do
  let cpt := st.components
  let st := { st.call (.enterComponent cpt) with components := cpt + 1 }
  let st ← st.passVertices cpt tail st.vertexStack
  let st := st.call (.leaveComponent cpt)
  let st ← st.connectComponents cpt mark st.cptStack
  some { st with cptStack := cpt :: st.cptStack }

end State

omit [DecidableEq V] in
/-- The loop over the arcs. -/
def forArcs (detect : State V → V → Option (State V × Nat)) : List V → State V → Nat → Option (State V × Nat)
  | [], st, tailMinReach => some (st, tailMinReach)
  | head :: heads, st, tailMinReach => do
    let (st, headMinReach) ← detect st head
    forArcs detect heads st (min tailMinReach headMinReach)

def detectSCC (adjacent : V → List V) : Nat → State V → V → Option (State V × Nat)
  | 0, _, _ => none
  | fuel + 1, st, tail =>
    match st.vinfoMap tail with
    | none => do
      let cptStackMark := st.cptStack.length
      -- The numbers are of type `int`.
      let index ← (if st.indexPool < intMax then some st.indexPool else none)
      let (st, tailMinReach) ← forArcs (detectSCC adjacent fuel) (adjacent tail) (st.create tail) index
      let st ← (if (st.vinfoMap tail).map Vinfo.index = some tailMinReach then st.processComponent tail cptStackMark
        else some st)
      some (st.setInfo tail fun info => { info with index := intMax }, tailMinReach)
    | some tailInfo =>
      match tailInfo.cpt with
      | some cpt => some ({ st with cptStack := cpt :: st.cptStack }, tailInfo.index)
      | none => some (st, tailInfo.index)

end AlgoSCC

open AlgoSCC

variable {V : Type} [DecidableEq V]

/-- `cugra_walk_SCC`, with the calls that it makes. The numbers of vertices start from 0, and no call is deeper than there
are vertices. -/
def Graph.walkSCC (g : Graph V) (dir : Direction) : Option (List (Call V)) := do
  let st ← g.vertices.foldlM
    (fun st v => (detectSCC (g.adjacent dir) (g.vertices.length + 1) st v).map Prod.fst) State.start
  some st.calls

end Culibs.Cugra

namespace Culibs.Cugra.AlgoSCC

open ArcSearch

variable {V : Type}

/-- A component that has been left, with the components it was connected to. -/
structure Block (V : Type) where
  members : List V
  subs : List Nat

def Block.calls (c : Nat) (block : Block V) : List (Call V) :=
  .enterComponent c :: block.members.map (.passVertex c) ++ .leaveComponent c :: block.subs.map (.connectComponents c)

def callsOf (blocks : List (Block V)) : List (Call V) := blocks.zipIdx.flatMap fun (block, c) => block.calls c

theorem callsOf_append (blocks : List (Block V)) (block : Block V) :
    callsOf (blocks ++ [block]) = callsOf blocks ++ block.calls blocks.length := by
  simp [callsOf, List.zipIdx_append]

namespace State

def index (st : State V) (v : V) : Nat := ((st.vinfoMap v).map Vinfo.index).getD 0

def cpt (st : State V) (v : V) : Option Nat := (st.vinfoMap v).bind Vinfo.cpt

end State

/-- The components that have been left: each is strongly connected by the arcs that are kept, no such arc leads from it to
a later one, and it was connected to the components where its other arcs lead unless there is a way back. -/
structure Closed (adjacent : V → List V) (cpt : V → Option Nat) (s : Search V) (blocks : List (Block V)) : Prop where
  members : ∀ c block, blocks[c]? = some block →
    block.members.Nodup ∧ block.members ≠ [] ∧ ∀ v, v ∈ block.members ↔ cpt v = some c
  bound : ∀ v c, cpt v = some c → c < blocks.length
  strong : ∀ c u v, cpt u = some c → cpt v = some c → s.Reach u v
  down : ∀ c u x, cpt u = some c → s.Kept u x → ∃ c' ≤ c, cpt x = some c'
  arcs : ∀ c block u w, blocks[c]? = some block → cpt u = some c → w ∈ adjacent u →
    (∃ c' ∈ block.subs, cpt w = some c') ∨ s.Reach w u
  subs : ∀ c block c', blocks[c]? = some block → c' ∈ block.subs →
    c' < c ∧ ∃ u w, cpt u = some c ∧ w ∈ adjacent u ∧ cpt w = some c'

variable {adjacent : V → List V} {vertices active outer done part subs : List V} {cpt cpt' : V → Option Nat}
  {s s' : Search V} {st st' : State V} {blocks : List (Block V)} {block : Block V} {a u v w x : V} {c m : Nat}

/-- Further arcs are kept, none of which comes from a component that has been left. -/
theorem Closed.mono (closed : Closed adjacent cpt s blocks) (more : s.kept ⊆ s'.kept)
    (sources : ∀ u x, s'.Kept u x → cpt u ≠ none → s.Kept u x) : Closed adjacent cpt s' blocks := by
  refine ⟨closed.members, closed.bound, fun c u v uc vc => (closed.strong c u v uc vc).mono more, ?_, ?_, closed.subs⟩
  · intro c u x uc kept
    exact closed.down c u x uc (sources u x kept (by rw [uc]; exact Option.some_ne_none c))
  · intro c block u w isBlock uc arc
    exact (closed.arcs c block u w isBlock uc arc).imp_right (Search.Reach.mono more)

theorem Closed.close (closed : Closed adjacent cpt s blocks) (nodup : block.members.Nodup) (nonempty : block.members ≠ [])
    (isOpen : ∀ v ∈ block.members, cpt v = none) (here : ∀ v ∈ block.members, cpt' v = some blocks.length)
    (there : ∀ v, v ∉ block.members → cpt' v = cpt v)
    (strong : ∀ u ∈ block.members, ∀ v ∈ block.members, s.Reach u v)
    (down : ∀ u ∈ block.members, ∀ x, s.Kept u x → x ∈ block.members ∨ cpt x ≠ none)
    (arcs : ∀ u ∈ block.members, ∀ w ∈ adjacent u, (∃ c' ∈ block.subs, cpt w = some c') ∨ s.Reach w u)
    (connected : ∀ c' ∈ block.subs, ∃ u ∈ block.members, ∃ w ∈ adjacent u, cpt w = some c') :
    Closed adjacent cpt' s (blocks ++ [block]) := by
  have before {v c} (known : cpt v = some c) : cpt' v = some c := by
    rw [there v fun mem => ?_, known]
    rw [isOpen v mem] at known
    cases known
  have mem {v} : v ∈ block.members ↔ cpt' v = some blocks.length := by
    refine ⟨here v, fun new => ?_⟩
    by_contra other
    rw [there v other] at new
    exact lt_irrefl _ (closed.bound v _ new)
  have old {v c} (known : cpt' v = some c) (low : c < blocks.length) : cpt v = some c := by
    rw [there v fun isMember => ?_] at known
    · exact known
    · rw [here v isMember] at known
      cases known
      exact lt_irrefl _ low
  have position {c b} (isBlock : (blocks ++ [block])[c]? = some b) :
      c < blocks.length ∧ blocks[c]? = some b ∨ c = blocks.length ∧ b = block := by
    rw [List.getElem?_append] at isBlock
    split at isBlock
    · next low => exact .inl ⟨low, isBlock⟩
    · next high =>
      rw [List.getElem?_singleton] at isBlock
      split at isBlock
      · cases isBlock
        exact .inr ⟨by omega, rfl⟩
      · cases isBlock
  have bound {v c} (known : cpt' v = some c) : c < blocks.length ∨ c = blocks.length := by
    by_cases isMember : v ∈ block.members
    · rw [here v isMember] at known
      cases known
      exact .inr rfl
    · rw [there v isMember] at known
      exact .inl (closed.bound v c known)
  refine ⟨fun c b isBlock => ?_, fun v c known => ?_, fun c u v uc vc => ?_, fun c u x uc kept => ?_,
    fun c b u w isBlock uc arc => ?_, fun c b c' isBlock sub => ?_⟩
  · rcases position isBlock with ⟨low, isBlock⟩ | ⟨rfl, rfl⟩
    · obtain ⟨nodup, nonempty, iff⟩ := closed.members c b isBlock
      exact ⟨nodup, nonempty, fun v => (iff v).trans ⟨before, fun known => old known low⟩⟩
    · exact ⟨nodup, nonempty, fun v => mem⟩
  · rw [List.length_append, List.length_singleton]
    exact (bound known).elim Nat.lt_succ_of_lt fun same => same ▸ Nat.lt_succ_self _
  · rcases bound uc with low | rfl
    · exact closed.strong c u v (old uc low) (old vc low)
    · exact strong u (mem.mpr uc) v (mem.mpr vc)
  · rcases bound uc with low | rfl
    · obtain ⟨c', less, known⟩ := closed.down c u x (old uc low) kept
      exact ⟨c', less, before known⟩
    · rcases down u (mem.mpr uc) x kept with isMember | known
      · exact ⟨_, le_rfl, here x isMember⟩
      · obtain ⟨c', known⟩ := Option.ne_none_iff_exists'.mp known
        exact ⟨c', le_of_lt (closed.bound x c' known), before known⟩
  · rcases position isBlock with ⟨low, isBlock⟩ | ⟨rfl, rfl⟩
    · refine (closed.arcs c b u w isBlock (old uc low) arc).imp_left ?_
      rintro ⟨c', sub, known⟩
      exact ⟨c', sub, before known⟩
    · refine (arcs u (mem.mpr uc) w arc).imp_left ?_
      rintro ⟨c', sub, known⟩
      exact ⟨c', sub, before known⟩
  · rcases position isBlock with ⟨low, isBlock⟩ | ⟨rfl, rfl⟩
    · obtain ⟨less, u, w, uc, arc, wc⟩ := closed.subs c b c' isBlock sub
      exact ⟨less, u, w, before uc, arc, before wc⟩
    · obtain ⟨u, isMember, w, arc, known⟩ := connected c' sub
      exact ⟨closed.bound w c' known, u, w, here u isMember, arc, before known⟩

/-- The invariant of a walk with the vertices that are being visited, of which the last comes first. -/
structure Inv (adjacent : V → List V) (vertices active : List V) (st : State V) (s : Search V) (blocks : List (Block V)) :
    Prop where
  seen : ∀ v, v ∈ s.seen ↔ st.vinfoMap v ≠ none
  nodup : s.seen.Nodup
  inside : s.seen ⊆ vertices
  pool : st.indexPool = s.seen.length
  kept : ∀ u x, s.Kept u x → u ∈ s.seen ∧ x ∈ adjacent u
  visiting : ∀ x ∈ active, st.vinfoMap x = some ⟨st.index x, none⟩ ∧ st.index x < st.indexPool
  order : active.Pairwise fun x y => st.index y < st.index x
  left : ∀ v info, st.vinfoMap v = some info → v ∉ active → info.index = intMax
  stack : ∀ v, v ∈ st.vertexStack ↔ v ∈ s.seen ∧ st.cpt v = none
  distinct : st.vertexStack.Nodup
  top : active = [] → st.vertexStack = []
  reach : ∀ a, active.head? = some a → ∀ v ∈ st.vertexStack, s.Reach v a
  components : st.components = blocks.length
  calls : st.calls = callsOf blocks
  closed : Closed adjacent st.cpt s blocks

/-- What a part of a walk leaves of what was seen before. -/
structure Grows (st st' : State V) (s s' : Search V) : Prop where
  info : ∀ v ∈ s.seen, st'.vinfoMap v = st.vinfoMap v
  seen : s.seen ⊆ s'.seen
  kept : s.kept ⊆ s'.kept
  sources : ∀ u x, s'.Kept u x → u ∈ s.seen → s.Kept u x

/-- What is known of vertices on the stack that have been left (`part`) and of the arcs that have been looked at. The
vertex of number `m` is an active one that can be reached from them. -/
structure Segment (active : List V) (st : State V) (s : Search V) (scanned : V → V → Prop) (sources part : List V)
    (subs : List Nat) (m : Nat) (root : V) : Prop where
  known : ∀ u w, scanned u w → (∃ c ∈ subs, st.cpt w = some c) ∨ w ∈ st.vertexStack
  low : ∀ u ∈ sources, ∀ x, s.Kept u x → st.cpt x ≠ none ∨ x ∈ part ∨ x ∈ active ∧ m ≤ st.index x
  connected : ∀ c ∈ subs, ∃ u w, scanned u w ∧ st.cpt w = some c
  least : ∃ x ∈ active, m = st.index x ∧ s.Reach root x
  below : ∀ u ∈ part, s.Reach root u

/-- The vertices and arcs that the loop over the arcs from `a` has looked at. -/
def Scanned (adjacent : V → List V) (a : V) (done part : List V) (u w : V) : Prop :=
  u = a ∧ w ∈ done ∨ u ∈ part ∧ w ∈ adjacent u

/-- The invariant of the loop over the arcs from `a`. -/
structure Loop (adjacent : V → List V) (vertices : List V) (st0 : State V) (s0 : Search V) (outer : List V) (a : V)
    (done : List V) (st : State V) (s : Search V) (m : Nat) (blocks : List (Block V)) (part : List V) (subs : List Nat) :
    Prop where
  inv : Inv adjacent vertices (a :: outer) st s blocks
  grows : Grows st0 st s0 s
  stack : st.vertexStack = part ++ a :: st0.vertexStack
  cptStack : st.cptStack = subs ++ st0.cptStack
  least : m ≤ st.index a
  segment : Segment (a :: outer) st s (Scanned adjacent a done part) (a :: part) part subs m a

/-- What a call for a new vertex does: either its component is left, or it stays on the stack, with others. -/
structure Visited (adjacent : V → List V) (vertices active : List V) (st : State V) (s : Search V) (w : V) (st' : State V)
    (s' : Search V) (m : Nat) (blocks : List (Block V)) : Prop where
  inv : Inv adjacent vertices active st' s' blocks
  grows : Grows st st' s s'
  seen : w ∈ s'.seen
  outcome : (st'.vertexStack = st.vertexStack ∧ (∃ c, st'.cptStack = c :: st.cptStack ∧ st'.cpt w = some c) ∧
      ∀ x ∈ active, st'.index x ≤ m) ∨
    ∃ part subs, st'.vertexStack = part ++ st.vertexStack ∧ st'.cptStack = subs ++ st.cptStack ∧ w ∈ part ∧
      Segment active st' s' (fun u x => u ∈ part ∧ x ∈ adjacent u) part part subs m w

end Culibs.Cugra.AlgoSCC
