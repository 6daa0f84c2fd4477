import Culibs.Cu.Hash
import Culibs.Foundation.Buckets

/-! Graphs of `cugra/graph.c`, of which those with simple arcs have a hash table of their arcs. -/

namespace Culibs.Cugra

open Cu Buckets Function

inductive Direction where
  | directionOut
  | directionIn
deriving DecidableEq

abbrev Vertex := Nat

/-- An address of an arc, or of its node in a hash table. The address 0 is `NULL`. -/
abbrev Arc := Nat

structure Gflags where
  undirected : Bool
  simplearced : Bool
deriving DecidableEq

/-- `struct cugra_graph_with_arcset`. The vertices are linked to another graph after a merge. -/
structure GraphWithArcset where
  gflags : Gflags
  vertices : Option (List Vertex)
  arcsetSize : Nat
  arcsetMask : Nat
  arcset : Buckets Arc

/-- The graphs, vertices and arcs of a program. The links of a vertex in a direction are a ring of arcs. -/
structure World where
  graph : Nat → GraphWithArcset
  graphCount : Nat
  vertexCount : Nat
  arcCount : Nat
  adj : Direction → Arc → Vertex
  links : Direction → Vertex → List Arc

namespace World

def start : World :=
  ⟨fun _ => ⟨⟨false, false⟩, none, 0, 0, ⟨[], fun _ => 0⟩⟩, 0, 0, 0, fun _ _ => 0, fun _ _ => []⟩

def setGraph (w : World) (g : Nat) (G : GraphWithArcset) : World := { w with graph := update w.graph g G }

def setLinks (w : World) (dir : Direction) (v : Vertex) (ring : List Arc) : World :=
  { w with links := update w.links dir (update (w.links dir) v ring) }

def arcTail (w : World) (a : Arc) : Vertex := w.adj .directionIn a

def arcHead (w : World) (a : Arc) : Vertex := w.adj .directionOut a

def arcConnects (w : World) (tail head : Vertex) (a : Arc) : Bool := w.arcTail a = tail ∧ w.arcHead a = head

def arcsBegin (w : World) (dir : Direction) (v : Vertex) : Option Arc := (w.links dir v).head?

/-- The arc after one in the ring of a vertex, or nothing at the end. -/
def arcsNext (w : World) (dir : Direction) (v : Vertex) (a : Arc) : Option Arc :=
  ((w.links dir v).dropWhile (· ≠ a)).tail.head?

/-- `cu_dlink_insert_before`, at the end of the rings of both vertices. -/
def initArc (w : World) (a : Arc) (tail head : Vertex) : World :=
  let w := w.setLinks .directionOut tail (w.links .directionOut tail ++ [a])
  let w := w.setLinks .directionIn head (w.links .directionIn head ++ [a])
  { w with
    adj := fun dir => update (w.adj dir) a (match dir with | .directionOut => head | .directionIn => tail) }

def unlinkArc (w : World) (a : Arc) : World :=
  let w := w.setLinks .directionOut (w.arcTail a) ((w.links .directionOut (w.arcTail a)).erase a)
  w.setLinks .directionIn (w.arcHead a) ((w.links .directionIn (w.arcHead a)).erase a)

/-- A new arc of memory of its own. -/
def gallocArc (w : World) (tail head : Vertex) : World :=
  { w.initArc (w.arcCount + 1) tail head with arcCount := w.arcCount + 1 }

/-- More than the nodes of any chain. -/
def fuel (w : World) : Nat := w.arcCount + 2

section Fill

-- Whether `CUCONF_OPT_SPEED` is defined.
variable (optSpeed : Bool)

def arcsetMinfillNumer : Nat := 1

def arcsetMinfillDenom : Nat := if optSpeed then 3 else 2

def arcsetMaxfillNumer : Nat := if optSpeed then 1 else 3

def arcsetMaxfillDenom : Nat := if optSpeed then 1 else 2

end Fill

/-- `_arcset_init` of a graph. -/
def graphNew (w : World) (gflags : Gflags) : World :=
  { w.setGraph w.graphCount ⟨gflags, some [], 0, 0, ⟨[0], fun _ => 0⟩⟩ with graphCount := w.graphCount + 1 }

def graphVertexNew (w : World) (g : Nat) : Option World :=
  (w.graph g).vertices.map fun vertices =>
    let v := w.vertexCount
    let w := w.setGraph g { w.graph g with vertices := some (vertices ++ [v]) }
    { (w.setLinks .directionOut v []).setLinks .directionIn v [] with vertexCount := w.vertexCount + 1 }

/-- Nothing is done if the source has no vertices. -/
def graphMerge (w : World) (dst src : Nat) : Option World := do
  let moved ← (w.graph src).vertices
  let vertices ← (w.graph dst).vertices
  if moved = [] then some w
  else
    let w := w.setGraph dst { w.graph dst with vertices := some (vertices ++ moved) }
    some (w.setGraph src { w.graph src with vertices := none })

section Operations

variable (address : Vertex → Word) (optSpeed : Bool)

def vertexPairHash (v0 v1 : Vertex) : Nat := (twoWordHashNoinitBj (address v0) (address v1)).toNat

/-- The loop body of `_arcset_shrink`. -/
def appendChain (newMask fuel : Nat) (i : Nat) (new : Buckets Arc) (first : Arc) : Option (Buckets Arc) :=
  if first = 0 then some new else attach 0 fuel (i &&& newMask) new first

def arcsetShrink (w : World) (G : GraphWithArcset) (newCap : Nat) : Option GraphWithArcset :=
  let oldArr := G.arcset.heads
  let oldCap := G.arcsetMask + 1
  let newMask := newCap - 1
  (forHeads (appendChain newMask w.fuel) newCap ((oldArr.take oldCap).drop newCap)
    ⟨oldArr.take newCap, G.arcset.next⟩).map fun arcset => { G with arcsetMask := newMask, arcset }

def arcsetExtend (w : World) (G : GraphWithArcset) (newCap : Nat) : Option GraphWithArcset :=
  let oldCap := G.arcsetMask + 1
  let newMask := newCap - 1
  let index (node : Arc) := vertexPairHash address (w.arcTail node) (w.arcHead node) &&& newMask
  (forHeads (fun _ => pushAll 0 index w.fuel) 0 (G.arcset.heads.take oldCap)
    ⟨List.replicate newCap 0, G.arcset.next⟩).map fun arcset => { G with arcsetMask := newMask, arcset }

/-- The loop over a bucket: the place where it stops, and the arc there or `NULL`. -/
def locate (w : World) (G : GraphWithArcset) (tail head : Vertex) : Option (Place Arc × Arc) :=
  seek 0 (w.arcConnects tail head) G.arcset w.fuel (.head (vertexPairHash address tail head &&& G.arcsetMask))

/-- Whether an arc has been inserted, and the arc. -/
def arcsetInsert (w : World) (g : Nat) (tail head : Vertex) : Option ((Bool × Arc) × World) := do
  let G := w.graph g
  let G ← (if G.arcsetSize * arcsetMaxfillDenom optSpeed ≥ G.arcsetMask * arcsetMaxfillNumer optSpeed then
      arcsetExtend address w G ((G.arcsetMask + 1) * 2)
    else some G)
  let (p, found) ← locate address w G tail head
  if found ≠ 0 then return ((false, found), w.setGraph g G)
  let fresh := w.arcCount + 1
  let arcset ← G.arcset.write p fresh
  let G := { G with
    arcsetSize := G.arcsetSize + 1
    arcset := { arcset with next := update arcset.next fresh 0 } }
  return ((true, fresh), (w.setGraph g G).gallocArc tail head)

def arcsetErase (w : World) (g : Nat) (tail head : Vertex) : Option (Nat × World) := do
  let G := w.graph g
  let (p, found) ← locate address w G tail head
  if found = 0 then return (0, w)
  let w := w.unlinkArc found
  let arcset ← G.arcset.write p (G.arcset.next found)
  let G := { G with arcsetSize := G.arcsetSize - 1, arcset }
  let G ← (if G.arcsetSize * arcsetMinfillDenom optSpeed < G.arcsetMask * arcsetMinfillNumer ∧ G.arcsetMask > 1 then
      arcsetShrink w G ((G.arcsetMask + 1) / 2)
    else some G)
  return (1, w.setGraph g G)

/-- The test of `cugra_connect` and `cugra_disconnect`. -/
def swapped (w : World) (g : Nat) (tail head : Vertex) : Vertex × Vertex :=
  if (w.graph g).gflags.undirected ∧ (address tail).toNat > (address head).toNat then (head, tail) else (tail, head)

/-- Whether there is a new arc, and the arc. Its size is not modelled. -/
def connectCustom (w : World) (g : Nat) (tail head : Vertex) : Option ((Bool × Arc) × World) :=
  if (w.graph g).gflags.simplearced then
    let (tail, head) := w.swapped address g tail head
    w.arcsetInsert address optSpeed g tail head
  else some ((true, w.arcCount + 1), w.gallocArc tail head)

def connect (w : World) (g : Nat) (tail head : Vertex) : Option (Bool × World) :=
  (w.connectCustom address optSpeed g tail head).map fun ((new, _), w) => (new, w)

/-- A loop over the arcs of a vertex where the next arc is read after the body. -/
def forArcs (body : World → Arc → Option World) (dir : Direction) (v : Vertex) : Nat → Option Arc → World → Option World
  | 0, _, _ => none
  | _ + 1, none, w => some w
  | fuel + 1, some a, w => do
    let w ← body w a
    forArcs body dir v fuel (w.arcsNext dir v a) w

/-- A loop over the arcs of a vertex where the next arc is read before the body, which may erase the arc. -/
def forArcsErasing (body : World → Arc → Option World) (dir : Direction) (v : Vertex) :
    Nat → Option Arc → World → Option World
  | 0, _, _ => none
  | _ + 1, none, w => some w
  | fuel + 1, some a, w => do
    let aNext := w.arcsNext dir v a
    let w ← body w a
    forArcsErasing body dir v fuel aNext w

/-- The number of arcs that have been removed. -/
def disconnect (w : World) (g : Nat) (tail head : Vertex) : Option (Nat × World) :=
  if (w.graph g).gflags.simplearced then
    let (tail, head) := w.swapped address g tail head
    w.arcsetErase address optSpeed g tail head
  else
    (forArcsErasing (fun w arc => some (if w.arcHead arc = head then w.unlinkArc arc else w)) .directionOut tail
      ((w.links .directionOut tail).length + 1) (w.arcsBegin .directionOut tail) w).map fun w' =>
        ((w.links .directionOut tail).length - (w'.links .directionOut tail).length, w')

def eraseArc (w : World) (g : Nat) (arc : Arc) : Option World :=
  if (w.graph g).gflags.simplearced then
    (w.arcsetErase address optSpeed g (w.arcTail arc) (w.arcHead arc)).map Prod.snd
  else some (w.unlinkArc arc)

/-- `cu_dlink_erase(&v->in_graph)`. A second time it does nothing. -/
def unlinkVertex (w : World) (g : Nat) (v : Vertex) : Option World :=
  (w.graph g).vertices.map fun vertices => w.setGraph g { w.graph g with vertices := some (vertices.erase v) }

/-- One direction of `cugra_erase_vertex`. -/
def eraseArcs (w : World) (g : Nat) (v : Vertex) (dir : Direction) : Option World := do
  let w ← w.unlinkVertex g v
  forArcsErasing (fun w a => w.eraseArc address optSpeed g a) dir v ((w.links dir v).length + 1) (w.arcsBegin dir v) w

def eraseVertex (w : World) (g : Nat) (v : Vertex) : Option World := do
  let w ← w.eraseArcs address optSpeed g v .directionOut
  w.eraseArcs address optSpeed g v .directionIn

/-- The inner loop of `cugra_eliminate_vertex`, over the arcs to the successors, if the arc is missing. -/
def connectHeads (w : World) (g : Nat) (v tail : Vertex) (missing : World → Vertex → Bool) : Option World :=
  forArcs (fun w out =>
      let head := w.arcHead out
      if missing w head then (w.connect address optSpeed g tail head).map Prod.snd else some w)
    .directionOut v ((w.links .directionOut v).length + 1) (w.arcsBegin .directionOut v) w

def eliminateVertex (w : World) (g : Nat) (v : Vertex) : Option World := do
  let w ← forArcs (fun w arcIn =>
      let tail := w.arcTail arcIn
      if (w.graph g).gflags.simplearced then w.connectHeads address optSpeed g v tail fun _ _ => true
      else
        let heads := (w.links .directionOut tail).map w.arcHead
        w.connectHeads address optSpeed g v tail fun _ head => head ∉ heads)
    .directionIn v ((w.links .directionIn v).length + 1) (w.arcsBegin .directionIn v) w
  w.eraseVertex address optSpeed g v

def vertexEraseLoops (w : World) (g : Nat) (v : Vertex) : Option World :=
  forArcsErasing (fun w a => if w.arcHead a = v then w.eraseArc address optSpeed g a else some w) .directionOut v
    ((w.links .directionOut v).length + 1) (w.arcsBegin .directionOut v) w

def graphEraseLoops (w : World) (g : Nat) : Option World := do
  let vertices ← (w.graph g).vertices
  vertices.foldlM (fun w v => w.vertexEraseLoops address optSpeed g v) w

end Operations

end World

end Culibs.Cugra
