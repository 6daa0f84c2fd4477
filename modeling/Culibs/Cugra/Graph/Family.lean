import Culibs.Cugra.Graph.Operations

namespace Culibs.Cugra

open Function

/-- What a graph is for. -/
structure Digraph where
  vertices : List Vertex
  arcs : Vertex → Vertex → Prop

namespace Digraph

def empty : Digraph := ⟨[], fun _ _ => False⟩

def addVertex (D : Digraph) (v : Vertex) : Digraph := { D with vertices := D.vertices ++ [v] }

def connect (D : Digraph) (tail head : Vertex) : Digraph := { D with arcs := fun x y => D.arcs x y ∨ x = tail ∧ y = head }

def disconnect (D : Digraph) (tail head : Vertex) : Digraph :=
  { D with arcs := fun x y => D.arcs x y ∧ ¬(x = tail ∧ y = head) }

def eraseVertex (D : Digraph) (v : Vertex) : Digraph :=
  ⟨D.vertices.erase v, fun x y => D.arcs x y ∧ x ≠ v ∧ y ≠ v⟩

def eliminateVertex (D : Digraph) (v : Vertex) : Digraph :=
  ⟨D.vertices.erase v, fun x y => (D.arcs x y ∨ D.arcs x v ∧ D.arcs v y) ∧ x ≠ v ∧ y ≠ v⟩

def eraseLoops (D : Digraph) : Digraph := { D with arcs := fun x y => D.arcs x y ∧ x ≠ y }

def merge (D E : Digraph) : Digraph := ⟨D.vertices ++ E.vertices, fun x y => D.arcs x y ∨ E.arcs x y⟩

end Digraph

namespace World

variable {address : Vertex → Word} {w w' : World} {nodes nodes' : Finset Arc} {vertices vertices' touched : List Vertex}
  {a : Arc} {tail head v x y : Vertex} {g g' : Nat} {dir : Direction}

/-- There is an arc to one vertex in the ring of another. -/
def Joins (w : World) (tail head : Vertex) : Prop := ∃ a ∈ w.links .directionOut tail, w.arcHead a = head

/-- The directed graph of the arcs in the rings, if the vertices have not been moved to another graph. -/
def digraph (w : World) (g : Nat) : Option Digraph :=
  (w.graph g).vertices.map fun vertices => ⟨vertices, fun x y => x ∈ vertices ∧ w.Joins x y⟩

/-- Each graph has a hash table of the arcs at its vertices, which are in no other graph. -/
structure Sound (address : Vertex → Word) (w : World) : Prop where
  represented : ∀ g vertices, (w.graph g).vertices = some vertices → ∃ nodes, Represents address w g vertices nodes
  nodup : ∀ g vertices, (w.graph g).vertices = some vertices → vertices.Nodup
  known : ∀ g vertices, (w.graph g).vertices = some vertices → ∀ v ∈ vertices, v < w.vertexCount
  apart : ∀ g g' vertices vertices', g ≠ g' → (w.graph g).vertices = some vertices →
    (w.graph g').vertices = some vertices' → vertices.Disjoint vertices'

section

variable (rep : Represents address w g vertices nodes)

include rep

theorem Represents.joins (isVertex : x ∈ vertices) : w.Joins x y ↔ w.HasArc nodes x y := by
  constructor
  · rintro ⟨a, inRing, isHead⟩
    obtain ⟨mem, isTail⟩ := (rep.mem_links isVertex).mp inRing
    exact ⟨a, mem, isTail, isHead⟩
  · rintro ⟨a, mem, isTail, isHead⟩
    exact ⟨a, (rep.mem_links isVertex).mpr ⟨mem, isTail⟩, isHead⟩

theorem Represents.ends_of_hasArc (there : w.HasArc nodes x y) : x ∈ vertices ∧ y ∈ vertices := by
  obtain ⟨a, mem, rfl, rfl⟩ := there
  exact ⟨rep.adjacent.ends a mem .directionOut, rep.adjacent.ends a mem .directionIn⟩

theorem Represents.digraph_eq (isGraph : (w.graph g).vertices = some vertices) :
    w.digraph g = some ⟨vertices, w.HasArc nodes⟩ := by
  have same : (fun x y => x ∈ vertices ∧ w.Joins x y) = w.HasArc nodes := by
    funext x y
    refine propext ⟨fun ⟨isVertex, joins⟩ => (rep.joins isVertex).mp joins, fun there => ?_⟩
    have isVertex := (rep.ends_of_hasArc there).1
    exact ⟨isVertex, (rep.joins isVertex).mpr there⟩
  rw [digraph, isGraph, Option.map_some, same]

end

section Other

variable (frame : Frame w w' g touched) (other : g' ≠ g) (outside : ∀ v ∈ vertices, v ∉ touched)

include frame outside

theorem Frame.adjacent (adjacent : Adjacent w vertices nodes) : Adjacent w' vertices nodes := by
  have sameBase {a} (mem : a ∈ nodes) (dir : Direction) : w'.base dir a = w.base dir a :=
    frame.base (adjacent.known a mem) dir
  refine ⟨fun a mem => le_trans (adjacent.known a mem) frame.arcCount, fun a mem dir => ?_,
    fun dir v isVertex => ?_⟩
  · rw [sameBase mem]
    exact adjacent.ends a mem dir
  · obtain ⟨nodup, members⟩ := adjacent.links dir v isVertex
    rw [frame.links dir v (outside v isVertex)]
    refine ⟨nodup, fun a => (members a).trans (and_congr_right fun mem => ?_)⟩
    rw [sameBase mem]

include other

theorem Frame.represents (rep : Represents address w g' vertices nodes) : Represents address w' g' vertices nodes := by
  refine ⟨?_, frame.adjacent outside rep.adjacent, ?_⟩
  · rw [frame.graph g' other]
    exact rep.table.congr fun a mem dir => frame.base (rep.adjacent.known a mem) dir
  · rw [frame.graph g' other]
    exact rep.simplearced

theorem Frame.digraph (rep : Represents address w g' vertices nodes)
    (isGraph : (w.graph g').vertices = some vertices) : w'.digraph g' = w.digraph g' := by
  have represents' := frame.represents other outside rep
  rw [rep.digraph_eq isGraph, represents'.digraph_eq ((congrArg _ (frame.graph g' other)).trans isGraph)]
  congr 2
  funext x y
  exact propext (hasArc_congr (fun a mem => frame.base (rep.adjacent.known a mem) .directionOut)
    fun a mem => frame.base (rep.adjacent.known a mem) .directionIn)

end Other

theorem Sound.changes (sound : Sound address w) (changes : Changes address w w' g touched vertices' nodes')
    (apart : ∀ g' vertices, g' ≠ g → (w.graph g').vertices = some vertices → ∀ v ∈ vertices, v ∉ touched)
    (inside : ∀ v ∈ vertices', v ∈ touched ∧ v < w'.vertexCount) (nodup : vertices'.Nodup) :
    Sound address w' ∧ w'.digraph = update w.digraph g (some ⟨vertices', w'.HasArc nodes'⟩) := by
  have isHere {vertices} (isGraph : (w'.graph g).vertices = some vertices) : vertices = vertices' :=
    Option.some.inj (isGraph.symm.trans changes.isGraph)
  have elsewhere {g' vertices} (other : g' ≠ g) (isGraph : (w'.graph g').vertices = some vertices) :
      (w.graph g').vertices = some vertices := (congrArg _ (changes.frame.graph g' other)).symm.trans isGraph
  refine ⟨⟨fun g' vertices isGraph => ?_, fun g' vertices isGraph => ?_, fun g' vertices isGraph v isVertex => ?_,
    fun g1 g2 vertices1 vertices2 ne isGraph1 isGraph2 v in1 in2 => ?_⟩, ?_⟩
  · by_cases here : g' = g
    · subst here
      exact isHere isGraph ▸ ⟨nodes', changes.represents⟩
    · have isGraph := elsewhere here isGraph
      obtain ⟨nodes, rep⟩ := sound.represented g' vertices isGraph
      exact ⟨nodes, changes.frame.represents here (apart g' vertices here isGraph) rep⟩
  · by_cases here : g' = g
    · subst here
      exact isHere isGraph ▸ nodup
    · exact sound.nodup g' vertices (elsewhere here isGraph)
  · by_cases here : g' = g
    · subst here
      exact (inside v (isHere isGraph ▸ isVertex)).2
    · exact lt_of_lt_of_le (sound.known g' vertices (elsewhere here isGraph) v isVertex) changes.frame.vertexCount
  · by_cases here1 : g1 = g
    · subst here1
      exact apart g2 vertices2 ne.symm (elsewhere ne.symm isGraph2) v in2
        (inside v (isHere isGraph1 ▸ in1)).1
    · by_cases here2 : g2 = g
      · subst here2
        exact apart g1 vertices1 here1 (elsewhere here1 isGraph1) v in1 (inside v (isHere isGraph2 ▸ in2)).1
      · exact sound.apart g1 g2 vertices1 vertices2 ne (elsewhere here1 isGraph1) (elsewhere here2 isGraph2) in1 in2
  · funext g'
    by_cases here : g' = g
    · subst here
      rw [update_self]
      exact changes.represents.digraph_eq changes.isGraph
    · rw [update_of_ne here]
      cases isGraph : (w.graph g').vertices with
      | none => simp [World.digraph, changes.frame.graph g' here, isGraph]
      | some vertices =>
        obtain ⟨nodes, rep⟩ := sound.represented g' vertices isGraph
        exact changes.frame.digraph here (apart g' vertices here isGraph) rep isGraph

theorem Sound.changes_within (sound : Sound address w) (isGraph : (w.graph g).vertices = some vertices)
    (changes : Changes address w w' g vertices vertices' nodes') (sublist : vertices'.Sublist vertices) :
    Sound address w' ∧ w'.digraph = update w.digraph g (some ⟨vertices', w'.HasArc nodes'⟩) :=
  sound.changes changes
    (fun g' others other isGraph' _ isOther isVertex => sound.apart g' g others vertices other isGraph' isGraph
      isOther isVertex)
    (fun v inside => ⟨sublist.subset inside,
      lt_of_lt_of_le (sound.known g vertices isGraph v (sublist.subset inside)) changes.frame.vertexCount⟩)
    ((sound.nodup g vertices isGraph).sublist sublist)

/-- The state after the vertices of a graph have been moved away. -/
def withoutVertices (w : World) (src : Nat) : World := w.setGraph src { w.graph src with vertices := none }

theorem frame_withoutVertices (w : World) (src : Nat) : Frame w (w.withoutVertices src) src [] := frame_setGraph w src _ []

theorem vertices_withoutVertices (isGraph : ((w.withoutVertices src).graph g).vertices = some vertices) :
    g ≠ src ∧ (w.graph g).vertices = some vertices := by
  have other : g ≠ src := by
    rintro rfl
    rw [withoutVertices, graph_setGraph] at isGraph
    cases isGraph
  exact ⟨other, (congrArg _ ((frame_withoutVertices w src).graph g other)).symm.trans isGraph⟩

theorem Sound.withoutVertices (sound : Sound address w) (src : Nat) :
    Sound address (w.withoutVertices src) ∧ (w.withoutVertices src).digraph = update w.digraph src none := by
  have frame := frame_withoutVertices w src
  refine ⟨⟨fun g vertices isGraph => ?_, fun g vertices isGraph => sound.nodup g vertices (vertices_withoutVertices isGraph).2,
    fun g vertices isGraph => sound.known g vertices (vertices_withoutVertices isGraph).2,
    fun g g' vertices vertices' ne isGraph isGraph' => sound.apart g g' vertices vertices' ne
      (vertices_withoutVertices isGraph).2 (vertices_withoutVertices isGraph').2⟩, ?_⟩
  · obtain ⟨other, isGraph⟩ := vertices_withoutVertices isGraph
    obtain ⟨nodes, rep⟩ := sound.represented g vertices isGraph
    exact ⟨nodes, frame.represents other (fun _ _ => List.not_mem_nil) rep⟩
  · funext g
    by_cases here : g = src
    · subst here
      rw [update_self, World.digraph, World.withoutVertices, graph_setGraph, Option.map_none]
    · rw [update_of_ne here, World.digraph, frame.graph g here]
      rfl

end World

end Culibs.Cugra
