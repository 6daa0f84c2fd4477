import Culibs.Cugra.Graph.Family

namespace Culibs.Cugra.World

open Buckets Function List Finset Option

inductive Op where
  | graphNew
  | vertexNew (g : Nat)
  | connect (g : Nat) (tail head : Vertex)
  | connectCustom (g : Nat) (tail head : Vertex)
  | disconnect (g : Nat) (tail head : Vertex)
  | eraseArc (g : Nat) (arc : Arc)
  | eraseVertex (g : Nat) (v : Vertex)
  | eliminateVertex (g : Nat) (v : Vertex)
  | vertexEraseLoops (g : Nat) (v : Vertex)
  | graphEraseLoops (g : Nat)
  | graphMerge (dst src : Nat)

inductive Reply where
  | done
  | connected (new : Bool)
  | connectedCustom (new : Bool) (arc : Arc)
  | removed (n : Nat)
deriving DecidableEq

/-- The flags of a directed graph with `CUGRA_GFLAG_SIMPLEARCED`. -/
def simplearced : Gflags := ⟨false, true⟩

def step (address : Vertex → Word) (optSpeed : Bool) (w : World) : Op → Option (Reply × World)
  | .graphNew => some (.done, w.graphNew simplearced)
  | .vertexNew g => (w.graphVertexNew g).map (.done, ·)
  | .connect g tail head => (w.connect address optSpeed g tail head).map fun (new, w') => (.connected new, w')
  | .connectCustom g tail head =>
    (w.connectCustom address optSpeed g tail head).map fun ((new, arc), w') => (.connectedCustom new arc, w')
  | .disconnect g tail head => (w.disconnect address optSpeed g tail head).map fun (n, w') => (.removed n, w')
  | .eraseArc g arc => (w.eraseArc address optSpeed g arc).map (.done, ·)
  | .eraseVertex g v => (w.eraseVertex address optSpeed g v).map (.done, ·)
  | .eliminateVertex g v => (w.eliminateVertex address optSpeed g v).map (.done, ·)
  | .vertexEraseLoops g v => (w.vertexEraseLoops address optSpeed g v).map (.done, ·)
  | .graphEraseLoops g => (w.graphEraseLoops address optSpeed g).map (.done, ·)
  | .graphMerge dst src => (w.graphMerge dst src).map (.done, ·)

/-- The vertices of a graph, none if they have been moved to another. -/
def vertices (w : World) (g : Nat) : List Vertex := (w.graph g).vertices.getD []

/-- The arguments are vertices and arcs of the graph, and its vertices have not been moved to another. -/
def Legal (w : World) : Op → Prop
  | .graphNew => True
  | .vertexNew g => (w.graph g).vertices.isSome
  | .connect g tail head => tail ∈ w.vertices g ∧ head ∈ w.vertices g
  | .connectCustom g tail head => tail ∈ w.vertices g ∧ head ∈ w.vertices g
  | .disconnect g tail head => tail ∈ w.vertices g ∧ head ∈ w.vertices g
  | .eraseArc g arc => ∃ v ∈ w.vertices g, arc ∈ w.links .directionOut v
  | .eraseVertex g v => v ∈ w.vertices g
  | .eliminateVertex g v => v ∈ w.vertices g
  | .vertexEraseLoops g v => v ∈ w.vertices g
  | .graphEraseLoops g => (w.graph g).vertices.isSome
  | .graphMerge dst src => dst ≠ src ∧ (w.graph dst).vertices.isSome ∧ (w.graph src).vertices.isSome

/-- Where the code is right: a graph that is merged into another has no arcs. -/
def Meets (w : World) : Op → Prop
  | .graphMerge _ src => (w.graph src).arcsetSize = 0
  | _ => True

/-- The directed graphs after an operation. -/
def meaning (w : World) : Op → Nat → Option Digraph
  | .graphNew => update w.digraph w.graphCount (some .empty)
  | .vertexNew g => update w.digraph g ((w.digraph g).map (·.addVertex w.vertexCount))
  | .connect g tail head => update w.digraph g ((w.digraph g).map (·.connect tail head))
  | .connectCustom g tail head => update w.digraph g ((w.digraph g).map (·.connect tail head))
  | .disconnect g tail head => update w.digraph g ((w.digraph g).map (·.disconnect tail head))
  | .eraseArc g arc => update w.digraph g ((w.digraph g).map (·.disconnect (w.arcTail arc) (w.arcHead arc)))
  | .eraseVertex g v => update w.digraph g ((w.digraph g).map (·.eraseVertex v))
  | .eliminateVertex g v => update w.digraph g ((w.digraph g).map (·.eliminateVertex v))
  | .vertexEraseLoops g v => update w.digraph g ((w.digraph g).map (·.disconnect v v))
  | .graphEraseLoops g => update w.digraph g ((w.digraph g).map (·.eraseLoops))
  | .graphMerge dst src =>
    if w.vertices src = [] then w.digraph
    else update (update w.digraph src none) dst
      (do some ((← w.digraph dst).merge (← w.digraph src)))

/-- The number of arcs from one vertex to another. -/
def multiplicity (w : World) (tail head : Vertex) : Nat := (w.links .directionOut tail).countP fun a => w.arcHead a = head

/-- What a result says. An operation that finds an arc leaves all arcs as they were. -/
def Replies (w w' : World) : Op → Reply → Prop
  | .connect _ tail head, .connected new =>
    (new = false ↔ w.Joins tail head) ∧ (new = false → w'.adj = w.adj ∧ w'.links = w.links)
  | .connectCustom _ tail head, .connectedCustom new arc =>
    (new = false ↔ w.Joins tail head) ∧ (new = false → w'.adj = w.adj ∧ w'.links = w.links) ∧
      arc ∈ w'.links .directionOut tail ∧ w'.arcHead arc = head
  | .disconnect _ tail head, .removed n => n = w.multiplicity tail head ∧ w'.multiplicity tail head = 0
  | .connect .., _ => False
  | .connectCustom .., _ => False
  | .disconnect .., _ => False
  | _, reply => reply = .done

section Runs

variable (address : Vertex → Word) (optSpeed : Bool)

/-- In every state of the run the tables are those of the arcs, and every operation does what it is for. -/
def Follows (w : World) : List Op → Prop
  | [] => Sound address w
  | op :: ops => Sound address w ∧ ∃ reply w', w.step address optSpeed op = some (reply, w') ∧ Replies w w' op reply ∧
      w'.digraph = w.meaning op ∧ Follows w' ops

/-- Something is true of every step of the run. -/
def Throughout (P : World → Op → Prop) (w : World) : List Op → Prop
  | [] => True
  | op :: ops => P w op ∧ ∀ reply w', w.step address optSpeed op = some (reply, w') → Throughout P w' ops

def LegalRun (w : World) (ops : List Op) : Prop := Throughout address optSpeed Legal w ops

def MeetsRun (w : World) (ops : List Op) : Prop := Throughout address optSpeed (fun w op => w.Legal op ∧ w.Meets op) w ops

def run (w : World) : List Op → Option World
  | [] => some w
  | op :: ops => do
    let (_, w) ← w.step address optSpeed op
    w.run ops

end Runs

section Decidable

instance (w : World) (tail head : Vertex) : Decidable (w.Joins tail head) :=
  inferInstanceAs (Decidable (∃ a ∈ w.links .directionOut tail, w.arcHead a = head))

instance (w : World) : (op : Op) → Decidable (w.Legal op)
  | .graphNew => inferInstanceAs (Decidable True)
  | .vertexNew g | .graphEraseLoops g => inferInstanceAs (Decidable ((w.graph g).vertices.isSome))
  | .connect g tail head | .connectCustom g tail head | .disconnect g tail head =>
    inferInstanceAs (Decidable (tail ∈ w.vertices g ∧ head ∈ w.vertices g))
  | .eraseArc g arc => inferInstanceAs (Decidable (∃ v ∈ w.vertices g, arc ∈ w.links .directionOut v))
  | .eraseVertex g v | .eliminateVertex g v | .vertexEraseLoops g v => inferInstanceAs (Decidable (v ∈ w.vertices g))
  | .graphMerge dst src =>
    inferInstanceAs (Decidable (dst ≠ src ∧ (w.graph dst).vertices.isSome ∧ (w.graph src).vertices.isSome))

instance (w : World) : (op : Op) → Decidable (w.Meets op)
  | .graphMerge _ src => inferInstanceAs (Decidable ((w.graph src).arcsetSize = 0))
  | .graphNew | .vertexNew _ | .connect .. | .connectCustom .. | .disconnect .. | .eraseArc .. | .eraseVertex ..
  | .eliminateVertex .. | .vertexEraseLoops .. | .graphEraseLoops _ => inferInstanceAs (Decidable True)

/-- The induction is on the operations that are left. -/
instance decidableThroughout (address : Vertex → Word) (optSpeed : Bool) (P : World → Op → Prop)
    [∀ w op, Decidable (P w op)] (w : World) : (ops : List Op) → Decidable (Throughout address optSpeed P w ops)
  | [] => isTrue trivial
  | op :: ops =>
    match result : w.step address optSpeed op with
    | none => decidable_of_iff (P w op) ⟨fun here => ⟨here, fun _ _ => by simp [result]⟩, And.left⟩
    | some (reply, w') =>
      have := decidableThroughout address optSpeed P w' ops
      decidable_of_iff (P w op ∧ Throughout address optSpeed P w' ops)
        (and_congr_right fun _ => by simp [result])

end Decidable

variable {address : Vertex → Word} {optSpeed : Bool} {w w' : World} {nodes nodes' : Finset Arc}
  {vertices vertices' : List Vertex} {a : Arc} {tail head v x y : Vertex} {g : Nat} {op : Op}

theorem vertices_of_mem (inside : v ∈ w.vertices g) : ∃ vertices, (w.graph g).vertices = some vertices ∧ v ∈ vertices := by
  unfold World.vertices at inside
  cases isGraph : (w.graph g).vertices with
  | none => simp [isGraph] at inside
  | some vertices => exact ⟨vertices, rfl, by simpa [isGraph] using inside⟩

theorem vertices_eq (isGraph : (w.graph g).vertices = some vertices) : w.vertices g = vertices := by
  rw [World.vertices, isGraph, getD_some]

theorem Represents.multiplicity_eq (rep : Represents address w g vertices nodes) (isVertex : tail ∈ vertices) :
    w.multiplicity tail head = (nodes.filter fun a => w.arcTail a = tail ∧ w.arcHead a = head).card := by
  obtain ⟨nodup, members⟩ := rep.adjacent.links .directionOut tail isVertex
  rw [multiplicity, countP_eq_length_filter, ← toFinset_card_of_nodup (nodup.filter _)]
  congr 1
  ext a
  rw [List.mem_toFinset, List.mem_filter, members, Finset.mem_filter, and_assoc, decide_eq_true_eq]
  rfl

/-- What a step of the run has to show. -/
def Stepped (address : Vertex → Word) (optSpeed : Bool) (w : World) (op : Op) : Prop :=
  ∃ reply w', w.step address optSpeed op = some (reply, w') ∧ Replies w w' op reply ∧ Sound address w' ∧
    w'.digraph = w.meaning op

theorem Sound.follow (sound : Sound address w) (rep : Represents address w g vertices nodes)
    (isGraph : (w.graph g).vertices = some vertices) (changes : Changes address w w' g vertices vertices' nodes')
    (sublist : vertices'.Sublist vertices) (f : Digraph → Digraph)
    (sameVertices : (f ⟨vertices, w.HasArc nodes⟩).vertices = vertices')
    (sameArcs : ∀ x y, w'.HasArc nodes' x y ↔ (f ⟨vertices, w.HasArc nodes⟩).arcs x y) :
    Sound address w' ∧ w'.digraph = update w.digraph g ((w.digraph g).map f) := by
  obtain ⟨sound', after⟩ := sound.changes_within isGraph changes sublist
  have same : f ⟨vertices, w.HasArc nodes⟩ = ⟨vertices', w'.HasArc nodes'⟩ := by
    rw [← sameVertices, show w'.HasArc nodes' = _ from funext fun x => funext fun y => propext (sameArcs x y)]
  refine ⟨sound', ?_⟩
  rw [after, rep.digraph_eq isGraph, map_some, same]

private theorem connectCustom_step (optSpeed : Bool) (sound : Sound address w) (tailIn : tail ∈ w.vertices g)
    (headIn : head ∈ w.vertices g) :
    ∃ new a w', w.connectCustom address optSpeed g tail head = some ((new, a), w') ∧
      ((new = false ↔ w.Joins tail head) ∧ (new = false → w'.adj = w.adj ∧ w'.links = w.links) ∧
        a ∈ w'.links .directionOut tail ∧ w'.arcHead a = head) ∧
      Sound address w' ∧ w'.digraph = update w.digraph g ((w.digraph g).map (·.connect tail head)) := by
  obtain ⟨vertices, isGraph, tailIn⟩ := vertices_of_mem tailIn
  rw [vertices_eq isGraph] at headIn
  obtain ⟨nodes, rep⟩ := sound.represented g vertices isGraph
  obtain ⟨new, a, w', result, becomes, isNew, present, isTail, isHead, same, _⟩ :=
    connectCustom_spec optSpeed rep tailIn headIn
  refine ⟨new, a, w', result, ⟨isNew.trans (present.trans (rep.joins tailIn).symm), fun old => same (isNew.mp old),
    (becomes.represents.mem_links tailIn).mpr ⟨mem_insert_self .., isTail⟩, isHead⟩, ?_⟩
  refine sound.follow rep isGraph (becomes.changes isGraph) (Sublist.refl _) _ rfl fun x y => ?_
  rw [hasArc_insert, rep.hasArc_becomes becomes, isTail, isHead, eq_comm, eq_comm (a := head)]
  rfl

section

variable (sound : Sound address w)

include sound

private theorem disconnect_step (tailIn : tail ∈ w.vertices g) (head : Vertex) :
    w.Stepped address optSpeed (.disconnect g tail head) := by
  obtain ⟨vertices, isGraph, tailIn⟩ := vertices_of_mem tailIn
  obtain ⟨nodes, rep⟩ := sound.represented g vertices isGraph
  obtain ⟨n, w', result, becomes, count⟩ := disconnect_spec optSpeed rep tail head
  have left := fun x y => rep.hasArc_filter becomes.frame (fun x y => ¬(x = tail ∧ y = head)) (fun _ => Iff.rfl) x y
  refine ⟨.removed n, w', by rw [step, result]; rfl, ⟨?_, ?_⟩,
    sound.follow rep isGraph (becomes.changes isGraph) (Sublist.refl _) _ rfl left⟩
  · rw [count, rep.multiplicity_eq tailIn]
  · rw [becomes.represents.multiplicity_eq tailIn, card_eq_zero, filter_eq_empty_iff]
    intro a mem ends
    exact ((left tail head).mp ⟨a, mem, ends⟩).2 ⟨rfl, rfl⟩

section

variable (isVertex : v ∈ w.vertices g)

include isVertex

private theorem eraseArc_step (inRing : a ∈ w.links .directionOut v) : w.Stepped address optSpeed (.eraseArc g a) := by
  obtain ⟨vertices, isGraph, isVertex⟩ := vertices_of_mem isVertex
  obtain ⟨nodes, rep⟩ := sound.represented g vertices isGraph
  obtain ⟨mem, _⟩ := (rep.mem_links isVertex).mp inRing
  obtain ⟨w', result, becomes, _⟩ := eraseArc_spec optSpeed rep mem
  have only : ∀ b ∈ nodes, (b ≠ a ↔ ¬(w.arcTail b = w.arcTail a ∧ w.arcHead b = w.arcHead a)) := fun b inside =>
    not_congr ⟨fun same => same ▸ ⟨rfl, rfl⟩, fun ends => rep.table.single b inside a mem ends.1 ends.2⟩
  rw [← filter_ne', filter_congr only] at becomes
  exact ⟨.done, w', by rw [step, result]; rfl, rfl,
    sound.follow rep isGraph (becomes.changes isGraph) (Sublist.refl _) _ rfl
      (rep.hasArc_filter becomes.frame (fun x y => ¬(x = w.arcTail a ∧ y = w.arcHead a)) fun _ => Iff.rfl)⟩

theorem eraseVertex_step : w.Stepped address optSpeed (.eraseVertex g v) := by
  obtain ⟨vertices, isGraph, isVertex⟩ := vertices_of_mem isVertex
  obtain ⟨nodes, rep⟩ := sound.represented g vertices isGraph
  obtain ⟨w', result, changes⟩ :=
    eraseVertex_spec optSpeed rep isVertex isGraph (sound.nodup g vertices isGraph)
  exact ⟨.done, w', by rw [step, result]; rfl, rfl, sound.follow rep isGraph changes erase_sublist _ rfl
    (rep.hasArc_filter changes.frame (fun x y => x ≠ v ∧ y ≠ v) fun _ => Iff.rfl)⟩

private theorem eliminateVertex_step : w.Stepped address optSpeed (.eliminateVertex g v) := by
  obtain ⟨vertices, isGraph, isVertex⟩ := vertices_of_mem isVertex
  obtain ⟨nodes, rep⟩ := sound.represented g vertices isGraph
  obtain ⟨w', nodes', result, changes, left⟩ :=
    eliminateVertex_spec optSpeed rep isVertex isGraph (sound.nodup g vertices isGraph)
  exact ⟨.done, w', by rw [step, result]; rfl, rfl, sound.follow rep isGraph changes erase_sublist _ rfl left⟩

private theorem vertexEraseLoops_step : w.Stepped address optSpeed (.vertexEraseLoops g v) := by
  obtain ⟨vertices, isGraph, isVertex⟩ := vertices_of_mem isVertex
  obtain ⟨nodes, rep⟩ := sound.represented g vertices isGraph
  obtain ⟨w', result, becomes⟩ := vertexEraseLoops_spec optSpeed rep isVertex
  exact ⟨.done, w', by rw [step, result]; rfl, rfl,
    sound.follow rep isGraph (becomes.changes isGraph) (Sublist.refl _) _ rfl
      (rep.hasArc_filter becomes.frame (fun x y => ¬(x = v ∧ y = v)) fun _ => Iff.rfl)⟩

end

theorem graphEraseLoops_step (live : (w.graph g).vertices.isSome) :
    w.Stepped address optSpeed (.graphEraseLoops g) := by
  obtain ⟨vertices, isGraph⟩ := isSome_iff_exists.mp live
  obtain ⟨nodes, rep⟩ := sound.represented g vertices isGraph
  obtain ⟨w', result, becomes⟩ := graphEraseLoops_spec optSpeed rep isGraph
  exact ⟨.done, w', by rw [step, result]; rfl, rfl,
    sound.follow rep isGraph (becomes.changes isGraph) (Sublist.refl _) _ rfl
      (rep.hasArc_filter becomes.frame (fun x y => x ≠ y) fun _ => ne_comm)⟩

end

theorem hasArc_empty (w : World) : w.HasArc ∅ = fun _ _ => False := by
  funext x y
  simp [HasArc]

theorem graphNew_step (sound : Sound address w) : w.Stepped address optSpeed .graphNew := by
  have graph : (w.graphNew simplearced).graph w.graphCount = ⟨simplearced, some [], 0, 0, ⟨[0], fun _ => 0⟩⟩ :=
    graph_setGraph ..
  have chained : Chained ⟨[0], fun _ => 0⟩ 0 (0 + 1) (fun a => (w.graphNew simplearced).arcHash address a &&& 0) ∅ :=
    chained_empty fun i less => by
      rw [Nat.lt_one_iff.mp less]
      rfl
  have table : Table address (w.graphNew simplearced) ((w.graphNew simplearced).graph w.graphCount) ∅ := by
    rw [graph]
    exact ⟨⟨0, rfl⟩, chained, rfl, by simp⟩
  have changes : Changes address w (w.graphNew simplearced) w.graphCount [] [] ∅ :=
    ⟨⟨table, ⟨by simp, by simp, by simp⟩, by rw [graph]; rfl⟩, ⟨fun _ other => update_of_ne other ..,
      le_rfl, le_rfl, fun _ _ _ => rfl, fun _ _ _ => rfl⟩, by rw [graph]⟩
  obtain ⟨sound', after⟩ := sound.changes changes (by simp) (by simp) nodup_nil
  refine ⟨.done, w.graphNew simplearced, rfl, rfl, sound', ?_⟩
  rw [after, hasArc_empty]
  rfl

theorem vertexNew_step (sound : Sound address w) (live : (w.graph g).vertices.isSome) :
    w.Stepped address optSpeed (.vertexNew g) := by
  obtain ⟨vertices, isGraph⟩ := isSome_iff_exists.mp live
  obtain ⟨nodes, rep⟩ := sound.represented g vertices isGraph
  have older := sound.known g vertices isGraph
  have changes := withVertex_changes rep older
  have new : w.vertexCount ∉ vertices := fun isVertex => lt_irrefl _ (older _ isVertex)
  have apart : ∀ g' others, g' ≠ g → (w.graph g').vertices = some others → ∀ v ∈ others, v ∉ vertices ++ [w.vertexCount] := by
    intro g' others other isGraph' v isOther isVertex
    rcases mem_append.mp isVertex with isVertex | single
    · exact sound.apart g' g others vertices other isGraph' isGraph isOther isVertex
    · exact lt_irrefl _ (List.mem_singleton.mp single ▸ sound.known g' others isGraph' v isOther)
  have known : ∀ v ∈ vertices ++ [w.vertexCount], v ∈ vertices ++ [w.vertexCount] ∧ v < w.vertexCount + 1 := by
    intro v isVertex
    refine ⟨isVertex, ?_⟩
    rcases mem_append.mp isVertex with old | single
    · exact Nat.lt_succ_of_lt (older v old)
    · exact List.mem_singleton.mp single ▸ Nat.lt_succ_self _
  have nodup : (vertices ++ [w.vertexCount]).Nodup :=
    nodup_append.mpr ⟨sound.nodup g vertices isGraph, nodup_singleton _, fun v old u single same =>
      new (List.mem_singleton.mp single ▸ same ▸ old)⟩
  obtain ⟨sound', after⟩ := sound.changes changes apart known nodup
  refine ⟨.done, _, by rw [step, graphVertexNew_eq isGraph]; rfl, rfl, sound', ?_⟩
  rw [after, meaning, rep.digraph_eq isGraph, map_some, Digraph.addVertex]
  have same : (w.withVertex g vertices).HasArc nodes = w.HasArc nodes := rfl
  rw [same]

private theorem graphMerge_eq (ne : dst ≠ src)
    (isDst : (w.graph dst).vertices = some vertices) (isSrc : (w.graph src).vertices = some moved) (nonempty : moved ≠ []) :
    w.graphMerge dst src = some ((w.withoutVertices src).setGraph dst
      { (w.withoutVertices src).graph dst with vertices := some (vertices ++ moved) }) := by
  have swap := fun G G' => update_comm ne G G' w.graph
  rw [graphMerge, isDst, isSrc, bind_eq_bind, bind_some, bind_some, if_neg nonempty]
  simp only [withoutVertices, setGraph, update_of_ne ne, update_of_ne ne.symm, swap]

private theorem graphMerge_step (sound : Sound address w) (ne : dst ≠ src)
    (liveDst : (w.graph dst).vertices.isSome) (liveSrc : (w.graph src).vertices.isSome)
    (noArcs : (w.graph src).arcsetSize = 0) : w.Stepped address optSpeed (.graphMerge dst src) := by
  obtain ⟨vertices, isDst⟩ := isSome_iff_exists.mp liveDst
  obtain ⟨moved, isSrc⟩ := isSome_iff_exists.mp liveSrc
  obtain ⟨nodes, rep⟩ := sound.represented dst vertices isDst
  obtain ⟨nodes', represents'⟩ := sound.represented src moved isSrc
  obtain rfl := card_eq_zero.mp (represents'.table.size.symm.trans noArcs)
  by_cases empty : moved = []
  · refine ⟨.done, w, by rw [step, graphMerge, isDst, isSrc, empty]; rfl, rfl, sound, ?_⟩
    rw [meaning, vertices_eq isSrc, if_pos empty]
  obtain ⟨sound0, forgotten⟩ := sound.withoutVertices src
  have frame := frame_withoutVertices w src
  have represents0 : Represents address (w.withoutVertices src) dst vertices nodes :=
    frame.represents ne (fun _ _ => not_mem_nil) rep
  have isolated : ∀ dir, ∀ v ∈ moved, (w.withoutVertices src).links dir v = [] := by
    intro dir v isVertex
    rw [frame.links dir v not_mem_nil, eq_nil_iff_forall_not_mem]
    intro a inRing
    exact notMem_empty a ((represents'.mem_links isVertex).mp inRing).1
  have new : ∀ v ∈ moved, v ∉ vertices := fun v isMoved isVertex =>
    sound.apart dst src vertices moved ne isDst isSrc isVertex isMoved
  have apart : ∀ g others, g ≠ dst → ((w.withoutVertices src).graph g).vertices = some others →
      ∀ v ∈ others, v ∉ vertices ++ moved := by
    intro g others other isGraph v isOther isVertex
    obtain ⟨notSrc, isGraph⟩ := vertices_withoutVertices isGraph
    rcases mem_append.mp isVertex with isVertex | isMoved
    · exact sound.apart g dst others vertices other isGraph isDst isOther isVertex
    · exact sound.apart g src others moved notSrc isGraph isSrc isOther isMoved
  have known : ∀ v ∈ vertices ++ moved, v ∈ vertices ++ moved ∧ v < w.vertexCount := by
    intro v isVertex
    refine ⟨isVertex, ?_⟩
    rcases mem_append.mp isVertex with isVertex | isMoved
    · exact sound.known dst vertices isDst v isVertex
    · exact sound.known src moved isSrc v isMoved
  have nodup : (vertices ++ moved).Nodup := nodup_append.mpr ⟨sound.nodup dst vertices isDst,
    sound.nodup src moved isSrc, fun v isVertex u isMoved same => new u isMoved (same ▸ isVertex)⟩
  obtain ⟨sound', after⟩ := sound0.changes (moved_changes represents0 isolated new) apart known nodup
  refine ⟨.done, _, by rw [step, graphMerge_eq ne isDst isSrc empty]; rfl, rfl, sound', ?_⟩
  rw [after, forgotten, meaning, vertices_eq isSrc, if_neg empty, rep.digraph_eq isDst,
    represents'.digraph_eq isSrc, hasArc_empty, bind_eq_bind, bind_some, bind_some, Digraph.merge]
  simp only [or_false]
  rfl

private theorem step_spec (optSpeed : Bool) (sound : Sound address w) (legal : w.Legal op) (meets : w.Meets op) :
    w.Stepped address optSpeed op := by
  cases op with
  | graphNew => exact graphNew_step sound
  | vertexNew g => exact vertexNew_step sound legal
  | connect g tail head =>
    obtain ⟨new, a, w', result, ⟨isNew, same, _⟩, after⟩ := connectCustom_step optSpeed sound legal.1 legal.2
    exact ⟨.connected new, w', by rw [step, connect, result]; rfl, ⟨isNew, same⟩, after⟩
  | connectCustom g tail head =>
    obtain ⟨new, a, w', result, replies, after⟩ := connectCustom_step optSpeed sound legal.1 legal.2
    exact ⟨.connectedCustom new a, w', by rw [step, result]; rfl, replies, after⟩
  | disconnect g tail head => exact disconnect_step sound legal.1 head
  | eraseArc g arc =>
    obtain ⟨v, isVertex, inRing⟩ := legal
    exact eraseArc_step sound isVertex inRing
  | eraseVertex g v => exact eraseVertex_step sound legal
  | eliminateVertex g v => exact eliminateVertex_step sound legal
  | vertexEraseLoops g v => exact vertexEraseLoops_step sound legal
  | graphEraseLoops g => exact graphEraseLoops_step sound legal
  | graphMerge dst src => exact graphMerge_step sound legal.1 legal.2.1 legal.2.2 meets

private theorem follows_of_sound (sound : Sound address w) (ops : List Op) (meets : MeetsRun address optSpeed w ops) :
    Follows address optSpeed w ops := by
  induction ops generalizing w with
  | nil => exact sound
  | cons op ops ih =>
    obtain ⟨⟨legal, meets⟩, later⟩ := meets
    obtain ⟨reply, w', result, replies, sound', after⟩ := step_spec optSpeed sound legal meets
    exact ⟨sound, reply, w', result, replies, after, ih sound' (later reply w' result)⟩

/-- In every run where only graphs without arcs are merged into others, the tables are those of the arcs. -/
theorem graphs_follow (address : Vertex → Word) (optSpeed : Bool) (ops : List Op)
    (meets : MeetsRun address optSpeed start ops) : Follows address optSpeed start ops :=
  follows_of_sound (by constructor <;> intros <;> contradiction) ops meets

/-- Memory at multiples of 48 bytes. -/
def spaced (v : Vertex) : Word := BitVec.ofNat 64 (48 * (v + 1))

/-- A graph of one vertex is merged into one with two arcs, of which the later one is then replaced. -/
def growing : List Op :=
  [.graphNew, .vertexNew 0, .vertexNew 0, .connect 0 0 1, .graphNew, .vertexNew 1, .graphMerge 0 1, .connectCustom 0 1 2,
    .eliminateVertex 0 1, .disconnect 0 0 2]

theorem growing_follows : MeetsRun spaced false start growing ∧ Follows spaced false start growing := by
  have meets : MeetsRun spaced false start growing := by
    unfold MeetsRun
    decide +kernel
  exact ⟨meets, graphs_follow spaced false growing meets⟩

theorem Follows.last (follows : Follows address optSpeed w (ops ++ [op])) :
    ∃ w1 reply w', w.run address optSpeed ops = some w1 ∧ w1.step address optSpeed op = some (reply, w') ∧
      Replies w1 w' op reply := by
  induction ops generalizing w with
  | nil =>
    obtain ⟨_, reply, w', result, replies, _⟩ := follows
    exact ⟨w, reply, w', rfl, result, replies⟩
  | cons first ops ih =>
    obtain ⟨_, reply, w1, result, _, _, later⟩ := follows
    obtain ⟨w2, reply', w', before, last⟩ := ih later
    exact ⟨w2, reply', w', by rw [run, result]; exact before, last⟩

/-- A graph with an arc is merged into another. -/
def merging : List Op := [.graphNew, .graphNew, .vertexNew 1, .vertexNew 1, .connect 1 0 1, .graphMerge 0 1]

/-- After the merge the arc is not in the hash table of the graph, and is made again. -/
theorem merging_apart : LegalRun spaced false start (merging ++ [.connect 0 0 1]) ∧
    ¬Follows spaced false start (merging ++ [.connect 0 0 1]) := by
  constructor
  · unfold LegalRun
    decide +kernel
  intro follows
  obtain ⟨w1, reply, w', before, result, replies⟩ := follows.last
  have again : ((start.run spaced false merging).bind fun w => (w.step spaced false (.connect 0 0 1)).map Prod.fst) =
      some (.connected true) := by decide +kernel
  have there : (start.run spaced false merging).all fun w => w.Joins 0 1 := by decide +kernel
  rw [before, bind_some, result] at again
  cases again
  rw [before] at there
  exact Bool.noConfusion (replies.1.mpr (of_decide_eq_true there))

end Culibs.Cugra.World
