import Culibs.Cugra.Graph.Loops

namespace Culibs.Cugra.World

open List Finset

variable {address : Vertex → Word} {w w' w1 : World} {nodes nodes' nodes1 : Finset Arc} {vertices : List Vertex}
  {a : Arc} {tail head v x y : Vertex} {g : Nat} {dir : Direction} {P P' : Vertex → Vertex → Prop}

theorem Becomes.arcTail (becomes : Becomes address w w' g vertices nodes') (known : a ≤ w.arcCount) :
    w'.arcTail a = w.arcTail a :=
  becomes.frame.base known .directionOut

theorem Becomes.arcHead (becomes : Becomes address w w' g vertices nodes') (known : a ≤ w.arcCount) :
    w'.arcHead a = w.arcHead a :=
  becomes.frame.base known .directionIn

theorem hasArc_congr (tails : ∀ a ∈ nodes, w'.arcTail a = w.arcTail a) (heads : ∀ a ∈ nodes, w'.arcHead a = w.arcHead a) :
    w'.HasArc nodes x y ↔ w.HasArc nodes x y := by
  constructor
  · rintro ⟨a, mem, isTail, isHead⟩
    exact ⟨a, mem, (tails a mem).symm.trans isTail, (heads a mem).symm.trans isHead⟩
  · rintro ⟨a, mem, isTail, isHead⟩
    exact ⟨a, mem, (tails a mem).trans isTail, (heads a mem).trans isHead⟩

theorem Represents.hasArc_becomes (rep : Represents address w g vertices nodes)
    (becomes : Becomes address w w' g vertices nodes') : w'.HasArc nodes x y ↔ w.HasArc nodes x y :=
  hasArc_congr (fun _ mem => becomes.arcTail (rep.adjacent.known _ mem))
    fun _ mem => becomes.arcHead (rep.adjacent.known _ mem)

theorem hasArc_insert : w.HasArc (insert a nodes) x y ↔ w.HasArc nodes x y ∨ w.arcTail a = x ∧ w.arcHead a = y := by
  constructor
  · rintro ⟨b, mem, ends⟩
    rcases mem_insert.mp mem with rfl | mem
    · exact Or.inr ends
    · exact Or.inl ⟨b, mem, ends⟩
  · rintro (⟨b, mem, ends⟩ | ends)
    · exact ⟨b, mem_insert_of_mem mem, ends⟩
    · exact ⟨a, mem_insert_self .., ends⟩

theorem Represents.hasArc_filter [DecidablePred p]
    (rep : Represents address w g vertices nodes) (frame : Frame w w' g touched) (q : Vertex → Vertex → Prop)
    (same : ∀ a, p a ↔ q (w.arcTail a) (w.arcHead a)) (x y : Vertex) :
    w'.HasArc (nodes.filter p) x y ↔ w.HasArc nodes x y ∧ q x y := by
  have tails {a} (mem : a ∈ nodes) : w'.arcTail a = w.arcTail a :=
    frame.base (rep.adjacent.known a mem) .directionOut
  have heads {a} (mem : a ∈ nodes) : w'.arcHead a = w.arcHead a :=
    frame.base (rep.adjacent.known a mem) .directionIn
  constructor
  · rintro ⟨a, mem, rfl, rfl⟩
    obtain ⟨mem, keeps⟩ := mem_filter.mp mem
    rw [tails mem, heads mem]
    exact ⟨⟨a, mem, rfl, rfl⟩, (same a).mp keeps⟩
  · rintro ⟨⟨a, mem, rfl, rfl⟩, keeps⟩
    exact ⟨a, mem_filter.mpr ⟨mem, (same a).mpr keeps⟩, tails mem, heads mem⟩

/-- What an operation does that only adds arcs, none of them at a vertex. -/
structure Adding (address : Vertex → Word) (w : World) (g : Nat) (vertices : List Vertex) (nodes : Finset Arc)
    (v : Vertex) (P : Vertex → Vertex → Prop) (w' : World) (nodes' : Finset Arc) : Prop where
  becomes : Becomes address w w' g vertices nodes'
  subset : nodes ⊆ nodes'
  links : ∀ dir, w'.links dir v = w.links dir v
  hasArc : ∀ x y, w'.HasArc nodes' x y ↔ w.HasArc nodes x y ∨ P x y

theorem Adding.trans (first : Adding address w g vertices nodes v P w1 nodes1)
    (second : Adding address w1 g vertices nodes1 v P' w' nodes') :
    Adding address w g vertices nodes v (fun x y => P x y ∨ P' x y) w' nodes' :=
  ⟨first.becomes.trans second.becomes, Subset.trans first.subset second.subset,
    fun dir => (second.links dir).trans (first.links dir), fun x y => by rw [second.hasArc, first.hasArc, or_assoc]⟩

theorem Adding.congr (adding : Adding address w g vertices nodes v P w' nodes') (same : ∀ x y, P x y ↔ P' x y) :
    Adding address w g vertices nodes v P' w' nodes' :=
  ⟨adding.becomes, adding.subset, adding.links, fun x y => by rw [adding.hasArc, same]⟩

theorem addLoop_spec (body : World → Arc → Option World) (P : Arc → Vertex → Vertex → Prop)
    (rep : Represents address w g vertices nodes) (isVertex : v ∈ vertices) (dir : Direction)
    (isBody : ∀ w1 nodes1 Q, Adding address w g vertices nodes v Q w1 nodes1 → ∀ a ∈ w.links dir v,
      ∃ w' nodes', body w1 a = some w' ∧ Adding address w1 g vertices nodes1 v (P a) w' nodes') :
    ∃ w' nodes', forArcs body dir v ((w.links dir v).length + 1) (w.arcsBegin dir v) w = some w' ∧
      Adding address w g vertices nodes v (fun x y => ∃ a ∈ w.links dir v, P a x y) w' nodes' := by
  have nodup := (rep.adjacent.links dir v isVertex).1
  obtain ⟨w', done, nodes', before, isRing, adding⟩ := forArcs_spec
    (fun left w' => ∃ nodes' before, w.links dir v = before ++ left ∧
      Adding address w g vertices nodes v (fun x y => ∃ a ∈ before, P a x y) w' nodes')
    (fun a rest w1 ⟨nodes1, before, isRing, adding⟩ => by
      obtain ⟨w', nodes', result, adding'⟩ := isBody w1 nodes1 _ adding a (by rw [isRing]; simp)
      have unchanged : w'.links dir v = w.links dir v := (adding'.links dir).trans (adding.links dir)
      refine ⟨w', result, arcsNext_eq (unchanged.trans isRing) (unchanged ▸ nodup), nodes', before ++ [a],
        by rw [isRing, append_cons], (adding.trans adding').congr fun x y => ?_⟩
      simp [or_and_right, exists_or])
    (w.links dir v) ⟨nodes, [], rfl, rep.becomes, Subset.refl _, fun _ => rfl, by simp⟩
    (Nat.lt_succ_self _)
  rw [append_nil] at isRing
  exact ⟨w', nodes', done, isRing ▸ adding⟩

theorem Represents.mem_links (rep : Represents address w g vertices nodes) (isVertex : v ∈ vertices) :
    a ∈ w.links dir v ↔ a ∈ nodes ∧ w.base dir a = v :=
  (rep.adjacent.links dir v isVertex).2 a

section

variable (optSpeed : Bool) (rep : Represents address w g vertices nodes)

include rep

/-- An arc between neighbours of a vertex is never new at that vertex. -/
theorem connect_adding (toV : w.HasArc nodes tail v) (fromV : w.HasArc nodes v head) :
    ∃ w' nodes', (w.connect address optSpeed g tail head).map Prod.snd = some w' ∧
      Adding address w g vertices nodes v (fun x y => tail = x ∧ head = y) w' nodes' := by
  have tailIn : tail ∈ vertices := by
    obtain ⟨b, mem, rfl, _⟩ := toV
    exact rep.adjacent.ends b mem .directionOut
  have headIn : head ∈ vertices := by
    obtain ⟨b, mem, _, rfl⟩ := fromV
    exact rep.adjacent.ends b mem .directionIn
  obtain ⟨new, a, w', result, becomes, _, present, isTail, isHead, same, links⟩ :=
    connectCustom_spec optSpeed rep tailIn headIn
  refine ⟨w', insert a nodes, by rw [connect, result]; rfl, becomes, subset_insert .., fun dir => ?_, fun x y => ?_⟩
  · by_cases here : v = newBase tail head dir
    · have there : w.HasArc nodes tail head := by
        cases dir with
        | directionOut => exact (show v = tail from here) ▸ fromV
        | directionIn => exact (show v = head from here) ▸ toV
      rw [(same (present.mpr there)).2]
    · exact links dir v here
  · rw [hasArc_insert, rep.hasArc_becomes becomes, isTail, isHead]

private theorem connectHeads_spec (isVertex : v ∈ vertices) (toV : w.HasArc nodes tail v) :
    ∃ w' nodes', w.connectHeads address optSpeed g v tail (fun _ _ => true) = some w' ∧
      Adding address w g vertices nodes v (fun x y => tail = x ∧ w.HasArc nodes v y) w' nodes' := by
  have outArc {a} (inRing : a ∈ w.links .directionOut v) : a ∈ nodes ∧ w.arcTail a = v :=
    (rep.mem_links isVertex).mp inRing
  obtain ⟨w', nodes', done, adding⟩ := addLoop_spec
    (fun w out => if true then (w.connect address optSpeed g tail (w.arcHead out)).map Prod.snd else some w)
    (fun a x y => tail = x ∧ w.arcHead a = y) rep isVertex .directionOut
    (fun w1 nodes1 Q adding a inRing => by
      obtain ⟨mem, isTail⟩ := outArc inRing
      have known := rep.adjacent.known a mem
      have sameHead : w1.arcHead a = w.arcHead a := adding.becomes.arcHead known
      have before {x y} (there : w.HasArc nodes x y) : w1.HasArc nodes1 x y := (adding.hasArc x y).mpr (Or.inl there)
      rw [if_pos rfl, sameHead]
      exact connect_adding optSpeed adding.becomes.represents (before toV) (before ⟨a, mem, isTail, rfl⟩))
  refine ⟨w', nodes', done, adding.congr fun x y => ?_⟩
  constructor
  · rintro ⟨a, inRing, sameTail, sameHead⟩
    obtain ⟨mem, isTail⟩ := outArc inRing
    exact ⟨sameTail, a, mem, isTail, sameHead⟩
  · rintro ⟨sameTail, a, mem, isTail, sameHead⟩
    exact ⟨a, (rep.mem_links isVertex).mpr ⟨mem, isTail⟩, sameTail, sameHead⟩

private theorem connectNeighbours_spec (isVertex : v ∈ vertices) (body : World → Arc → Option World)
    (isBody : ∀ w a, (w.graph g).gflags.simplearced →
      body w a = w.connectHeads address optSpeed g v (w.arcTail a) fun _ _ => true) :
    ∃ w' nodes', forArcs body .directionIn v ((w.links .directionIn v).length + 1) (w.arcsBegin .directionIn v) w = some w' ∧
      Adding address w g vertices nodes v (fun x y => w.HasArc nodes x v ∧ w.HasArc nodes v y) w' nodes' := by
  have inArc {a} (inRing : a ∈ w.links .directionIn v) : a ∈ nodes ∧ w.arcHead a = v :=
    (rep.mem_links isVertex).mp inRing
  obtain ⟨w', nodes', done, adding⟩ := addLoop_spec body (fun a x y => w.arcTail a = x ∧ w.HasArc nodes v y) rep
    isVertex .directionIn (fun w1 nodes1 Q adding a inRing => by
      obtain ⟨mem, isHead⟩ := inArc inRing
      have known := rep.adjacent.known a mem
      have sameTail : w1.arcTail a = w.arcTail a := adding.becomes.arcTail known
      have toV : w1.HasArc nodes1 (w.arcTail a) v := (adding.hasArc _ _).mpr (Or.inl ⟨a, mem, rfl, isHead⟩)
      obtain ⟨w2, nodes2, result, adding'⟩ := connectHeads_spec optSpeed adding.becomes.represents isVertex toV
      refine ⟨w2, nodes2, ?_, adding'.congr fun x y => and_congr_right fun _ => ?_⟩
      · rw [isBody w1 a (by rw [adding.becomes.represents.simplearced]), sameTail]
        exact result
      -- The arcs of the vertex are those from before.
      have sameLinks : ∀ b, b ∈ nodes1 ∧ w1.arcTail b = v ↔ b ∈ nodes ∧ w.arcTail b = v := fun b =>
        (adding.becomes.represents.adjacent.links .directionOut v isVertex).2 b |>.symm.trans
          (adding.links .directionOut ▸ rep.mem_links isVertex)
      constructor
      · rintro ⟨b, inside, isTail, isHead⟩
        obtain ⟨inside, isTail⟩ := (sameLinks b).mp ⟨inside, isTail⟩
        exact ⟨b, inside, isTail, (adding.becomes.arcHead (rep.adjacent.known b inside)).symm.trans isHead⟩
      · rintro ⟨b, inside, isTail, isHead⟩
        obtain ⟨inside', isTail'⟩ := (sameLinks b).mpr ⟨inside, isTail⟩
        exact ⟨b, inside', isTail', (adding.becomes.arcHead (rep.adjacent.known b inside)).trans isHead⟩)
  refine ⟨w', nodes', done, adding.congr fun x y => ?_⟩
  constructor
  · rintro ⟨a, inRing, isTail, fromV⟩
    exact ⟨⟨a, (inArc inRing).1, isTail, (inArc inRing).2⟩, fromV⟩
  · rintro ⟨⟨a, mem, isTail, isHead⟩, fromV⟩
    exact ⟨a, (rep.mem_links isVertex).mpr ⟨mem, isHead⟩, isTail, fromV⟩

theorem disconnect_spec (tail head : Vertex) :
    ∃ n w', w.disconnect address optSpeed g tail head = some (n, w') ∧
      Becomes address w w' g vertices (nodes.filter fun a => ¬(w.arcTail a = tail ∧ w.arcHead a = head)) ∧
      n = (nodes.filter fun a => w.arcTail a = tail ∧ w.arcHead a = head).card := by
  have unfolded : w.disconnect address optSpeed g tail head = w.arcsetErase address optSpeed g tail head := by
    rw [disconnect, rep.simplearced, swapped_eq rep]
    rfl
  rw [unfolded]
  by_cases present : w.HasArc nodes tail head
  · obtain ⟨a, mem, isTail, isHead⟩ := present
    obtain ⟨w', result, becomes, _⟩ := arcsetErase_present optSpeed rep mem isTail isHead
    have only : ∀ b ∈ nodes, (w.arcTail b = tail ∧ w.arcHead b = head) ↔ b = a := fun b inside =>
      ⟨fun ⟨tailB, headB⟩ => rep.table.single b inside a mem (tailB.trans isTail.symm) (headB.trans isHead.symm),
        fun same => same ▸ ⟨isTail, isHead⟩⟩
    refine ⟨1, w', result, ?_, ?_⟩
    · rw [filter_congr fun b inside => not_congr (only b inside), filter_ne']
      exact becomes
    · rw [filter_congr only, filter_eq', if_pos mem, card_singleton]
  · have absent : ∀ a ∈ nodes, ¬(w.arcTail a = tail ∧ w.arcHead a = head) := fun a mem ends => present ⟨a, mem, ends⟩
    refine ⟨0, w, arcsetErase_absent optSpeed rep fun a mem isTail isHead => absent a mem ⟨isTail, isHead⟩,
      ?_, ?_⟩
    · rw [filter_true_of_mem absent]
      exact rep.becomes
    · rw [filter_false_of_mem absent, card_empty]

theorem vertexEraseLoops_spec (isVertex : v ∈ vertices) :
    ∃ w', w.vertexEraseLoops address optSpeed g v = some w' ∧
      Becomes address w w' g vertices (nodes.filter fun a => ¬(w.arcTail a = v ∧ w.arcHead a = v)) := by
  obtain ⟨w', done, becomes⟩ := eraseLoop_spec optSpeed rep isVertex .directionOut (fun a => w.arcHead a = v)
    (fun w a => if w.arcHead a = v then w.eraseArc address optSpeed g a else some w)
    fun w1 nodes1 becomes subset a mem => by
      rw [becomes.arcHead (rep.adjacent.known a (subset mem))]
      simp
  refine ⟨w', done, ?_⟩
  simpa only [base, decide_eq_true_eq] using becomes

private theorem eraseLoopsFold_spec (left : List Vertex) (areVertices : ∀ v ∈ left, v ∈ vertices) :
    ∃ w', left.foldlM (fun w v => w.vertexEraseLoops address optSpeed g v) w = some w' ∧
      Becomes address w w' g vertices (nodes.filter fun a => ¬(w.arcTail a ∈ left ∧ w.arcHead a = w.arcTail a)) := by
  induction left generalizing w nodes with
  | nil => exact ⟨w, rfl, by simpa using rep.becomes⟩
  | cons v left ih =>
    obtain ⟨w1, first, becomes⟩ := vertexEraseLoops_spec optSpeed rep (areVertices v mem_cons_self)
    obtain ⟨w', later, becomes'⟩ := ih becomes.represents fun u inside => areVertices u (mem_cons_of_mem v inside)
    refine ⟨w', ?_, ?_⟩
    · rw [foldlM_cons, first]
      exact later
    have same : ∀ a ∈ nodes, (¬(w.arcTail a = v ∧ w.arcHead a = v) ∧
        ¬(w1.arcTail a ∈ left ∧ w1.arcHead a = w1.arcTail a)) ↔
        ¬(w.arcTail a ∈ v :: left ∧ w.arcHead a = w.arcTail a) := by
      intro a mem
      have known := rep.adjacent.known a mem
      rw [becomes.arcTail known, becomes.arcHead known, List.mem_cons]
      grind
    rw [← Finset.filter_congr same, ← Finset.filter_filter]
    exact becomes.trans becomes'

theorem graphEraseLoops_spec (isGraph : (w.graph g).vertices = some vertices) :
    ∃ w', w.graphEraseLoops address optSpeed g = some w' ∧
      Becomes address w w' g vertices (nodes.filter fun a => w.arcHead a ≠ w.arcTail a) := by
  obtain ⟨w', done, becomes⟩ := eraseLoopsFold_spec optSpeed rep vertices fun _ inside => inside
  refine ⟨w', by rw [graphEraseLoops, isGraph]; exact done, ?_⟩
  have same : ∀ a ∈ nodes, w.arcHead a ≠ w.arcTail a ↔ ¬(w.arcTail a ∈ vertices ∧ w.arcHead a = w.arcTail a) :=
    fun a mem => not_congr (and_iff_right (rep.adjacent.ends a mem .directionOut)).symm
  rw [filter_congr same]
  exact becomes

end

/-- What an operation does that may also change the vertices of a graph. -/
structure Changes (address : Vertex → Word) (w w' : World) (g : Nat) (vertices vertices' : List Vertex)
    (nodes' : Finset Arc) : Prop where
  represents : Represents address w' g vertices' nodes'
  frame : Frame w w' g vertices
  isGraph : (w'.graph g).vertices = some vertices'

theorem Becomes.changes (becomes : Becomes address w w' g vertices nodes') (isGraph : (w.graph g).vertices = some vertices) :
    Changes address w w' g vertices vertices nodes' :=
  ⟨becomes.represents, becomes.frame, becomes.vertices.trans isGraph⟩

theorem Represents.setVertices (rep : Represents address w g vertices nodes) (linked : Option (List Vertex)) :
    Represents address (w.setGraph g { w.graph g with vertices := linked }) g vertices nodes := by
  obtain ⟨capacity, chained, size, single⟩ := rep.table
  refine ⟨?_, rep.adjacent.setGraph g _, ?_⟩
  · rw [graph_setGraph]
    exact ⟨capacity, chained, size, single⟩
  · rw [graph_setGraph]
    exact rep.simplearced

section

variable (optSpeed : Bool) (rep : Represents address w g vertices nodes) (isVertex : v ∈ vertices)

include rep isVertex

private theorem eraseArcs_spec (isGraph : (w.graph g).vertices = some linked) (dir : Direction) :
    ∃ w', w.eraseArcs address optSpeed g v dir = some w' ∧
      Represents address w' g vertices (nodes.filter fun a => w.base dir a ≠ v) ∧ Frame w w' g vertices ∧
      (w'.graph g).vertices = some (linked.erase v) := by
  have represents' := rep.setVertices (some (linked.erase v))
  obtain ⟨w', done, becomes⟩ := eraseLoop_spec optSpeed represents' isVertex dir (fun _ => true)
    (fun w a => w.eraseArc address optSpeed g a) fun w1 nodes1 _ _ a _ => (if_pos rfl).symm
  have sameBase (a) : (w.setGraph g { w.graph g with vertices := some (linked.erase v) }).base dir a = w.base dir a := by
    cases dir <;> rfl
  simp only [sameBase, and_true] at becomes
  refine ⟨w', ?_, becomes.represents, (frame_setGraph w g _ vertices).trans becomes.frame, ?_⟩
  · rw [eraseArcs, unlinkVertex, isGraph]
    exact done
  · rw [becomes.vertices, graph_setGraph]

theorem eraseVertex_spec (isGraph : (w.graph g).vertices = some vertices) (nodup : vertices.Nodup) :
    ∃ w', w.eraseVertex address optSpeed g v = some w' ∧
      Changes address w w' g vertices (vertices.erase v) (nodes.filter fun a => w.arcTail a ≠ v ∧ w.arcHead a ≠ v) := by
  obtain ⟨w1, first, represents1, frame1, isGraph1⟩ := eraseArcs_spec optSpeed rep isVertex isGraph .directionOut
  obtain ⟨w', second, represents', frame', isGraph'⟩ :=
    eraseArcs_spec optSpeed represents1 isVertex isGraph1 .directionIn
  have frame := frame1.trans frame'
  have same : ∀ a ∈ nodes, (w.base .directionOut a ≠ v ∧ w1.base .directionIn a ≠ v) ↔
      (w.arcTail a ≠ v ∧ w.arcHead a ≠ v) := by
    intro a mem
    rw [frame1.base (rep.adjacent.known a mem)]
    rfl
  rw [Finset.filter_filter, Finset.filter_congr same] at represents'
  have gone : v ∉ vertices.erase v := nodup.not_mem_erase
  refine ⟨w', by rw [eraseVertex, first]; exact second, ?_, frame, ?_⟩
  · refine (fun ends => ⟨represents'.table, ⟨represents'.adjacent.known, ends, fun dir v inside =>
      represents'.adjacent.links dir v ((fun u inside => List.mem_of_mem_erase inside) v inside)⟩,
      represents'.simplearced⟩) fun a mem dir => ?_
    obtain ⟨mem, tailAway, headAway⟩ := Finset.mem_filter.mp mem
    rw [nodup.mem_erase_iff, frame.base (rep.adjacent.known a mem)]
    refine ⟨?_, rep.adjacent.ends a mem dir⟩
    cases dir with
    | directionOut => exact tailAway
    | directionIn => exact headAway
  · rw [isGraph', erase_of_not_mem gone]

theorem eliminateVertex_spec (isGraph : (w.graph g).vertices = some vertices) (nodup : vertices.Nodup) :
    ∃ w' nodes', w.eliminateVertex address optSpeed g v = some w' ∧
      Changes address w w' g vertices (vertices.erase v) nodes' ∧
      ∀ x y, w'.HasArc nodes' x y ↔
        (w.HasArc nodes x y ∨ w.HasArc nodes x v ∧ w.HasArc nodes v y) ∧ x ≠ v ∧ y ≠ v := by
  obtain ⟨w1, nodes1, first, adding⟩ := connectNeighbours_spec optSpeed rep isVertex
    (fun w arcIn =>
      let tail := w.arcTail arcIn
      if (w.graph g).gflags.simplearced then w.connectHeads address optSpeed g v tail fun _ _ => true
      else
        let heads := (w.links .directionOut tail).map w.arcHead
        w.connectHeads address optSpeed g v tail fun _ head => head ∉ heads) fun w a simple => if_pos simple
  obtain ⟨w', second, changes⟩ := eraseVertex_spec optSpeed adding.becomes.represents isVertex
    (adding.becomes.vertices.trans isGraph) nodup
  refine ⟨w', _, by rw [eliminateVertex, first]; exact second,
    ⟨changes.represents, adding.becomes.frame.trans changes.frame, changes.isGraph⟩, fun x y => ?_⟩
  rw [← adding.hasArc]
  exact adding.becomes.represents.hasArc_filter changes.frame (fun x y => x ≠ v ∧ y ≠ v) (fun _ => Iff.rfl) x y

end

theorem Represents.grow
    (rep : Represents address w g vertices nodes) (graph : w'.graph g = { w.graph g with vertices := linked })
    (adj : w'.adj = w.adj) (arcCount : w'.arcCount = w.arcCount)
    (links : ∀ dir, ∀ v ∈ vertices, w'.links dir v = w.links dir v) (isolated : ∀ dir, ∀ v ∈ more, w'.links dir v = [])
    (new : ∀ v ∈ more, v ∉ vertices) : Represents address w' g (vertices ++ more) nodes := by
  have base (dir) (a) : w'.base dir a = w.base dir a := by
    cases dir <;> simp only [World.base, World.arcTail, World.arcHead, adj]
  obtain ⟨capacity, chained, size, single⟩ := rep.table
  have table : Table address w { w.graph g with vertices := linked } nodes := ⟨capacity, chained, size, single⟩
  refine ⟨?_, ⟨fun a mem => ?_, fun a mem dir => ?_, fun dir v isVertex => ?_⟩, ?_⟩
  · rw [graph]
    exact table.congr fun a _ dir => base dir a
  · rw [arcCount]
    exact rep.adjacent.known a mem
  · rw [base]
    exact mem_append_left more (rep.adjacent.ends a mem dir)
  · rcases mem_append.mp isVertex with old | inMore
    · simp only [links dir v old, base]
      exact rep.adjacent.links dir v old
    · rw [isolated dir v inMore]
      refine ⟨nodup_nil, fun a => iff_of_false not_mem_nil ?_⟩
      rintro ⟨mem, rfl⟩
      rw [base] at inMore
      exact new _ inMore (rep.adjacent.ends a mem dir)
  · rw [graph]
    exact rep.simplearced

/-- The state after a new vertex. -/
def withVertex (w : World) (g : Nat) (vertices : List Vertex) : World :=
  let w1 := w.setGraph g { w.graph g with vertices := some (vertices ++ [w.vertexCount]) }
  { (w1.setLinks .directionOut w.vertexCount []).setLinks .directionIn w.vertexCount [] with
    vertexCount := w.vertexCount + 1 }

theorem graphVertexNew_eq (isGraph : (w.graph g).vertices = some vertices) :
    w.graphVertexNew g = some (w.withVertex g vertices) := by
  rw [graphVertexNew, isGraph]
  rfl

theorem links_withVertex (dir : Direction) (v : Vertex) :
    (w.withVertex g vertices).links dir v = if v = w.vertexCount then [] else w.links dir v := by
  unfold withVertex
  change (((w.setGraph g _).setLinks _ _ _).setLinks _ _ _).links dir v = _
  rw [links_setLinks, links_setLinks]
  cases dir <;> by_cases new : v = w.vertexCount <;> simp [new, setGraph]

theorem withVertex_changes (rep : Represents address w g vertices nodes)
    (older : ∀ v ∈ vertices, v < w.vertexCount) :
    Changes address w (w.withVertex g vertices) g (vertices ++ [w.vertexCount]) (vertices ++ [w.vertexCount]) nodes := by
  have graph : (w.withVertex g vertices).graph g = { w.graph g with vertices := some (vertices ++ [w.vertexCount]) } :=
    graph_setGraph ..
  refine ⟨rep.grow graph rfl rfl (fun dir v old => ?_) (fun dir v single => ?_) fun v single old => ?_,
    ⟨fun _ other => Function.update_of_ne other .., Nat.le_succ _, le_rfl, fun _ _ _ => rfl,
      fun dir v outside => ?_⟩, by rw [graph]⟩
  · rw [links_withVertex, if_neg (ne_of_lt (older v old))]
  · rw [links_withVertex, if_pos (List.mem_singleton.mp single)]
  · exact lt_irrefl _ (List.mem_singleton.mp single ▸ older v old)
  · rw [links_withVertex, if_neg]
    rintro rfl
    exact outside (mem_append_right _ (List.mem_singleton_self _))

/-- The vertices of a graph without arcs have been linked to a graph. -/
theorem moved_changes (rep : Represents address w g vertices nodes)
    (isolated : ∀ dir, ∀ v ∈ moved, w.links dir v = []) (new : ∀ v ∈ moved, v ∉ vertices) :
    Changes address w (w.setGraph g { w.graph g with vertices := some (vertices ++ moved) }) g (vertices ++ moved)
      (vertices ++ moved) nodes := by
  have graph := graph_setGraph w g { w.graph g with vertices := some (vertices ++ moved) }
  exact ⟨rep.grow graph rfl rfl (fun _ _ _ => rfl) isolated new, frame_setGraph w g _ _, by rw [graph]⟩

end Culibs.Cugra.World
