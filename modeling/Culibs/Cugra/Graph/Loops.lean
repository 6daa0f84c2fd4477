import Culibs.Cugra.Graph.Update

namespace Culibs.Cugra.World

open List Option Nat Finset

variable {address : Vertex → Word} {w w' w1 : World} {nodes : Finset Arc} {vertices : List Vertex}
  {a b : Arc} {tail head v : Vertex} {g fuel : Nat} {dir : Direction} {kept rest ring : List Arc}
  {body : World → Arc → Option World}

theorem swapped_eq (rep : Represents address w g vertices nodes) :
    w.swapped address g tail head = (tail, head) := by
  rw [swapped, rep.simplearced]
  simp

/-- There is an arc from one vertex to another. -/
def HasArc (w : World) (nodes : Finset Arc) (tail head : Vertex) : Prop :=
  ∃ a ∈ nodes, w.arcTail a = tail ∧ w.arcHead a = head

/-- The arc is there afterwards, and was there before if and only if the result is false. -/
theorem connectCustom_spec (optSpeed : Bool) (rep : Represents address w g vertices nodes) (tailIn : tail ∈ vertices)
    (headIn : head ∈ vertices) :
    ∃ new a w', w.connectCustom address optSpeed g tail head = some ((new, a), w') ∧
      Becomes address w w' g vertices (insert a nodes) ∧ (new = false ↔ a ∈ nodes) ∧
      (a ∈ nodes ↔ w.HasArc nodes tail head) ∧ w'.arcTail a = tail ∧ w'.arcHead a = head ∧
      (a ∈ nodes → w'.adj = w.adj ∧ w'.links = w.links) ∧
      ∀ dir v, v ≠ newBase tail head dir → w'.links dir v = w.links dir v := by
  have unfolded : w.connectCustom address optSpeed g tail head = w.arcsetInsert address optSpeed g tail head := by
    rw [connectCustom, rep.simplearced, swapped_eq rep]
    rfl
  rw [unfolded]
  by_cases present : w.HasArc nodes tail head
  · obtain ⟨a, mem, isTail, isHead⟩ := present
    obtain ⟨w', result, becomes, adj, links⟩ := arcsetInsert_present optSpeed rep mem isTail isHead
    refine ⟨false, a, w', result, by rwa [insert_eq_of_mem mem], iff_of_true rfl mem,
      iff_of_true mem ⟨a, mem, isTail, isHead⟩, ?_, ?_, fun _ => ⟨adj, links⟩, fun dir v _ => by rw [links]⟩
    · rw [arcTail, adj]
      exact isTail
    · rw [arcHead, adj]
      exact isHead
  · have absent : ∀ a ∈ nodes, w.arcTail a = tail → w.arcHead a ≠ head := fun a mem isTail isHead =>
      present ⟨a, mem, isTail, isHead⟩
    obtain ⟨w', result, becomes, base, links⟩ := arcsetInsert_absent optSpeed rep tailIn headIn absent
    have fresh := rep.adjacent.fresh
    exact ⟨true, w.arcCount + 1, w', result, becomes, iff_of_false Bool.noConfusion fresh, iff_of_false fresh present,
      base .directionOut, base .directionIn, fun mem => absurd mem fresh, links⟩

theorem eraseArc_spec (optSpeed : Bool) (rep : Represents address w g vertices nodes) (mem : a ∈ nodes) :
    ∃ w', w.eraseArc address optSpeed g a = some w' ∧ Becomes address w w' g vertices (nodes.erase a) ∧
      ∀ dir v, w'.links dir v = if v = w.base dir a then (w.links dir v).erase a else w.links dir v := by
  obtain ⟨w', result, becomes, links⟩ := arcsetErase_present optSpeed rep mem rfl rfl
  refine ⟨w', ?_, becomes, links⟩
  rw [eraseArc, rep.simplearced, result]
  rfl

theorem arcsNext_eq (split : w.links dir v = kept ++ a :: rest) (nodup : (w.links dir v).Nodup) :
    w.arcsNext dir v a = rest.head? := by
  rw [split] at nodup
  have notBefore : a ∉ kept := fun mem => (nodup_append.mp nodup).2.2 a mem a mem_cons_self rfl
  rw [arcsNext, split]
  clear split nodup
  induction kept with
  | nil => simp
  | cons b kept ih =>
    obtain ⟨ne, notBefore⟩ := not_or.mp (mt List.mem_cons.mpr notBefore)
    rw [cons_append, dropWhile_cons_of_pos (by simpa using Ne.symm ne)]
    exact ih notBefore

theorem forArcs_spec (Q : List Arc → World → Prop)
    (step : ∀ a rest w, Q (a :: rest) w → ∃ w', body w a = some w' ∧ w'.arcsNext dir v a = rest.head? ∧ Q rest w')
    (ring : List Arc) (start : Q ring w) (enough : ring.length < fuel) :
    ∃ w', forArcs body dir v fuel ring.head? w = some w' ∧ Q [] w' := by
  induction ring generalizing w fuel with
  | nil =>
    obtain ⟨less, rfl⟩ := exists_eq_add_one_of_ne_zero (ne_zero_of_lt enough)
    exact ⟨w, rfl, start⟩
  | cons a rest ih =>
    obtain ⟨less, rfl⟩ := exists_eq_add_one_of_ne_zero (ne_zero_of_lt enough)
    obtain ⟨w1, first, next, then'⟩ := step a rest w start
    obtain ⟨w', later, final⟩ := ih then' (lt_of_succ_lt_succ enough)
    refine ⟨w', ?_, final⟩
    rw [head?_cons, forArcs, first, bind_eq_bind, bind_some, next]
    exact later

theorem forArcsErasing_spec (Q : List Arc → World → Prop)
    (step : ∀ a rest w, Q (a :: rest) w → w.arcsNext dir v a = rest.head? ∧ ∃ w', body w a = some w' ∧ Q rest w')
    (ring : List Arc) (start : Q ring w) (enough : ring.length < fuel) :
    ∃ w', forArcsErasing body dir v fuel ring.head? w = some w' ∧ Q [] w' := by
  induction ring generalizing w fuel with
  | nil =>
    obtain ⟨less, rfl⟩ := exists_eq_add_one_of_ne_zero (ne_zero_of_lt enough)
    exact ⟨w, rfl, start⟩
  | cons a rest ih =>
    obtain ⟨less, rfl⟩ := exists_eq_add_one_of_ne_zero (ne_zero_of_lt enough)
    obtain ⟨next, w1, first, then'⟩ := step a rest w start
    obtain ⟨w', later, final⟩ := ih then' (lt_of_succ_lt_succ enough)
    refine ⟨w', ?_, final⟩
    rw [head?_cons, forArcsErasing, next, first, bind_eq_bind, bind_some]
    exact later

/-- What a loop has done that erases some arcs of a vertex, before the arcs that are left. -/
structure Erasing (address : Vertex → Word) (w : World) (g : Nat) (vertices : List Vertex) (nodes : Finset Arc)
    (dir : Direction) (v : Vertex) (chosen : Arc → Bool) (left : List Arc) (w' : World) (nodes' : Finset Arc) : Prop where
  becomes : Becomes address w w' g vertices nodes'
  subset : nodes' ⊆ nodes
  erased : ∀ a ∈ nodes, a ∉ nodes' → w.base dir a = v ∧ chosen a
  ring : ∃ kept, w'.links dir v = kept ++ left ∧ ∀ a ∈ kept, ¬chosen a

section Erasing

variable {nodes' : Finset Arc} {chosen : Arc → Bool}

theorem Erasing.next (optSpeed : Bool) (isVertex : v ∈ vertices) (known : ∀ a ∈ nodes, a ≤ w.arcCount)
    (erasing : Erasing address w g vertices nodes dir v chosen (a :: rest) w1 nodes')
    (isBody : a ∈ nodes' → body w1 a = if chosen a then w1.eraseArc address optSpeed g a else some w1) :
    w1.arcsNext dir v a = rest.head? ∧
      ∃ w', body w1 a = some w' ∧ ∃ nodes', Erasing address w g vertices nodes dir v chosen rest w' nodes' := by
  obtain ⟨kept, isRing, others⟩ := erasing.ring
  obtain ⟨nodup, members⟩ := erasing.becomes.represents.adjacent.links dir v isVertex
  obtain ⟨mem, isBase⟩ := (members a).mp (by simp [isRing])
  have oldBase := erasing.becomes.frame.base (known a (erasing.subset mem)) dir
  refine ⟨arcsNext_eq isRing nodup, ?_⟩
  rw [isBody mem]
  split
  · next isChosen =>
    obtain ⟨w2, result, becomes, links⟩ := eraseArc_spec optSpeed erasing.becomes.represents mem
    have notBefore : a ∉ kept := fun mem => others a mem isChosen
    refine ⟨w2, result, nodes'.erase a, erasing.becomes.trans becomes,
      Subset.trans (erase_subset a nodes') erasing.subset, fun b inB other => ?_, kept, ?_, others⟩
    · by_cases same : b = a
      · subst same
        exact ⟨oldBase.symm.trans isBase, isChosen⟩
      · exact erasing.erased b inB fun mem => other (mem_erase.mpr ⟨same, mem⟩)
    · rw [links, if_pos isBase.symm, isRing, erase_append_right _ notBefore, erase_cons_head]
  · next notChosen =>
    refine ⟨w1, rfl, nodes', erasing.becomes, erasing.subset, erasing.erased, kept ++ [a], ?_, fun b inB => ?_⟩
    · rw [isRing, append_cons]
    · rcases mem_append.mp inB with before | single
      · exact others b before
      · exact List.mem_singleton.mp single ▸ notChosen

theorem Erasing.final (isVertex : v ∈ vertices) (known : ∀ a ∈ nodes, a ≤ w.arcCount)
    (erasing : Erasing address w g vertices nodes dir v chosen [] w' nodes') :
    nodes' = nodes.filter fun a => ¬(w.base dir a = v ∧ chosen a) := by
  obtain ⟨kept, isRing, others⟩ := erasing.ring
  rw [append_nil] at isRing
  ext a
  rw [Finset.mem_filter]
  constructor
  · intro mem
    refine ⟨erasing.subset mem, fun ⟨isBase, isChosen⟩ => ?_⟩
    have inRing := ((erasing.becomes.represents.adjacent.links dir v isVertex).2 a).mpr
      ⟨mem, by rw [erasing.becomes.frame.base (known a (erasing.subset mem)), isBase]⟩
    rw [isRing] at inRing
    exact others a inRing isChosen
  · rintro ⟨mem, keeps⟩
    by_contra other
    exact keeps (erasing.erased a mem other)

theorem eraseLoop_spec (optSpeed : Bool) (rep : Represents address w g vertices nodes) (isVertex : v ∈ vertices)
    (dir : Direction) (chosen : Arc → Bool) (body : World → Arc → Option World)
    (isBody : ∀ w' nodes', Becomes address w w' g vertices nodes' → nodes' ⊆ nodes → ∀ a ∈ nodes',
      body w' a = if chosen a then w'.eraseArc address optSpeed g a else some w') :
    ∃ w', forArcsErasing body dir v ((w.links dir v).length + 1) (w.arcsBegin dir v) w = some w' ∧
      Becomes address w w' g vertices (nodes.filter fun a => ¬(w.base dir a = v ∧ chosen a)) := by
  have known := rep.adjacent.known
  obtain ⟨w', done, nodes', erasing⟩ := forArcsErasing_spec
    (fun left w' => ∃ nodes', Erasing address w g vertices nodes dir v chosen left w' nodes')
    (fun a rest w1 ⟨nodes', erasing⟩ => erasing.next optSpeed isVertex known
      (isBody w1 nodes' erasing.becomes erasing.subset a))
    (w.links dir v)
    ⟨nodes, rep.becomes, Subset.refl _, fun a mem other => absurd mem other, [], rfl, by simp⟩
    (lt_succ_self _)
  exact ⟨w', done, erasing.final isVertex known ▸ erasing.becomes⟩

end Erasing

end Culibs.Cugra.World
