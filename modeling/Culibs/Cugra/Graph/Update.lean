import Culibs.Cugra.Graph.Basic

namespace Culibs.Cugra.World

open Function List Finset Option

section Arcset

open Buckets

variable {address : Vertex → Word} {w w' : World} {G G' : GraphWithArcset} {nodes : Finset Arc}
  {a b : Arc} {tail head v : Vertex} {g k : Nat}

def arcHash (address : Vertex → Word) (w : World) (a : Arc) : Nat := vertexPairHash address (w.arcTail a) (w.arcHead a)

/-- The arcs of a graph are in the buckets of their ends, each once, and are counted. No two have the same ends. -/
structure Table (address : Vertex → Word) (w : World) (G : GraphWithArcset) (nodes : Finset Arc) : Prop where
  capacity : ∃ k, G.arcsetMask + 1 = 2 ^ k
  chained : Chained G.arcset 0 (G.arcsetMask + 1) (fun a => w.arcHash address a &&& G.arcsetMask) nodes
  size : G.arcsetSize = nodes.card
  single : ∀ a ∈ nodes, ∀ b ∈ nodes, w.arcTail a = w.arcTail b → w.arcHead a = w.arcHead b → a = b

/-- What an operation on the table leaves as it was. -/
structure Resized (G G' : GraphWithArcset) : Prop where
  gflags : G'.gflags = G.gflags
  vertices : G'.vertices = G.vertices

theorem Resized.refl (G : GraphWithArcset) : Resized G G := ⟨rfl, rfl⟩

theorem arcConnects_iff : w.arcConnects tail head a = true ↔ w.arcTail a = tail ∧ w.arcHead a = head := by
  simp [arcConnects]

theorem mask_eq (cap : G.arcsetMask + 1 = 2 ^ k) (hash : Nat) : hash &&& G.arcsetMask = hash % 2 ^ k := by
  rw [show G.arcsetMask = 2 ^ k - 1 by omega, Nat.and_two_pow_sub_one_eq_mod]

section

variable (table : Table address w G nodes)

include table

theorem Table.nonzero (mem : a ∈ nodes) : a ≠ 0 :=
  table.chained.nonnull a mem

theorem Table.resize
    (chained : Chained arcset 0 (2 ^ k) (fun a => w.arcHash address a % 2 ^ k) nodes) :
    Table address w { G with arcsetMask := 2 ^ k - 1, arcset } nodes := by
  have cap : 2 ^ k - 1 + 1 = 2 ^ k := Nat.sub_add_cancel (Nat.two_pow_pos k)
  refine ⟨⟨k, cap⟩, ?_, table.size, table.single⟩
  simp only [Nat.and_two_pow_sub_one_eq_mod, cap]
  exact chained

private theorem arcsetExtend_spec (few : nodes.card ≤ w.arcCount) (k : Nat) :
    ∃ G', arcsetExtend address w G (2 ^ k) = some G' ∧ Table address w G' nodes ∧ Resized G G' := by
  obtain ⟨arcset, moved, chained, _⟩ := table.chained.rehash (replicate (2 ^ k) 0) (2 ^ k)
    (fun a => w.arcHash address a &&& (2 ^ k - 1)) (fun i less => getElem?_replicate_of_lt less) (fun a => by
      rw [Nat.and_two_pow_sub_one_eq_mod]
      exact Nat.mod_lt _ (Nat.two_pow_pos k)) (Nat.lt_of_le_of_lt few (Nat.lt_add_of_pos_right Nat.two_pos))
  simp only [Nat.and_two_pow_sub_one_eq_mod] at chained
  refine ⟨_, ?_, table.resize chained, rfl, rfl⟩
  exact congrArg (Option.map _) moved

private theorem arcsetShrink_spec (few : nodes.card ≤ w.arcCount) (cap : G.arcsetMask + 1 = 2 ^ (k + 1)) :
    ∃ G', arcsetShrink w G (2 ^ k) = some G' ∧ Table address w G' nodes ∧ Resized G G' := by
  have chained := table.chained
  simp only [mask_eq cap, cap] at chained
  obtain ⟨arcset, moved, chained', _⟩ := chained.halve (appendChain (2 ^ k - 1) w.fuel) fun i part placed => by
    refine takes_nonnull (takes_attach ?_ (fun a mem => ?_) (Nat.lt_of_le_of_lt few (Nat.lt_add_of_pos_right Nat.two_pos)))
    · rw [Nat.and_two_pow_sub_one_eq_mod]
      exact Nat.mod_lt _ (Nat.two_pow_pos k)
    · rw [Nat.and_two_pow_sub_one_eq_mod]
      exact placed a mem
  refine ⟨_, ?_, table.resize chained', rfl, rfl⟩
  rw [arcsetShrink, cap, moved]
  rfl

end

theorem extend_spec (optSpeed : Bool) (table : Table address w G nodes) (few : nodes.card ≤ w.arcCount) :
    ∃ G', (if G.arcsetSize * arcsetMaxfillDenom optSpeed ≥ G.arcsetMask * arcsetMaxfillNumer optSpeed then
        arcsetExtend address w G ((G.arcsetMask + 1) * 2)
      else some G) = some G' ∧ Table address w G' nodes ∧ Resized G G' := by
  split
  · obtain ⟨k, cap⟩ := table.capacity
    rw [cap, ← pow_succ]
    exact arcsetExtend_spec table few (k + 1)
  · exact ⟨G, rfl, table, .refl G⟩

theorem shrink_spec (optSpeed : Bool) (table : Table address w G nodes) (few : nodes.card ≤ w.arcCount) :
    ∃ G', (if G.arcsetSize * arcsetMinfillDenom optSpeed < G.arcsetMask * arcsetMinfillNumer ∧ G.arcsetMask > 1 then
        arcsetShrink w G ((G.arcsetMask + 1) / 2)
      else some G) = some G' ∧ Table address w G' nodes ∧ Resized G G' := by
  split
  · next test =>
    obtain ⟨k, cap⟩ := table.capacity
    cases k with
    | zero =>
      omega
    | succ k =>
      have half : (G.arcsetMask + 1) / 2 = 2 ^ k := by
        rw [cap, Nat.pow_succ, Nat.mul_div_cancel _ Nat.two_pos]
      rw [half]
      exact arcsetShrink_spec table few cap
  · exact ⟨G, rfl, table, .refl G⟩

end Arcset

section Update

open Buckets

/-- The vertex at which an arc is linked in a direction. -/
def base (w : World) : Direction → Arc → Vertex
  | .directionOut => w.arcTail
  | .directionIn => w.arcHead

/-- The rings of the vertices have the arcs of a set, each once. -/
structure Adjacent (w : World) (vertices : List Vertex) (nodes : Finset Arc) : Prop where
  known : ∀ a ∈ nodes, a ≤ w.arcCount
  ends : ∀ a ∈ nodes, ∀ dir, w.base dir a ∈ vertices
  links : ∀ dir, ∀ v ∈ vertices, (w.links dir v).Nodup ∧ ∀ a, a ∈ w.links dir v ↔ a ∈ nodes ∧ w.base dir a = v

/-- The hash table of a graph has exactly the arcs in the rings of the vertices. -/
structure Represents (address : Vertex → Word) (w : World) (g : Nat) (vertices : List Vertex) (nodes : Finset Arc) :
    Prop where
  table : Table address w (w.graph g) nodes
  adjacent : Adjacent w vertices nodes
  simplearced : (w.graph g).gflags = ⟨false, true⟩

/-- What an operation on a graph leaves of the others, and of the arcs that there are. -/
structure Frame (w w' : World) (g : Nat) (vertices : List Vertex) : Prop where
  graph : ∀ g', g' ≠ g → w'.graph g' = w.graph g'
  vertexCount : w.vertexCount ≤ w'.vertexCount
  arcCount : w.arcCount ≤ w'.arcCount
  adj : ∀ dir, ∀ a ≤ w.arcCount, w'.adj dir a = w.adj dir a
  links : ∀ dir, ∀ v, v ∉ vertices → w'.links dir v = w.links dir v

variable {address : Vertex → Word} {w w' w1 : World} {G G' : GraphWithArcset} {nodes : Finset Arc}
  {vertices : List Vertex} {a b : Arc} {tail head v : Vertex} {g : Nat} {dir : Direction}

theorem Frame.refl (w : World) (g : Nat) (vertices : List Vertex) : Frame w w g vertices :=
  ⟨fun _ _ => rfl, le_rfl, le_rfl, fun _ _ _ => rfl, fun _ _ _ => rfl⟩

theorem Frame.trans (first : Frame w w1 g vertices) (second : Frame w1 w' g vertices) : Frame w w' g vertices :=
  ⟨fun g' other => (second.graph g' other).trans (first.graph g' other), le_trans first.vertexCount
    second.vertexCount, le_trans first.arcCount second.arcCount,
    fun dir a known => (second.adj dir a (le_trans known first.arcCount)).trans (first.adj dir a known),
    fun dir v outside => (second.links dir v outside).trans (first.links dir v outside)⟩

theorem Frame.base (frame : Frame w w' g vertices) (known : a ≤ w.arcCount) (dir : Direction) :
    w'.base dir a = w.base dir a := by
  cases dir with
  | directionOut => exact frame.adj .directionIn a known
  | directionIn => exact frame.adj .directionOut a known

theorem frame_setGraph (w : World) (g : Nat) (G : GraphWithArcset) (vertices : List Vertex) :
    Frame w (w.setGraph g G) g vertices :=
  ⟨fun _ other => update_of_ne other .., le_rfl, le_rfl, fun _ _ _ => rfl, fun _ _ _ => rfl⟩

theorem Adjacent.card_le (adjacent : Adjacent w vertices nodes) (nonzero : ∀ a ∈ nodes, a ≠ 0) :
    nodes.card ≤ w.arcCount := by
  have subset : nodes ⊆ (Finset.range (w.arcCount + 1)).erase 0 := by
    intro a mem
    rw [mem_erase, Finset.mem_range]
    exact ⟨nonzero a mem, Nat.lt_succ_of_le (adjacent.known a mem)⟩
  have bound := card_le_card subset
  rwa [card_erase_of_mem (mem_range.mpr (Nat.succ_pos _)), card_range] at bound

theorem Represents.card_le (rep : Represents address w g vertices nodes) : nodes.card ≤ w.arcCount :=
  rep.adjacent.card_le fun _ mem => rep.table.nonzero mem

theorem links_setLinks (ring : List Arc) :
    (w.setLinks d u ring).links dir v = if dir = d ∧ v = u then ring else w.links dir v := by
  rw [setLinks]
  by_cases same : dir = d
  · subst same
    by_cases same : v = u
    · subst same
      simp
    · simp [same]
  · simp [same]

theorem links_unlinkArc : (w.unlinkArc a).links dir v =
    if v = w.base dir a then (w.links dir v).erase a else w.links dir v := by
  have unlinked : w.unlinkArc a =
      (w.setLinks .directionOut (w.arcTail a) ((w.links .directionOut (w.arcTail a)).erase a)).setLinks .directionIn
        (w.arcHead a) ((w.links .directionIn (w.arcHead a)).erase a) := by
    simp [unlinkArc, setLinks, arcHead]
  rw [unlinked, links_setLinks, links_setLinks]
  cases dir with
  | directionOut =>
    by_cases same : v = w.arcTail a
    · subst same
      simp [base]
    · simp [base, same]
  | directionIn =>
    by_cases same : v = w.arcHead a
    · subst same
      simp [base]
    · simp [base, same]

/-- The vertex at which a new arc is linked. -/
def newBase (tail head : Vertex) : Direction → Vertex
  | .directionOut => tail
  | .directionIn => head

theorem links_gallocArc : (w.gallocArc tail head).links dir v =
    if v = newBase tail head dir then w.links dir v ++ [w.arcCount + 1] else w.links dir v := by
  simp only [gallocArc, initArc, links_setLinks]
  cases dir with
  | directionOut =>
    by_cases same : v = tail
    · subst same
      simp [newBase]
    · simp [same, newBase]
  | directionIn =>
    by_cases same : v = head
    · subst same
      simp [newBase]
    · simp [same, newBase]

theorem base_gallocArc : (w.gallocArc tail head).base dir a =
    if a = w.arcCount + 1 then newBase tail head dir else w.base dir a := by
  cases dir with
  | directionOut =>
    by_cases same : a = w.arcCount + 1
    · simp [same, base, newBase, arcTail, gallocArc, initArc]
    · simp [same, base, arcTail, gallocArc, initArc, setLinks]
  | directionIn =>
    by_cases same : a = w.arcCount + 1
    · simp [same, base, newBase, arcHead, gallocArc, initArc]
    · simp [same, base, arcHead, gallocArc, initArc, setLinks]

theorem Table.congr (table : Table address w G nodes) (same : ∀ a ∈ nodes, ∀ dir, w'.base dir a = w.base dir a) :
    Table address w' G nodes := by
  have tails {a} (mem : a ∈ nodes) : w'.arcTail a = w.arcTail a := same a mem .directionOut
  have heads {a} (mem : a ∈ nodes) : w'.arcHead a = w.arcHead a := same a mem .directionIn
  refine ⟨table.capacity, table.chained.reindex fun a mem => ?_, table.size, fun a inA b inB sameTail sameHead => ?_⟩
  · rw [arcHash, arcHash, tails mem, heads mem]
  · rw [tails inA, tails inB] at sameTail
    rw [heads inA, heads inB] at sameHead
    exact table.single a inA b inB sameTail sameHead

theorem Adjacent.fresh (adjacent : Adjacent w vertices nodes) : w.arcCount + 1 ∉ nodes :=
  fun mem => Nat.not_succ_le_self _ (adjacent.known _ mem)

theorem Adjacent.gallocArc (adjacent : Adjacent w vertices nodes) (tailIn : tail ∈ vertices) (headIn : head ∈ vertices) :
    Adjacent (w.gallocArc tail head) vertices (insert (w.arcCount + 1) nodes) := by
  have other {a} (mem : a ∈ nodes) : a ≠ w.arcCount + 1 := ne_of_mem_of_not_mem mem adjacent.fresh
  refine ⟨fun a mem => ?_, fun a mem dir => ?_, fun dir v isVertex => ?_⟩
  · rcases mem_insert.mp mem with rfl | mem
    · exact le_rfl
    · exact Nat.le_succ_of_le (adjacent.known a mem)
  · rw [base_gallocArc]
    rcases mem_insert.mp mem with rfl | mem
    · rw [if_pos rfl]
      cases dir with
      | directionOut => exact tailIn
      | directionIn => exact headIn
    · rw [if_neg (other mem)]
      exact adjacent.ends a mem dir
  · obtain ⟨nodup, members⟩ := adjacent.links dir v isVertex
    have notBefore : w.arcCount + 1 ∉ w.links dir v := fun mem => adjacent.fresh ((members _).mp mem).1
    have old {a} (ne : a ≠ w.arcCount + 1) :
        (a ∈ insert (w.arcCount + 1) nodes ∧ (w.gallocArc tail head).base dir a = v) ↔ a ∈ w.links dir v := by
      rw [base_gallocArc, if_neg ne, mem_insert, or_iff_right ne, members]
    rw [links_gallocArc]
    split
    · next here =>
      refine ⟨nodup_append.mpr ⟨nodup, nodup_singleton _, ?_⟩, fun a => ?_⟩
      · intro a mem b single same
        exact notBefore (List.mem_singleton.mp single ▸ same ▸ mem)
      · by_cases same : a = w.arcCount + 1
        · subst same
          simp [base_gallocArc, here]
        · rw [old same, mem_append, List.mem_singleton, or_iff_left same]
    · next away =>
      refine ⟨nodup, fun a => ?_⟩
      by_cases same : a = w.arcCount + 1
      · subst same
        rw [base_gallocArc, if_pos rfl]
        exact ⟨fun mem => absurd mem notBefore, fun both => absurd both.2.symm away⟩
      · exact (old same).symm

theorem Adjacent.unlinkArc (adjacent : Adjacent w vertices nodes) (mem : a ∈ nodes) :
    Adjacent (w.unlinkArc a) vertices (nodes.erase a) := by
  refine ⟨fun b inside => adjacent.known b (mem_of_mem_erase inside),
    fun b inside => adjacent.ends b (mem_of_mem_erase inside), fun dir v isVertex => ?_⟩
  obtain ⟨nodup, members⟩ := adjacent.links dir v isVertex
  have same {b} : (w.unlinkArc a).base dir b = w.base dir b := by
    cases dir <;> rfl
  rw [links_unlinkArc]
  split
  · refine ⟨nodup.erase a, fun b => ?_⟩
    rw [nodup.mem_erase_iff, members, mem_erase, same, and_assoc]
  · next away =>
    refine ⟨nodup, fun b => ?_⟩
    rw [members, mem_erase, same]
    refine ⟨fun ⟨inside, isBase⟩ => ⟨⟨?_, inside⟩, isBase⟩, fun ⟨⟨_, inside⟩, isBase⟩ => ⟨inside, isBase⟩⟩
    rintro rfl
    exact away isBase.symm

theorem frame_gallocArc (tailIn : tail ∈ vertices) (headIn : head ∈ vertices) (g : Nat) :
    Frame w (w.gallocArc tail head) g vertices := by
  refine ⟨fun _ _ => rfl, le_rfl, Nat.le_succ _, fun dir a known => ?_, fun dir v outside => ?_⟩
  · exact update_of_ne (ne_of_lt (Nat.lt_succ_of_le known)) ..
  · rw [links_gallocArc, if_neg]
    rintro rfl
    cases dir with
    | directionOut => exact outside tailIn
    | directionIn => exact outside headIn

private theorem frame_unlinkArc (ends : ∀ dir, w.base dir a ∈ vertices) (g : Nat) : Frame w (w.unlinkArc a) g vertices := by
  refine ⟨fun _ _ => rfl, le_rfl, le_rfl, fun _ _ _ => rfl, fun dir v outside => ?_⟩
  rw [links_unlinkArc, if_neg]
  rintro rfl
  exact outside (ends dir)

theorem arcHash_eq (isTail : w.arcTail a = tail) (isHead : w.arcHead a = head) :
    w.arcHash address a = vertexPairHash address tail head := by
  rw [arcHash, isTail, isHead]

theorem Table.attach (table : Table address w G nodes) (adjacent : Adjacent w vertices nodes)
    (absent : ∀ a ∈ nodes, w.arcTail a = tail → w.arcHead a ≠ head) :
    ∃ p arcset, locate address w G tail head = some (p, 0) ∧ G.arcset.write p (w.arcCount + 1) = some arcset ∧
      Table address (w.gallocArc tail head) { G with
        arcsetSize := G.arcsetSize + 1
        arcset := { arcset with next := update arcset.next (w.arcCount + 1) 0 } }
          (insert (w.arcCount + 1) nodes) := by
  have few := adjacent.card_le fun _ mem => table.nonzero mem
  have unused := adjacent.fresh
  have others {a} (mem : a ∈ nodes) : a ≠ w.arcCount + 1 := ne_of_mem_of_not_mem mem unused
  have same {a} (mem : a ∈ nodes) (dir : Direction) : (w.gallocArc tail head).base dir a = w.base dir a := by
    rw [base_gallocArc, if_neg (others mem)]
  have newTail : (w.gallocArc tail head).arcTail (w.arcCount + 1) = tail := by
    exact (base_gallocArc : (w.gallocArc tail head).base .directionOut _ = _).trans (if_pos rfl)
  have newHead : (w.gallocArc tail head).arcHead (w.arcCount + 1) = head := by
    exact (base_gallocArc : (w.gallocArc tail head).base .directionIn _ = _).trans (if_pos rfl)
  have tails {a} (mem : a ∈ nodes) : (w.gallocArc tail head).arcTail a = w.arcTail a := same mem .directionOut
  have heads {a} (mem : a ∈ nodes) : (w.gallocArc tail head).arcHead a = w.arcHead a := same mem .directionIn
  have ne {a} (mem : a ∈ nodes) : w.arcConnects tail head a = false := by
    rw [Bool.eq_false_iff, ne_eq, arcConnects_iff]
    exact fun both => absent a mem both.1 both.2
  obtain ⟨p, found, outside, attached⟩ := table.chained.seek_absent
    (Nat.lt_succ_of_le Nat.and_le_right) fun a mem _ => ne mem
  have alone : Spans (update G.arcset.next (w.arcCount + 1) 0) 0 (w.arcCount + 1) {w.arcCount + 1} :=
    ⟨[w.arcCount + 1], ⟨rfl, Nat.succ_ne_zero _, update_self ..⟩, nodup_singleton _, by simp⟩
  obtain ⟨t', written, chained, _⟩ := attached ⟨G.arcset.heads, update G.arcset.next (w.arcCount + 1) 0⟩
    (fun a => (w.gallocArc tail head).arcHash address a &&& G.arcsetMask) (w.arcCount + 1) {w.arcCount + 1} rfl
    (fun a mem => update_of_ne (others mem) ..)
    (fun a mem => by rw [arcHash, tails mem, heads mem, arcHash]) alone
    (disjoint_singleton_right.mpr unused)
    (fun a mem => by rw [Finset.mem_singleton.mp mem, arcHash_eq newTail newHead])
  rw [write_link G.arcset (outside (w.arcCount + 1) unused), map_eq_some_iff] at written
  obtain ⟨arcset, stored, rfl⟩ := written
  have located : locate address w G tail head = some (p, 0) :=
    found w.fuel (Nat.lt_of_le_of_lt few (Nat.lt_add_of_pos_right Nat.two_pos))
  refine ⟨p, arcset, located, stored, table.capacity, ?_, ?_, fun a inA b inB sameTail sameHead => ?_⟩
  · rw [Finset.insert_eq, union_comm]
    exact chained
  · rw [card_insert_of_notMem unused, ← table.size]
  have apart {a} (mem : a ∈ nodes) (isTail : w.arcTail a = tail) (isHead : w.arcHead a = head) : False :=
    absent a mem isTail isHead
  rcases mem_insert.mp inA with rfl | inA <;> rcases mem_insert.mp inB with rfl | inB
  · rfl
  · rw [newTail, tails inB] at sameTail
    rw [newHead, heads inB] at sameHead
    exact (apart inB sameTail.symm sameHead.symm).elim
  · rw [newTail, tails inA] at sameTail
    rw [newHead, heads inA] at sameHead
    exact (apart inA sameTail sameHead).elim
  · rw [tails inA, tails inB] at sameTail
    rw [heads inA, heads inB] at sameHead
    exact table.single a inA b inB sameTail sameHead

theorem Table.find (table : Table address w G nodes) (few : nodes.card ≤ w.arcCount) (mem : a ∈ nodes)
    (isTail : w.arcTail a = tail) (isHead : w.arcHead a = head) :
    ∃ p, locate address w G tail head = some (p, a) ∧ ∃ arcset, G.arcset.write p (G.arcset.next a) = some arcset ∧
      Table address w { G with arcsetSize := G.arcsetSize - 1, arcset } (nodes.erase a) := by
  have unique : Unique nodes (fun a => w.arcHash address a &&& G.arcsetMask) (w.arcHash address a &&& G.arcsetMask)
      (w.arcConnects tail head) := by
    intro b inB c inC _ _ foundB foundC
    obtain ⟨tailB, headB⟩ := arcConnects_iff.mp foundB
    obtain ⟨tailC, headC⟩ := arcConnects_iff.mp foundC
    exact table.single b inB c inC (tailB.trans tailC.symm) (headB.trans headC.symm)
  obtain ⟨p, found, arcset, written, chained, _⟩ := table.chained.seek_found (w.arcConnects tail head) mem
    (arcConnects_iff.mpr ⟨isTail, isHead⟩) unique
  have located := found w.fuel (Nat.lt_of_le_of_lt few (Nat.lt_add_of_pos_right Nat.two_pos))
  rw [arcHash_eq isTail isHead] at located
  refine ⟨p, located, arcset, written, table.capacity, chained, ?_, fun b inB c inC => ?_⟩
  · rw [card_erase_of_mem mem, ← table.size]
  · exact table.single b (mem_of_mem_erase inB) c (mem_of_mem_erase inC)

theorem Adjacent.setGraph (adjacent : Adjacent w vertices nodes) (g : Nat) (G : GraphWithArcset) :
    Adjacent (w.setGraph g G) vertices nodes :=
  ⟨adjacent.known, adjacent.ends, adjacent.links⟩

theorem Table.setGraph (table : Table address w G nodes) (g : Nat) (G' : GraphWithArcset) :
    Table address (w.setGraph g G') G nodes :=
  table.congr fun _ _ dir => by cases dir <;> rfl

theorem graph_setGraph (w : World) (g : Nat) (G : GraphWithArcset) : (w.setGraph g G).graph g = G := update_self ..

private theorem gflags_setGraph (rep : Represents address w g vertices nodes) (resized : Resized (w.graph g) G) :
    ((w.setGraph g G).graph g).gflags = ⟨false, true⟩ := by
  rw [graph_setGraph, resized.gflags]
  exact rep.simplearced

/-- What an operation does to a graph: its arcs become those of another set. -/
structure Becomes (address : Vertex → Word) (w w' : World) (g : Nat) (vertices : List Vertex) (nodes : Finset Arc) :
    Prop where
  represents : Represents address w' g vertices nodes
  frame : Frame w w' g vertices
  vertices : (w'.graph g).vertices = (w.graph g).vertices

theorem Becomes.trans (first : Becomes address w w1 g vertices nodes)
    (second : Becomes address w1 w' g vertices nodes') : Becomes address w w' g vertices nodes' :=
  ⟨second.represents, first.frame.trans second.frame, second.vertices.trans first.vertices⟩

theorem Represents.becomes (rep : Represents address w g vertices nodes) : Becomes address w w g vertices nodes :=
  ⟨rep, .refl w g vertices, rfl⟩

section

variable (optSpeed : Bool) (rep : Represents address w g vertices nodes)

include rep

theorem arcsetInsert_present (mem : a ∈ nodes) (isTail : w.arcTail a = tail) (isHead : w.arcHead a = head) :
    ∃ w', w.arcsetInsert address optSpeed g tail head = some ((false, a), w') ∧
      Becomes address w w' g vertices nodes ∧ w'.adj = w.adj ∧ w'.links = w.links := by
  have few := rep.card_le
  obtain ⟨G, extended, table, resized⟩ := extend_spec optSpeed rep.table few
  obtain ⟨p, located, _⟩ := table.find few mem isTail isHead
  refine ⟨w.setGraph g G, ?_, ⟨⟨?_, rep.adjacent.setGraph g G, gflags_setGraph rep resized⟩, frame_setGraph w g G vertices,
    ?_⟩, rfl, rfl⟩
  · simp only [arcsetInsert, bind_eq_bind]
    rw [extended, bind_some, located]
    simp only [bind_some, if_pos (table.nonzero mem)]
    rfl
  · rw [graph_setGraph]
    exact table.setGraph g G
  · rw [graph_setGraph]
    exact resized.vertices

theorem arcsetInsert_absent (tailIn : tail ∈ vertices) (headIn : head ∈ vertices)
    (absent : ∀ a ∈ nodes, w.arcTail a = tail → w.arcHead a ≠ head) :
    ∃ w', w.arcsetInsert address optSpeed g tail head = some ((true, w.arcCount + 1), w') ∧
      Becomes address w w' g vertices (insert (w.arcCount + 1) nodes) ∧
      (∀ dir, w'.base dir (w.arcCount + 1) = newBase tail head dir) ∧
      ∀ dir v, v ≠ newBase tail head dir → w'.links dir v = w.links dir v := by
  obtain ⟨G, extended, table, resized⟩ := extend_spec optSpeed rep.table rep.card_le
  obtain ⟨p, arcset, located, written, attached⟩ := table.attach rep.adjacent absent
  obtain ⟨G', isG'⟩ : ∃ G', G' = ({ G with
    arcsetSize := G.arcsetSize + 1
    arcset := { arcset with next := update arcset.next (w.arcCount + 1) 0 } } : GraphWithArcset) := ⟨_, rfl⟩
  rw [← isG'] at attached
  have resized' : Resized (w.graph g) G' := by
    rw [isG']
    exact ⟨resized.gflags, resized.vertices⟩
  have graph : ((w.setGraph g G').gallocArc tail head).graph g = G' := graph_setGraph w g G'
  have base (dir) : ((w.setGraph g G').gallocArc tail head).base dir (w.arcCount + 1) = newBase tail head dir :=
    base_gallocArc.trans (if_pos rfl)
  refine ⟨(w.setGraph g G').gallocArc tail head, ?_, ⟨⟨?_, ?_, ?_⟩, ?_, ?_⟩, base, fun dir v away => ?_⟩
  · simp only [arcsetInsert, bind_eq_bind]
    rw [extended, bind_some, located]
    simp only [bind_some, ne_eq, not_true_eq_false, if_false, written, ← isG']
    rfl
  · rw [graph]
    refine attached.congr fun a mem dir => ?_
    rfl
  · exact (rep.adjacent.setGraph g G').gallocArc tailIn headIn
  · rw [graph, resized'.gflags]
    exact rep.simplearced
  · exact (frame_setGraph w g G' vertices).trans (frame_gallocArc tailIn headIn g)
  · rw [graph]
    exact resized'.vertices
  · rw [links_gallocArc, if_neg away]
    rfl

theorem arcsetErase_absent (absent : ∀ a ∈ nodes, w.arcTail a = tail → w.arcHead a ≠ head) :
    w.arcsetErase address optSpeed g tail head = some (0, w) := by
  obtain ⟨p, _, located, _⟩ := rep.table.attach rep.adjacent absent
  simp only [arcsetErase, bind_eq_bind, located, bind_some, if_true]
  rfl

theorem arcsetErase_present (mem : a ∈ nodes) (isTail : w.arcTail a = tail) (isHead : w.arcHead a = head) :
    ∃ w', w.arcsetErase address optSpeed g tail head = some (1, w') ∧
      Becomes address w w' g vertices (nodes.erase a) ∧
      ∀ dir v, w'.links dir v = if v = w.base dir a then (w.links dir v).erase a else w.links dir v := by
  have few := rep.card_le
  obtain ⟨p, located, arcset, written, table⟩ := rep.table.find few mem isTail isHead
  have unlinked : Table address (w.unlinkArc a) { w.graph g with arcsetSize := (w.graph g).arcsetSize - 1, arcset }
      (nodes.erase a) := table.congr fun _ _ dir => by cases dir <;> rfl
  obtain ⟨G', shrunk, table', resized⟩ := shrink_spec optSpeed unlinked
    (le_trans card_erase_le few)
  have graph : ((w.unlinkArc a).setGraph g G').graph g = G' := graph_setGraph ..
  have adjacent := rep.adjacent.unlinkArc mem
  refine ⟨(w.unlinkArc a).setGraph g G', ?_, ⟨⟨?_, adjacent.setGraph g G', ?_⟩, ?_, ?_⟩,
    fun dir v => links_unlinkArc⟩
  · simp only [arcsetErase, bind_eq_bind, located, bind_some, if_neg (rep.table.nonzero mem),
      written, shrunk]
    rfl
  · rw [graph]
    exact table'.setGraph g G'
  · rw [graph, resized.gflags]
    exact rep.simplearced
  · exact (frame_unlinkArc (rep.adjacent.ends a mem) g).trans (frame_setGraph _ g G' vertices)
  · rw [graph]
    exact resized.vertices

end

end Update

end Culibs.Cugra.World
