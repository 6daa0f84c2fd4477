import Culibs.Cucon.Umap.IsecnUnion

namespace Culibs.Cucon.Umap

open Function List Finset Option

section MoveIsecn

open Buckets

variable {optSpeed : Bool} {key : Addr → Word} {slot : Addr → Nat → Word} {fuel : Nat} {next : Links}
  {dst src0 src1 : Table} {nodesD nodes0 nodes1 : Finset Addr}

section Loop

variable (key) in
/-- The nodes of the first source that are moved. -/
def common (nodes0 nodes1 : Finset Addr) : Finset Addr := nodes0.filter fun a => key a ∈ nodes1.image key

variable (key) in
/-- The nodes of the second source when some nodes of the first one have been found in it. -/
def notErased (nodes1 found : Finset Addr) : Finset Addr := nodes1.filter fun b => key b ∉ found.image key

variable (key slot) in
/-- What is known about the second source. -/
def Erasing (nodes1 found : Finset Addr) (next : Links) (src1 : Table) : Prop :=
  Sound (src1.on key slot next) (notErased key nodes1 found)

variable (sound0 : Sound (src0.on key slot next) nodes0) (sound1 : Sound (src1.on key slot next) nodes1)
  (soundD : Sound (dst.on key slot next) nodesD) (apart01 : Disjoint nodes0 nodes1) (apart0D : Disjoint nodes0 nodesD)
  (apart1D : Disjoint nodes1 nodesD) (enough : nodes0.card + nodes1.card < fuel)

include sound0 apart01 apart1D in
private theorem eraseFrom_spec {index : Addr → Nat} {a : Addr}
    (few : moved ⊆ nodes0) (mem : a ∈ nodes0 \ moved)
    (moves : Moves dst nodes0 nodesD index (Erasing key slot nodes1) moved moved s) (enough : nodes1.card < fuel) :
    ∃ s', eraseFrom key slot fuel s a = some (decide (key a ∉ nodes1.image key), s') ∧ SameIn (nodes0 \ moved) s s' ∧
      Moves dst nodes0 nodesD index (Erasing key slot nodes1) moved
        (if decide (key a ∉ nodes1.image key) then moved else insert a moved) s' := by
  obtain ⟨inNodes, notMoved⟩ := mem_sdiff.mp mem
  have isNew : key a ∉ moved.image key := by
    rintro isKey
    obtain ⟨b, before, same⟩ := mem_image.mp isKey
    exact notMoved (sound0.distinct (few before) inNodes same ▸ before)
  have present : key a ∈ (notErased key nodes1 moved).image key ↔ key a ∈ nodes1.image key := by
    simp only [notErased, mem_image, Finset.mem_filter]
    refine exists_congr fun b => and_congr_left fun same => and_iff_left_of_imp fun _ => ?_
    rw [same]
    exact fun before => isNew (mem_image.mpr before)
  have room : (notErased key nodes1 moved).card < fuel := lt_of_le_of_lt (card_filter_le ..) enough
  obtain ⟨next', src1', erased, sound', frame⟩ := moves.extra.eraseKeepCap (key a) room
  have outside {b : Addr} (other : b ∉ nodes1) : next' b = s.table.next b :=
    frame b fun inside => other (Finset.mem_filter.mp inside).1
  have fewer : ((notErased key nodes1 moved).filter fun b => key b ≠ key a) =
      notErased key nodes1 (if decide (key a ∉ nodes1.image key) then moved else insert a moved) := by
    ext b
    simp only [notErased, Finset.mem_filter]
    split
    · next absent =>
      rw [decide_eq_true_eq] at absent
      exact and_iff_left_of_imp fun left same => absent (same ▸ mem_image_of_mem key left.1)
    · rw [image_insert, mem_insert, not_or, and_assoc, and_comm (a := key b ∉ _)]
  refine ⟨⟨⟨s.table.heads, next'⟩, { s.others with rest := src1' }⟩, ?_, ⟨rfl, fun b left => outside fun other => ?_⟩,
    moves.size0, moves.filled.frame fun b placed => outside fun other => ?_, ?_⟩
  · rw [eraseFrom, erased, map_some, decide_eq_decide.mpr present, ← decide_not]
    rfl
  · exact Finset.disjoint_left.mp apart01 (mem_sdiff.mp left).1 other
  · rcases mem_union.mp placed with old | new
    · exact Finset.disjoint_left.mp apart1D other old
    · exact Finset.disjoint_left.mp apart01 (few new) other
  · rw [Erasing, ← fewer]
    exact sound'

include sound0 sound1 soundD apart01 apart0D apart1D enough

private theorem moveIsecnLoop_sweeps : ∃ s, sweepAll 0 (eraseFrom key slot fuel) (moveNode key dst.mask) fuel (src0.mask + 1)
      ⟨⟨src0.arr, next⟩, ⟨src0.size, dst, src1⟩⟩ = some s ∧
    Swept 0 (src0.mask + 1) (fun a => (hash (key a)).toNat &&& src0.mask) nodes0
      (fun moved => Moves dst nodes0 nodesD (fun a => (hash (key a)).toNat &&& dst.mask)
        (Erasing key slot nodes1) moved moved)
      ⟨⟨src0.arr, next⟩, ⟨src0.size, dst, src1⟩⟩ (common key nodes0 nodes1) s := by
  have rules : Rules nodes0 (fun a => decide (key a ∉ nodes1.image key)) (fun _ => True) (eraseFrom key slot fuel)
      (moveNode key dst.mask)
      (fun moved => Moves dst nodes0 nodesD (fun a => (hash (key a)).toNat &&& dst.mask)
        (Erasing key slot nodes1) moved moved)
      fun moved a s => True ∧ Moves dst nodes0 nodesD (fun a => (hash (key a)).toNat &&& dst.mask)
        (Erasing key slot nodes1)
        moved (insert a moved) s := by
    refine moves_rules apart0D sound0.nonnull (fun _ _ => rfl) (fun a _ _ => Nat.lt_succ_of_le Nat.and_le_right)
      (fun found next next' src1' sound same => ?_) (fun moved s a few mem moves _ => ?_)
      fun _ _ _ _ _ _ bad => absurd trivial bad
    · exact sound.frame fun b mem => same b fun inNodes =>
        disjoint_left.mp apart01 inNodes (mem_filter.mp mem).1
    · exact eraseFrom_spec sound0 apart01 apart1D few mem moves (by omega)
  have start : Erasing key slot nodes1 ∅ next src1 := by
    have all : notErased key nodes1 ∅ = nodes1 := by simp [notErased]
    rwa [Erasing, all]
  have moves : Moves dst nodes0 nodesD (fun a => (hash (key a)).toNat &&& dst.mask) (Erasing key slot nodes1) ∅ ∅
      ⟨⟨src0.arr, next⟩, ⟨src0.size, dst, src1⟩⟩ := ⟨sound0.size, Filled.refl soundD fun _ _ => rfl, start⟩
  obtain ⟨s, done, swept⟩ :=
    (sweepAll_outcome rules sound0.fits.chained moves (by omega : nodes0.card < fuel)).returns fun _ _ => trivial
  simp only [decide_eq_false_iff_not, not_not] at swept
  exact ⟨s, done, swept⟩

variable (optSpeed) in
/-- The destination gets the common nodes of the first source, and the sources keep the others. -/
theorem moveIsecnLoop_spec (enoughD : nodes0.card + nodesD.card < fuel) :
    ∃ (next' : Links) (dst' src0' src1' : Table),
      moveIsecnLoop optSpeed key slot fuel next dst src0 src1 = some (next', dst', src0', src1') ∧
      Fits (dst'.on key slot next') (nodesD ∪ common key nodes0 nodes1) ∧
      dst'.size = nodesD.card + (common key nodes0 nodes1).card ∧
      Sound (src0'.on key slot next') (nodes0 \ common key nodes0 nodes1) ∧
      Sound (src1'.on key slot next') (notErased key nodes1 (common key nodes0 nodes1)) := by
  obtain ⟨s, done, swept⟩ := moveIsecnLoop_sweeps sound0 sound1 soundD apart01 apart0D apart1D enough
  obtain ⟨size0, filled, erasing⟩ := swept.holds
  have few : common key nodes0 nodes1 ⊆ nodes0 := filter_subset ..
  obtain ⟨next1, src0', updated, sound0', frame1⟩ := (swept_sound sound0 swept few size0).updateErase
    optSpeed (lt_of_le_of_lt (card_le_card sdiff_subset) (by omega : nodes0.card < fuel))
  have left1 {b : Addr} (mem : b ∈ notErased key nodes1 (common key nodes0 nodes1)) : b ∈ nodes1 :=
    (mem_filter.mp mem).1
  have apart0 {b : Addr} (mem : b ∈ nodes0 \ common key nodes0 nodes1) : b ∉ nodes1 :=
    disjoint_left.mp apart01 (mem_sdiff.mp mem).1
  have apart1 {b : Addr} (mem : b ∈ nodes1) : b ∉ nodesD ∪ common key nodes0 nodes1 := by
    rw [mem_union, not_or]
    exact ⟨disjoint_left.mp apart1D mem, fun moved => disjoint_left.mp apart01 (few moved) mem⟩
  have erasing1 : Erasing key slot nodes1 (common key nodes0 nodes1) next1 s.others.rest :=
    erasing.frame fun b mem => frame1 b fun other => apart0 other (left1 mem)
  obtain ⟨next2, src1', updated', sound1', frame2⟩ := erasing1.updateErase optSpeed
    (lt_of_le_of_lt (card_filter_le ..) (by omega : nodes1.card < fuel))
  have filled2 : Filled dst (fun a => (hash (key a)).toNat &&& dst.mask) nodesD
      (common key nodes0 nodes1) next2 s.others.dst := filled.frame fun b placed =>
    (frame2 b fun mem => apart1 (left1 mem) placed).trans
      (frame1 b fun mem => notMem_of_stays apart0D mem placed)
  have fits2 : Fits (s.others.dst.on key slot next2) (nodesD ∪ common key nodes0 nodes1) :=
    filled2.fits soundD.fits.capacity fun _ _ => rfl
  obtain ⟨mask, refits⟩ := fits2.updateCapAfterInsert optSpeed (card_union_lt few enoughD)
  obtain ⟨next3, dst', updated'', fits, size, frame3⟩ := update_of_refits refits
  refine ⟨next3, dst', src0', src1', ?_, fits, ?_, sound0'.frame fun b mem => ?_, sound1'.frame fun b mem => ?_⟩
  · rw [moveIsecnLoop, done]
    simp only [bind_eq_bind, bind_some, updated, updated', updated'']
    rfl
  · rw [size, filled.size]
    exact congrArg (· + _) soundD.size
  · exact (frame3 b (notMem_of_stays apart0D mem)).trans (frame2 b fun other => apart0 mem (left1 other))
  · exact frame3 b (apart1 (left1 mem))

end Loop

section Keys

variable (nodes0 nodes1) in
theorem image_common : (common key nodes0 nodes1).image key = nodes0.image key ∩ nodes1.image key := by
  ext k
  simp only [common, mem_image, Finset.mem_filter, mem_inter]
  constructor
  · rintro ⟨a, ⟨mem, both⟩, rfl⟩
    exact ⟨⟨a, mem, rfl⟩, both⟩
  · rintro ⟨⟨a, mem, rfl⟩, both⟩
    exact ⟨a, ⟨mem, both⟩, rfl⟩

variable (nodes0 nodes1) in
theorem image_left : (nodes0 \ common key nodes0 nodes1).image key =
    nodes0.image key \ nodes1.image key := by
  rw [common, ← filter_not]
  ext k
  simp only [mem_image, Finset.mem_filter, mem_sdiff]
  constructor
  · rintro ⟨a, ⟨mem, alone⟩, rfl⟩
    exact ⟨⟨a, mem, rfl⟩, alone⟩
  · rintro ⟨⟨a, mem, rfl⟩, alone⟩
    exact ⟨a, ⟨mem, alone⟩, rfl⟩

variable (nodes0 nodes1) in
private theorem image_notErased : (notErased key nodes1 (common key nodes0 nodes1)).image key =
    nodes1.image key \ nodes0.image key := by
  have same : notErased key nodes1 (common key nodes0 nodes1) =
      nodes1 \ common key nodes1 nodes0 := by
    rw [notErased, image_common, common, ← filter_not]
    refine filter_congr fun b mem => not_congr ?_
    rw [mem_inter]
    exact and_iff_left (mem_image_of_mem key mem)
  rw [same, image_left]

end Keys

section Correct

variable (key slot) in
/-- The destination has its keys and the common ones, which are removed from the sources. -/
def MoveDone (run : Option (Links × Table × Table × Table)) (keysD keys0 keys1 : Finset Word) : Prop :=
  ∃ result, run = some result ∧ Holds (result.2.1.on key slot result.1) (keysD ∪ keys0 ∩ keys1) ∧
    Holds (result.2.2.1.on key slot result.1) (keys0 \ keys1) ∧
    Holds (result.2.2.2.on key slot result.1) (keys1 \ keys0)

variable (sound0 : Sound (src0.on key slot next) nodes0) (sound1 : Sound (src1.on key slot next) nodes1)
  (soundD : Sound (dst.on key slot next) nodesD) (apart01 : Disjoint nodes0 nodes1) (apart0D : Disjoint nodes0 nodesD)
  (apart1D : Disjoint nodes1 nodesD)

include sound0 sound1 soundD apart01 apart0D apart1D

variable (optSpeed) in
private theorem moveIsecnLoop_iff (enough : nodes0.card + nodes1.card < fuel) (enoughD : nodes0.card + nodesD.card < fuel) :
    MoveDone key slot (moveIsecnLoop optSpeed key slot fuel next dst src0 src1) (nodesD.image key) (nodes0.image key)
      (nodes1.image key) ↔ Disjoint (nodesD.image key) (nodes0.image key ∩ nodes1.image key) := by
  obtain ⟨next', dst', src0', src1', done, fits, size, sound0', sound1'⟩ := moveIsecnLoop_spec optSpeed
    sound0 sound1 soundD apart01 apart0D apart1D enough enoughD
  have few : common key nodes0 nodes1 ⊆ nodes0 := filter_subset ..
  have distinct : Set.InjOn key ↑(common key nodes0 nodes1) :=
    sound0.distinct.mono (coe_subset.mpr few)
  have count : (nodesD.image key).card + (nodes0.image key ∩ nodes1.image key).card =
      nodesD.card + (common key nodes0 nodes1).card := by
    have cardD : (nodesD.image key).card = nodesD.card := card_image_of_injOn soundD.distinct
    rw [← image_common, card_image_of_injOn distinct, cardD]
  rw [done]
  constructor
  · rintro ⟨result, isResult, holds, _⟩
    cases isResult
    have isSize : dst'.size = (nodesD.image key ∪ nodes0.image key ∩ nodes1.image key).card := holds.size_eq
    rw [← card_union_eq_card_add_card, ← isSize, size, count]
  intro apart
  refine ⟨_, rfl, ⟨_, ⟨fits, ?_, fun a memberA b memberB same => ?_⟩, ?_⟩, ⟨_, sound0', image_left nodes0 nodes1⟩,
    _, sound1', image_notErased nodes0 nodes1⟩
  · rw [card_union_of_disjoint (disjoint_of_subset_right few apart0D.symm)]
    exact size
  · have notBoth {a b : Addr} (old : a ∈ nodesD) (new : b ∈ common key nodes0 nodes1)
        (same : key a = key b) : False := by
      refine disjoint_left.mp apart (mem_image_of_mem key old) ?_
      rw [same, ← image_common]
      exact mem_image_of_mem key new
    rcases mem_union.mp (mem_coe.mp memberA) with oldA | newA <;>
      rcases mem_union.mp (mem_coe.mp memberB) with oldB | newB
    · exact soundD.distinct oldA oldB same
    · exact (notBoth oldA newB same).elim
    · exact (notBoth oldB newA same.symm).elim
    · exact distinct newA newB same
  · change (nodesD ∪ common key nodes0 nodes1).image key = _
    rw [image_union, image_common]

end Correct

section Move

variable (optSpeed : Bool) (key : Addr → Word) (slot : Addr → Nat → Word) (next : Links) (dst src0 src1 : Table)

/-- The common keys are moved from the sources to the destination. -/
def MoveIsecnCorrect (keysD keys0 keys1 : Finset Word) : Prop :=
  Delivers (fun fuel => moveIsecn optSpeed key slot fuel next dst src0 src1) fun result =>
    Holds (result.2.1.on key slot result.1) (keysD ∪ keys0 ∩ keys1) ∧
      Holds (result.2.2.1.on key slot result.1) (keys0 \ keys1) ∧
      Holds (result.2.2.2.on key slot result.1) (keys1 \ keys0)

variable {optSpeed key slot next dst src0 src1}

private theorem moveIsecn_iff (sound0 : Sound (src0.on key slot next) nodes0) (sound1 : Sound (src1.on key slot next) nodes1)
    (soundD : Sound (dst.on key slot next) nodesD) (apart01 : Disjoint nodes0 nodes1) (apart0D : Disjoint nodes0 nodesD)
    (apart1D : Disjoint nodes1 nodesD) :
    MoveIsecnCorrect optSpeed key slot next dst src0 src1 (nodesD.image key) (nodes0.image key) (nodes1.image key) ↔
      Disjoint (nodesD.image key) (nodes0.image key ∩ nodes1.image key) := by
  refine delivers_iff (nodes0.card + nodes1.card + nodesD.card + 1) fun fuel enough => ?_
  have enough01 : nodes0.card + nodes1.card < fuel := by omega
  have enough10 : nodes1.card + nodes0.card < fuel := by omega
  rw [moveIsecn]
  split
  · have enoughD : nodes1.card + nodesD.card < fuel := by omega
    have swapped := moveIsecnLoop_iff optSpeed sound1 sound0 soundD apart01.symm apart1D apart0D enough10 enoughD
    rw [inter_comm, ← swapped]
    constructor
    · rintro ⟨result, isResult, holdsD, holds0, holds1⟩
      obtain ⟨result', isResult', rfl⟩ := map_eq_some_iff.mp isResult
      exact ⟨result', isResult', holdsD, holds1, holds0⟩
    · rintro ⟨result, isResult, holdsD, holds1, holds0⟩
      exact ⟨_, map_eq_some_iff.mpr ⟨result, isResult, rfl⟩, holdsD, holds0, holds1⟩
  · exact moveIsecnLoop_iff optSpeed sound0 sound1 soundD apart01 apart0D apart1D enough01 (by omega)

end Move

end MoveIsecn

section Intersections

variable {key : Addr → Word} {slot : Addr → Nat → Word} {next : Links}

/-- A map with these chains. -/
def ofChains (chains : List (List Addr)) : Table :=
  ⟨chains.flatten.length, chains.length - 1, chains.map (fun chain => chain.headD 0) ++ [sentinel]⟩

theorem ofChains_sound {chains : List (List Addr)} (slot : Addr → Nat → Word) (k : Nat)
    (length : chains.length = 2 ^ k) (distinct : (chains.flatten.map key).Nodup) (placed : ∀ i < chains.length,
      Buckets.Path next 0 ((chains.getD i []).headD 0) (chains.getD i []) ∧
        ∀ a ∈ chains.getD i [], (hash (key a)).toNat &&& (chains.length - 1) = i) :
    Sound ((ofChains chains).on key slot next) chains.flatten.toFinset := by
  have pos : 0 < chains.length := length ▸ Nat.two_pow_pos k
  have cap : chains.length - 1 + 1 = chains.length := Nat.sub_add_cancel pos
  have heads : (chains.map fun chain => chain.headD 0).length = chains.length := length_map _
  have mem_iff (a : Addr) : a ∈ chains.flatten ↔ ∃ i < chains.length, a ∈ chains.getD i [] := by
    rw [mem_flatten]
    constructor
    · rintro ⟨chain, mem, inside⟩
      obtain ⟨i, bound, rfl⟩ := mem_iff_getElem.mp mem
      exact ⟨i, bound, by rwa [getD_eq_getElem _ _ bound]⟩
    · rintro ⟨i, bound, inside⟩
      rw [getD_eq_getElem _ _ bound] at inside
      exact ⟨_, getElem_mem bound, inside⟩
  refine ⟨⟨⟨k, cap.trans length⟩, ⟨?_, ?_⟩, ⟨fun a _ => ?_, fun i bound => ?_⟩⟩, ?_, ?_⟩
  · exact (length_append ..).trans (by rw [heads]; exact congrArg (· + 1) cap.symm)
  · exact (getElem?_append_right (heads.trans cap.symm).le).trans (by simp [cap])
  · exact Nat.lt_succ_of_le Nat.and_le_right
  · replace bound : i < chains.length := lt_of_lt_of_eq bound cap
    refine ⟨(chains.getD i []).headD 0, ?_, chains.getD i [], (placed i bound).1, ?_, ?_⟩
    · refine (getElem?_append_left (by rwa [heads])).trans ?_
      rw [getElem?_map, getElem?_eq_getElem bound, getD_eq_getElem _ _ bound]
      rfl
    · rw [getD_eq_getElem _ _ bound]
      exact distinct.of_map.sublist (sublist_flatten_of_mem (getElem_mem bound))
    · ext a
      rw [List.mem_toFinset, Finset.mem_filter, List.mem_toFinset, mem_iff]
      constructor
      · exact fun inside => ⟨⟨i, bound, inside⟩, (placed i bound).2 a inside⟩
      · rintro ⟨⟨j, bound', inside⟩, same⟩
        exact ((placed j bound').2 a inside).symm.trans same ▸ inside
  · exact (toFinset_card_of_nodup distinct.of_map).symm
  · exact fun a mem a' mem' => inj_on_of_nodup_map distinct (mem_toFinset.mp mem) (mem_toFinset.mp mem')

/-- For maps without common nodes: an assigned intersection is right if and only if it removes nothing, an
intersection and union if and only if the nodes are put into the buckets of their keys or rehashed afterwards, and a
moved intersection if and only if none of its keys is in the destination. -/
theorem intersections_correct_iff (optSpeed : Bool) {dst umap0 umap1 : Table} {nodesD nodes0 nodes1 : Finset Addr}
    (soundD : Sound (dst.on key slot next) nodesD) (sound0 : Sound (umap0.on key slot next) nodes0)
    (sound1 : Sound (umap1.on key slot next) nodes1) (apart01 : Disjoint nodes0 nodes1)
    (apart0D : Disjoint nodes0 nodesD)
    (apart1D : Disjoint nodes1 nodesD) :
    (AssignIsecnCorrect key slot next umap0 umap1 (nodes0.image key) (nodes1.image key) ↔
        nodes0.image key ⊆ nodes1.image key) ∧
      (AssignIsecnUnionCorrect optSpeed key slot next umap0 umap1 (nodes0.image key) (nodes1.image key) ↔
        AssignIsecnUnionFits optSpeed umap0 umap1 (nodes0.image key) (nodes1.image key)) ∧
      (MoveIsecnCorrect optSpeed key slot next dst umap0 umap1 (nodesD.image key) (nodes0.image key)
        (nodes1.image key) ↔
        Disjoint (nodesD.image key) (nodes0.image key ∩ nodes1.image key)) :=
  ⟨assignIsecn_iff sound0 sound1 apart01, assignIsecnUnion_iff sound0 sound1 apart01,
    moveIsecn_iff sound0 sound1 soundD apart01 apart0D apart1D⟩

/-- The keys of some nodes, two of which are in one bucket. -/
def someKeys : Addr → Word
  | 1 | 4 => 1
  | 2 | 5 => 17
  | 3 | 6 => 5
  | 7 => 9
  | _ => 4

def someNext : Links
  | 1 => 2
  | 4 => 5
  | _ => 0

/-- Maps of three and four keys with different masks, and one of another key. -/
theorem intersections_correct_some :
    let umap0 := ofChains [[], [1, 2], [], [], [], [3], [], []]
    let umap1 := ofChains [[], [4, 5], [], [], [], [6], [], [], [], [7], [], [], [], [], [], []]
    let dst := ofChains [[], [], [], [], [8], [], [], []]
    AssignIsecnCorrect someKeys (fun _ _ => 0) someNext umap0 umap1 {1, 17, 5} {1, 17, 5, 9} ∧
      AssignIsecnUnionCorrect true someKeys (fun _ _ => 0) someNext umap0 umap1 {1, 17, 5} {1, 17, 5, 9} ∧
      MoveIsecnCorrect true someKeys (fun _ _ => 0) someNext dst umap0 umap1 {4} {1, 17, 5} {1, 17, 5, 9} := by
  intro umap0 umap1 dst
  have sound0 : Sound (umap0.on someKeys (fun _ _ => 0) someNext) {1, 2, 3} :=
    ofChains_sound _ 3 rfl (by decide) (by decide)
  have sound1 : Sound (umap1.on someKeys (fun _ _ => 0) someNext) {4, 5, 6, 7} :=
    ofChains_sound _ 4 rfl (by decide) (by decide)
  have soundD : Sound (dst.on someKeys (fun _ _ => 0) someNext) {8} :=
    ofChains_sound _ 3 rfl (by decide) (by decide)
  have all := intersections_correct_iff true soundD sound0 sound1 (by decide) (by decide) (by decide)
  refine ⟨all.1.mpr (by decide), all.2.1.mpr ?_, all.2.2.mpr (by decide)⟩
  rw [AssignIsecnUnionFits]
  have same : ∀ a ∈ ({1, 2, 3} : Finset Addr), (hash (someKeys a)).toNat &&& 7 = (hash (someKeys a)).toNat &&& 15 := by
    decide
  exact .inl (forall_mem_image.mpr same)

/-- A map of one inserted key is assigned its intersection with a fresh map. -/
theorem assignIsecn_fresh : ∃ (a : Table) (key : Addr → Word) (slot : Addr → Nat → Word) (next : Links),
    (init (fun _ => 0) (fun _ => 0) fun _ _ => 0).insertMem false 2 5 1 (fun _ => 0) =
        some ((true, 1), a.on key slot next) ∧
      ¬ AssignIsecnCorrect key slot next a ⟨0, minSize - 1, newArr minSize⟩ {5} ∅ := by
  refine ⟨ofChains [[], [], [], [], [], [1], [], []], update (fun _ => 0) 1 5, update (fun _ _ => 0) 1 fun _ => 0,
    update (fun _ => 0) 1 0, rfl, fun correct => ?_⟩
  have fresh : Sound ((⟨0, minSize - 1, newArr minSize⟩ : Table).on (update (fun _ => 0) 1 5)
      (update (fun _ _ => 0) 1 fun _ => 0) (update (fun _ => 0) 1 0)) ∅ := (init_represents ..).sound
  have subset := (assignIsecn_iff (ofChains_sound _ 3 rfl (by decide) (by decide)) fresh
    (disjoint_empty_right _)).mp correct
  revert subset
  decide

end Intersections

end Culibs.Cucon.Umap
