import Culibs.Cuex.Labelling.Basic

/-! The laws of labellings as maps. They hold for the functions that work on the
pairs, and for those that merge values only where no values are merged to
anything but pairs. -/

namespace Culibs.Cuex.Labelling

open Function Option List
open Atree (WfTree elements)

variable {α : Type} {memory : Memory α} {live : Ex α → Prop} {atree atree0 atree1 : Option (Atree (Ex α))}
  {l e x : Ex α} {merge : Ex α → Ex α → Option (Ex α)}

theorem value_labelling : value memory (.labelling atree) l =
    (Atree.find (getKey memory) atree (memory.address l)).bind (opnAt1 memory) := by
  simp only [value, find, labellingAtree, bind_eq_bind, bind_some]
  split
  · next found => rw [found]; rfl
  · next absent => rw [absent]; rfl

private theorem find_labelling : find memory (.labelling atree) l = some (value memory (.labelling atree) l) := by
  simp only [value, find, labellingAtree, bind_eq_bind, bind_some]
  split <;> rfl

theorem PairTree.none : PairTree memory live none := ⟨nofun, by simp [elements]⟩

theorem PairTree.find_eq (tree : PairTree memory live atree) (heap : Heap memory live) (alive : live l) :
    Atree.find (getKey memory) atree (memory.address l) =
      (value memory (.labelling atree) l).map (lO2Label memory l) := by
  rw [value_labelling]
  cases found : Atree.find (getKey memory) atree (memory.address l) with
  | none => rfl
  | some e =>
    have own := Atree.key_of_find found
    have mem : e ∈ elements atree := by rwa [tree.wf.mem_elements_iff, own]
    obtain ⟨l', v, alive', rfl⟩ := tree.pairs e mem
    obtain rfl := heap.injective l' l alive' alive own
    rfl

variable {key : Word}

theorem PairTree.label_of_find (tree : PairTree memory live atree)
    (found : Atree.find (getKey memory) atree key = some x) :
    ∃ l v, live l ∧ x = lO2Label memory l v ∧ memory.address l = key := by
  have own := Atree.key_of_find found
  have mem : x ∈ elements atree := by rwa [tree.wf.mem_elements_iff, own]
  obtain ⟨l, v, alive, rfl⟩ := tree.pairs x mem
  exact ⟨l, v, alive, rfl, own⟩

theorem PairTree.of_find (wf : WfTree (getKey memory) atree 0 (2 ^ 63))
    (pairs : ∀ key x, Atree.find (getKey memory) atree key = some x → ∃ l v, live l ∧ x = lO2Label memory l v) :
    PairTree memory live atree :=
  ⟨wf, fun x mem => pairs _ x ((wf.mem_elements_iff x).mp mem)⟩

theorem PairTree.of_or (tree0 : PairTree memory live atree0) (tree1 : PairTree memory live atree1)
    (wf : WfTree (getKey memory) atree 0 (2 ^ 63)) (finds : ∀ key, Atree.find (getKey memory) atree key =
      (Atree.find (getKey memory) atree0 key).or (Atree.find (getKey memory) atree1 key)) :
    PairTree memory live atree := by
  apply PairTree.of_find wf
  intro key x found
  rw [finds, or_eq_some_iff] at found
  rcases found with first | ⟨_, second⟩
  · obtain ⟨l, v, alive, same, _⟩ := tree0.label_of_find first
    exact ⟨l, v, alive, same⟩
  · obtain ⟨l, v, alive, same, _⟩ := tree1.label_of_find second
    exact ⟨l, v, alive, same⟩

variable {expected : Ex α → Option (Ex α)}

theorem PairTree.binds (tree : PairTree memory live atree)
    (finds : ∀ l, live l → Atree.find (getKey memory) atree (memory.address l) = (expected l).map (lO2Label memory l)) :
    Binds memory live (some (.labelling atree)) expected := by
  refine ⟨_, rfl, ⟨atree, rfl, tree⟩, ?_⟩
  intro l alive
  rw [find_labelling, value_labelling, finds l alive]
  cases expected l <;> rfl

theorem Binds.congr
    (binds : Binds memory live result expected) (same : ∀ l, live l → expected l = expected' l) :
    Binds memory live result expected' := by
  obtain ⟨L, returned, labelling, finds⟩ := binds
  exact ⟨L, returned, labelling, fun l alive => (finds l alive).trans (congrArg some (same l alive))⟩

theorem Binds.tree (binds : Binds memory live (some (.labelling atree)) expected) :
    PairTree memory live atree ∧ ∀ l, live l → value memory (.labelling atree) l = expected l := by
  obtain ⟨L, same, ⟨_, rfl, tree⟩, finds⟩ := binds
  cases same
  refine ⟨tree, ?_⟩
  intro l alive
  rw [value, finds l alive]
  rfl

/-- The two values of a common label. -/
def Common (memory : Memory α) (live : Ex α → Prop) (atree0 atree1 : Option (Atree (Ex α))) (l : Ex α) : Prop :=
  live l ∧ (value memory (.labelling atree0) l).isSome = true ∧ (value memory (.labelling atree1) l).isSome = true

variable {v0 v1 : Option (Ex α)}

private theorem joinAt_mergeIvAdaptor (l : Ex α) (both : v0.isSome = true ∧ v1.isSome = true) :
    Atree.joinAt (mergeIvAdaptor memory merge) (v0.map (lO2Label memory l)) (v1.map (lO2Label memory l)) =
      Atree.joinAt merge v0 v1 := by
  obtain ⟨v0, rfl⟩ := isSome_iff_exists.mp both.1
  obtain ⟨v1, rfl⟩ := isSome_iff_exists.mp both.2
  rfl

private theorem joinAt_apart (apart : ¬(v0.isSome = true ∧ v1.isSome = true)) :
    Atree.joinAt merge v0 v1 = v0.or v1 := by
  cases v0 with
  | none => rfl
  | some v0 =>
    cases v1 with
    | none => rfl
    | some v1 => exact absurd ⟨rfl, rfl⟩ apart

private theorem isSome_of_joinAt_eq_none (failed : Atree.joinAt merge v0 v1 = none)
    (bound : v0.isSome = true ∨ v1.isSome = true) : v0.isSome = true ∧ v1.isSome = true := by
  cases v0 <;> cases v1 <;> simp_all [Atree.joinAt]

private theorem ne_lO2Label (l v : Ex α) : v ≠ lO2Label memory l v := by
  intro same
  have sizes := congrArg sizeOf same
  simp only [lO2Label, Ex.opn.sizeOf_spec, cons.sizeOf_spec, nil.sizeOf_spec] at sizes
  omega

private theorem eq_of_find_leaf {getKey : Ex α → Word}
    (found : Atree.find getKey (some (.leaf e)) key = some x) : x = e := by
  rw [Atree.find_some, Atree.findLoop_leaf] at found
  split at found
  · exact (some.inj found).symm
  · cases found

private theorem mem_insertLoop_leaf {getKey : Ex α → Word} (merge : Ex α → Ex α → Option (Ex α)) (apart : getKey x ≠ getKey e) :
    ∃ t, Atree.insertLoop getKey merge (.leaf e) x = some t ∧ e ∈ elements (some t) := by
  rw [Atree.insertLoop, if_neg apart]
  by_cases less : getKey x < getKey e
  · rw [if_pos less]
    exact ⟨_, rfl, .tail _ (mem_singleton_self e)⟩
  · rw [if_neg less]
    exact ⟨_, rfl, .head _⟩

section Laws

variable (heap : Heap memory live)

include heap

private theorem insert_law [DecidableEq α] (tree : PairTree memory live atree) (alive : live l) (e : Ex α) :
    Operation.Law memory live (.labelling atree) x (.insert l e) := by
  have bounds : 0 ≤ (getKey memory (lO2Label memory l e)).toNat ∧ (getKey memory (lO2Label memory l e)).toNat < 2 ^ 63 :=
    Atree.low_bounds (heap.low l alive)
  obtain ⟨wf, finds⟩ := Atree.insert_find Atree.Half.lower tree.wf bounds
  have result : PairTree memory live (Atree.insert (getKey memory) atree (lO2Label memory l e)) := by
    apply PairTree.of_find wf
    intro key x found
    rw [finds, or_eq_some_iff] at found
    rcases found with old | ⟨_, new⟩
    · obtain ⟨l', v, alive', same, _⟩ := tree.label_of_find old
      exact ⟨l', v, alive', same⟩
    · split at new
      · cases new
        exact ⟨l, e, alive, rfl⟩
      · cases new
  apply result.binds
  intro l' alive'
  rw [finds, tree.find_eq heap alive']
  by_cases same : l' = l
  · subst same
    have own : getKey memory (lO2Label memory l' e) = memory.address l' := rfl
    rw [update_self, if_pos own]
    cases value memory (.labelling atree) l' <;> rfl
  · have apart : getKey memory (lO2Label memory l e) ≠ memory.address l' :=
      fun equal => same (heap.injective l' l alive' alive equal.symm)
    rw [update_of_ne same, if_neg apart, or_none]

private theorem erase_law [DecidableEq α] (tree : PairTree memory live atree) (alive : live l) :
    Operation.Law memory live (.labelling atree) x (.erase l) := by
  have erased := Atree.findErase_erased tree.wf (memory.address l)
  have finds := erased.rest
  rw [← Atree.erase_eq] at finds
  have result : PairTree memory live (Atree.erase (getKey memory) atree (memory.address l)) := by
    apply PairTree.of_find (Atree.erase_eq atree _ ▸ erased.wf)
    intro key x found
    rw [finds] at found
    split at found
    · cases found
    · obtain ⟨l', v, alive', same, _⟩ := tree.label_of_find found
      exact ⟨l', v, alive', same⟩
  apply result.binds
  intro l' alive'
  rw [finds, tree.find_eq heap alive']
  by_cases same : l' = l
  · subst same
    rw [update_self, if_pos rfl]
    rfl
  · have apart : memory.address l' ≠ memory.address l := fun equal => same (heap.injective l' l alive' alive equal)
    rw [update_of_ne same, if_neg apart]

section

variable (tree0 : PairTree memory live atree0) (tree1 : PairTree memory live atree1)

include tree0 tree1

theorem or_binds (wf : WfTree (getKey memory) atree 0 (2 ^ 63))
    (finds : ∀ key, Atree.find (getKey memory) atree key =
      (Atree.find (getKey memory) atree0 key).or (Atree.find (getKey memory) atree1 key)) :
    Binds memory live (some (.labelling atree)) fun l =>
      (value memory (.labelling atree0) l).or (value memory (.labelling atree1) l) := by
  apply (tree0.of_or tree1 wf finds).binds
  intro l alive
  rw [finds, tree0.find_eq heap alive, tree1.find_eq heap alive]
  cases value memory (.labelling atree0) l <;> rfl

private theorem leftUnion_law [DecidableEq α] :
    Operation.Law memory live (.labelling atree0) (.labelling atree1) .leftUnion :=
  or_binds heap tree0 tree1 (Atree.deepUnion_wf tree0.wf tree1.wf (Atree.keepsKey_mergeAsFirst _ _))
    (Atree.leftUnion_find tree0.wf tree1.wf)

private theorem leftIsecn_law [DecidableEq α] :
    Operation.Law memory live (.labelling atree0) (.labelling atree1) .leftIsecn := by
  have meets := Atree.deepIsecn_meets tree0.wf tree1.wf (Atree.keepsKey_mergeAsFirst atree0 atree1)
  have result : PairTree memory live (Atree.leftIsecn (getKey memory) atree0 atree1) := by
    apply PairTree.of_find meets.wf
    intro key x found
    rw [meets.find_eq] at found
    obtain ⟨value0, found0, rest⟩ := bind_eq_some_iff.mp found
    obtain ⟨_, _, merged⟩ := bind_eq_some_iff.mp rest
    cases merged
    obtain ⟨l, v, alive, same, _⟩ := tree0.label_of_find found0
    exact ⟨l, v, alive, same⟩
  apply result.binds
  intro l alive
  rw [Atree.leftIsecn, meets.find_eq, tree0.find_eq heap alive, tree1.find_eq heap alive]
  cases value memory (.labelling atree0) l <;> cases value memory (.labelling atree1) l <;> rfl

end

theorem isSome_value (tree : PairTree memory live atree) (alive : live l) :
    (value memory (.labelling atree) l).isSome = true ↔
      ∃ e, Atree.find (getKey memory) atree (memory.address l) = some e := by
  rw [tree.find_eq heap alive]
  cases value memory (.labelling atree) l <;> simp

theorem PairTree.eq_none (tree : PairTree memory live atree)
    (unbound : ∀ l, live l → ¬ (value memory (.labelling atree) l).isSome = true) : atree = Option.none := by
  cases atree with
  | none => rfl
  | some t =>
    obtain ⟨key, e, found⟩ := (tree.wf t rfl).exists_find
    obtain ⟨l, _, alive, _, rfl⟩ := tree.label_of_find found
    exact absurd ((isSome_value heap tree alive).mpr ⟨e, found⟩) (unbound l alive)

theorem common_iff (tree0 : PairTree memory live atree0) (tree1 : PairTree memory live atree1) :
    (∃ l, Common memory live atree0 atree1 l) ↔ ∃ key e0 e1,
      Atree.find (getKey memory) atree0 key = some e0 ∧ Atree.find (getKey memory) atree1 key = some e1 := by
  constructor
  · rintro ⟨l, alive, bound0, bound1⟩
    obtain ⟨e0, found0⟩ := (isSome_value heap tree0 alive).mp bound0
    obtain ⟨e1, found1⟩ := (isSome_value heap tree1 alive).mp bound1
    exact ⟨_, e0, e1, found0, found1⟩
  · rintro ⟨key, e0, e1, found0, found1⟩
    obtain ⟨l, _, alive, _, rfl⟩ := tree0.label_of_find found0
    exact ⟨l, alive, (isSome_value heap tree0 alive).mpr ⟨e0, found0⟩, (isSome_value heap tree1 alive).mpr ⟨e1, found1⟩⟩

theorem deepUnion_apart (mergePairs : Ex α → Ex α → Option (Ex α)) (tree0 : PairTree memory live atree0)
    (tree1 : PairTree memory live atree1) (apart : ¬ ∃ l, Common memory live atree0 atree1 l) :
    WfTree (getKey memory) (Atree.deepUnion (getKey memory) mergePairs atree0 atree1) 0 (2 ^ 63) ∧
      ∀ key, Atree.find (getKey memory) (Atree.deepUnion (getKey memory) mergePairs atree0 atree1) key =
        (Atree.find (getKey memory) atree0 key).or (Atree.find (getKey memory) atree1 key) := by
  rw [common_iff heap tree0 tree1] at apart
  have keeps : Atree.KeepsKey (getKey memory) mergePairs (Atree.find (getKey memory) atree0)
      (Atree.find (getKey memory) atree1) :=
    fun key e0 e1 _ found0 found1 _ => absurd ⟨key, e0, e1, found0, found1⟩ apart
  obtain ⟨fails, finds⟩ := Atree.deepUnion_spec tree0.wf tree1.wf keeps
  refine ⟨Atree.deepUnion_wf tree0.wf tree1.wf keeps, ?_⟩
  intro key
  by_cases failed : Atree.deepUnion (getKey memory) mergePairs atree0 atree1 = none
  · rcases fails.mp failed with ⟨rfl, rfl⟩ | ⟨key, e0, e1, found0, found1, _⟩
    · rfl
    · exact absurd ⟨key, e0, e1, found0, found1⟩ apart
  · rw [finds failed]
    cases found0 : Atree.find (getKey memory) atree0 key with
    | none => rfl
    | some e0 =>
      cases found1 : Atree.find (getKey memory) atree1 key with
      | none => rfl
      | some e1 => exact absurd ⟨key, e0, e1, found0, found1⟩ apart

section

variable (tree0 : PairTree memory live atree0) (tree1 : PairTree memory live atree1)

include tree0 tree1

private theorem disjointUnion_law [DecidableEq α] :
    Operation.Law memory live (.labelling atree0) (.labelling atree1) .disjointUnion := by
  cases atree0 with
  | none =>
    refine ⟨⟨fun failed => ?_, ?_⟩, fun _ => ?_⟩
    · cases failed
    · rintro ⟨l, _, bound, _⟩
      cases bound
    · exact tree1.binds fun l alive => tree1.find_eq heap alive
  | some t0 =>
    have clash : Atree.disjointUnion (getKey memory) (some t0) atree1 = none ↔
        ∃ l, Common memory live (some t0) atree1 l := by
      rw [Atree.disjointUnion, (Atree.deepUnion_spec tree0.wf tree1.wf (Atree.keepsKey_mergeDisjoin _ _)).1,
        common_iff heap tree0 tree1]
      simp [Atree.mergeDisjoin]
    cases united : Atree.disjointUnion (getKey memory) (some t0) atree1 with
    | none =>
      have result : Labelling.disjointUnion memory (.labelling (some t0)) (.labelling atree1) = some none := by
        simp [Labelling.disjointUnion, labellingAtree, united]
      exact ⟨⟨fun _ => clash.mp united, fun _ => result⟩, fun succeeded => absurd result succeeded⟩
    | some t =>
      have result : Labelling.disjointUnion memory (.labelling (some t0)) (.labelling atree1) =
          some (some (.labelling (some t))) := by
        simp [Labelling.disjointUnion, labellingAtree, united]
      have apart : ¬ ∃ l, Common memory live (some t0) atree1 l := by
        rw [← clash, united]
        exact some_ne_none t
      obtain ⟨wf, finds⟩ := deepUnion_apart heap Atree.mergeDisjoin tree0 tree1 apart
      rw [← Atree.disjointUnion, united] at wf finds
      rw [Operation.Law, result]
      refine ⟨⟨fun failed => ?_, fun common => absurd common apart⟩, fun _ => or_binds heap tree0 tree1 wf finds⟩
      cases failed

private theorem storedUnion_common (common : Common memory live atree0 atree1 l)
    (succeeded : Atree.storedUnion (getKey memory) (mergeIvAdaptor memory merge) atree0 atree1 ≠ none) :
    ∃ m, Atree.joinAt merge (value memory (.labelling atree0) l) (value memory (.labelling atree1) l) = some m ∧
      Atree.find Prod.fst (Atree.storedUnion (getKey memory) (mergeIvAdaptor memory merge) atree0 atree1)
        (memory.address l) = some (memory.address l, m) := by
  obtain ⟨alive, both⟩ := common
  obtain ⟨fails, finds⟩ := Atree.storedUnion_spec (mergeIvAdaptor memory merge) tree0.wf tree1.wf
  have found := finds succeeded (memory.address l)
  have found0 := tree0.find_eq heap alive
  have found1 := tree1.find_eq heap alive
  rw [found0, found1, joinAt_mergeIvAdaptor l both] at found
  obtain ⟨v0, bound0⟩ := isSome_iff_exists.mp both.1
  obtain ⟨v1, bound1⟩ := isSome_iff_exists.mp both.2
  rw [bound0, bound1] at found ⊢
  cases merged : merge v0 v1 with
  | none =>
    have clash : mergeIvAdaptor memory merge (lO2Label memory l v0) (lO2Label memory l v1) = none := merged
    rw [bound0] at found0
    rw [bound1] at found1
    exact absurd (fails.mpr (.inr ⟨_, _, _, found0, found1, clash⟩)) succeeded
  | some m =>
    refine ⟨m, merged, ?_⟩
    rw [found, Atree.joinAt, merged]
    rfl

/-- A union of labellings stores what is merged in place of the pair, which is right only if nothing is. -/
theorem deepUnion_law_iff [DecidableEq α] :
    Operation.Law memory live (.labelling atree0) (.labelling atree1) (.deepUnion merge) ↔
      Operation.Sound memory live (.labelling atree0) (.labelling atree1) (.deepUnion merge) := by
  have united := Atree.deepUnion_eq (getKey memory) (mergeIvAdaptor memory merge) atree0 atree1
  constructor
  · intro law
    obtain ⟨tree, values⟩ := Binds.tree law
    by_cases common : ∃ l, Common memory live atree0 atree1 l
    · right
      obtain ⟨l, common⟩ := common
      by_cases failed : Atree.storedUnion (getKey memory) (mergeIvAdaptor memory merge) atree0 atree1 = none
      · intro l' alive'
        rw [← values l' alive', united, failed]
        rfl
      · obtain ⟨m, merged, stored⟩ := storedUnion_common heap tree0 tree1 common failed
        have found := tree.find_eq heap common.1
        rw [values l common.1, merged, united, Atree.find_untagged stored] at found
        split at found
        · exact absurd (Option.some.inj found) (ne_lO2Label l m)
        · cases found
    · left
      intro l alive both
      exact common ⟨l, alive, both⟩
  · rintro (apart | failing)
    · have disjoint : ¬ ∃ l, Common memory live atree0 atree1 l := fun ⟨l, alive, both⟩ => apart l alive both
      obtain ⟨wf, finds⟩ := deepUnion_apart heap (mergeIvAdaptor memory merge) tree0 tree1 disjoint
      exact (or_binds heap tree0 tree1 wf finds).congr fun l alive => (joinAt_apart (apart l alive)).symm
    have failed : Atree.storedUnion (getKey memory) (mergeIvAdaptor memory merge) atree0 atree1 = none := by
      by_contra succeeded
      have unbound (l : Ex α) (alive : live l) : ¬((value memory (.labelling atree0) l).isSome = true ∨
          (value memory (.labelling atree1) l).isSome = true) := by
        intro bound
        have common : Common memory live atree0 atree1 l := ⟨alive, isSome_of_joinAt_eq_none (failing l alive) bound⟩
        obtain ⟨m, merged, _⟩ := storedUnion_common heap tree0 tree1 common succeeded
        exact absurd (merged.symm.trans (failing l alive)) (some_ne_none m)
      have empty0 := tree0.eq_none heap fun l alive bound => unbound l alive (.inl bound)
      have empty1 := tree1.eq_none heap fun l alive bound => unbound l alive (.inr bound)
      exact succeeded ((Atree.storedUnion_spec (mergeIvAdaptor memory merge) tree0.wf tree1.wf).1.mpr (.inl ⟨empty0, empty1⟩))
    have result : Atree.deepUnion (getKey memory) (mergeIvAdaptor memory merge) atree0 atree1 = none := by
      rw [united, failed]
      rfl
    rw [Operation.Law, Labelling.deepUnion]
    simp only [labellingAtree, bind_eq_bind, bind_some, result]
    apply PairTree.none.binds
    intro l alive
    rw [failing l alive]
    rfl

theorem pairs_of_finds (found0 : Atree.find (getKey memory) atree0 key = some e0)
    (found1 : Atree.find (getKey memory) atree1 key = some e1) :
    ∃ l v0 v1, live l ∧ memory.address l = key ∧ e0 = lO2Label memory l v0 ∧ e1 = lO2Label memory l v1 ∧
      value memory (.labelling atree0) l = some v0 ∧ value memory (.labelling atree1) l = some v1 := by
  obtain ⟨l, v0, alive, rfl, rfl⟩ := tree0.label_of_find found0
  obtain ⟨l', v1, alive', rfl, same⟩ := tree1.label_of_find found1
  obtain rfl := heap.injective l' l alive' alive same
  exact ⟨l', v0, v1, alive', rfl, rfl, rfl, by rw [value_labelling, found0]; rfl, by rw [value_labelling, found1]; rfl⟩

private theorem deepIsecn_law_iff [DecidableEq α] :
    Operation.Law memory live (.labelling atree0) (.labelling atree1) (.deepIsecn merge) ↔
      Operation.Sound memory live (.labelling atree0) (.labelling atree1) (.deepIsecn merge) := by
  constructor
  · rintro ⟨L, result, ⟨atree, rfl, tree⟩, exactly⟩ l v0 v1 alive bound0 bound1
    have same : atree = Atree.untagged (Atree.storedIsecn (getKey memory) (mergeIvAdaptor memory merge) atree0 atree1) := by
      rw [← Atree.deepIsecn_eq]
      cases result
      rfl
    obtain ⟨wf, finds⟩ := Atree.storedIsecn_meets (mergeIvAdaptor memory merge) tree0.wf tree1.wf
    have bound : (value memory (.labelling atree) l).isSome = true :=
      (exactly l alive).mpr ⟨by rw [bound0]; rfl, by rw [bound1]; rfl⟩
    obtain ⟨w, valued⟩ := isSome_iff_exists.mp bound
    have found : Atree.find (getKey memory) atree (memory.address l) = some (lO2Label memory l w) := by
      rw [tree.find_eq heap alive, valued]
      rfl
    -- the pair may be stored under the key of another label, but then this one is not bound
    have mem : lO2Label memory l w ∈ elements atree := (tree.wf.mem_elements_iff _).mpr found
    rw [same, Atree.mem_elements_untagged wf] at mem
    obtain ⟨key, stored⟩ := mem
    have merged := stored
    rw [finds, map_eq_some_iff] at merged
    obtain ⟨m, met, pair⟩ := merged
    cases pair
    obtain ⟨e0, found0, rest⟩ := bind_eq_some_iff.mp met
    obtain ⟨e1, found1, merged⟩ := bind_eq_some_iff.mp rest
    obtain ⟨l', v0', v1', alive', rfl, rfl, rfl, bound0', bound1'⟩ := pairs_of_finds heap tree0 tree1 found0 found1
    have bound' : (value memory (.labelling atree) l').isSome = true :=
      (exactly l' alive').mpr ⟨by rw [bound0']; rfl, by rw [bound1']; rfl⟩
    obtain ⟨e, found'⟩ := (isSome_value heap tree alive').mp bound'
    rw [same, Atree.find_untagged stored] at found'
    have own : getKey memory (lO2Label memory l w) = memory.address l' := by
      by_contra apart
      rw [if_neg apart] at found'
      cases found'
    obtain rfl := heap.injective l l' alive alive' own
    cases bound0.symm.trans bound0'
    cases bound1.symm.trans bound1'
    exact ⟨w, merged⟩
  · intro sound
    have keeps : Atree.KeepsKey (getKey memory) (mergeIvAdaptor memory merge) (Atree.find (getKey memory) atree0)
        (Atree.find (getKey memory) atree1) := by
      intro key e0 e1 m found0 found1 merged
      obtain ⟨l, v0, v1, alive, rfl, rfl, rfl, bound0, bound1⟩ := pairs_of_finds heap tree0 tree1 found0 found1
      obtain ⟨w, known⟩ := sound l v0 v1 alive bound0 bound1
      have same : some m = some (lO2Label memory l w) := merged.symm.trans known
      cases same
      rfl
    have meets := Atree.deepIsecn_meets tree0.wf tree1.wf keeps
    have result : PairTree memory live (Atree.deepIsecn (getKey memory) (mergeIvAdaptor memory merge) atree0 atree1) := by
      apply PairTree.of_find meets.wf
      intro key m found
      rw [meets.find_eq] at found
      obtain ⟨e0, found0, rest⟩ := bind_eq_some_iff.mp found
      obtain ⟨e1, found1, merged⟩ := bind_eq_some_iff.mp rest
      obtain ⟨l, v0, v1, alive, rfl, rfl, rfl, bound0, bound1⟩ := pairs_of_finds heap tree0 tree1 found0 found1
      obtain ⟨w, known⟩ := sound l v0 v1 alive bound0 bound1
      exact ⟨l, w, alive, some.inj (merged.symm.trans known)⟩
    refine ⟨_, rfl, ⟨_, rfl, result⟩, ?_⟩
    intro l alive
    dsimp only
    rw [isSome_value heap result alive, meets.find_eq, isSome_value heap tree0 alive, isSome_value heap tree1 alive]
    constructor
    · rintro ⟨m, found⟩
      obtain ⟨e0, found0, rest⟩ := bind_eq_some_iff.mp found
      obtain ⟨e1, found1, _⟩ := bind_eq_some_iff.mp rest
      exact ⟨⟨e0, found0⟩, ⟨e1, found1⟩⟩
    · rintro ⟨⟨e0, found0⟩, ⟨e1, found1⟩⟩
      obtain ⟨l', v0, v1, alive', own, rfl, rfl, bound0, bound1⟩ := pairs_of_finds heap tree0 tree1 found0 found1
      obtain ⟨w, known⟩ := sound l' v0 v1 alive' bound0 bound1
      refine ⟨lO2Label memory l' w, ?_⟩
      rw [found0, found1]
      exact known

end

/-- Insertion with a merge starts from the labelling itself in place of its tree, and never does what it is for. -/
theorem not_deepInsert_law [DecidableEq α] (tree : PairTree memory live atree) (alive : live l) :
    ¬ Operation.Law memory live (.labelling atree) x (.deepInsert merge l e) := by
  intro law
  obtain ⟨result, values⟩ := Binds.tree law
  have inserted : Atree.deepInsert (getKey memory) merge (some (.leaf (.labelling atree))) (lO2Label memory l e) =
      Atree.insertLoop (getKey memory) merge (.leaf (.labelling atree)) (lO2Label memory l e) := rfl
  by_cases own : getKey memory (lO2Label memory l e) = getKey memory (.labelling atree)
  · have single : Atree.insertLoop (getKey memory) merge (.leaf (.labelling atree)) (lO2Label memory l e) =
        (merge (.labelling atree) (lO2Label memory l e)).map .leaf := if_pos own
    rw [inserted, single] at result values
    cases atree with
    | none => exact heap.nonzero l alive own
    | some t =>
      cases t with
      | anode centre left right => exact heap.anodes l centre left right alive own.symm
      | leaf x =>
        obtain ⟨l0, v0, alive0, rfl⟩ := tree.pairs x (mem_singleton_self x)
        have apart : l0 ≠ l := by
          rintro rfl
          exact heap.pairs l0 v0 alive0 own.symm
        have bound : value memory (.labelling (some (.leaf (lO2Label memory l0 v0)))) l0 = some v0 := by
          rw [value_labelling, Atree.find_some, Atree.findLoop_leaf]
          exact if_pos rfl ▸ rfl
        have unbound : value memory (.labelling (some (.leaf (lO2Label memory l0 v0)))) l = none := by
          rw [value_labelling, Atree.find_some, Atree.findLoop_leaf]
          exact if_neg (fun same => apart (heap.injective l0 l alive0 alive same)) ▸ rfl
        have kept := result.find_eq heap alive0
        have added := result.find_eq heap alive
        rw [values l0 alive0, update_of_ne apart, bound] at kept
        rw [values l alive, update_self, unbound] at added
        cases merged : merge (.labelling (some (.leaf (lO2Label memory l0 v0)))) (lO2Label memory l e) with
        | none =>
          rw [merged] at kept
          cases kept
        | some m =>
          rw [merged] at kept added
          have first := eq_of_find_leaf kept
          have second := eq_of_find_leaf added
          injection first.trans second.symm with _ operands
          exact apart (cons.inj operands).1
  · obtain ⟨t, united, mem⟩ := mem_insertLoop_leaf merge own
    rw [inserted, united] at result
    obtain ⟨_, _, _, pair⟩ := result.pairs _ mem
    cases pair

end Laws

/-- Labellings are maps, except where a value that is not a pair comes in the place of one. -/
theorem law_iff_sound [DecidableEq α] (heap : Heap memory live) (L0 L1 : Ex α) (labelling0 : IsLabelling memory live L0)
    (labelling1 : IsLabelling memory live L1) (op : Operation α) (legal : op.Legal live) :
    op.Law memory live L0 L1 ↔ op.Sound memory live L0 L1 := by
  obtain ⟨atree0, rfl, tree0⟩ := labelling0
  obtain ⟨atree1, rfl, tree1⟩ := labelling1
  cases op with
  | insert l e => exact iff_of_true (insert_law heap tree0 legal e) trivial
  | deepInsert merge l e => exact iff_of_false (not_deepInsert_law heap tree0 legal) id
  | erase l => exact iff_of_true (erase_law heap tree0 legal) trivial
  | leftUnion => exact iff_of_true (leftUnion_law heap tree0 tree1) trivial
  | disjointUnion => exact iff_of_true (disjointUnion_law heap tree0 tree1) trivial
  | deepUnion merge => exact deepUnion_law_iff heap tree0 tree1
  | leftIsecn => exact iff_of_true (leftIsecn_law heap tree0 tree1) trivial
  | deepIsecn merge => exact deepIsecn_law_iff heap tree0 tree1

def smallMemory : Memory Word where
  address e := match e with
    | .object w => w
    | _ => 1
  firstWord _ := 1
  secondOperand _ := none
  o2Metapair := 1

def smallLive (e : Ex Word) : Prop := e = .object 2 ∨ e = .object 4

private theorem smallHeap : Heap smallMemory smallLive where
  injective := by rintro _ _ (rfl | rfl) (rfl | rfl) <;> simp [smallMemory]
  nonzero := by rintro _ (rfl | rfl) <;> simp [smallMemory]
  low := by rintro _ (rfl | rfl) <;> decide
  aligned := by rintro _ (rfl | rfl) <;> decide
  pairs := by rintro _ _ (rfl | rfl) <;> simp [smallMemory, lO2Label]
  anodes := by rintro _ _ _ _ (rfl | rfl) <;> simp [smallMemory]

def small (l w : Word) : Ex Word := .labelling (some (.leaf (lO2Label smallMemory (.object l) (.object w))))

private theorem small_isLabelling {l : Word} (alive : smallLive (.object l)) (w : Word) :
    IsLabelling smallMemory smallLive (small l w) := by
  refine ⟨_, rfl, ?_, ?_⟩
  · rintro _ ⟨⟩
    rcases alive with ⟨⟨⟩⟩ | ⟨⟨⟩⟩
    · exact (by decide : 0 ≤ (2 : Word).toNat ∧ (2 : Word).toNat < 2 ^ 63)
    · exact (by decide : 0 ≤ (4 : Word).toNat ∧ (4 : Word).toNat < 2 ^ 63)
  · intro e mem
    obtain rfl := mem_singleton.mp mem
    exact ⟨_, _, alive, rfl⟩

/-- A union is right for two labels, and not for values of one label. -/
theorem law_iff_sound_small :
    (Operation.deepUnion Atree.mergeAsFirst).Law smallMemory smallLive (small 2 8) (small 4 10) ∧
      ¬ (Operation.deepUnion Atree.mergeAsFirst).Law smallMemory smallLive (small 2 8) (small 2 10) := by
  have iff {l : Word} (alive : smallLive (.object l)) :=
    law_iff_sound smallHeap (small 2 8) (small l 10) (small_isLabelling (.inl rfl) 8) (small_isLabelling alive 10)
      (.deepUnion Atree.mergeAsFirst) trivial
  refine ⟨(iff (.inr rfl)).mpr (.inl ?_), fun law => ?_⟩
  · rintro _ (rfl | rfl) <;> decide
  · rcases (iff (.inl rfl)).mp law with apart | failed
    · exact apart (.object 2) (.inl rfl) (by decide)
    · exact absurd (failed (.object 2) (.inl rfl)) (by decide)

/-- The value of the common label is lost, though the merge returns it. -/
theorem deepUnion_loses :
    find smallMemory (small 2 8) (.object 2) = some (some (.object 8)) ∧
      find smallMemory (small 2 10) (.object 2) = some (some (.object 10)) ∧
      (deepUnion smallMemory Atree.mergeAsFirst (small 2 8) (small 2 10)).bind (find smallMemory · (.object 2)) =
        some none := by
  have united : deepUnion smallMemory Atree.mergeAsFirst (small 2 8) (small 2 10) =
      some (.labelling (some (.leaf (.object 8)))) := by
    change some (Ex.labelling (Atree.unionLoop _ _ _ _)) = _
    rw [Atree.unionLoop]
    decide
  rw [united]
  decide

end Culibs.Cuex.Labelling
