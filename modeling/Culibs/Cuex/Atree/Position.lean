import Culibs.Cuex.Atree.Canonical

/-! What unions and intersections do with any merge. The algorithms read the keys
of their arguments only, so that a merged element is where the merged elements
were, whatever its own key is. -/

namespace Culibs.Cuex.Atree

open Option List

variable {α β : Type} {getKey : α → Word} {getKey' : β → Word} {mergeValues : α → α → Option α}
  {mergeValues' : β → β → Option β} {f : β → α} {t t0 t1 left right : Atree β} {centre key : Word} {b : β}

/-- The same tree of other elements. -/
def map (f : β → α) : Atree β → Atree α
  | leaf value => leaf (f value)
  | anode centre left right => anode centre (map f left) (map f right)

theorem toList_map (f : β → α) (t : Atree β) : (t.map f).toList = t.toList.map f := by
  induction t with
  | leaf value => rfl
  | anode centre left right ihLeft ihRight => simp [map, toList, ihLeft, ihRight]

theorem map_map (g : α → γ) (f : β → α) (t : Atree β) : (t.map f).map g = t.map (g ∘ f) := by
  induction t with
  | leaf value => rfl
  | anode centre left right ihLeft ihRight => simp [map, ihLeft, ihRight]

theorem map_id (t : Atree α) : t.map id = t := by
  induction t with
  | leaf value => rfl
  | anode centre left right ihLeft ihRight => simp [map, ihLeft, ihRight]

/-- The elements have the keys of what they stand for. -/
def KeysAgree (getKey : α → Word) (getKey' : β → Word) (f : β → α) (t : Atree β) : Prop :=
  ∀ b ∈ t.toList, getKey (f b) = getKey' b

theorem KeysAgree.inLeft (agree : KeysAgree getKey getKey' f (anode centre left right)) :
    KeysAgree getKey getKey' f left :=
  fun b mem => agree b (mem_append_left _ mem)

theorem KeysAgree.inRight (agree : KeysAgree getKey getKey' f (anode centre left right)) :
    KeysAgree getKey getKey' f right :=
  fun b mem => agree b (mem_append_right _ mem)

theorem KeysAgree.atLeaf (agree : KeysAgree getKey getKey' f (leaf b)) : getKey (f b) = getKey' b :=
  agree b (mem_singleton_self b)

section

variable (agree : KeysAgree getKey getKey' f t)

include agree

theorem findLoop_map (key : Word) : findLoop getKey (t.map f) key = (findLoop getKey' t key).map f := by
  induction t with
  | leaf value =>
    simp only [map, findLoop, agree.atLeaf]
    split <;> rfl
  | anode centre left right ihLeft ihRight =>
    simp only [map, findLoop, ihLeft agree.inLeft, ihRight agree.inRight]
    split
    · split <;> rfl
    · split <;> rfl

theorem Wf.map {low high : Nat} (wf : Wf getKey' t low high) : Wf getKey (t.map f) low high := by
  induction t generalizing low high with
  | leaf value =>
    rw [Atree.map, Wf, agree.atLeaf]
    exact wf
  | anode centre left right ihLeft ihRight =>
    exact ⟨wf.1, wf.2.1, wf.2.2.1, ihLeft agree.inLeft wf.2.2.2.1, ihRight agree.inRight wf.2.2.2.2⟩

private theorem insertLoop_map (same : getKey (f b) = getKey' b)
    (merges : ∀ b0 b1, mergeValues (f b0) (f b1) = (mergeValues' b0 b1).map f) :
    insertLoop getKey mergeValues (t.map f) (f b) = (insertLoop getKey' mergeValues' t b).map (map f) := by
  induction t with
  | leaf old =>
    simp only [map, insertLoop, agree.atLeaf, same, merges]
    split
    · cases mergeValues' old b <;> rfl
    · split <;> rfl
  | anode centre left right ihLeft ihRight =>
    simp only [map, insertLoop, same, ihLeft agree.inLeft, ihRight agree.inRight]
    split
    · split
      · rfl
      · cases insertLoop getKey' mergeValues' left b <;> rfl
    · split
      · rfl
      · cases insertLoop getKey' mergeValues' right b <;> rfl

end

theorem node_map {result' : Option (Atree β)} {node : Atree α → Atree α}
    {node' : Atree β → Atree β} (same : result = result'.map (map f)) (nodes : ∀ t, node (map f t) = map f (node' t)) :
    (result.bind fun t => some (node t)) = (result'.bind fun t => some (node' t)).map (map f) := by
  subst same
  cases result' with
  | none => rfl
  | some t => exact congrArg some (nodes t)

private theorem node_map2 (centre : Word) (newLeft newRight : Option (Atree β)) :
    ((newLeft.map (map f)).bind fun left => (newRight.map (map f)).bind fun right => some (anode centre left right)) =
      (newLeft.bind fun left => newRight.bind fun right => some (anode centre left right)).map (map f) := by
  cases newLeft <;> cases newRight <;> rfl

theorem unionLoop_map (merges : ∀ b0 b1, mergeValues (f b0) (f b1) = (mergeValues' b0 b1).map f)
    (agree0 : KeysAgree getKey getKey' f t0) (agree1 : KeysAgree getKey getKey' f t1) :
    unionLoop getKey mergeValues (t0.map f) (t1.map f) = (unionLoop getKey' mergeValues' t0 t1).map (map f) := by
  fun_induction unionLoop getKey' mergeValues' t0 t1 with
  | case1 value0 t1 =>
    rw [map, unionLoop]
    exact insertLoop_map agree1 agree0.atLeaf fun b0 b1 => merges b1 b0
  | case2 t0 value1 noLeaf =>
    cases t0 with
    | leaf value0 => exact absurd rfl (noLeaf value0)
    | anode centre left right =>
      rw [map, unionLoop]
      · exact insertLoop_map agree0 agree1.atLeaf merges
      · intro _ same
        cases same
  | case3 =>
    rename_i ihLeft ihRight
    rw [map, map, unionLoop, if_pos rfl, ihLeft agree0.inLeft agree1.inLeft, ihRight agree0.inRight agree1.inRight]
    exact node_map2 _ _ _
  | case4 =>
    rename_i ne less max0 max min1 apart
    rw [map, map, unionLoop, if_neg ne, if_pos less]
    dsimp only
    rw [if_pos max, if_pos apart]
    rfl
  | case5 =>
    rename_i ne less max0 max min1 overlap ih
    rw [map, map, unionLoop, if_neg ne, if_pos less]
    dsimp only
    rw [if_pos max, if_neg overlap]
    exact node_map (ih agree0 agree1.inLeft) fun _ => rfl
  | case6 =>
    rename_i ne less max0 max ih
    rw [map, map, unionLoop, if_neg ne, if_pos less]
    dsimp only
    rw [if_neg max]
    exact node_map (ih agree0.inRight agree1) fun _ => rfl
  | case7 =>
    rename_i ne notLess max1 max min0 apart
    rw [map, map, unionLoop, if_neg ne, if_neg notLess]
    dsimp only
    rw [if_pos max, if_pos apart]
    rfl
  | case8 =>
    rename_i ne notLess max1 max min0 overlap ih
    rw [map, map, unionLoop, if_neg ne, if_neg notLess]
    dsimp only
    rw [if_pos max, if_neg overlap]
    exact node_map (ih agree0.inLeft agree1) fun _ => rfl
  | case9 =>
    rename_i ne notLess max1 max ih
    rw [map, map, unionLoop, if_neg ne, if_neg notLess]
    dsimp only
    rw [if_neg max]
    exact node_map (ih agree0 agree1.inRight) fun _ => rfl

private theorem isecnNode_map (newLeft newRight : Option (Atree β)) :
    isecnNode centre (newLeft.map (map f)) (newRight.map (map f)) = (isecnNode centre newLeft newRight).map (map f) := by
  cases newLeft <;> cases newRight <;> rfl

theorem leaf_map {merge : α → Option α} {merge' : β → Option β} (found : Option β)
    (merges : ∀ b, merge (f b) = (merge' b).map f) :
    ((found.map f).bind fun value => (merge value).map leaf) =
      (found.bind fun value => (merge' value).map leaf).map (map f) := by
  cases found with
  | none => rfl
  | some b =>
    simp only [map_some, bind_some, merges]
    cases merge' b <;> rfl

private theorem isecnLoop_map (merges : ∀ b0 b1, mergeValues (f b0) (f b1) = (mergeValues' b0 b1).map f)
    (agree0 : KeysAgree getKey getKey' f t0) (agree1 : KeysAgree getKey getKey' f t1) :
    isecnLoop getKey mergeValues (t0.map f) (t1.map f) = (isecnLoop getKey' mergeValues' t0 t1).map (map f) := by
  fun_induction isecnLoop getKey' mergeValues' t0 t1 with
  | case1 value0 t1 =>
    rw [map, isecnLoop, agree0.atLeaf, findLoop_map agree1]
    exact leaf_map _ fun value1 => merges value0 value1
  | case2 t0 value1 noLeaf =>
    cases t0 with
    | leaf value0 => exact absurd rfl (noLeaf value0)
    | anode centre left right =>
      have found := findLoop_map agree0 (getKey' value1)
      rw [map] at found
      rw [map, map, isecnLoop, agree1.atLeaf, found]
      · exact leaf_map _ fun value0 => merges value0 value1
      · intro _ same
        cases same
  | case3 =>
    rename_i ihLeft ihRight
    rw [map, map, isecnLoop, if_pos rfl, ihLeft agree0.inLeft agree1.inLeft, ihRight agree0.inRight agree1.inRight,
      isecnNode_map]
  | case4 =>
    rename_i ne less max0 max min1 apart
    rw [map, map, isecnLoop, if_neg ne, if_pos less]
    dsimp only
    rw [if_pos max, if_pos apart]
    rfl
  | case5 =>
    rename_i ne less max0 max min1 overlap ih
    rw [map, map, isecnLoop, if_neg ne, if_pos less]
    dsimp only
    rw [if_pos max, if_neg overlap]
    exact ih agree0 agree1.inLeft
  | case6 =>
    rename_i ne less max0 max ih
    rw [map, map, isecnLoop, if_neg ne, if_pos less]
    dsimp only
    rw [if_neg max]
    exact ih agree0.inRight agree1
  | case7 =>
    rename_i ne notLess max1 max min0 apart
    rw [map, map, isecnLoop, if_neg ne, if_neg notLess]
    dsimp only
    rw [if_pos max, if_pos apart]
    rfl
  | case8 =>
    rename_i ne notLess max1 max min0 overlap ih
    rw [map, map, isecnLoop, if_neg ne, if_neg notLess]
    dsimp only
    rw [if_pos max, if_neg overlap]
    exact ih agree0.inLeft agree1
  | case9 =>
    rename_i ne notLess max1 max ih
    rw [map, map, isecnLoop, if_neg ne, if_neg notLess]
    dsimp only
    rw [if_neg max]
    exact ih agree0 agree1.inRight

def tag (getKey : α → Word) (t : Atree α) : Atree (Word × α) := t.map fun value => (getKey value, value)

def tagged (getKey : α → Word) (tree : Option (Atree α)) : Option (Atree (Word × α)) := tree.map (tag getKey)

def untagged (tree : Option (Atree (Word × α))) : Option (Atree α) := tree.map (map Prod.snd)

/-- The merge of stored elements, which stays where the first is. -/
def mergeTagged (mergeValues : α → α → Option α) (value0 value1 : Word × α) : Option (Word × α) :=
  (mergeValues value0.2 value1.2).map fun value => (value0.1, value)

section Tagged

variable {tree tree0 tree1 : Option (Atree α)} {stored : Option (Atree (Word × α))} {low high : Nat} {value : α}

theorem keysAgree_tag (t : Atree α) : KeysAgree Prod.fst getKey (fun value => (getKey value, value)) t :=
  fun _ _ => rfl

theorem keysAgree_untag (getKey : α → Word) (t : Atree α) : KeysAgree getKey Prod.fst Prod.snd (tag getKey t) := by
  intro b mem
  rw [tag, toList_map] at mem
  obtain ⟨value, _, rfl⟩ := mem_map.mp mem
  rfl

theorem untag_tag (getKey : α → Word) (t : Atree α) : (tag getKey t).map Prod.snd = t :=
  (map_map _ _ t).trans (map_id t)

theorem untagged_tagged (getKey : α → Word) (tree : Option (Atree α)) : untagged (tagged getKey tree) = tree := by
  cases tree with
  | none => rfl
  | some t => exact congrArg some (untag_tag getKey t)

theorem find_tagged (tree : Option (Atree α)) (key : Word) :
    find Prod.fst (tagged getKey tree) key = (find getKey tree key).map fun value => (key, value) := by
  cases tree with
  | none => rfl
  | some t =>
    rw [tagged, map_some, find_some, find_some, tag, findLoop_map (keysAgree_tag t)]
    cases found : findLoop getKey t key with
    | none => rfl
    | some value => rw [map_some, map_some, key_of_findLoop found]

theorem WfTree.tagged (wf : WfTree getKey tree low high) : WfTree Prod.fst (Atree.tagged getKey tree) low high := by
  cases tree with
  | none => nofun
  | some t =>
    intro t' same
    cases same
    exact (wf t rfl).map (keysAgree_tag t)

theorem mergeTagged_untag (mergeValues : α → α → Option α) (value0 value1 : Word × α) :
    mergeValues value0.2 value1.2 = (mergeTagged mergeValues value0 value1).map Prod.snd := by
  rw [mergeTagged, Option.map_map]
  exact map_id'.symm

theorem keepsKey_mergeTagged (mergeValues : α → α → Option α) (tree0 tree1 : Option (Atree (Word × α))) :
    KeepsKey Prod.fst (mergeTagged mergeValues) (find Prod.fst tree0) (find Prod.fst tree1) := by
  intro key value0 value1 value found0 _ merged
  obtain ⟨_, _, rfl⟩ := map_eq_some_iff.mp merged
  have own : value0.1 = key := key_of_find found0
  exact own

/-- The union of trees with the keys under which the elements are stored. -/
def storedUnion (getKey : α → Word) (mergeValues : α → α → Option α) (tree0 tree1 : Option (Atree α)) :
    Option (Atree (Word × α)) :=
  deepUnion Prod.fst (mergeTagged mergeValues) (tagged getKey tree0) (tagged getKey tree1)

def storedIsecn (getKey : α → Word) (mergeValues : α → α → Option α) (tree0 tree1 : Option (Atree α)) :
    Option (Atree (Word × α)) :=
  deepIsecn Prod.fst (mergeTagged mergeValues) (tagged getKey tree0) (tagged getKey tree1)

theorem deepUnion_eq (getKey : α → Word) (mergeValues : α → α → Option α) (tree0 tree1 : Option (Atree α)) :
    deepUnion getKey mergeValues tree0 tree1 = untagged (storedUnion getKey mergeValues tree0 tree1) := by
  cases tree0 with
  | none => exact (untagged_tagged getKey tree1).symm
  | some t0 =>
    cases tree1 with
    | none => exact (untagged_tagged getKey (some t0)).symm
    | some t1 =>
      have mapped := unionLoop_map (mergeTagged_untag mergeValues) (keysAgree_untag getKey t0) (keysAgree_untag getKey t1)
      rwa [untag_tag, untag_tag] at mapped

theorem deepIsecn_eq (getKey : α → Word) (mergeValues : α → α → Option α) (tree0 tree1 : Option (Atree α)) :
    deepIsecn getKey mergeValues tree0 tree1 = untagged (storedIsecn getKey mergeValues tree0 tree1) := by
  cases tree0 with
  | none => rfl
  | some t0 =>
    cases tree1 with
    | none => rfl
    | some t1 =>
      have mapped := isecnLoop_map (mergeTagged_untag mergeValues) (keysAgree_untag getKey t0) (keysAgree_untag getKey t1)
      rwa [untag_tag, untag_tag] at mapped

private theorem joinAt_tagged (key : Word) (x y : Option α) :
    joinAt (mergeTagged mergeValues) (x.map fun value => (key, value)) (y.map fun value => (key, value)) =
      (joinAt mergeValues x y).map fun value => (key, value) := by
  cases x <;> cases y <;> rfl

theorem storedUnion_spec (mergeValues : α → α → Option α) (wf0 : WfTree getKey tree0 0 (2 ^ 63))
    (wf1 : WfTree getKey tree1 0 (2 ^ 63)) :
    (storedUnion getKey mergeValues tree0 tree1 = none ↔ (tree0 = none ∧ tree1 = none) ∨
      ∃ key value0 value1, find getKey tree0 key = some value0 ∧ find getKey tree1 key = some value1 ∧
        mergeValues value0 value1 = none) ∧
    (storedUnion getKey mergeValues tree0 tree1 ≠ none → ∀ key,
      find Prod.fst (storedUnion getKey mergeValues tree0 tree1) key =
        (joinAt mergeValues (find getKey tree0 key) (find getKey tree1 key)).map fun value => (key, value)) := by
  obtain ⟨fails, finds⟩ := deepUnion_spec wf0.tagged wf1.tagged
    (keepsKey_mergeTagged mergeValues (tagged getKey tree0) (tagged getKey tree1))
  constructor
  · have empty (tree : Option (Atree α)) : tagged getKey tree = none ↔ tree = none := map_eq_none_iff
    rw [storedUnion, fails, empty, empty]
    simp [find_tagged, mergeTagged]
  · intro succeeded key
    rw [storedUnion, finds succeeded, find_tagged, find_tagged, joinAt_tagged]

theorem storedIsecn_meets (mergeValues : α → α → Option α) (wf0 : WfTree getKey tree0 0 (2 ^ 63))
    (wf1 : WfTree getKey tree1 0 (2 ^ 63)) :
    WfTree Prod.fst (storedIsecn getKey mergeValues tree0 tree1) 0 (2 ^ 63) ∧
      ∀ key, find Prod.fst (storedIsecn getKey mergeValues tree0 tree1) key =
        (meet mergeValues (find getKey tree0 key) (find getKey tree1 key)).map fun value => (key, value) := by
  have meets := deepIsecn_meets wf0.tagged wf1.tagged
    (keepsKey_mergeTagged mergeValues (tagged getKey tree0) (tagged getKey tree1))
  refine ⟨meets.wf, ?_⟩
  intro key
  rw [storedIsecn, meets.find_eq, find_tagged, find_tagged]
  cases find getKey tree0 key <;> cases find getKey tree1 key <;> rfl

/-- An element is found at its place if it has the key under which it is stored. -/
theorem find_untagged (found : find Prod.fst stored key = some (key, value)) :
    find getKey (untagged stored) key = if getKey value = key then some value else none := by
  cases stored with
  | none => cases found
  | some t =>
    rw [untagged, map_some, find_some]
    rw [find_some] at found
    induction t with
    | leaf old =>
      rw [findLoop_leaf] at found
      split at found
      · cases found
        rw [map, findLoop_leaf]
      · cases found
    | anode centre left right ihLeft ihRight =>
      simp only [map, findLoop] at found ⊢
      split at found
      · next less =>
        rw [if_pos less]
        split at found
        · cases found
        · next inside =>
          rw [if_neg inside]
          exact ihLeft found
      · next more =>
        rw [if_neg more]
        split at found
        · cases found
        · next inside =>
          rw [if_neg inside]
          exact ihRight found

theorem mem_elements_untagged (wf : WfTree Prod.fst stored low high) :
    value ∈ elements (untagged stored) ↔ ∃ key, find Prod.fst stored key = some (key, value) := by
  cases stored with
  | none => simp [untagged, elements]
  | some t =>
    rw [untagged, map_some, elements, toList_map, List.mem_map]
    constructor
    · rintro ⟨⟨key, other⟩, mem, rfl⟩
      exact ⟨key, (wf t rfl).mem_toList_iff.mp mem⟩
    · rintro ⟨key, found⟩
      exact ⟨(key, value), (wf t rfl).mem_toList_iff.mpr found, rfl⟩

end Tagged

end Culibs.Cuex.Atree
