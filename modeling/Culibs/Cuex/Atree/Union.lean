import Culibs.Cuex.Atree.Update

namespace Culibs.Cuex.Atree

open DyadicBlock BitVec Option

variable {α : Type} {getKey : α → Word} {mergeValues : α → α → Option α} {low high : Nat}
  {t0 t1 left0 left1 right0 right1 : Atree α} {centre0 centre1 key : Word}

theorem blocks_apart (nonzero1 : centre1 ≠ 0) (max : centreToMax centre0 < centreToMin centre1) :
    hi 64 centre0.toNat ≤ lo 64 centre1.toNat := by
  rw [lt_def, toNat_centreToMin nonzero1, toNat_centreToMax] at max
  omega

theorem block_in_left (nonzero1 : centre1 ≠ 0) (less : centre0 < centre1)
    (max : centreToMax centre0 < centre1) (overlap : ¬ centreToMax centre0 < centreToMin centre1) :
    lo 64 centre1.toNat ≤ lo 64 centre0.toNat ∧ hi 64 centre0.toNat ≤ centre1.toNat := by
  rw [lt_def] at less
  rw [lt_def, toNat_centreToMax] at max
  rw [lt_def, toNat_centreToMin nonzero1, toNat_centreToMax] at overlap
  have := lt_hi 64 centre1.toNat
  have := laminar centre0.isLt centre1.isLt (ne_of_lt less)
  omega

theorem block_in_right (less : centre0 < centre1) (max : ¬ centreToMax centre0 < centre1) :
    centre0.toNat ≤ lo 64 centre1.toNat ∧ hi 64 centre1.toNat ≤ hi 64 centre0.toNat := by
  rw [lt_def] at less
  rw [lt_def, toNat_centreToMax] at max
  have := lo_le 64 centre0.toNat
  have := lo_le 64 centre1.toNat
  have := lt_hi 64 centre1.toNat
  have := laminar centre0.isLt centre1.isLt (ne_of_lt less)
  omega

theorem less_of_not_less (ne : ¬ centre0 = centre1) (notLess : ¬ centre0 < centre1) : centre1 < centre0 := by
  rw [lt_def] at notLess ⊢
  have : centre0.toNat ≠ centre1.toNat := fun same => ne (eq_of_toNat_eq same)
  omega

private theorem same_centre_combines (wf0 : Wf getKey (anode centre0 left0 right0) low high)
    (wf1 : Wf getKey (anode centre0 left1 right1) low high)
    (inLeft : Combines getKey mergeValues newLeft (lo 64 centre0.toNat) centre0.toNat (findLoop getKey left0)
      (findLoop getKey left1))
    (inRight : Combines getKey mergeValues newRight centre0.toNat (hi 64 centre0.toNat) (findLoop getKey right0)
      (findLoop getKey right1)) :
    Combines getKey mergeValues (do
      let left ← newLeft
      let right ← newRight
      some (anode centre0 left right)) low high (findLoop getKey (anode centre0 left0 right0))
      (findLoop getKey (anode centre0 left1 right1)) := by
  refine anode_combines wf0.1 wf0.2.1 wf0.2.2.1 inLeft inRight
    (fun key less => ⟨wf0.findLoop_left less, wf1.findLoop_left less⟩)
    (fun key more => ⟨wf0.findLoop_right more, wf1.findLoop_right more⟩) (fun key => ⟨fun more => ?_, fun less => ?_⟩)
  · exact ⟨wf0.2.2.2.1.findLoop_eq_none (.inr more), wf1.2.2.2.1.findLoop_eq_none (.inr more)⟩
  · exact ⟨wf0.2.2.2.2.findLoop_eq_none (.inl less), wf1.2.2.2.2.findLoop_eq_none (.inl less)⟩

private theorem unionLoop_combines (half : Half low high) (wf0 : Wf getKey t0 low high) (wf1 : Wf getKey t1 low high)
    (keeps : KeepsKey getKey mergeValues (findLoop getKey t0) (findLoop getKey t1)) :
    Combines getKey mergeValues (unionLoop getKey mergeValues t0 t1) low high (findLoop getKey t0)
      (findLoop getKey t1) := by
  fun_induction unionLoop getKey mergeValues t0 t1 generalizing low high with
  | case1 value0 t1 => exact (insertLoop_combines half wf1 wf0 keeps.flip).flip
  | case2 t0 value1 => exact insertLoop_combines half wf0 wf1 keeps
  | case3 =>
    rename_i ihLeft ihRight
    have nonzero := wf0.1
    have inLeft := ihLeft (Half.left nonzero) wf0.2.2.2.1 wf1.2.2.2.1
      (keeps.mono (fun _ _ => wf0.findLoop_of_left) fun _ _ => wf1.findLoop_of_left)
    have inRight := ihRight (Half.right nonzero) wf0.2.2.2.2 wf1.2.2.2.2
      (keeps.mono (fun _ _ => wf0.findLoop_of_right) fun _ _ => wf1.findLoop_of_right)
    exact same_centre_combines wf0 wf1 inLeft inRight
  | case4 =>
    rename_i apart
    have combines : Combines getKey mergeValues _ low high _ _ :=
      joined_combines half wf0 wf1 (blocks_apart wf1.1 apart)
    exact combines
  | case5 =>
    rename_i less max0 max min1 overlap ih
    have block := block_in_left wf1.1 less max overlap
    have moved := wf0.of_block block.1 block.2
    exact (into_left_combines wf1 moved (ih (Half.left wf1.1) moved wf1.2.2.2.1
      (keeps.mono (fun _ _ found => found) fun _ _ => wf1.findLoop_of_left)).flip).flip
  | case6 =>
    rename_i less max0 max ih
    have block := block_in_right less max
    have moved := wf1.of_block block.1 block.2
    exact into_right_combines wf0 moved (ih (Half.right wf0.1) wf0.2.2.2.2 moved
      (keeps.mono (fun _ _ => wf0.findLoop_of_right) fun _ _ found => found))
  | case7 =>
    rename_i apart
    have combines : Combines getKey mergeValues _ low high _ _ :=
      joined_combines_rev half wf0 wf1 (blocks_apart wf0.1 apart)
    exact combines
  | case8 =>
    rename_i ne notLess max1 max min0 overlap ih
    have block := block_in_left wf0.1 (less_of_not_less ne notLess) max overlap
    have moved := wf1.of_block block.1 block.2
    exact into_left_combines wf0 moved (ih (Half.left wf0.1) wf0.2.2.2.1 moved
      (keeps.mono (fun _ _ => wf0.findLoop_of_left) fun _ _ found => found))
  | case9 =>
    rename_i ne notLess max1 max ih
    have block := block_in_right (less_of_not_less ne notLess) max
    have moved := wf0.of_block block.1 block.2
    exact (into_right_combines wf1 moved (ih (Half.right wf1.1) moved wf1.2.2.2.2
      (keeps.mono (fun _ _ found => found) fun _ _ => wf1.findLoop_of_right)).flip).flip

variable {tree0 tree1 : Option (Atree α)}

theorem deepUnion_combines (half : Half low high)
    (wf0 : WfTree getKey tree0 low high) (wf1 : WfTree getKey tree1 low high)
    (keeps : KeepsKey getKey mergeValues (find getKey tree0) (find getKey tree1)) (nonempty : tree0 ≠ none ∨ tree1 ≠ none) :
    Combines getKey mergeValues (deepUnion getKey mergeValues tree0 tree1) low high (find getKey tree0)
      (find getKey tree1) := by
  cases tree0 with
  | none =>
    cases tree1 with
    | none => simp at nonempty
    | some t1 => exact ⟨(wf1 t1 rfl), fun _ => rfl⟩
  | some t0 =>
    cases tree1 with
    | none => exact (wf0 t0 rfl).combines_none_right
    | some t1 => exact unionLoop_combines half (wf0 t0 rfl) (wf1 t1 rfl) keeps

/-- What the elements of a key in two trees leave in the intersection. -/
def meet (mergeValues : α → α → Option α) (x y : Option α) : Option α := do
  let value0 ← x
  let value1 ← y
  mergeValues value0 value1

@[simp] theorem meet_none_left (y : Option α) : meet mergeValues none y = none := rfl

@[simp] theorem meet_none_right (x : Option α) : meet mergeValues x none = none := by
  cases x <;> rfl

@[simp] theorem meet_some (value0 value1 : α) : meet mergeValues (some value0) (some value1) = mergeValues value0 value1 := rfl

structure Meets (getKey : α → Word) (mergeValues : α → α → Option α) (result : Option (Atree α)) (low high : Nat)
    (map0 map1 : Word → Option α) : Prop where
  wf : WfTree getKey result low high
  find_eq : ∀ key, find getKey result key = meet mergeValues (map0 key) (map1 key)

private theorem meet_flip (x y : Option α) :
    meet (fun value0 value1 => mergeValues value1 value0) x y = meet mergeValues y x := by
  cases x <;> cases y <;> rfl

variable {result : Option (Atree α)}
variable {map0 map1 : Word → Option α}

theorem Meets.flip
    (meets : Meets getKey (fun value0 value1 => mergeValues value1 value0) result low high map1 map0) :
    Meets getKey mergeValues result low high map0 map1 :=
  ⟨meets.wf, fun key => by rw [meets.find_eq, meet_flip]⟩

private theorem leaf_meets (wf0 : Wf getKey (leaf value0) low high)
    (keeps : KeepsKey getKey mergeValues (findLoop getKey (leaf value0)) (findLoop getKey t1)) :
    Meets getKey mergeValues ((do
      let leaf1 ← findLoop getKey t1 (getKey value0)
      (mergeValues value0 leaf1).map leaf) : Option (Atree α)) low high (findLoop getKey (leaf value0))
      (findLoop getKey t1) := by
  have own : findLoop getKey (leaf value0) (getKey value0) = some value0 := by simp
  cases found : findLoop getKey t1 (getKey value0) with
  | none =>
    refine ⟨nofun, fun key => ?_⟩
    rw [findLoop_leaf]
    split
    · next same => rw [← same, found]; rfl
    · rfl
  | some leaf1 =>
    cases merged : mergeValues value0 leaf1 with
    | none =>
      refine ⟨by simp [merged, WfTree], fun key => ?_⟩
      rw [findLoop_leaf]
      split
      · next same => simp [← same, found, merged]
      · simp [merged]
    | some new =>
      have newKey := keeps _ _ _ _ own found merged
      have wfNew : Wf getKey (leaf new) low high := by simpa only [Wf, newKey] using wf0
      refine ⟨by simpa [merged] using wfNew.wfTree, fun key => ?_⟩
      simp only [bind_eq_bind, bind_some, merged, map_some, find_some, findLoop_leaf, newKey]
      split
      · next same => simp [← same, found, merged]
      · rfl

theorem node_meets (nonzero : centre0 ≠ 0)
    (lower : low ≤ lo 64 centre0.toNat) (upper : hi 64 centre0.toNat ≤ high)
    (inLeft : Meets getKey mergeValues left (lo 64 centre0.toNat) centre0.toNat
      (findLoop getKey left0) (findLoop getKey left1))
    (inRight : Meets getKey mergeValues right centre0.toNat (hi 64 centre0.toNat)
      (findLoop getKey right0) (findLoop getKey right1))
    (below : ∀ key : Word, key.toNat < centre0.toNat →
      map0 key = findLoop getKey left0 key ∧ map1 key = findLoop getKey left1 key)
    (above : ∀ key : Word, centre0.toNat ≤ key.toNat →
      map0 key = findLoop getKey right0 key ∧ map1 key = findLoop getKey right1 key) :
    Meets getKey mergeValues (isecnNode centre0 left right) low high map0 map1 := by
  have := lo_le 64 centre0.toNat
  have := lt_hi 64 centre0.toNat
  have outsideLeft {key : Word} (more : centre0.toNat ≤ key.toNat) : find getKey left key = none := by
    cases left with
    | none => rfl
    | some t => exact (inLeft.wf t rfl).findLoop_eq_none (.inr more)
  have outsideRight {key : Word} (less : key.toNat < centre0.toNat) : find getKey right key = none := by
    cases right with
    | none => rfl
    | some t => exact (inRight.wf t rfl).findLoop_eq_none (.inl less)
  have split (result : Option (Atree α))
      (sides : ∀ key : Word, find getKey result key =
        if key.toNat < centre0.toNat then find getKey left key else find getKey right key) (key : Word) :
      find getKey result key = meet mergeValues (map0 key) (map1 key) := by
    rw [sides]
    split
    · next less => rw [(below key less).1, (below key less).2, inLeft.find_eq]
    · next notLess =>
      have more := Nat.le_of_not_lt notLess
      rw [(above key more).1, (above key more).2, inRight.find_eq]
  cases left with
  | none =>
    refine ⟨fun t same => (inRight.wf t same).mono (by omega) upper, split _ fun key => ?_⟩
    split
    · next less => exact outsideRight less
    · rfl
  | some newLeft =>
    cases right with
    | none =>
      refine ⟨fun t same => (inLeft.wf t same).mono lower (by omega), split _ fun key => ?_⟩
      split
      · rfl
      · next notLess => exact outsideLeft (Nat.le_of_not_lt notLess)
    | some newRight =>
      have wf : Wf getKey (anode centre0 newLeft newRight) low high :=
        ⟨nonzero, lower, upper, inLeft.wf newLeft rfl, inRight.wf newRight rfl⟩
      exact ⟨wf.wfTree, split _ fun key => wf.findLoop_anode⟩

private theorem apart_meets (wf0 : Wf getKey t0 low high) (wf1 : Wf getKey t1 low high)
    (apart : last getKey t0 ≤ first getKey t1) :
    Meets getKey mergeValues none low high (findLoop getKey t0) (findLoop getKey t1) := by
  refine ⟨nofun, fun key => ?_⟩
  by_cases before : key.toNat < last getKey t0
  · rw [((wf1.of_block (le_rfl) (le_rfl)).findLoop_eq_none (.inl (by omega))), meet_none_right, find_none]
  · rw [((wf0.of_block (le_rfl) (le_rfl)).findLoop_eq_none (.inr (by omega))), meet_none_left, find_none]

private theorem into_left_meets (wf : Wf getKey (anode centre0 left0 right0) low high)
    (wf1 : Wf getKey t1 (lo 64 centre0.toNat) centre0.toNat)
    (inLeft : Meets getKey mergeValues result (lo 64 centre0.toNat) centre0.toNat (findLoop getKey left0)
      (findLoop getKey t1)) :
    Meets getKey mergeValues result low high (findLoop getKey (anode centre0 left0 right0)) (findLoop getKey t1) := by
  have := lt_hi 64 centre0.toNat
  refine ⟨fun t same => (inLeft.wf t same).mono wf.2.1 (by have := wf.2.2.1; omega), fun key => ?_⟩
  rw [inLeft.find_eq]
  by_cases less : key.toNat < centre0.toNat
  · rw [wf.findLoop_left less]
  · rw [wf1.findLoop_eq_none (.inr (Nat.le_of_not_lt less)), meet_none_right, meet_none_right]

private theorem into_right_meets (wf : Wf getKey (anode centre0 left0 right0) low high)
    (wf1 : Wf getKey t1 centre0.toNat (hi 64 centre0.toNat))
    (inRight : Meets getKey mergeValues result centre0.toNat (hi 64 centre0.toNat) (findLoop getKey right0)
      (findLoop getKey t1)) :
    Meets getKey mergeValues result low high (findLoop getKey (anode centre0 left0 right0)) (findLoop getKey t1) := by
  have := lo_le 64 centre0.toNat
  refine ⟨fun t same => (inRight.wf t same).mono (by have := wf.2.1; omega) wf.2.2.1, fun key => ?_⟩
  rw [inRight.find_eq]
  by_cases less : key.toNat < centre0.toNat
  · rw [wf1.findLoop_eq_none (.inl less), meet_none_right, meet_none_right]
  · rw [wf.findLoop_right (Nat.le_of_not_lt less)]

private theorem isecnLoop_meets (wf0 : Wf getKey t0 low high) (wf1 : Wf getKey t1 low high)
    (keeps : KeepsKey getKey mergeValues (findLoop getKey t0) (findLoop getKey t1)) :
    Meets getKey mergeValues (isecnLoop getKey mergeValues t0 t1) low high (findLoop getKey t0)
      (findLoop getKey t1) := by
  fun_induction isecnLoop getKey mergeValues t0 t1 generalizing low high with
  | case1 value0 t1 => exact leaf_meets wf0 keeps
  | case2 t0 value1 => exact (leaf_meets wf1 keeps.flip).flip
  | case3 =>
    rename_i ihLeft ihRight
    exact node_meets wf0.1 wf0.2.1 wf0.2.2.1
      (ihLeft wf0.2.2.2.1 wf1.2.2.2.1
        (keeps.mono (fun _ _ => wf0.findLoop_of_left) fun _ _ => wf1.findLoop_of_left))
      (ihRight wf0.2.2.2.2 wf1.2.2.2.2
        (keeps.mono (fun _ _ => wf0.findLoop_of_right) fun _ _ => wf1.findLoop_of_right))
      (fun key less => ⟨wf0.findLoop_left less, wf1.findLoop_left less⟩)
      (fun key more => ⟨wf0.findLoop_right more, wf1.findLoop_right more⟩)
  | case4 =>
    rename_i apart
    exact apart_meets wf0 wf1 (blocks_apart wf1.1 apart)
  | case5 =>
    rename_i less max0 max min1 overlap ih
    have block := block_in_left wf1.1 less max overlap
    have moved := wf0.of_block block.1 block.2
    exact (into_left_meets wf1 moved (ih moved wf1.2.2.2.1
      (keeps.mono (fun _ _ found => found) fun _ _ => wf1.findLoop_of_left)).flip).flip
  | case6 =>
    rename_i less max0 max ih
    have block := block_in_right less max
    have moved := wf1.of_block block.1 block.2
    exact into_right_meets wf0 moved (ih wf0.2.2.2.2 moved
      (keeps.mono (fun _ _ => wf0.findLoop_of_right) fun _ _ found => found))
  | case7 =>
    rename_i apart
    exact (apart_meets wf1 wf0 (blocks_apart wf0.1 apart)).flip
  | case8 =>
    rename_i ne notLess max1 max min0 overlap ih
    have block := block_in_left wf0.1 (less_of_not_less ne notLess) max overlap
    have moved := wf1.of_block block.1 block.2
    exact into_left_meets wf0 moved (ih wf0.2.2.2.1 moved
      (keeps.mono (fun _ _ => wf0.findLoop_of_left) fun _ _ found => found))
  | case9 =>
    rename_i ne notLess max1 max ih
    have block := block_in_right (less_of_not_less ne notLess) max
    have moved := wf0.of_block block.1 block.2
    exact (into_right_meets wf1 moved (ih moved wf1.2.2.2.2
      (keeps.mono (fun _ _ found => found) fun _ _ => wf1.findLoop_of_right)).flip).flip

theorem deepIsecn_meets (wf0 : WfTree getKey tree0 low high)
    (wf1 : WfTree getKey tree1 low high) (keeps : KeepsKey getKey mergeValues (find getKey tree0) (find getKey tree1)) :
    Meets getKey mergeValues (deepIsecn getKey mergeValues tree0 tree1) low high (find getKey tree0)
      (find getKey tree1) := by
  cases tree0 with
  | none => exact ⟨nofun, fun key => rfl⟩
  | some t0 =>
    cases tree1 with
    | none => exact ⟨nofun, fun key => by simp [deepIsecn]⟩
    | some t1 => exact isecnLoop_meets (wf0 t0 rfl) (wf1 t1 rfl) keeps

end Culibs.Cuex.Atree
