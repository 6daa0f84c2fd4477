import Culibs.Cuex.Atree.Invariant

namespace Culibs.Cuex.Atree

open DyadicBlock BitVec

variable {α : Type} {getKey : α → Word} {mergeValues : α → α → Option α} {low high : Nat}
  {t t0 t1 left right : Atree α} {centre key : Word} {value : α}

/-- What the two elements of a key become, `none` when their merge fails. -/
def combine (mergeValues : α → α → Option α) : Option α → Option α → Option (Option α)
  | none, value1 => some value1
  | some value0, none => some (some value0)
  | some value0, some value1 => (mergeValues value0 value1).map some

@[simp] theorem combine_none_left (x : Option α) : combine mergeValues none x = some x := rfl

@[simp] theorem combine_none_right (x : Option α) : combine mergeValues x none = some x := by
  cases x <;> rfl

private theorem combine_flip (x y : Option α) :
    combine (fun value0 value1 => mergeValues value1 value0) x y = combine mergeValues y x := by
  cases x <;> cases y <;> rfl

/-- A failed result comes from a failed merge of the elements of some key. All
merges of a successful result succeed. -/
def Combines (getKey : α → Word) (mergeValues : α → α → Option α) (result : Option (Atree α)) (low high : Nat)
    (map0 map1 : Word → Option α) : Prop :=
  match result with
  | none => ∃ key, combine mergeValues (map0 key) (map1 key) = none
  | some t => Wf getKey t low high ∧ ∀ key, combine mergeValues (map0 key) (map1 key) = some (findLoop getKey t key)

/-- Merging the elements of a key gives an element of that key. -/
def KeepsKey (getKey : α → Word) (mergeValues : α → α → Option α) (map0 map1 : Word → Option α) : Prop :=
  ∀ key value0 value1 value, map0 key = some value0 → map1 key = some value1 →
    mergeValues value0 value1 = some value → getKey value = key

variable {map0 map1 : Word → Option α}

theorem KeepsKey.mono (keeps : KeepsKey getKey mergeValues map0 map1)
    (sub0 : ∀ key value, map0' key = some value → map0 key = some value)
    (sub1 : ∀ key value, map1' key = some value → map1 key = some value) :
    KeepsKey getKey mergeValues map0' map1' :=
  fun key value0 value1 value found0 found1 merged =>
    keeps key value0 value1 value (sub0 key value0 found0) (sub1 key value1 found1) merged

theorem KeepsKey.flip (keeps : KeepsKey getKey mergeValues map0 map1) :
    KeepsKey getKey (fun value0 value1 => mergeValues value1 value0) map1 map0 :=
  fun key value0 value1 value found0 found1 merged => keeps key value1 value0 value found1 found0 merged

variable {result : Option (Atree α)}

theorem Combines.flip
    (combines : Combines getKey (fun value0 value1 => mergeValues value1 value0) result low high map1 map0) :
    Combines getKey mergeValues result low high map0 map1 := by
  cases result with
  | none =>
    obtain ⟨key, failed⟩ := combines
    exact ⟨key, by rwa [combine_flip] at failed⟩
  | some t => exact ⟨combines.1, fun key => by rw [← combines.2 key, combine_flip]⟩

/-- The word a new node above a tree is computed from. -/
def anchor (getKey : α → Word) : Atree α → Word
  | leaf value => getKey value
  | anode centre _ _ => centre

/-- The first word of the block of a tree. -/
def first (getKey : α → Word) : Atree α → Nat
  | leaf value => (getKey value).toNat
  | anode centre _ _ => lo 64 centre.toNat

/-- One past the last word of the block of a tree. -/
def last (getKey : α → Word) : Atree α → Nat
  | leaf value => (getKey value).toNat + 1
  | anode centre _ _ => hi 64 centre.toNat

private theorem first_le_anchor (t : Atree α) : first getKey t ≤ (anchor getKey t).toNat := by
  cases t with
  | leaf value => exact le_rfl
  | anode centre left right => exact lo_le 64 _

theorem anchor_lt_last (t : Atree α) : (anchor getKey t).toNat < last getKey t := by
  cases t with
  | leaf value => exact Nat.lt_succ_self _
  | anode centre left right => exact lt_hi 64 _

theorem Wf.first_le (wf : Wf getKey t low high) : low ≤ first getKey t := by
  cases t with
  | leaf value => exact wf.1
  | anode centre left right => exact wf.2.1

theorem Wf.last_le (wf : Wf getKey t low high) : last getKey t ≤ high := by
  cases t with
  | leaf value => exact wf.2
  | anode centre left right => exact wf.2.2.1

variable {low' high' : Nat}

theorem Wf.of_block (wf : Wf getKey t low high) (start : low' ≤ first getKey t)
    (stop : last getKey t ≤ high') : Wf getKey t low' high' := by
  cases t with
  | leaf value => exact ⟨start, stop⟩
  | anode centre left right => exact ⟨wf.1, start, stop, wf.2.2.2⟩

/-- A tree whose block ends before a word on the other side of a centre lies on
its own side of that centre. -/
theorem side_of_left {j : Word} (start : lo 64 j.toNat ≤ (anchor getKey t).toNat)
    (under : (anchor getKey t).toNat < j.toNat) (apart : last getKey t ≤ b) (stop : b < hi 64 j.toNat) :
    lo 64 j.toNat ≤ first getKey t ∧ last getKey t ≤ j.toNat := by
  cases t with
  | leaf value => exact ⟨start, under⟩
  | anode centre left right =>
    have inside : lo 64 centre.toNat ≤ centre.toNat ∧ centre.toNat < hi 64 centre.toNat := ⟨lo_le _ _, lt_hi _ _⟩
    exact join_left_half centre.isLt j.isLt inside apart start under stop

private theorem side_of_right {j : Word} (start : lo 64 j.toNat ≤ a) (apart : a < first getKey t)
    (above : j.toNat ≤ (anchor getKey t).toNat) (stop : (anchor getKey t).toNat < hi 64 j.toNat) :
    j.toNat ≤ first getKey t ∧ last getKey t ≤ hi 64 j.toNat := by
  cases t with
  | leaf value => exact ⟨above, stop⟩
  | anode centre left right =>
    simp only [anchor, first, last] at *
    have := lo_le 64 centre.toNat
    have := lt_hi 64 centre.toNat
    by_cases same : j.toNat = centre.toNat
    · rw [same] at start
      omega
    · have cases := laminar j.isLt centre.isLt same
      omega

theorem joined (half : Half low high) (wf0 : Wf getKey t0 low high) (wf1 : Wf getKey t1 low high)
    (apart : last getKey t0 ≤ first getKey t1) :
    Wf getKey (anode (pairCentre (anchor getKey t0) (anchor getKey t1)) t0 t1) low high := by
  have : first getKey t0 ≤ (anchor getKey t0).toNat := first_le_anchor t0
  have : first getKey t1 ≤ (anchor getKey t1).toNat := first_le_anchor t1
  have : (anchor getKey t0).toNat < last getKey t0 := anchor_lt_last t0
  have : (anchor getKey t1).toNat < last getKey t1 := anchor_lt_last t1
  have := wf0.first_le
  have := wf1.last_le
  obtain ⟨nonzero, lower, upper, start, under, above, stop⟩ :=
    pairCentre_spec (a := anchor getKey t0) (b := anchor getKey t1) half (by omega) (by omega) (by omega)
  have side0 := side_of_left start under (b := (anchor getKey t1).toNat) (by omega) stop
  have side1 := side_of_right start (a := (anchor getKey t0).toNat) (by omega) above stop
  exact ⟨nonzero, lower, upper, wf0.of_block side0.1 side0.2, wf1.of_block side1.1 side1.2⟩

theorem joined_combines (half : Half low high) (wf0 : Wf getKey t0 low high) (wf1 : Wf getKey t1 low high)
    (apart : last getKey t0 ≤ first getKey t1) :
    Combines getKey mergeValues (some (anode (pairCentre (anchor getKey t0) (anchor getKey t1)) t0 t1)) low high
      (findLoop getKey t0) (findLoop getKey t1) := by
  have wf := joined half wf0 wf1 apart
  refine ⟨wf, fun key => ?_⟩
  rw [wf.findLoop_anode]
  split
  · next less => rw [wf.2.2.2.2.findLoop_eq_none (.inl less), combine_none_right]
  · next more => rw [wf.2.2.2.1.findLoop_eq_none (.inr (by omega)), combine_none_left]

theorem joined_combines_rev (half : Half low high) (wf0 : Wf getKey t0 low high) (wf1 : Wf getKey t1 low high)
    (apart : last getKey t1 ≤ first getKey t0) :
    Combines getKey mergeValues (some (anode (pairCentre (anchor getKey t1) (anchor getKey t0)) t1 t0)) low high
      (findLoop getKey t0) (findLoop getKey t1) :=
  (joined_combines half wf1 wf0 apart).flip

section Node

variable {map0 map1 left0 left1 right0 right1 : Word → Option α} {newLeft newRight : Option (Atree α)}

/-- A node whose subtrees combine the two sides of the maps, each side below a
failure of its own. -/
theorem anode_combines (nonzero : centre ≠ 0) (lower : low ≤ lo 64 centre.toNat) (upper : hi 64 centre.toNat ≤ high)
    (inLeft : Combines getKey mergeValues newLeft (lo 64 centre.toNat) centre.toNat left0 left1)
    (inRight : Combines getKey mergeValues newRight centre.toNat (hi 64 centre.toNat) right0 right1)
    (below : ∀ key : Word, key.toNat < centre.toNat → map0 key = left0 key ∧ map1 key = left1 key)
    (above : ∀ key : Word, centre.toNat ≤ key.toNat → map0 key = right0 key ∧ map1 key = right1 key)
    (outside : ∀ key : Word, (centre.toNat ≤ key.toNat → left0 key = none ∧ left1 key = none) ∧
      (key.toNat < centre.toNat → right0 key = none ∧ right1 key = none)) :
    Combines getKey mergeValues (do
      let left ← newLeft
      let right ← newRight
      some (anode centre left right)) low high map0 map1 := by
  have occupied {x y : Option α} (failed : combine mergeValues x y = none) : ¬(x = none ∧ y = none) := by
    rintro ⟨rfl, rfl⟩
    cases failed
  cases newLeft with
  | none =>
    obtain ⟨key, failed⟩ := inLeft
    have same := below key (Nat.lt_of_not_le fun more => occupied failed ((outside key).1 more))
    exact ⟨key, by rw [same.1, same.2, failed]⟩
  | some left =>
    cases newRight with
    | none =>
      obtain ⟨key, failed⟩ := inRight
      have same := above key (Nat.le_of_not_lt fun less => occupied failed ((outside key).2 less))
      exact ⟨key, by rw [same.1, same.2, failed]⟩
    | some right =>
      have wf : Wf getKey (anode centre left right) low high := ⟨nonzero, lower, upper, inLeft.1, inRight.1⟩
      refine ⟨wf, fun key => ?_⟩
      rw [wf.findLoop_anode]
      split
      · next less => rw [(below key less).1, (below key less).2, inLeft.2 key]
      · next more =>
        have more : centre.toNat ≤ key.toNat := by omega
        rw [(above key more).1, (above key more).2, inRight.2 key]

end Node

theorem Wf.combines_none_right (wf : Wf getKey t low high) :
    Combines getKey mergeValues (some t) low high (findLoop getKey t) (fun _ => none) :=
  ⟨wf, fun _ => combine_none_right _⟩

theorem into_left_combines (wf : Wf getKey (anode centre left right) low high)
    (wf1 : Wf getKey t1 (lo 64 centre.toNat) centre.toNat)
    (inLeft : Combines getKey mergeValues newLeft (lo 64 centre.toNat) centre.toNat (findLoop getKey left)
      (findLoop getKey t1)) :
    Combines getKey mergeValues (do
      let left ← newLeft
      some (anode centre left right)) low high (findLoop getKey (anode centre left right)) (findLoop getKey t1) := by
  refine anode_combines wf.1 wf.2.1 wf.2.2.1 inLeft wf.2.2.2.2.combines_none_right (fun key less => ?_)
    (fun key more => ?_) (fun key => ⟨fun more => ?_, fun less => ?_⟩)
  · exact ⟨wf.findLoop_left less, rfl⟩
  · exact ⟨wf.findLoop_right more, wf1.findLoop_eq_none (.inr more)⟩
  · exact ⟨wf.2.2.2.1.findLoop_eq_none (.inr more), wf1.findLoop_eq_none (.inr more)⟩
  · exact ⟨wf.2.2.2.2.findLoop_eq_none (.inl less), rfl⟩

theorem into_right_combines (wf : Wf getKey (anode centre left right) low high)
    (wf1 : Wf getKey t1 centre.toNat (hi 64 centre.toNat))
    (inRight : Combines getKey mergeValues newRight centre.toNat (hi 64 centre.toNat) (findLoop getKey right)
      (findLoop getKey t1)) :
    Combines getKey mergeValues (do
      let right ← newRight
      some (anode centre left right)) low high (findLoop getKey (anode centre left right)) (findLoop getKey t1) := by
  refine anode_combines wf.1 wf.2.1 wf.2.2.1 wf.2.2.2.1.combines_none_right inRight (fun key less => ?_)
    (fun key more => ?_) (fun key => ⟨fun more => ?_, fun less => ?_⟩)
  · exact ⟨wf.findLoop_left less, wf1.findLoop_eq_none (.inl less)⟩
  · exact ⟨wf.findLoop_right more, rfl⟩
  · exact ⟨wf.2.2.2.1.findLoop_eq_none (.inr more), rfl⟩
  · exact ⟨wf.2.2.2.2.findLoop_eq_none (.inl less), wf1.findLoop_eq_none (.inl less)⟩

theorem insertLoop_combines (half : Half low high) (wf : Wf getKey t low high)
    (wf1 : Wf getKey (leaf value) low high)
    (keeps : KeepsKey getKey mergeValues (findLoop getKey t) (findLoop getKey (leaf value))) :
    Combines getKey mergeValues (insertLoop getKey mergeValues t value) low high (findLoop getKey t)
      (findLoop getKey (leaf value)) := by
  induction t generalizing low high with
  | leaf old =>
    simp only [insertLoop]
    split
    · next same =>
      have found : findLoop getKey (leaf old) (getKey value) = some old := by rw [findLoop_leaf, if_pos same.symm]
      have found1 : findLoop getKey (leaf value) (getKey value) = some value := by simp
      cases merged : mergeValues old value with
      | none => exact ⟨getKey value, by rw [found, found1, combine, merged]; rfl⟩
      | some new =>
        have newKey := keeps (getKey value) old value new found found1 merged
        refine ⟨by simpa only [Wf, newKey] using wf1, fun key => ?_⟩
        simp only [findLoop_leaf, newKey, ← same]
        split
        · simp [combine, merged]
        · simp
    · next ne =>
      have apart : (getKey value).toNat ≠ (getKey old).toNat := fun equal => ne (eq_of_toNat_eq equal)
      split
      · next less =>
        have combines : Combines getKey mergeValues _ low high _ _ :=
          joined_combines_rev half wf wf1 (lt_def.mp less)
        exact combines
      · next notLess =>
        rw [lt_def] at notLess
        have after : last getKey (leaf old) ≤ first getKey (leaf value) := by
          simp only [last, first]
          omega
        have combines : Combines getKey mergeValues _ low high _ _ := joined_combines half wf wf1 after
        exact combines
  | anode centre left right ihLeft ihRight =>
    have nonzero := wf.1
    simp only [insertLoop, lt_def, toNat_centreToMin nonzero, toNat_centreToMax]
    split
    · next less =>
      split
      · next outside =>
        have combines : Combines getKey mergeValues _ low high _ _ := joined_combines_rev half wf wf1 outside
        exact combines
      · next inside =>
        have wfValue : Wf getKey (leaf value) (lo 64 centre.toNat) centre.toNat := ⟨by omega, less⟩
        exact into_left_combines wf wfValue (ihLeft (Half.left nonzero) wf.2.2.2.1 wfValue
          (keeps.mono (fun _ _ => wf.findLoop_of_left) fun _ _ found => found))
    · next notLess =>
      have := lt_hi 64 centre.toNat
      split
      · next outside =>
        have after : last getKey (anode centre left right) ≤ first getKey (leaf value) := by
          simp only [last, first]
          omega
        have combines : Combines getKey mergeValues _ low high _ _ := joined_combines half wf wf1 after
        exact combines
      · next inside =>
        have wfValue : Wf getKey (leaf value) centre.toNat (hi 64 centre.toNat) := ⟨by omega, by omega⟩
        exact into_right_combines wf wfValue (ihRight (Half.right nonzero) wf.2.2.2.2 wfValue
          (keeps.mono (fun _ _ => wf.findLoop_of_right) fun _ _ found => found))

/-- A tree that may be empty. -/
def WfTree (getKey : α → Word) (tree : Option (Atree α)) (low high : Nat) : Prop :=
  ∀ t, tree = some t → Wf getKey t low high

@[simp] theorem find_some : find getKey (some t) key = findLoop getKey t key := rfl

@[simp] theorem find_none : find getKey none key = none := rfl

theorem WfTree.unique (wf0 : WfTree getKey tree0 low high)
    (wf1 : WfTree getKey tree1 low' high') (same : ∀ key, find getKey tree0 key = find getKey tree1 key) :
    tree0 = tree1 := by
  cases tree0 with
  | none =>
    cases tree1 with
    | none => rfl
    | some t1 =>
      obtain ⟨key, value, found⟩ := (wf1 t1 rfl).exists_find
      have absent := same key
      rw [find_some, found] at absent
      cases absent
  | some t0 =>
    cases tree1 with
    | none =>
      obtain ⟨key, value, found⟩ := (wf0 t0 rfl).exists_find
      have absent := same key
      rw [find_some, found] at absent
      cases absent
    | some t1 => rw [(wf0 t0 rfl).unique (wf1 t1 rfl) same]

theorem Combines.wfTree
    (combines : Combines getKey mergeValues result low high map0 map1) : WfTree getKey result low high := by
  rintro t rfl
  exact combines.1

variable {tree : Option (Atree α)}

theorem deepInsert_combines (half : Half low high) (wf : WfTree getKey tree low high)
    (inside : low ≤ (getKey value).toNat ∧ (getKey value).toNat < high)
    (keeps : KeepsKey getKey mergeValues (find getKey tree) (findLoop getKey (leaf value))) :
    Combines getKey mergeValues (deepInsert getKey mergeValues tree value) low high (find getKey tree)
      (findLoop getKey (leaf value)) := by
  cases tree with
  | none => exact ⟨inside, fun key => rfl⟩
  | some t => exact insertLoop_combines half (wf t rfl) inside keeps

/-- What is left of a map, and what is handed over, when a key is removed. -/
structure Erased (getKey : α → Word) (result : Option (Atree α) × Option α) (low high : Nat)
    (map : Word → Option α) (key : Word) : Prop where
  wf : WfTree getKey result.1 low high
  taken : result.2 = map key
  rest : ∀ other, find getKey result.1 other = if other = key then none else map other

theorem Wf.wfTree (wf : Wf getKey t low high) : WfTree getKey (some t) low high := by
  rintro _ ⟨⟩
  exact wf

theorem Wf.erased_absent (wf : Wf getKey t low high) (absent : findLoop getKey t key = none) :
    Erased getKey (some t, none) low high (findLoop getKey t) key := by
  refine ⟨wf.wfTree, absent.symm, fun other => ?_⟩
  split
  · next same => rw [same, find_some, absent]
  · rfl

theorem erased_left (wf : Wf getKey (anode centre left right) low high) (less : key.toNat < centre.toNat)
    {result : Option (Atree α) × Option α}
    (erased : Erased getKey result (lo 64 centre.toNat) centre.toNat (findLoop getKey left) key) :
    Erased getKey (match result.1 with
      | none => (some right, result.2)
      | some newLeft => (some (anode centre newLeft right), result.2)) low high
      (findLoop getKey (anode centre left right)) key := by
  obtain ⟨newLeft, elt⟩ := result
  obtain ⟨wfNew, taken, rest⟩ := erased
  have away {other : Word} (more : ¬ other.toNat < centre.toNat) : other ≠ key := by
    rintro rfl
    exact more less
  have := lo_le 64 centre.toNat
  cases newLeft with
  | none =>
    have wfRight : Wf getKey right low high := wf.2.2.2.2.mono (by have := wf.2.1; omega) wf.2.2.1
    refine ⟨wfRight.wfTree, by rw [wf.findLoop_left less]; exact taken, fun other => ?_⟩
    by_cases below : other.toNat < centre.toNat
    · rw [find_some, wf.findLoop_left below, ← rest, find_none, wf.2.2.2.2.findLoop_eq_none (.inl below)]
    · rw [find_some, wf.findLoop_right (Nat.le_of_not_lt below), if_neg (away below)]
  | some newLeft =>
    have wfNode : Wf getKey (anode centre newLeft right) low high :=
      ⟨wf.1, wf.2.1, wf.2.2.1, wfNew newLeft rfl, wf.2.2.2.2⟩
    refine ⟨wfNode.wfTree, by rw [wf.findLoop_left less]; exact taken, fun other => ?_⟩
    rw [find_some, wf.findLoop_anode, wfNode.findLoop_anode]
    split
    · exact rest other
    · next above => rw [if_neg (away above)]

private theorem erased_right (wf : Wf getKey (anode centre left right) low high) (more : centre.toNat ≤ key.toNat)
    {result : Option (Atree α) × Option α}
    (erased : Erased getKey result centre.toNat (hi 64 centre.toNat) (findLoop getKey right) key) :
    Erased getKey (match result.1 with
      | none => (some left, result.2)
      | some newRight => (some (anode centre left newRight), result.2)) low high
      (findLoop getKey (anode centre left right)) key := by
  obtain ⟨newRight, elt⟩ := result
  obtain ⟨wfNew, taken, rest⟩ := erased
  have away {other : Word} (less : other.toNat < centre.toNat) : other ≠ key := by
    rintro rfl
    omega
  have := lt_hi 64 centre.toNat
  cases newRight with
  | none =>
    have wfLeft : Wf getKey left low high := wf.2.2.2.1.mono wf.2.1 (by have := wf.2.2.1; omega)
    refine ⟨wfLeft.wfTree, by rw [wf.findLoop_right more]; exact taken, fun other => ?_⟩
    by_cases below : other.toNat < centre.toNat
    · rw [find_some, wf.findLoop_left below, if_neg (away below)]
    · have above := Nat.le_of_not_lt below
      rw [find_some, wf.findLoop_right above, ← rest, find_none, wf.2.2.2.1.findLoop_eq_none (.inr above)]
  | some newRight =>
    have wfNode : Wf getKey (anode centre left newRight) low high :=
      ⟨wf.1, wf.2.1, wf.2.2.1, wf.2.2.2.1, wfNew newRight rfl⟩
    refine ⟨wfNode.wfTree, by rw [wf.findLoop_right more]; exact taken, fun other => ?_⟩
    rw [find_some, wf.findLoop_anode, wfNode.findLoop_anode]
    split
    · next below => rw [if_neg (away below)]
    · exact rest other

private theorem eraseLoop_erased (wf : Wf getKey t low high) (key : Word) :
    Erased getKey (eraseLoop getKey t key) low high (findLoop getKey t) key := by
  induction t generalizing low high with
  | leaf value =>
    simp only [eraseLoop]
    split
    · next same =>
      refine ⟨nofun, by simp [same], fun other => ?_⟩
      rw [find_none, findLoop_leaf, ← same]
      split
      · rfl
      · next ne => rw [if_neg (Ne.symm ne)]
    · next ne => exact wf.erased_absent (by simp [Ne.symm ne])
  | anode centre left right ihLeft ihRight =>
    have nonzero := wf.1
    simp only [eraseLoop, lt_def, toNat_centreToMin nonzero, toNat_centreToMax]
    split
    · next less =>
      split
      · next outside =>
        exact wf.erased_absent (by rw [wf.findLoop_left less, wf.2.2.2.1.findLoop_eq_none (.inl outside)])
      · exact erased_left wf less (ihLeft wf.2.2.2.1)
    · next notLess =>
      have more : centre.toNat ≤ key.toNat := by omega
      split
      · next outside =>
        exact wf.erased_absent (by
          rw [wf.findLoop_right more, wf.2.2.2.2.findLoop_eq_none (.inr (by omega))])
      · exact erased_right wf more (ihRight wf.2.2.2.2)

theorem findErase_erased (wf : WfTree getKey tree low high) (key : Word) :
    Erased getKey (findErase getKey tree key) low high (find getKey tree) key := by
  cases tree with
  | none => exact ⟨nofun, rfl, fun other => by simp [findErase]⟩
  | some t => exact eraseLoop_erased (wf t rfl) key

theorem erase_eq (tree : Option (Atree α)) (key : Word) : erase getKey tree key = (findErase getKey tree key).1 := by
  cases tree <;> rfl

end Culibs.Cuex.Atree
