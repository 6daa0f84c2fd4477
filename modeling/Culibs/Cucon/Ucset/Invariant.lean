import Culibs.Cucon.Ucset.Leaf

/-! The trie invariant and its two consequences: a well-formed tree is
determined by its elements, and only `NULL` is empty. -/

namespace Culibs.Cucon.Ucset

open DyadicBlock BitVec Nat

/-- The elements stored in a tree, without any search order. -/
def Contains : Ucset → Word → Prop
  | null, _ => False
  | leaf key bitset, x => x.toNat / 128 = key.toNat / 128 ∧ bit bitset x.toNat = true
  | node key left right, x =>
    (key.toNat % 2 = 1 ∧ x.toNat = 2 * (key.toNat / 2)) ∨ Contains left x ∨ Contains right x

/-- The trie invariant relative to the half-block `[low, high)` above the tree.
A leaf is centred in its block of 128 words, has an element, and leaves out
the first word of its block, a node key, unless that is zero. A node has its
subtrees in the halves of its block, and both of them when it stores no key. -/
def Wf : Ucset → Nat → Nat → Prop
  | null, _, _ => True
  | leaf key bitset, low, high =>
    IsLeafKey key.toNat ∧ low ≤ lo 64 key.toNat ∧ hi 64 key.toNat ≤ high ∧
      (∃ i < 128, bit bitset i = true) ∧ (bit bitset 0 = true → key.toNat < 128)
  | node key left right, low, high =>
    IsNodeKey (2 * (key.toNat / 2)) ∧
      low ≤ lo 64 (2 * (key.toNat / 2)) ∧ hi 64 (2 * (key.toNat / 2)) ≤ high ∧
      Wf left (lo 64 (2 * (key.toNat / 2))) (2 * (key.toNat / 2)) ∧
      Wf right (2 * (key.toNat / 2)) (hi 64 (2 * (key.toNat / 2))) ∧
      (key.toNat % 2 = 0 → left ≠ null ∧ right ≠ null)

/-- The unsigned value of `_ucnode_key`. -/
def centre (t : Ucset) : Nat := (ucnodeKey t).toNat

theorem centre_eq (t : Ucset) : t.centre = 2 * (t.rawKey.toNat / 2) := toNat_clear_one t.rawKey

variable {bitset : Bitset}
variable {key : Word}

@[simp] theorem centre_leaf (leafKey : IsLeafKey key.toNat) : (leaf key bitset).centre = key.toNat := by
  rw [centre_eq]
  simp only [IsLeafKey, rawKey] at *
  omega

@[simp] theorem centre_node (key : Word) (left right : Ucset) :
    (node key left right).centre = 2 * (key.toNat / 2) := centre_eq _

theorem hasKey_iff (t : Ucset) : hasKey t = true ↔ t.rawKey.toNat % 2 = 1 := by
  rw [hasKey, bne_iff_ne, Ne, and_one_eq_zero_iff]
  omega

variable {t : Ucset} {low high : Nat}

theorem Wf.block (wf : Wf t low high) (nonnull : t ≠ null) :
    IsTrieKey t.centre ∧ low ≤ lo 64 t.centre ∧ hi 64 t.centre ≤ high := by
  cases t with
  | null => exact absurd rfl nonnull
  | leaf key bitset =>
    rw [centre_leaf wf.1]
    exact ⟨.inl wf.1, wf.2.1, wf.2.2.1⟩
  | node key left right =>
    rw [centre_node]
    exact ⟨.inr wf.1, wf.2.1, wf.2.2.1⟩

theorem centre_lt (t : Ucset) : t.centre < 2 ^ 64 := (ucnodeKey t).isLt

/-- The two constructors are told apart by `_key_is_leaflike`, as the code does. -/
theorem Wf.leaf_leaflike (wf : Wf (leaf key bitset) low high) :
    keyIsLeaflike (ucnodeKey (leaf key bitset)) = true := by
  rw [keyIsLeaflike_iff]
  change centre _ = 0 ∨ centre _ % 128 ≠ 0
  have := wf.1
  rw [centre_leaf wf.1]
  simp only [IsLeafKey] at this
  omega

theorem Wf.node_not_leaflike {left right : Ucset}
    (wf : Wf (node key left right) low high) :
    keyIsLeaflike (ucnodeKey (node key left right)) = false := by
  rw [Bool.eq_false_iff, Ne, keyIsLeaflike_iff]
  change ¬ (centre _ = 0 ∨ centre _ % 128 ≠ 0)
  have := wf.1
  rw [centre_node]
  simp only [IsNodeKey] at this
  omega

variable {low' high' : Nat}

section

variable (wf : Wf t low high)

include wf

theorem Wf.mono (lower : low' ≤ low) (upper : high ≤ high') : Wf t low' high' := by
  cases t with
  | null => trivial
  | leaf key bitset =>
    exact ⟨wf.1, lower.trans wf.2.1, wf.2.2.1.trans upper, wf.2.2.2⟩
  | node key left right =>
    exact ⟨wf.1, lower.trans wf.2.1, wf.2.2.1.trans upper, wf.2.2.2⟩

theorem Wf.contains_block (mem : Contains t x) :
    lo 64 t.centre ≤ x.toNat ∧ x.toNat < hi 64 t.centre ∧
      (lo 64 t.centre < x.toNat ∨ x.toNat = 0) := by
  induction t generalizing low high with
  | null => exact absurd mem id
  | leaf key bitset =>
    obtain ⟨leafKey, _, _, _, first⟩ := wf
    obtain ⟨block, set⟩ := mem
    rw [centre_leaf leafKey, (leaf_block leafKey).1, (leaf_block leafKey).2]
    have : x.toNat % 128 = 0 → key.toNat < 128 := fun zero =>
      first (by rw [← zero, bit_mod]; exact set)
    simp only [IsLeafKey] at leafKey
    omega
  | node key left right ihLeft ihRight =>
    obtain ⟨nodeKey, _, _, wfLeft, wfRight, _⟩ := wf
    rw [centre_node]
    have := lo_lt (w := 64) (pos_of_ne_zero nodeKey.2)
    have := lt_hi 64 (2 * (key.toNat / 2))
    rcases mem with ⟨_, same⟩ | inLeft | inRight
    · omega
    · have nonnull : left ≠ null := by rintro rfl; exact inLeft
      have := wfLeft.block nonnull
      have := ihLeft wfLeft inLeft
      omega
    · have nonnull : right ≠ null := by rintro rfl; exact inRight
      have := wfRight.block nonnull
      have := ihRight wfRight inRight
      omega

theorem Wf.contains_bounds (mem : Contains t x) :
    low ≤ x.toNat ∧ x.toNat < high ∧ (low < x.toNat ∨ x.toNat = 0) := by
  have nonnull : t ≠ null := by rintro rfl; exact mem
  have := wf.block nonnull
  have := wf.contains_block mem
  omega

theorem Wf.exists_contains (nonnull : t ≠ null) : ∃ x, Contains t x := by
  induction t generalizing low high with
  | null => exact absurd rfl nonnull
  | leaf key bitset =>
    obtain ⟨leafKey, _, _, ⟨i, bound, set⟩, _⟩ := wf
    have value : (BitVec.ofNat 64 (128 * (key.toNat / 128) + i)).toNat =
        128 * (key.toNat / 128) + i := by
      rw [toNat_ofNat, mod_eq_of_lt (by simp only [IsLeafKey] at leafKey; omega)]
    refine ⟨BitVec.ofNat 64 (128 * (key.toNat / 128) + i), ?_, ?_⟩
    · rw [value]; omega
    · rw [value, ← bit_mod, show (128 * (key.toNat / 128) + i) % 128 = i by omega]
      exact set
  | node key left right ihLeft ihRight =>
    obtain ⟨_, _, _, wfLeft, _, children⟩ := wf
    rcases mod_two_eq_zero_or_one key.toNat with even | odd
    · obtain ⟨x, mem⟩ := ihLeft wfLeft (children even).1
      exact ⟨x, .inr (.inl mem)⟩
    · refine ⟨key &&& ~~~1, .inl ⟨odd, toNat_clear_one key⟩⟩

theorem eq_null_iff : t = null ↔ ∀ x, ¬ Contains t x := by
  constructor
  · rintro rfl x
    exact id
  · intro empty
    by_contra nonnull
    obtain ⟨x, mem⟩ := wf.exists_contains nonnull
    exact empty x mem

end

section Node

variable {key : Word} {left right : Ucset}

section

variable (wf : Wf (node key left right) low high)

include wf

theorem Wf.contains_left (x : Word) :
    Contains left x ↔ Contains (node key left right) x ∧ x.toNat < 2 * (key.toNat / 2) := by
  obtain ⟨nodeKey, _, _, wfLeft, wfRight, _⟩ := wf
  constructor
  · intro mem
    exact ⟨.inr (.inl mem), (wfLeft.contains_bounds mem).2.1⟩
  · rintro ⟨⟨_, same⟩ | inLeft | inRight, less⟩
    · omega
    · exact inLeft
    · have := wfRight.contains_bounds inRight
      omega

theorem Wf.contains_right (x : Word) :
    Contains right x ↔ Contains (node key left right) x ∧ 2 * (key.toNat / 2) < x.toNat := by
  obtain ⟨nodeKey, _, _, wfLeft, wfRight, _⟩ := wf
  constructor
  · intro mem
    have := wfRight.contains_bounds mem
    have := nodeKey.2
    exact ⟨.inr (.inr mem), by omega⟩
  · rintro ⟨⟨_, same⟩ | inLeft | inRight, more⟩
    · omega
    · have := wfLeft.contains_bounds inLeft
      omega
    · exact inRight

theorem Wf.contains_centre (same : x.toNat = 2 * (key.toNat / 2)) :
    Contains (node key left right) x ↔ key.toNat % 2 = 1 := by
  obtain ⟨nodeKey, _, _, wfLeft, wfRight, _⟩ := wf
  constructor
  · rintro (⟨odd, _⟩ | inLeft | inRight)
    · exact odd
    · have := wfLeft.contains_bounds inLeft
      omega
    · have := wfRight.contains_bounds inRight
      have := nodeKey.2
      omega
  · intro odd
    exact .inl ⟨odd, same⟩

theorem Wf.straddles :
    ∃ x y, Contains (node key left right) x ∧ Contains (node key left right) y ∧
      x.toNat ≤ 2 * (key.toNat / 2) ∧ 2 * (key.toNat / 2) ≤ y.toNat := by
  have whole := wf
  obtain ⟨nodeKey, _, _, wfLeft, wfRight, children⟩ := wf
  rcases mod_two_eq_zero_or_one key.toNat with even | odd
  · obtain ⟨x, inLeft⟩ := wfLeft.exists_contains (children even).1
    obtain ⟨y, inRight⟩ := wfRight.exists_contains (children even).2
    have below := (whole.contains_left x).mp inLeft
    have above := (whole.contains_right y).mp inRight
    exact ⟨x, y, below.1, above.1, by omega, by omega⟩
  · have centred : (key &&& ~~~1).toNat = 2 * (key.toNat / 2) := toNat_clear_one key
    exact ⟨_, _, (whole.contains_centre centred).mpr odd, (whole.contains_centre centred).mpr odd, by omega, by omega⟩

variable {key' : Word}

private theorem node_ne_leaf (wf' : Wf (leaf key' bitset) low' high')
    (same : ∀ x, Contains (node key left right) x ↔ Contains (leaf key' bitset) x) : False := by
  obtain ⟨x, y, memberX, memberY, below, above⟩ := wf.straddles
  obtain ⟨blockY, _⟩ := (same y).mp memberY
  have nodeKey := wf.1
  have leafKey := wf'.1
  -- Both elements share a leaf block, so the node key is its first word.
  have edgeX := wf'.contains_block ((same x).mp memberX)
  rw [centre_leaf leafKey, (leaf_block leafKey).1, (leaf_block leafKey).2] at edgeX
  simp only [IsNodeKey, IsLeafKey] at nodeKey leafKey
  omega

private theorem centre_unique (wf' : Wf (node key' left' right') low' high')
    (same : ∀ x, Contains (node key left right) x ↔ Contains (node key' left' right') x) :
    2 * (key.toNat / 2) = 2 * (key'.toNat / 2) := by
  by_contra ne
  obtain ⟨x, y, memberX, memberY, below, above⟩ := wf.straddles
  obtain ⟨x', y', memberX', memberY', below', above'⟩ := wf'.straddles
  have own := wf.contains_block memberX
  have blockX := wf'.contains_block ((same x).mp memberX)
  have blockY := wf'.contains_block ((same y).mp memberY)
  have blockX' := wf.contains_block ((same x').mpr memberX')
  have blockY' := wf.contains_block ((same y').mpr memberY')
  rw [centre_node] at own blockX blockY blockX' blockY'
  have := wf.1.2
  have := wf'.1.2
  have relation := @laminar 64 (2 * (key.toNat / 2)) (2 * (key'.toNat / 2))
    (by omega) (by omega) ne
  omega

end

end Node

/-- Canonicity: two well-formed trees with the same elements are the same tree. -/
theorem Wf.ext (wf : Wf t low high) (wf' : Wf t' low' high')
    (same : ∀ x, Contains t x ↔ Contains t' x) : t = t' := by
  induction t generalizing t' low high low' high' with
  | null =>
    symm
    rw [eq_null_iff wf']
    exact fun x mem => (same x).mpr mem
  | leaf key bitset =>
    cases t' with
    | null => exact (eq_null_iff wf).mpr fun x mem => (same x).mp mem
    | node key' left' right' => exact (node_ne_leaf wf' wf fun x => (same x).symm).elim
    | leaf key' bitset' =>
      have leafKey := wf.1
      have leafKey' := wf'.1
      obtain ⟨x, mem⟩ := wf.exists_contains (by simp)
      have sameKey : key = key' := by
        apply eq_of_toNat_eq
        have := mem.1
        have := ((same x).mp mem).1
        simp only [IsLeafKey] at leafKey leafKey'
        omega
      subst sameKey
      congr 1
      apply bitset_ext
      intro i bound
      have value : (BitVec.ofNat 64 (128 * (key.toNat / 128) + i)).toNat =
          128 * (key.toNat / 128) + i := by
        rw [toNat_ofNat, mod_eq_of_lt (by simp only [IsLeafKey] at leafKey; omega)]
      have iff_i := same (BitVec.ofNat 64 (128 * (key.toNat / 128) + i))
      have position : (128 * (key.toNat / 128) + i) % 128 = i := by omega
      have block : (128 * (key.toNat / 128) + i) / 128 = key.toNat / 128 := by omega
      simp only [Contains, value, block, true_and] at iff_i
      rw [← bit_mod bitset, ← bit_mod bitset', position] at iff_i
      exact Bool.eq_iff_iff.mpr iff_i
  | node key left right ihLeft ihRight =>
    cases t' with
    | null => exact (eq_null_iff wf).mpr fun x mem => (same x).mp mem
    | leaf key' bitset' => exact (node_ne_leaf wf wf' same).elim
    | node key' left' right' =>
      have centres := centre_unique wf wf' same
      have presence : key.toNat % 2 = 1 ↔ key'.toNat % 2 = 1 := by
        have centred : (key &&& ~~~1).toNat = 2 * (key.toNat / 2) := toNat_clear_one key
        rw [← wf.contains_centre centred, ← wf'.contains_centre (centred.trans centres)]
        exact same _
      have sameKey : key = key' := by
        apply eq_of_toNat_eq
        omega
      subst sameKey
      congr 1
      · apply ihLeft wf.2.2.2.1 wf'.2.2.2.1
        intro x
        rw [wf.contains_left, wf'.contains_left, same x]
      · apply ihRight wf.2.2.2.2.1 wf'.2.2.2.2.1
        intro x
        rw [wf.contains_right, wf'.contains_right, same x]

/-- Bounds between which trees are built: whole leaf blocks, and every trie key
strictly inside brings its whole block. -/
structure Region (low high : Nat) : Prop where
  lowMod : low % 128 = 0
  highMod : high % 128 = 0
  highLe : high ≤ 2 ^ 64
  inside : ∀ k, IsTrieKey k → low < k → k < high → low ≤ lo 64 k ∧ hi 64 k ≤ high

theorem Region.top : Region 0 (2 ^ 64) :=
  ⟨by decide, by decide, le_refl _, fun _ _ _ below => ⟨zero_le _, hi_le below⟩⟩

theorem Region.leftHalf (nodeKey : IsNodeKey k) (below : k < 2 ^ 64) :
    Region (lo 64 k) k := by
  have bounds := bounds_mod (.inr nodeKey) below
  refine ⟨bounds.1, nodeKey.1, le_of_lt below, fun k' _ more less => ?_⟩
  exact Covers.left ⟨more, less.trans (lt_hi 64 k)⟩ below (by omega) less

theorem Region.rightHalf (nodeKey : IsNodeKey k) (below : k < 2 ^ 64) :
    Region k (hi 64 k) := by
  have bounds := bounds_mod (.inr nodeKey) below
  refine ⟨nodeKey.1, bounds.2, hi_le below, fun k' _ more less => ?_⟩
  have := hi_le below
  exact Covers.right ⟨(lo_lt (pos_of_ne_zero nodeKey.2)).trans more, less⟩ below (by omega) more

/-- Words that may be stored between the bounds. -/
def InRegion (x : Word) (low high : Nat) : Prop :=
  low ≤ x.toNat ∧ x.toNat < high ∧ (low < x.toNat ∨ x.toNat = 0)

theorem inRegion_top (x : Word) : InRegion x 0 (2 ^ 64) :=
  ⟨zero_le _, x.isLt, by omega⟩

/-- A tree between the bounds with exactly the elements satisfying `P`. -/
structure Represents (t : Ucset) (low high : Nat) (P : Word → Prop) : Prop where
  wf : Wf t low high
  contains : ∀ x, Contains t x ↔ P x

variable {P : Word → Prop}

theorem Represents.unique (first : Represents t low high P) (second : Represents t' low' high' P) :
    t = t' :=
  first.wf.ext second.wf fun x => (first.contains x).trans (second.contains x).symm

theorem Represents.mono (rep : Represents t low high P) (lower : low' ≤ low) (upper : high ≤ high') :
    Represents t low' high' P :=
  ⟨rep.wf.mono lower upper, rep.contains⟩

theorem Represents.congr (rep : Represents t low high P) (same : ∀ x, P x ↔ Q x) :
    Represents t low high Q :=
  ⟨rep.wf, fun x => (rep.contains x).trans (same x)⟩

end Culibs.Cucon.Ucset
