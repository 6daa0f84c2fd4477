import Culibs.Cucon.Ucset.Invariant

namespace Culibs.Cucon.Ucset

open Cu DyadicBlock
open BitVec (lt_def toNat_eq)
open Bool (false_eq_true)

variable {t : Ucset} {low high : Nat}

theorem toNat_nodeKey (t : Ucset) : (ucnodeKey t).toNat = t.centre := rfl

theorem lt_nodeKey_iff (t : Ucset) (x : Word) : x < ucnodeKey t ↔ x.toNat < t.centre :=
  lt_def

theorem eq_nodeKey_iff (t : Ucset) (x : Word) : x = ucnodeKey t ↔ x.toNat = t.centre :=
  toNat_eq

theorem find_iff (wf : Wf t low high) (x : Word) : find t x = true ↔ Contains t x := by
  induction t generalizing low high with
  | null => simp [find, Contains]
  | leaf key bitset =>
    rw [find]
    simp only [reduceCtorEq, dite_false, wf.leaf_leaflike, if_true, ucleafFind_eq, Ucset.bitset]
    by_cases covered : keyCoverseq (ucnodeKey (leaf key bitset)) x = true
    · have block := (keyCoverseq_iff _ _).mp covered
      change lo 64 (centre _) ≤ _ ∧ _ < hi 64 (centre _) at block
      have leafKey := wf.1
      rw [centre_leaf leafKey, (leaf_block leafKey).1, (leaf_block leafKey).2] at block
      have same : x.toNat / 128 = key.toNat / 128 := by
        simp only [IsLeafKey] at leafKey
        omega
      simp [covered, Contains, same]
    · simp only [covered, Bool.not_false, if_true, false_eq_true, false_iff]
      intro mem
      have block := wf.contains_block mem
      exact covered ((keyCoverseq_iff _ _).mpr ⟨block.1, block.2.1⟩)
  | node key left right ihLeft ihRight =>
    rw [find]
    simp only [reduceCtorEq, dite_false, wf.node_not_leaflike, false_eq_true, if_false,
      eq_nodeKey_iff, lt_nodeKey_iff, centre_node, Ucset.left, Ucset.right]
    by_cases covered : keyCoverseq (ucnodeKey (node key left right)) x = true
    · simp only [covered, Bool.not_true, false_eq_true, if_false]
      split
      · next same => rw [hasKey_iff, wf.contains_centre same, rawKey]
      · next ne =>
        split
        · next less =>
          rw [ihLeft wf.2.2.2.1, wf.contains_left]
          exact and_iff_left less
        · next notLess =>
          rw [ihRight wf.2.2.2.2.1, wf.contains_right]
          exact and_iff_left (by omega)
    · simp only [covered, Bool.not_false, if_true, false_eq_true, false_iff]
      intro mem
      have block := wf.contains_block mem
      exact covered ((keyCoverseq_iff _ _).mpr ⟨block.1, block.2.1⟩)

variable {x key : Word} {bitset : Bitset}

theorem contains_leaf_setBit (same : x.toNat / 128 = key.toNat / 128)
    (y : Word) : Contains (leaf key (setBit bitset x)) y ↔ y = x ∨ Contains (leaf key bitset) y := by
  simp only [Contains, bit_setBit, Bool.or_eq_true, decide_eq_true_iff]
  have position : y = x ↔ y.toNat / 128 = key.toNat / 128 ∧ y.toNat % 128 = x.toNat % 128 := by
    rw [toNat_eq]
    omega
  rw [position, and_or_left]

/-- Adding a word of the block to a leaf keeps it well formed, unless the word
is the first of a block other than zero's. -/
theorem wf_leaf_setBit (leafKey : IsLeafKey key.toNat)
    (lower : low ≤ lo 64 key.toNat) (upper : hi 64 key.toNat ≤ high)
    (first : bit bitset 0 = true → key.toNat < 128) (offset : x.toNat % 128 = 0 → key.toNat < 128) :
    Wf (leaf key (setBit bitset x)) low high := by
  refine ⟨leafKey, lower, upper, ⟨x.toNat % 128, Nat.mod_lt _ (by omega), ?_⟩, ?_⟩
  · simp [bit_setBit]
  · rw [bit_setBit]
    intro set
    rcases (Bool.or_eq_true _ _).mp set with zero | before
    · exact offset (by simpa using (of_decide_eq_true zero).symm)
    · exact first before

theorem singleton_represents (region : Region low high) (inside : InRegion x low high) :
    Represents (singleton x) low high (fun y => y = x) := by
  obtain ⟨lower, upper, offset⟩ := inside
  have lowMod := region.lowMod
  have highMod := region.highMod
  rw [singleton]
  split
  · next leaflike =>
    rw [keyIsLeaflike_iff] at leaflike
    have leafKey := isLeafKey_leafKey x
    have value := toNat_leafKey x
    have block := leaf_block leafKey
    constructor
    · apply wf_leaf_setBit leafKey
      · rw [block.1]; omega
      · rw [block.2]; omega
      · simp
      · omega
    · intro y
      rw [ucleafNew, contains_leaf_setBit (by omega)]
      simp [Contains]
  · next notLeaflike =>
    rw [keyIsLeaflike_iff] at notLeaflike
    have nodeKey : IsNodeKey x.toNat := ⟨by omega, by omega⟩
    have stored := or_one_key x
    have centred : 2 * ((x ||| 1).toNat / 2) = x.toNat := by omega
    have bounds := region.inside x.toNat (.inr nodeKey) (by omega) upper
    constructor
    · refine ⟨?_, ?_, ?_, trivial, trivial, ?_⟩
      · rw [centred]; exact nodeKey
      · rw [centred]; exact bounds.1
      · rw [centred]; exact bounds.2
      · omega
    · intro y
      have : y = x ↔ y.toNat = x.toNat := toNat_eq
      simp only [ucnodeNew, Contains, centred, stored.2, or_false, true_and, this]

theorem singleton_ne_null (x : Word) : singleton x ≠ null := by
  rw [singleton]
  split <;> simp [ucleafNew, ucnodeNew]

private theorem singleton_centre (x : Word) :
    IsLeafKey (singleton x).centre ∨ (singleton x).centre = x.toNat := by
  rw [singleton]
  split
  · left
    rw [ucleafNew, centre_leaf (isLeafKey_leafKey x)]
    exact isLeafKey_leafKey x
  · next notLeaflike =>
    right
    rw [keyIsLeaflike_iff] at notLeaflike
    have := or_one_key x
    rw [ucnodeNew, centre_node]
    omega

theorem Wf.own_block (wf : Wf t low high) (nonnull : t ≠ null) :
    Wf t (lo 64 t.centre) (hi 64 t.centre) := by
  cases t with
  | null => exact absurd rfl nonnull
  | leaf key bitset =>
    rw [centre_leaf wf.1]
    exact ⟨wf.1, le_rfl, le_rfl, wf.2.2.2⟩
  | node key left right =>
    rw [centre_node]
    exact ⟨wf.1, le_rfl, le_rfl, wf.2.2.2⟩

theorem join_represents (region : Region low high)
    (wf0 : Wf t0 low high) (wf1 : Wf t1 low high) (nonnull0 : t0 ≠ null) (nonnull1 : t1 ≠ null)
    (inside0 : lo 64 t0.centre ≤ k0.toNat ∧ k0.toNat < hi 64 t0.centre)
    (inside1 : lo 64 t1.centre ≤ k1.toNat ∧ k1.toNat < hi 64 t1.centre)
    (apart : hi 64 t0.centre ≤ lo 64 t1.centre) (either : a = k0 ∨ a = k1) :
    Represents (ucnodeNew ((a &&& ~~~(uintptrDcover (k0 ^^^ k1))) |||
        ((uintptrDcover (k0 ^^^ k1) >>> 1) + 1)) t0 t1)
      low high (fun x => Contains t0 x ∨ Contains t1 x) := by
  have block0 := wf0.block nonnull0
  have block1 := wf1.block nonnull1
  obtain ⟨j, value, nodeKey, start, left, right, stop⟩ :=
    join_spec block0.1 (centre_lt t0) (centre_lt t1) inside0 inside1 apart
  rw [value a either]
  have even := nodeKey.1
  have centred : 2 * (j.toNat / 2) = j.toNat := by omega
  have lower : low < j.toNat := by
    omega
  have upper : j.toNat < high := by
    omega
  have bounds := region.inside j.toNat (.inr nodeKey) lower upper
  constructor
  · simp only [ucnodeNew, Wf, centred]
    exact ⟨nodeKey, bounds.1, bounds.2, (wf0.own_block nonnull0).mono start left,
      (wf1.own_block nonnull1).mono right stop, fun _ => ⟨nonnull0, nonnull1⟩⟩
  · intro x
    have : ¬ j.toNat % 2 = 1 := by omega
    simp [ucnodeNew, Contains, this]

/-- A key that covers a trie key of another block is itself a node key. -/
theorem nodeKey_of_covers {x c : Nat} (belowX : x < 2 ^ 64) (belowC : c < 2 ^ 64) (nonzero : x ≠ 0)
    (trie : IsTrieKey c) (ne : x ≠ c) (covers : Covers 64 x c) : IsNodeKey x := by
  have room := block_room trie
  have wide : 128 ≤ rad 64 x := by
    have := lo_add_rad (w := 64) (pos_of_ne_zero nonzero)
    rcases lt_or_gt_of_ne ne with more | less
    · have := covers.right belowX belowC more
      simp only [hi] at *
      omega
    · have := covers.left belowX belowC less
      omega
  exact nodeKey_of_wide nonzero wide

/-- A word outside the block of a tree either covers the tree or belongs to a
disjoint block. -/
theorem beside_cases (region : Region low high) (inside : InRegion x low high)
    (wf : Wf t low high) (nonnull : t ≠ null) (uncovered : ¬ keyCovers (ucnodeKey t) x = true)
    (ne : x.toNat ≠ t.centre) :
    keyCovers x (ucnodeKey t) = true ∧ IsNodeKey x.toNat ∧ Covers 64 x.toNat t.centre ∨
      keyCovers x (ucnodeKey t) = false ∧
        (hi 64 (singleton x).centre ≤ lo 64 t.centre ∨ hi 64 t.centre ≤ lo 64 (singleton x).centre) := by
  have trie := (wf.block nonnull).1
  have pos : t.centre ≠ 0 := by
    rcases trie with leaf | node
    · simp only [IsLeafKey] at leaf; omega
    · exact node.2
  rw [keyCovers_iff] at uncovered
  change ¬ (centre t ≠ 0 ∧ (lo 64 (centre t) < _ ∨ _) ∧ lo 64 (centre t) ≤ _ ∧ _ < hi 64 (centre t))
    at uncovered
  have own := singleton_represents region inside
  have mem := own.wf.contains_block ((own.contains x).mpr rfl)
  have trieOwn := (own.wf.block (singleton_ne_null x)).1
  cases covers : keyCovers x (ucnodeKey t) with
  | true =>
    left
    obtain ⟨nonzero, above, start, stop⟩ := (keyCovers_iff _ _).mp covers
    change (lo 64 x.toNat < centre t ∨ centre t = 0) at above
    change centre t < hi 64 x.toNat at stop
    have relation : Covers 64 x.toNat t.centre := ⟨by omega, stop⟩
    exact ⟨rfl, nodeKey_of_covers x.isLt (centre_lt t) nonzero trie ne relation, relation⟩
  | false =>
    right
    refine ⟨rfl, ?_⟩
    have notCovering : ¬ (x.toNat ≠ 0 ∧ (lo 64 x.toNat < t.centre ∨ t.centre = 0) ∧
        lo 64 x.toNat ≤ t.centre ∧ t.centre < hi 64 x.toNat) := fun covering => by
      simp [(keyCovers_iff x (ucnodeKey t)).mpr covering] at covers
    have room := block_room trie
    by_cases same : (singleton x).centre = t.centre
    · rw [same] at mem
      omega
    have relation := laminar (w := 64) (centre_lt _) (centre_lt t) same
    have := lt_hi 64 t.centre
    have := lo_lt (w := 64) (pos_of_ne_zero pos)
    rcases singleton_centre x with leaf | plain
    · have block := leaf_block leaf
      omega
    · rw [plain] at mem relation trieOwn ⊢
      simp only [IsTrieKey, IsLeafKey, IsNodeKey] at trieOwn
      omega

private theorem insertBeside_represents (region : Region low high) (inside : InRegion x low high)
    (wf : Wf t low high) (nonnull : t ≠ null) (uncovered : ¬ keyCovers (ucnodeKey t) x = true)
    (ne : x.toNat ≠ t.centre) :
    Represents (insertBeside t (ucnodeKey t) x) low high (fun y => y = x ∨ Contains t y) := by
  rcases beside_cases region inside wf nonnull uncovered ne with
    ⟨covers, nodeKey, relation⟩ | ⟨covers, apart⟩
  · have stored := or_one_key x
    have even := nodeKey.1
    have centred : 2 * ((x ||| 1).toNat / 2) = x.toNat := by omega
    have pos := nodeKey.2
    have bounds := region.inside x.toNat (.inr nodeKey) (by have := inside.2.2; omega) inside.2.1
    have contains (y : Word) : y.toNat = x.toNat ↔ y = x := toNat_eq.symm
    have own := wf.own_block nonnull
    simp only [insertBeside, covers, if_true, lt_def]
    split
    · next below =>
      change t.centre < x.toNat at below
      have half := relation.left x.isLt (centre_lt t) below
      constructor
      · simp only [ucnodeNew, Wf, centred]
        exact ⟨nodeKey, bounds.1, bounds.2, own.mono half.1 half.2, trivial, by omega⟩
      · intro y
        simp only [ucnodeNew, Contains, centred, stored.2, contains, true_and, or_false]
    · next notBelow =>
      change ¬ t.centre < x.toNat at notBelow
      have half := relation.right x.isLt (centre_lt t) (by omega)
      constructor
      · simp only [ucnodeNew, Wf, centred]
        exact ⟨nodeKey, bounds.1, bounds.2, trivial, own.mono half.1 half.2, by omega⟩
      · intro y
        simp only [ucnodeNew, Contains, centred, stored.2, contains, true_and, false_or]
  · have own := singleton_represents region inside
    have mem := own.wf.contains_block ((own.contains x).mpr rfl)
    have insideX : lo 64 (singleton x).centre ≤ x.toNat ∧ x.toNat < hi 64 (singleton x).centre :=
      ⟨mem.1, mem.2.1⟩
    have insideT : lo 64 t.centre ≤ (ucnodeKey t).toNat ∧ (ucnodeKey t).toNat < hi 64 t.centre :=
      ⟨lo_le _ _, lt_hi _ _⟩
    have order : x < ucnodeKey t ↔ x.toNat < t.centre := lt_nodeKey_iff t x
    have := lo_le 64 t.centre
    have := lt_hi 64 t.centre
    simp only [insertBeside, covers, false_eq_true, if_false]
    change Represents (if x < ucnodeKey t then ucnodeNew _ (singleton x) t
      else ucnodeNew _ t (singleton x)) low high _
    split
    · next below =>
      rw [order] at below
      exact (join_represents region own.wf wf (singleton_ne_null x) nonnull insideX insideT
        (by omega) (.inl rfl)).congr fun y => by rw [own.contains]
    · next notBelow =>
      rw [order] at notBelow
      rw [BitVec.xor_comm x]
      exact (join_represents region wf own.wf nonnull (singleton_ne_null x) insideT insideX
        (by omega) (.inr rfl)).congr fun y => by rw [own.contains, or_comm]

private theorem inRegion_half (covers : keyCovers (ucnodeKey t) x = true) :
    (x.toNat < t.centre → InRegion x (lo 64 t.centre) t.centre) ∧
      (t.centre < x.toNat → InRegion x t.centre (hi 64 t.centre)) := by
  obtain ⟨_, offset, start, stop⟩ := (keyCovers_iff _ _).mp covers
  change lo 64 t.centre < x.toNat ∨ x.toNat = 0 at offset
  change lo 64 t.centre ≤ x.toNat at start
  change x.toNat < hi 64 t.centre at stop
  exact ⟨fun less => ⟨start, less, offset⟩, fun more => ⟨by omega, stop, by omega⟩⟩

theorem leaf_block_of_covers (wf : Wf (leaf key bitset) low high)
    (covers : keyCovers (ucnodeKey (leaf key bitset)) x = true) :
    x.toNat / 128 = key.toNat / 128 ∧ (x.toNat % 128 = 0 → key.toNat < 128) := by
  obtain ⟨_, offset, start, stop⟩ := (keyCovers_iff _ _).mp covers
  have leafKey := wf.1
  have centred : (ucnodeKey (leaf key bitset)).toNat = key.toNat := centre_leaf leafKey
  rw [centred, (leaf_block leafKey).1] at offset start
  rw [centred, (leaf_block leafKey).2] at stop
  simp only [IsLeafKey] at leafKey
  omega

theorem node_represents {left right : Ucset} (centred : 2 * (key.toNat / 2) = c) (nodeKey : IsNodeKey c) (lower : low ≤ lo 64 c)
    (upper : hi 64 c ≤ high) (inLeft : Represents left (lo 64 c) c P)
    (inRight : Represents right c (hi 64 c) Q)
    (children : key.toNat % 2 = 0 → left ≠ null ∧ right ≠ null) :
    Represents (ucnodeNew key left right) low high
      (fun y => (key.toNat % 2 = 1 ∧ y.toNat = c) ∨ P y ∨ Q y) := by
  subst centred
  refine ⟨⟨nodeKey, lower, upper, inLeft.wf, inRight.wf, children⟩, fun y => ?_⟩
  simp only [ucnodeNew, Contains, inLeft.contains, inRight.contains]

private theorem reuse_left (key : Word) (left right left' : Ucset) :
    (if left' ≠ (node key left right).left then
        ucnodeNew (node key left right).rawKey left' (node key left right).right
      else node key left right) = ucnodeNew key left' right := by
  split
  · rfl
  · next unchanged => rw [not_not.mp unchanged]; rfl

private theorem reuse_right (key : Word) (left right right' : Ucset) :
    (if right' ≠ (node key left right).right then
        ucnodeNew (node key left right).rawKey (node key left right).left right'
      else node key left right) = ucnodeNew key left right' := by
  split
  · rfl
  · next unchanged => rw [not_not.mp unchanged]; rfl

theorem Represents.ne_null (rep : Represents t low high P)
    (mem : P x) : t ≠ null := fun empty =>
  (eq_null_iff rep.wf).mp empty x ((rep.contains x).mpr mem)

theorem Wf.represents (wf : Wf t low high) : Represents t low high (Contains t) :=
  ⟨wf, fun _ => Iff.rfl⟩

theorem insert_represents (region : Region low high) (inside : InRegion x low high)
    (wf : Wf t low high) : Represents (insert t x) low high (fun y => y = x ∨ Contains t y) := by
  induction t generalizing low high with
  | null =>
    rw [insert]
    exact (singleton_represents region inside).congr fun y => by simp [Contains]
  | leaf key bitset =>
    have leafKey := wf.1
    have centred : (leaf key bitset).centre = key.toNat := centre_leaf leafKey
    -- Storing another word of the block in the leaf.
    have stored (block : x.toNat / 128 = key.toNat / 128)
        (offset : x.toNat % 128 = 0 → key.toNat < 128) :
        Represents (ucleafInsert (leaf key bitset) x) low high
          (fun y => y = x ∨ Contains (leaf key bitset) y) :=
      ⟨wf_leaf_setBit leafKey wf.2.1 wf.2.2.1 wf.2.2.2.2 offset, contains_leaf_setBit block⟩
    rw [insert]
    simp only [reduceCtorEq, dite_false, eq_nodeKey_iff, centred, wf.leaf_leaflike, if_true,
      ucleafFind_eq, Ucset.bitset]
    split
    · next same =>
      have leaflike : keyIsLeaflike x = true := by
        rw [keyIsLeaflike_iff]
        simp only [IsLeafKey] at leafKey
        omega
      simp only [leaflike, if_true]
      simp only [IsLeafKey] at leafKey
      exact stored (by omega) (by omega)
    · next ne =>
      split
      · next covers =>
        have block := leaf_block_of_covers wf covers
        split
        · next present =>
          refine ⟨wf, fun y => ⟨.inr, ?_⟩⟩
          rintro (rfl | mem)
          · exact ⟨block.1, present⟩
          · exact mem
        · exact stored block.1 block.2
      · next uncovered =>
        exact insertBeside_represents region inside wf (by simp) uncovered (by rw [centred]; exact ne)
  | node key left right ihLeft ihRight =>
    have whole := wf
    obtain ⟨nodeKey, lower, upper, wfLeft, wfRight, children⟩ := wf
    have below : 2 * (key.toNat / 2) < 2 ^ 64 := by have := key.isLt; omega
    rw [insert]
    simp only [reduceCtorEq, dite_false, eq_nodeKey_iff, centre_node, whole.node_not_leaflike,
      false_eq_true, if_false, lt_nodeKey_iff, hasKey_iff]
    split
    · next same =>
      have notLeaflike : keyIsLeaflike x = false := by
        rw [Bool.eq_false_iff, Ne, keyIsLeaflike_iff]
        simp only [IsNodeKey] at nodeKey
        omega
      simp only [notLeaflike, false_eq_true, if_false]
      split
      · next odd =>
        refine ⟨whole, fun y => ⟨.inr, ?_⟩⟩
        rintro (rfl | mem)
        · exact (whole.contains_centre same).mpr odd
        · exact mem
      · have raised := or_one_key key
        have centred : 2 * ((key ||| 1).toNat / 2) = 2 * (key.toNat / 2) := by omega
        refine (node_represents centred nodeKey lower upper wfLeft.represents wfRight.represents
          (by omega)).congr fun y => ?_
        have : y = x ↔ y.toNat = 2 * (key.toNat / 2) := by rw [toNat_eq, same]
        simp only [Contains, raised.2, true_and, this]
        grind
    · next ne =>
      split
      · next covers =>
        have half := inRegion_half covers
        rw [centre_node] at half
        split
        · next less =>
          have inserted := ihLeft (Region.leftHalf nodeKey below) (half.1 less) wfLeft
          rw [reuse_left]
          refine (node_represents rfl nodeKey lower upper inserted wfRight.represents
            fun even => ⟨inserted.ne_null (.inl rfl), (children even).2⟩).congr fun y => ?_
          simp only [Contains]
          grind
        · next notLess =>
          have inserted := ihRight (Region.rightHalf nodeKey below) (half.2 (by omega)) wfRight
          rw [reuse_right]
          refine (node_represents rfl nodeKey lower upper wfLeft.represents inserted
            fun even => ⟨(children even).1, inserted.ne_null (.inl rfl)⟩).congr fun y => ?_
          simp only [Contains]
          grind
      · next uncovered =>
        exact insertBeside_represents region inside whole (by simp) uncovered
          (by rw [centre_node]; exact ne)

theorem leaf_or_null_represents
    (wf : Wf (leaf key bitset) low high) (subset : ∀ i, bit bitset' i = true → bit bitset i = true) :
    Represents (if ∃ i, bitset' i ≠ 0 then leaf key bitset' else null) low high
      (fun y => y.toNat / 128 = key.toNat / 128 ∧ bit bitset' y.toNat = true) := by
  obtain ⟨leafKey, lower, upper, _, first⟩ := wf
  split
  · next nonzero =>
    exact ⟨⟨leafKey, lower, upper, (nonzero_iff bitset').mp nonzero, fun set => first (subset 0 set)⟩,
      fun y => Iff.rfl⟩
  · next zero =>
    refine ⟨trivial, fun y => ⟨False.elim, fun ⟨_, set⟩ => zero ?_⟩⟩
    exact (nonzero_iff bitset').mpr ⟨y.toNat % 128, Nat.mod_lt _ (by omega), by rwa [bit_mod]⟩

private theorem ucleafErase_represents (wf : Wf (leaf key bitset) low high)
    (block : x.toNat / 128 = key.toNat / 128) :
    Represents (ucleafErase (leaf key bitset) x) low high
      (fun y => y ≠ x ∧ Contains (leaf key bitset) y) := by
  have position (y : Word) : y.toNat / 128 = key.toNat / 128 →
      (y ≠ x ↔ ¬ y.toNat % 128 = x.toNat % 128) := by
    rw [Ne, toNat_eq]
    omega
  change Represents (if bitset (bitsetIndex x) &&& bitsetBit x = 0 then leaf key bitset
    else if ∃ i, Function.update bitset (bitsetIndex x) (bitset (bitsetIndex x) &&& ~~~(bitsetBit x)) i ≠ 0
      then leaf key (Function.update bitset (bitsetIndex x) (bitset (bitsetIndex x) &&& ~~~(bitsetBit x)))
      else null) low high _
  split
  · next absent =>
    rw [word_and_bit, bitsetIndex_eq] at absent
    refine ⟨wf, fun y => ⟨fun mem => ⟨?_, mem⟩, And.right⟩⟩
    rintro rfl
    simp only [Contains, bit, absent] at mem
    exact absurd mem.2 (by simp)
  · have cleared (i : Nat) := bit_clear bitset x i
    refine (leaf_or_null_represents wf fun i set => ?_).congr fun y => ?_
    · rw [cleared, Bool.and_eq_true] at set
      exact set.2
    · simp only [cleared, Contains, Bool.and_eq_true, Bool.not_eq_true', decide_eq_false_iff_not]
      constructor
      · rintro ⟨same, apart, set⟩
        exact ⟨(position y same).mpr apart, same, set⟩
      · rintro ⟨apart, same, set⟩
        exact ⟨same, (position y same).mp apart, set⟩

section Collapse

variable {key : Word} {left right : Ucset} {P Q : Word → Prop} {c : Nat}

theorem collapse_either_represents (c0 c1 : Prop) [Decidable c0] [Decidable c1]
    (centred : 2 * (key.toNat / 2) = c) (nodeKey : IsNodeKey c)
    (lower : low ≤ lo 64 c) (upper : hi 64 c ≤ high)
    (inLeft : Represents left (lo 64 c) c P) (inRight : Represents right c (hi 64 c) Q)
    (emptyLeft : c0 ↔ key.toNat % 2 = 0 ∧ left = null)
    (emptyRight : c1 ↔ key.toNat % 2 = 0 ∧ right = null) :
    Represents (if c0 then right else if c1 then left else ucnodeNew key left right) low high
      (fun y => (key.toNat % 2 = 1 ∧ y.toNat = c) ∨ P y ∨ Q y) := by
  subst centred
  have start := lo_le 64 (2 * (key.toNat / 2))
  have stop := lt_hi 64 (2 * (key.toNat / 2))
  split
  · next alone =>
    obtain ⟨even, empty⟩ := emptyLeft.mp alone
    refine ⟨inRight.wf.mono (lower.trans start) upper, fun y => ?_⟩
    have noLeft := inLeft.contains y
    rw [empty] at noLeft
    simp only [Contains, false_iff] at noLeft
    simp [inRight.contains, noLeft, even, zero_ne_one]
  · next someLeft =>
    split
    · next alone =>
      obtain ⟨even, empty⟩ := emptyRight.mp alone
      refine ⟨inLeft.wf.mono lower ((le_of_lt stop).trans upper), fun y => ?_⟩
      have noRight := inRight.contains y
      rw [empty] at noRight
      simp only [Contains, false_iff] at noRight
      simp [inLeft.contains, noRight, even, zero_ne_one]
    · next someRight =>
      rw [emptyLeft] at someLeft
      rw [emptyRight] at someRight
      exact node_represents rfl nodeKey lower upper inLeft inRight fun even =>
        ⟨fun empty => someLeft ⟨even, empty⟩, fun empty => someRight ⟨even, empty⟩⟩

theorem collapse_represents (centred : 2 * (key.toNat / 2) = c) (nodeKey : IsNodeKey c)
    (lower : low ≤ lo 64 c) (upper : hi 64 c ≤ high)
    (inLeft : Represents left (lo 64 c) c P)
    (inRight : Represents right c (hi 64 c) Q) :
    Represents (collapse key left right) low high
      (fun y => (key.toNat % 2 = 1 ∧ y.toNat = c) ∨ P y ∨ Q y) :=
  collapse_either_represents _ _ centred nodeKey lower upper inLeft inRight
    (by rw [and_one_eq_zero_iff]) (by rw [and_one_eq_zero_iff])

end Collapse

section Replace

variable {key : Word} {left right : Ucset} {P : Word → Prop}

theorem not_hasKey_iff (key : Word) (left right : Ucset) :
    ¬ hasKey (node key left right) = true ↔ key.toNat % 2 = 0 := by
  rw [hasKey_iff]
  change ¬ key.toNat % 2 = 1 ↔ _
  omega

theorem replaceLeft_represents (wf : Wf (node key left right) low high)
    (inLeft : Represents newLeft (lo 64 (2 * (key.toNat / 2))) (2 * (key.toNat / 2)) P) :
    Represents (replaceLeft (node key left right) newLeft) low high
      (fun y => (key.toNat % 2 = 1 ∧ y.toNat = 2 * (key.toNat / 2)) ∨ P y ∨ Contains right y) := by
  obtain ⟨nodeKey, lower, upper, _, wfRight, children⟩ := wf
  have collapsed := collapse_either_represents (newLeft = null ∧ ¬ hasKey (node key left right)) False rfl nodeKey
    lower upper inLeft wfRight.represents
    (by rw [not_hasKey_iff, and_comm]) ⟨False.elim, fun ⟨even, empty⟩ => (children even).2 empty⟩
  rwa [if_neg id] at collapsed

theorem replaceRight_represents (wf : Wf (node key left right) low high)
    (inRight : Represents newRight (2 * (key.toNat / 2)) (hi 64 (2 * (key.toNat / 2))) P) :
    Represents (replaceRight (node key left right) newRight) low high
      (fun y => (key.toNat % 2 = 1 ∧ y.toNat = 2 * (key.toNat / 2)) ∨ Contains left y ∨ P y) := by
  obtain ⟨nodeKey, lower, upper, wfLeft, _, children⟩ := wf
  have collapsed := collapse_either_represents False (newRight = null ∧ ¬ hasKey (node key left right)) rfl nodeKey lower upper
    wfLeft.represents inRight ⟨False.elim, fun ⟨even, empty⟩ => (children even).1 empty⟩
    (by rw [not_hasKey_iff, and_comm])
  rwa [if_neg id] at collapsed

end Replace

theorem erase_represents (wf : Wf t low high) :
    Represents (erase t x) low high (fun y => y ≠ x ∧ Contains t y) := by
  -- A key outside the block is not an element, and the tree is returned as it is.
  have absent {t : Ucset} {low high : Nat} (wf : Wf t low high)
      (missing : ¬ Contains t x) : Represents t low high (fun y => y ≠ x ∧ Contains t y) := by
    refine ⟨wf, fun y => ⟨fun mem => ⟨?_, mem⟩, And.right⟩⟩
    rintro rfl
    exact missing mem
  induction t generalizing low high with
  | null =>
    rw [erase]
    exact absent trivial id
  | leaf key bitset =>
    have leafKey := wf.1
    rw [erase]
    simp only [reduceCtorEq, dite_false, eq_nodeKey_iff, centre_leaf leafKey, wf.leaf_leaflike, if_true]
    split
    · next same =>
      exact ucleafErase_represents wf (by rw [same])
    · next ne =>
      split
      · next covers => exact ucleafErase_represents wf (leaf_block_of_covers wf covers).1
      · next uncovered =>
        refine absent wf fun mem => uncovered ?_
        rw [keyCovers_iff]
        change centre _ ≠ 0 ∧ (lo 64 (centre _) < _ ∨ _) ∧ lo 64 (centre _) ≤ _ ∧ _ < hi 64 (centre _)
        have block := wf.contains_block mem
        rw [centre_leaf leafKey] at block ⊢
        simp only [IsLeafKey] at leafKey
        omega
  | node key left right ihLeft ihRight =>
    have whole := wf
    obtain ⟨nodeKey, lower, upper, wfLeft, wfRight, children⟩ := wf
    rw [erase]
    simp only [reduceCtorEq, dite_false, eq_nodeKey_iff, centre_node, whole.node_not_leaflike,
      false_eq_true, if_false, lt_nodeKey_iff]
    split
    · next same =>
      split
      · next present =>
        have cleared := and_not_one_key key
        have centred : 2 * ((key &&& ~~~1).toNat / 2) = 2 * (key.toNat / 2) := by omega
        change Represents (if left = null then right else if right = null then left
          else ucnodeNew (key &&& ~~~1) left right) low high _
        refine (collapse_either_represents _ _ centred nodeKey lower upper wfLeft.represents
          wfRight.represents (by simp only [cleared.2, true_and]) (by simp only [cleared.2, true_and])).congr fun y => ?_
        have := whole.contains_left y
        have := whole.contains_right y
        have : y ≠ x ↔ ¬ y.toNat = 2 * (key.toNat / 2) := by rw [Ne, toNat_eq, same]
        grind
      · next missing =>
        refine absent whole fun mem => missing ?_
        rw [hasKey_iff]
        exact (whole.contains_centre same).mp mem
    · next ne =>
      split
      · next covers =>
        split
        · next less =>
          have above := whole.contains_right
          split
          · refine (replaceLeft_represents whole (ihLeft wfLeft)).congr fun y => ?_
            simp only [Contains]
            grind
          · next unchanged =>
            have erased := ihLeft wfLeft
            rw [show erase left x = left from not_not.mp unchanged] at erased
            refine whole.represents.congr fun y => ?_
            have := erased.contains y
            simp only [Contains]
            grind
        · next notLess =>
          have below := whole.contains_left
          split
          · refine (replaceRight_represents whole (ihRight wfRight)).congr fun y => ?_
            simp only [Contains]
            grind
          · next unchanged =>
            have erased := ihRight wfRight
            rw [show erase right x = right from not_not.mp unchanged] at erased
            refine whole.represents.congr fun y => ?_
            have := erased.contains y
            simp only [Contains]
            grind
      · next uncovered =>
        refine absent whole fun mem => uncovered ?_
        rw [keyCovers_iff]
        change centre _ ≠ 0 ∧ (lo 64 (centre _) < _ ∨ _) ∧ lo 64 (centre _) ≤ _ ∧ _ < hi 64 (centre _)
        have block := whole.contains_block mem
        rw [centre_node] at block ⊢
        exact ⟨nodeKey.2, block.2.2, block.1, block.2.1⟩

end Culibs.Cucon.Ucset
