import Culibs.Cucon.Ucset.Update

namespace Culibs.Cucon.Ucset

open Cu DyadicBlock Bool BitVec

variable {t0 t1 : Ucset} {low high : Nat}

theorem same_leaves (wf0 : Wf t0 low high) (wf1 : Wf t1 low high) (nonnull0 : t0 ≠ null)
    (nonnull1 : t1 ≠ null) (same : ucnodeKey t0 = ucnodeKey t1)
    (leaflike : keyIsLeaflike (ucnodeKey t0) = true) :
    ∃ key bitset0 bitset1, t0 = leaf key bitset0 ∧ t1 = leaf key bitset1 := by
  cases t0 with
  | null => exact absurd rfl nonnull0
  | node => exact absurd (wf0.node_not_leaflike) (by simp [leaflike])
  | leaf key bitset0 =>
    cases t1 with
    | null => exact absurd rfl nonnull1
    | node => exact absurd (wf1.node_not_leaflike) (by simp [← same, leaflike])
    | leaf key' bitset1 =>
      have sameKey : key = key' := by
        have := congrArg BitVec.toNat same
        change centre _ = centre _ at this
        rw [centre_leaf wf0.1, centre_leaf wf1.1] at this
        exact eq_of_toNat_eq this
      exact ⟨key, bitset0, bitset1, rfl, by rw [sameKey]⟩

theorem same_nodes (wf0 : Wf t0 low high) (wf1 : Wf t1 low high) (nonnull0 : t0 ≠ null)
    (nonnull1 : t1 ≠ null) (same : ucnodeKey t0 = ucnodeKey t1)
    (notLeaflike : ¬ keyIsLeaflike (ucnodeKey t0) = true) :
    ∃ key0 left0 right0 key1 left1 right1, t0 = node key0 left0 right0 ∧
      t1 = node key1 left1 right1 ∧ key0.toNat / 2 = key1.toNat / 2 ∧
      Wf left1 (lo 64 (2 * (key0.toNat / 2))) (2 * (key0.toNat / 2)) ∧
      Wf right1 (2 * (key0.toNat / 2)) (hi 64 (2 * (key0.toNat / 2))) := by
  cases t0 with
  | null => exact absurd rfl nonnull0
  | leaf => exact absurd wf0.leaf_leaflike notLeaflike
  | node key0 left0 right0 =>
    cases t1 with
    | null => exact absurd rfl nonnull1
    | leaf => exact absurd wf1.leaf_leaflike (by rw [← same]; exact notLeaflike)
    | node key1 left1 right1 =>
      have := congrArg BitVec.toNat same
      change centre _ = centre _ at this
      rw [centre_node, centre_node] at this
      have half : key0.toNat / 2 = key1.toNat / 2 := by omega
      exact ⟨key0, left0, right0, key1, left1, right1, rfl, rfl, half, half ▸ wf1.2.2.2.1, half ▸ wf1.2.2.2.2.1⟩

theorem Wf.centre_pos (wf : Wf t0 low high) (nonnull : t0 ≠ null) : 0 < t0.centre := by
  rcases (wf.block nonnull).1 with leaf | node
  · simp only [IsLeafKey] at leaf
    omega
  · exact pos_of_ne_zero node.2

variable {key x : Word} {left right : Ucset}

private theorem contains_left_half (wf : Wf (node key left right) low high)
    (below : Wf t0 (lo 64 (2 * (key.toNat / 2))) (2 * (key.toNat / 2))) (mem : Contains t0 x) :
    Contains left x ↔ Contains (node key left right) x := by
  rw [wf.contains_left]
  exact and_iff_left (below.contains_bounds mem).2.1

theorem contains_right_half (wf : Wf (node key left right) low high)
    (above : Wf t0 (2 * (key.toNat / 2)) (hi 64 (2 * (key.toNat / 2)))) (mem : Contains t0 x) :
    Contains right x ↔ Contains (node key left right) x := by
  have := above.contains_bounds mem
  have := wf.1.2
  rw [wf.contains_right]
  exact and_iff_left (by omega)

section

variable (wf0 : Wf t0 low high) (wf1 : Wf t1 low high) (nonnull0 : t0 ≠ null) (nonnull1 : t1 ≠ null)

include wf0 wf1 nonnull0 nonnull1

theorem keyCovers_roots_iff :
    keyCovers (ucnodeKey t1) (ucnodeKey t0) = true ↔ Covers 64 t1.centre t0.centre := by
  rw [keyCovers_iff, Covers, toNat_nodeKey, toNat_nodeKey]
  have := wf0.centre_pos nonnull0
  have := wf1.centre_pos nonnull1
  omega

theorem covered_by_node (ne : ¬ ucnodeKey t0 = ucnodeKey t1)
    (covers : keyCovers (ucnodeKey t1) (ucnodeKey t0) = true) :
    ∃ key left right, t1 = node key left right ∧
      (ucnodeKey t0 < ucnodeKey t1 → Wf t0 (lo 64 (2 * (key.toNat / 2))) (2 * (key.toNat / 2)) ∧
        ∀ x, Contains t0 x → (Contains left x ↔ Contains t1 x)) ∧
      (¬ ucnodeKey t0 < ucnodeKey t1 → Wf t0 (2 * (key.toNat / 2)) (hi 64 (2 * (key.toNat / 2))) ∧
        ∀ x, Contains t0 x → (Contains right x ↔ Contains t1 x)) := by
  rw [keyCovers_roots_iff wf0 wf1 nonnull0 nonnull1] at covers
  have ne : t1.centre ≠ t0.centre := fun same =>
    ne (eq_of_toNat_eq same.symm)
  have trie := (wf0.block nonnull0).1
  have nodeKey := nodeKey_of_covers (centre_lt t1) (centre_lt t0)
    (ne_of_gt (wf1.centre_pos nonnull1)) trie ne covers
  cases t1 with
  | null => exact absurd rfl nonnull1
  | leaf key bitset =>
    have leafKey := wf1.1
    rw [centre_leaf leafKey] at nodeKey
    simp only [IsLeafKey, IsNodeKey] at leafKey nodeKey
    omega
  | node key left right =>
    refine ⟨key, left, right, rfl, ?_, ?_⟩
    · intro less
      have half := covers.left (centre_lt _) (centre_lt _) less
      rw [centre_node] at half
      have below := (wf0.own_block nonnull0).mono half.1 half.2
      exact ⟨below, fun x => contains_left_half wf1 below⟩
    · intro notLess
      rw [lt_nodeKey_iff] at notLess
      change ¬ centre t0 < _ at notLess
      have half := covers.right (centre_lt _) (centre_lt _) (by omega)
      rw [centre_node] at half
      have above := (wf0.own_block nonnull0).mono half.1 half.2
      exact ⟨above, fun x => contains_right_half wf1 above⟩

theorem roots_apart (uncovered0 : ¬ keyCovers (ucnodeKey t1) (ucnodeKey t0) = true)
    (uncovered1 : ¬ keyCovers (ucnodeKey t0) (ucnodeKey t1) = true) (less : t0.centre < t1.centre) :
    hi 64 t0.centre ≤ lo 64 t1.centre := by
  rw [keyCovers_roots_iff wf0 wf1 nonnull0 nonnull1] at uncovered0
  rw [keyCovers_roots_iff wf1 wf0 nonnull1 nonnull0] at uncovered1
  exact disjoint_of_not_covers (centre_lt t0) (centre_lt t1) less uncovered1 uncovered0

theorem disjoint_elements (ne : ¬ ucnodeKey t0 = ucnodeKey t1)
    (uncovered0 : ¬ keyCovers (ucnodeKey t1) (ucnodeKey t0) = true)
    (uncovered1 : ¬ keyCovers (ucnodeKey t0) (ucnodeKey t1) = true) (member0 : Contains t0 x)
    (member1 : Contains t1 x) : False := by
  have block0 := wf0.contains_block member0
  have block1 := wf1.contains_block member1
  have ne : t0.centre ≠ t1.centre := fun same => ne (eq_of_toNat_eq same)
  rcases lt_or_gt_of_ne ne with less | more
  · have := roots_apart wf0 wf1 nonnull0 nonnull1 uncovered0 uncovered1 less
    omega
  · have := roots_apart wf1 wf0 nonnull1 nonnull0 uncovered1 uncovered0 more
    omega

end

variable {key : Word} {bitset0 bitset1 : Bitset}

private theorem ucleafUnion_represents (wf0 : Wf (leaf key bitset0) low high) (wf1 : Wf (leaf key bitset1) low high) :
    Represents (ucleafUnion (leaf key bitset0) (leaf key bitset1)) low high
      (fun y => Contains (leaf key bitset0) y ∨ Contains (leaf key bitset1) y) := by
  obtain ⟨leafKey, lower, upper, ⟨i, bound, set⟩, first0⟩ := wf0
  obtain ⟨_, _, _, _, first1⟩ := wf1
  refine ⟨⟨leafKey, lower, upper, ⟨i, bound, ?_⟩, ?_⟩, fun y => ?_⟩
  · simp [Ucset.bitset, set]
  · simp only [Ucset.bitset, bit_or, or_eq_true]
    exact fun either => either.elim first0 first1
  · simp only [ucleafUnion, Ucset.bitset, rawKey, Contains, bit_or, or_eq_true, and_or_left]

theorem ucleafIsecn_represents (wf0 : Wf (leaf key bitset0) low high) :
    Represents (ucleafIsecn (leaf key bitset0) (leaf key bitset1)) low high
      (fun y => Contains (leaf key bitset0) y ∧ Contains (leaf key bitset1) y) := by
  refine (leaf_or_null_represents wf0 fun i set => ?_).congr fun y => ?_
  · rw [bit_and, and_eq_true] at set
    exact set.1
  · simp only [Contains, bit_and, and_eq_true]
    constructor
    · rintro ⟨same, set0, set1⟩
      exact ⟨⟨same, set0⟩, same, set1⟩
    · rintro ⟨⟨same, set0⟩, _, set1⟩
      exact ⟨same, set0, set1⟩

private theorem ucleafMinus_represents (wf0 : Wf (leaf key bitset0) low high) :
    Represents (ucleafMinus (leaf key bitset0) (leaf key bitset1)) low high
      (fun y => Contains (leaf key bitset0) y ∧ ¬ Contains (leaf key bitset1) y) := by
  refine (leaf_or_null_represents wf0 fun i set => ?_).congr fun y => ?_
  · rw [bit_and_not, and_eq_true] at set
    exact set.1
  · simp only [Contains, bit_and_not, and_eq_true, not_eq_true']
    constructor
    · rintro ⟨same, set, clear⟩
      exact ⟨⟨same, set⟩, fun both => false_ne_true (clear.symm.trans both.2)⟩
    · rintro ⟨⟨same, set⟩, missing⟩
      exact ⟨same, set, eq_false_iff.mpr fun set1 => missing ⟨same, set1⟩⟩

theorem contains_node_iff (wf : Wf (node key left right) low high) (y : Word) :
    Contains (node key left right) y ↔
      (key.toNat % 2 = 1 ∧ y.toNat = 2 * (key.toNat / 2)) ∨
        (Contains left y ∧ y.toNat < 2 * (key.toNat / 2)) ∨
          (Contains right y ∧ 2 * (key.toNat / 2) < y.toNat) := by
  have inLeft := wf.contains_left y
  have inRight := wf.contains_right y
  simp only [Contains] at *
  grind

theorem union_represents (region : Region low high) (wf0 : Wf t0 low high)
    (wf1 : Wf t1 low high) :
    Represents (union t0 t1) low high (fun y => Contains t0 y ∨ Contains t1 y) := by
  fun_induction union t0 t1 generalizing low high with
  | case1 t1 =>
    simpa [Contains] using wf1.represents
  | case2 t0 nonnull =>
    simpa [Contains] using wf0.represents
  | case3 t0 t1 nonnull0 nonnull1 =>
    rename_i same leaflike
    obtain ⟨key, bitset0, bitset1, rfl, rfl⟩ := same_leaves wf0 wf1 nonnull0 nonnull1 same leaflike
    exact ucleafUnion_represents wf0 wf1
  | case4 t0 t1 nonnull0 nonnull1 =>
    rename_i same notLeaflike _ _ ihLeft ihRight
    obtain ⟨key0, left0, right0, key1, left1, right1, rfl, rfl, half, wfLeft1, wfRight1⟩ :=
      same_nodes wf0 wf1 nonnull0 nonnull1 same notLeaflike
    obtain ⟨nodeKey, lower, upper, wfLeft0, wfRight0, children0⟩ := wf0
    have below : 2 * (key0.toNat / 2) < 2 ^ 64 := by have := key0.isLt; omega
    have joined := or_key half
    have inLeft := ihLeft (Region.leftHalf nodeKey below) wfLeft0 wfLeft1
    have inRight := ihRight (Region.rightHalf nodeKey below) wfRight0 wfRight1
    refine (node_represents (congrArg (2 * ·) joined.1) nodeKey lower upper inLeft inRight
      fun even => ?_).congr fun y => ?_
    · have odd := joined.2
      obtain ⟨x, mem⟩ := wfLeft0.exists_contains (children0 (by omega)).1
      obtain ⟨z, member'⟩ := wfRight0.exists_contains (children0 (by omega)).2
      exact ⟨inLeft.ne_null (.inl mem), inRight.ne_null (.inl member')⟩
    · simp only [Contains, left_node, right_node, joined.2, half]
      grind
  | case5 t0 t1 nonnull0 nonnull1 =>
    rename_i ne covers less _ ih
    obtain ⟨key, left, right, rfl, inLeft, _⟩ :=
      covered_by_node wf0 wf1 nonnull0 nonnull1 ne covers
    obtain ⟨nodeKey, lower, upper, wfLeft, wfRight, children⟩ := wf1
    have below : 2 * (key.toNat / 2) < 2 ^ 64 := by have := key.isLt; omega
    have united := ih (Region.leftHalf nodeKey below) (inLeft less).1 wfLeft
    obtain ⟨x, mem⟩ := wf0.exists_contains nonnull0
    refine (node_represents rfl nodeKey lower upper united wfRight.represents fun even =>
      ⟨united.ne_null (.inl mem), (children even).2⟩).congr fun y => ?_
    simp only [Contains, left_node]
    grind
  | case6 t0 t1 nonnull0 nonnull1 =>
    rename_i ne covers notLess _ ih
    obtain ⟨key, left, right, rfl, _, inRight⟩ :=
      covered_by_node wf0 wf1 nonnull0 nonnull1 ne covers
    obtain ⟨nodeKey, lower, upper, wfLeft, wfRight, children⟩ := wf1
    have below : 2 * (key.toNat / 2) < 2 ^ 64 := by have := key.isLt; omega
    have united := ih (Region.rightHalf nodeKey below) (inRight notLess).1 wfRight
    obtain ⟨x, mem⟩ := wf0.exists_contains nonnull0
    refine (node_represents rfl nodeKey lower upper wfLeft.represents united fun even =>
      ⟨(children even).1, united.ne_null (.inl mem)⟩).congr fun y => ?_
    simp only [Contains, right_node]
    grind
  | case7 t0 t1 nonnull0 nonnull1 =>
    rename_i ne uncovered covers ih
    exact (ih region wf1 wf0).congr fun y => or_comm
  | case8 t0 t1 nonnull0 nonnull1 =>
    rename_i ne uncovered0 uncovered1 _ _ less
    have apart := roots_apart wf0 wf1 nonnull0 nonnull1 uncovered0 uncovered1
      ((lt_nodeKey_iff t1 _).mp less)
    exact join_represents region wf0 wf1 nonnull0 nonnull1 ⟨lo_le _ _, lt_hi _ _⟩
      ⟨lo_le _ _, lt_hi _ _⟩ apart (.inl rfl)
  | case9 t0 t1 nonnull0 nonnull1 =>
    rename_i ne uncovered0 uncovered1 _ _ notLess
    have ne : t0.centre ≠ t1.centre := fun same => ne (eq_of_toNat_eq same)
    have notLess : ¬ t0.centre < t1.centre := notLess
    have apart := roots_apart wf1 wf0 nonnull1 nonnull0 uncovered1 uncovered0 (by omega)
    change Represents (ucnodeNew ((ucnodeKey t0 &&& ~~~(uintptrDcover (ucnodeKey t0 ^^^ ucnodeKey t1)))
      ||| ((uintptrDcover (ucnodeKey t0 ^^^ ucnodeKey t1) >>> 1) + 1)) t1 t0) low high _
    rw [BitVec.xor_comm (ucnodeKey t0)]
    exact (join_represents region wf1 wf0 nonnull1 nonnull0 ⟨lo_le _ _, lt_hi _ _⟩
      ⟨lo_le _ _, lt_hi _ _⟩ apart (.inr rfl)).congr fun y => or_comm

theorem isecn_represents (wf0 : Wf t0 low high) (wf1 : Wf t1 low high) :
    Represents (isecn t0 t1) low high (fun y => Contains t0 y ∧ Contains t1 y) := by
  fun_induction isecn t0 t1 generalizing low high with
  | case1 t0 t1 empty =>
    refine ⟨trivial, fun y => ⟨False.elim, ?_⟩⟩
    rintro ⟨member0, member1⟩
    rcases empty with rfl | rfl
    · exact member0
    · exact member1
  | case2 t0 t1 nonnull =>
    rename_i same leaflike
    obtain ⟨nonnull0, nonnull1⟩ := not_or.mp nonnull
    obtain ⟨key, bitset0, bitset1, rfl, rfl⟩ := same_leaves wf0 wf1 nonnull0 nonnull1 same leaflike
    exact ucleafIsecn_represents wf0
  | case3 t0 t1 nonnull =>
    rename_i same notLeaflike _ _ _ ihLeft ihRight
    obtain ⟨nonnull0, nonnull1⟩ := not_or.mp nonnull
    obtain ⟨key0, left0, right0, key1, left1, right1, rfl, rfl, half, wfLeft1, wfRight1⟩ :=
      same_nodes wf0 wf1 nonnull0 nonnull1 same notLeaflike
    have elements0 := contains_node_iff wf0
    have elements1 := contains_node_iff wf1
    obtain ⟨nodeKey, lower, upper, wfLeft0, wfRight0, _⟩ := wf0
    have joined := and_key half
    refine (collapse_represents (congrArg (2 * ·) joined.1) nodeKey lower upper
      (ihLeft wfLeft0 wfLeft1) (ihRight wfRight0 wfRight1)).congr fun y => ?_
    have := wfLeft0.contains_bounds (x := y)
    have := wfRight0.contains_bounds (x := y)
    have := nodeKey.2
    simp only [elements0, elements1, left_node, right_node, joined.2]
    grind
  | case4 t0 t1 nonnull =>
    rename_i ne covers less ih
    obtain ⟨nonnull0, nonnull1⟩ := not_or.mp nonnull
    obtain ⟨key, left, right, rfl, inLeft, _⟩ :=
      covered_by_node wf0 wf1 nonnull0 nonnull1 ne covers
    obtain ⟨below, agree⟩ := inLeft less
    obtain ⟨_, lower, upper, wfLeft, _, _⟩ := wf1
    exact ((ih below wfLeft).mono lower ((le_of_lt (lt_hi _ _)).trans upper)).congr fun y => and_congr_right (agree y)
  | case5 t0 t1 nonnull =>
    rename_i ne covers notLess ih
    obtain ⟨nonnull0, nonnull1⟩ := not_or.mp nonnull
    obtain ⟨key, left, right, rfl, _, inRight⟩ :=
      covered_by_node wf0 wf1 nonnull0 nonnull1 ne covers
    obtain ⟨above, agree⟩ := inRight notLess
    obtain ⟨_, lower, upper, _, wfRight, _⟩ := wf1
    exact ((ih above wfRight).mono (lower.trans (lo_le _ _)) upper).congr fun y => and_congr_right (agree y)
  | case6 t0 t1 nonnull =>
    rename_i ih
    exact (ih wf1 wf0).congr fun y => and_comm
  | case7 t0 t1 nonnull =>
    rename_i ne uncovered0 uncovered1
    obtain ⟨nonnull0, nonnull1⟩ := not_or.mp nonnull
    exact ⟨trivial, fun y => ⟨False.elim, fun ⟨member0, member1⟩ =>
      disjoint_elements wf0 wf1 nonnull0 nonnull1 ne uncovered0 uncovered1 member0 member1⟩⟩

theorem compl_represents (wf0 : Wf t0 low high) (wf1 : Wf t1 low high) :
    Represents (compl t0 t1) low high (fun y => Contains t0 y ∧ ¬ Contains t1 y) := by
  fun_induction compl t0 t1 generalizing low high with
  | case1 t1 => exact ⟨trivial, fun y => by simp [Contains]⟩
  | case2 t0 nonnull => exact wf0.represents.congr fun y => by simp [Contains]
  | case3 t0 t1 nonnull0 nonnull1 =>
    rename_i same leaflike
    obtain ⟨key, bitset0, bitset1, rfl, rfl⟩ := same_leaves wf0 wf1 nonnull0 nonnull1 same leaflike
    exact ucleafMinus_represents wf0
  | case4 t0 t1 nonnull0 nonnull1 =>
    rename_i same notLeaflike _ _ _ ihLeft ihRight
    obtain ⟨key0, left0, right0, key1, left1, right1, rfl, rfl, half, wfLeft1, wfRight1⟩ :=
      same_nodes wf0 wf1 nonnull0 nonnull1 same notLeaflike
    have elements0 := contains_node_iff wf0
    have elements1 := contains_node_iff wf1
    obtain ⟨nodeKey, lower, upper, wfLeft0, wfRight0, _⟩ := wf0
    have joined := and_not_bit_key key0 key1
    refine (collapse_represents (congrArg (2 * ·) joined.1) nodeKey lower upper
      (ihLeft wfLeft0 wfLeft1) (ihRight wfRight0 wfRight1)).congr fun y => ?_
    have := wfLeft0.contains_bounds (x := y)
    have := wfRight0.contains_bounds (x := y)
    have := nodeKey.2
    simp only [elements0, elements1, left_node, right_node, joined.2]
    grind
  | case5 t0 t1 nonnull0 nonnull1 =>
    rename_i ne covers less ih
    obtain ⟨key, left, right, rfl, inLeft, _⟩ :=
      covered_by_node wf1 wf0 nonnull1 nonnull0 (fun same => ne same.symm) covers
    have below := (inLeft less).1
    have := wf0.contains_right
    refine (replaceLeft_represents wf0 (ih wf0.2.2.2.1 below)).congr fun y => ?_
    have := below.contains_bounds (x := y)
    simp only [Contains, left_node] at *
    grind
  | case6 t0 t1 nonnull0 nonnull1 =>
    rename_i ne covers notLess ih
    obtain ⟨key, left, right, rfl, _, inRight⟩ :=
      covered_by_node wf1 wf0 nonnull1 nonnull0 (fun same => ne same.symm) covers
    have above := (inRight notLess).1
    have := wf0.contains_left
    have := wf0.1.2
    refine (replaceRight_represents wf0 (ih wf0.2.2.2.2.1 above)).congr fun y => ?_
    have := above.contains_bounds (x := y)
    simp only [Contains, right_node] at *
    grind
  | case7 t0 t1 nonnull0 nonnull1 =>
    rename_i ne _ covers less ih
    obtain ⟨key, left, right, rfl, inLeft, _⟩ :=
      covered_by_node wf0 wf1 nonnull0 nonnull1 ne covers
    obtain ⟨below, agree⟩ := inLeft less
    obtain ⟨_, lower, upper, wfLeft, _, _⟩ := wf1
    exact ((ih below wfLeft).mono lower ((le_of_lt (lt_hi _ _)).trans upper)).congr fun y =>
      and_congr_right fun mem => not_congr (agree y mem)
  | case8 t0 t1 nonnull0 nonnull1 =>
    rename_i ne _ covers notLess ih
    obtain ⟨key, left, right, rfl, _, inRight⟩ :=
      covered_by_node wf0 wf1 nonnull0 nonnull1 ne covers
    obtain ⟨above, agree⟩ := inRight notLess
    obtain ⟨_, lower, upper, _, wfRight, _⟩ := wf1
    exact ((ih above wfRight).mono (lower.trans (lo_le _ _)) upper).congr fun y =>
      and_congr_right fun mem => not_congr (agree y mem)
  | case9 t0 t1 nonnull0 nonnull1 =>
    rename_i ne uncovered1 uncovered0
    refine wf0.represents.congr fun y => ⟨fun member0 => ⟨member0, fun member1 => ?_⟩, And.left⟩
    exact disjoint_elements wf0 wf1 nonnull0 nonnull1 ne uncovered0 uncovered1 member0 member1

end Culibs.Cucon.Ucset
