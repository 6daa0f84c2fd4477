import Culibs.Cucon.Ucset.Algebra

namespace Culibs.Cucon.Ucset

open Bool

def ucleafSubeq (lhs rhs : Ucset) : Bool := ∀ k, lhs.bitset k &&& ~~~(rhs.bitset k) = 0

/-- `cucon_ucset_subeq`, with its loop as a call for the last subtrees. -/
def subeq (lhs rhs : Ucset) : Bool :=
  if lhs = rhs then true
  else if _nonnull0 : lhs = null then true
  else if _nonnull1 : rhs = null then false
  else
    let lhsKey := ucnodeKey lhs
    let rhsKey := ucnodeKey rhs
    if lhsKey = rhsKey then
      if keyIsLeaflike lhsKey then ucleafSubeq lhs rhs
      else if lhs.rawKey &&& 1 > rhs.rawKey &&& 1 then false
      else if !subeq lhs.left rhs.left then false
      else subeq lhs.right rhs.right
    else if keyCovers rhsKey lhsKey then
      if lhsKey < rhsKey then subeq lhs rhs.left else subeq lhs rhs.right
    else false
termination_by lhs.size + rhs.size
decreasing_by
  all_goals
    have := size_left_lt _nonnull0
    have := size_right_lt _nonnull0
    have := size_left_lt _nonnull1
    have := size_right_lt _nonnull1
    omega

def disjoint (lhs rhs : Ucset) : Bool :=
  if _nonnull : lhs = null ∨ rhs = null then true
  else if lhs = rhs then false
  else
    let lhsKey := ucnodeKey lhs
    let rhsKey := ucnodeKey rhs
    if lhsKey = rhsKey then
      if keyIsLeaflike lhsKey then decide (∀ i, lhs.bitset i &&& rhs.bitset i = 0)
      else if lhs.rawKey &&& rhs.rawKey &&& 1 ≠ 0 then false
      else if !disjoint lhs.left rhs.left then false
      else disjoint lhs.right rhs.right
    else if keyCovers rhsKey lhsKey then
      if lhsKey < rhsKey then disjoint lhs rhs.left else disjoint lhs rhs.right
    else if keyCovers lhsKey rhsKey then
      if rhsKey < lhsKey then disjoint lhs.left rhs else disjoint lhs.right rhs
    else true
termination_by lhs.size + rhs.size
decreasing_by
  all_goals
    obtain ⟨_nonnull0, _nonnull1⟩ := not_or.mp _nonnull
    have := size_left_lt _nonnull0
    have := size_right_lt _nonnull0
    have := size_left_lt _nonnull1
    have := size_right_lt _nonnull1
    omega

variable {t0 t1 : Ucset} {low high : Nat}

theorem zero_iff (bitset : Bitset) : (∀ i, bitset i = 0) ↔ ∀ i, bit bitset i = false := by
  have nonzero := nonzero_iff bitset
  constructor
  · intro zero i
    rw [show bitset = fun _ => 0 from funext zero]
    exact bit_zero i
  · intro clear i
    by_contra set
    obtain ⟨j, _, isSet⟩ := nonzero.mp ⟨i, set⟩
    exact false_ne_true ((clear j).symm.trans isSet)

theorem leaf_word (key : Word) (i : Nat) : ∃ x : Word, x.toNat / 128 = key.toNat / 128 ∧ x.toNat % 128 = i % 128 := by
  refine ⟨BitVec.ofNat 64 (128 * (key.toNat / 128) + i % 128), ?_⟩
  rw [BitVec.toNat_ofNat]
  omega

variable {key x : Word}

theorem contains_leaf {bitset : Bitset} (block : x.toNat / 128 = key.toNat / 128)
    (position : x.toNat % 128 = i % 128) : Contains (leaf key bitset) x ↔ bit bitset i = true := by
  rw [Contains, ← bit_mod bitset x.toNat, position, bit_mod]
  exact and_iff_right block

theorem ucleafSubeq_iff :
    ucleafSubeq (leaf key bitset0) (leaf key bitset1) = true ↔
      ∀ x, Contains (leaf key bitset0) x → Contains (leaf key bitset1) x := by
  rw [ucleafSubeq, decide_eq_true_iff]
  refine (zero_iff fun k => bitset0 k &&& ~~~(bitset1 k)).trans ?_
  simp only [bit_and_not, and_eq_false_iff, not_eq_false']
  constructor
  · rintro subset x ⟨block, set⟩
    exact ⟨block, (subset x.toNat).resolve_left (by simp [set])⟩
  · intro subset i
    obtain ⟨x, block, position⟩ := leaf_word key i
    have := subset x
    rw [contains_leaf block position, contains_leaf block position] at this
    cases set : bit bitset0 i with
    | false => exact .inl rfl
    | true => exact .inr (this set)

private theorem disjoint_leaves :
    (∀ i, bitset0 i &&& bitset1 i = 0) ↔
      ∀ x, ¬(Contains (leaf key bitset0) x ∧ Contains (leaf key bitset1) x) := by
  refine (zero_iff fun k => bitset0 k &&& bitset1 k).trans ?_
  simp only [bit_and]
  constructor
  · rintro apart x ⟨⟨_, set0⟩, _, set1⟩
    have := apart x.toNat
    simp [set0, set1] at this
  · intro apart i
    obtain ⟨x, block, position⟩ := leaf_word key i
    have := apart x
    rw [contains_leaf block position, contains_leaf block position] at this
    rwa [← not_eq_true, and_eq_true]

/-- A tree is not included in one whose root does not cover its own. -/
theorem not_subset_of_uncovered (wf0 : Wf t0 low high) (wf1 : Wf t1 low high) (nonnull0 : t0 ≠ null)
    (nonnull1 : t1 ≠ null) (ne : ¬ ucnodeKey t0 = ucnodeKey t1)
    (uncovered : ¬ keyCovers (ucnodeKey t1) (ucnodeKey t0) = true) : ¬ ∀ x, Contains t0 x → Contains t1 x := by
  intro subset
  by_cases covers : keyCovers (ucnodeKey t0) (ucnodeKey t1) = true
  · obtain ⟨key, left, right, rfl, inLeft, inRight⟩ :=
      covered_by_node wf1 wf0 nonnull1 nonnull0 (fun same => ne same.symm) covers
    obtain ⟨x, y, memberX, memberY, below, above⟩ := wf0.straddles
    have nonzero := wf0.1.2
    by_cases less : ucnodeKey t1 < ucnodeKey (node key left right)
    · have := (inLeft less).1.contains_bounds (subset y memberY)
      omega
    · have := (inRight less).1.contains_bounds (subset x memberX)
      omega
  · obtain ⟨x, mem⟩ := wf0.exists_contains nonnull0
    exact disjoint_elements wf0 wf1 nonnull0 nonnull1 ne uncovered covers mem (subset x mem)

private theorem toNat_presence (key : Word) : (key &&& 1).toNat = key.toNat % 2 := by
  exact Nat.and_one_is_mod _

section Nodes

variable {key0 key1 : Word} {left0 right0 left1 right1 : Ucset}

private theorem subset_nodes (wf0 : Wf (node key0 left0 right0) low high) (wf1 : Wf (node key1 left1 right1) low high)
    (half : key0.toNat / 2 = key1.toNat / 2) :
    (∀ x, Contains (node key0 left0 right0) x → Contains (node key1 left1 right1) x) ↔
      (key0.toNat % 2 = 1 → key1.toNat % 2 = 1) ∧ (∀ x, Contains left0 x → Contains left1 x) ∧
        ∀ x, Contains right0 x → Contains right1 x := by
  have centred0 : (key0 &&& ~~~1).toNat = 2 * (key0.toNat / 2) := toNat_clear_one key0
  constructor
  · intro subset
    refine ⟨fun odd => ?_, fun x mem => ?_, fun x mem => ?_⟩
    · have mem := subset _ ((wf0.contains_centre centred0).mpr odd)
      exact (wf1.contains_centre (by rw [centred0, half])).mp mem
    · obtain ⟨whole, below⟩ := (wf0.contains_left x).mp mem
      exact (wf1.contains_left x).mpr ⟨subset x whole, by rwa [← half]⟩
    · obtain ⟨whole, above⟩ := (wf0.contains_right x).mp mem
      exact (wf1.contains_right x).mpr ⟨subset x whole, by rwa [← half]⟩
  · rintro ⟨centre, inLeft, inRight⟩ x (⟨odd, same⟩ | mem | mem)
    · exact .inl ⟨centre odd, by rw [same, half]⟩
    · exact .inr (.inl (inLeft x mem))
    · exact .inr (.inr (inRight x mem))

theorem disjoint_nodes (wf0 : Wf (node key0 left0 right0) low high) (wf1 : Wf (node key1 left1 right1) low high)
    (half : key0.toNat / 2 = key1.toNat / 2) :
    (∀ x, ¬(Contains (node key0 left0 right0) x ∧ Contains (node key1 left1 right1) x)) ↔
      ¬(key0.toNat % 2 = 1 ∧ key1.toNat % 2 = 1) ∧ (∀ x, ¬(Contains left0 x ∧ Contains left1 x)) ∧
        ∀ x, ¬(Contains right0 x ∧ Contains right1 x) := by
  have centred0 : (key0 &&& ~~~1).toNat = 2 * (key0.toNat / 2) := toNat_clear_one key0
  constructor
  · intro apart
    refine ⟨fun odd => apart (key0 &&& ~~~1) ⟨?_, ?_⟩, fun x both => apart x ⟨.inr (.inl both.1), .inr (.inl both.2)⟩,
      fun x both => apart x ⟨.inr (.inr both.1), .inr (.inr both.2)⟩⟩
    · exact (wf0.contains_centre centred0).mpr odd.1
    · exact (wf1.contains_centre (by rw [centred0, half])).mpr odd.2
  · rintro ⟨centre, inLeft, inRight⟩ x ⟨member0, member1⟩
    rcases lt_trichotomy x.toNat (2 * (key0.toNat / 2)) with less | same | more
    · exact inLeft x ⟨(wf0.contains_left x).mpr ⟨member0, less⟩, (wf1.contains_left x).mpr ⟨member1, by rwa [← half]⟩⟩
    · exact centre ⟨(wf0.contains_centre same).mp member0, (wf1.contains_centre (by rw [same, half])).mp member1⟩
    · exact inRight x ⟨(wf0.contains_right x).mpr ⟨member0, more⟩, (wf1.contains_right x).mpr ⟨member1, by rwa [← half]⟩⟩

end Nodes

theorem subeq_iff (wf0 : Wf t0 low high) (wf1 : Wf t1 low high) :
    subeq t0 t1 = true ↔ ∀ x, Contains t0 x → Contains t1 x := by
  fun_induction subeq t0 t1 generalizing low high with
  | case1 t1 => simp
  | case2 t1 => simp [Contains]
  | case3 t0 ne nonnull =>
    obtain ⟨x, mem⟩ := wf0.exists_contains nonnull
    simp only [false_eq_true, false_iff]
    exact fun subset => subset x mem
  | case4 t0 t1 ne nonnull0 nonnull1 =>
    rename_i same leaflike
    obtain ⟨key, bitset0, bitset1, rfl, rfl⟩ := same_leaves wf0 wf1 nonnull0 nonnull1 same leaflike
    exact ucleafSubeq_iff
  | case5 t0 t1 ne nonnull0 nonnull1 =>
    rename_i same notLeaflike present
    obtain ⟨key0, left0, right0, key1, left1, right1, rfl, rfl, half, wfLeft1, wfRight1⟩ :=
      same_nodes wf0 wf1 nonnull0 nonnull1 same notLeaflike
    rw [gt_iff_lt, BitVec.lt_def, rawKey_node, rawKey_node, toNat_presence, toNat_presence] at present
    simp only [false_eq_true, false_iff, subset_nodes wf0 wf1 half]
    omega
  | case6 t0 t1 ne nonnull0 nonnull1 =>
    rename_i same notLeaflike absent notSubset ih
    obtain ⟨key0, left0, right0, key1, left1, right1, rfl, rfl, half, wfLeft1, wfRight1⟩ :=
      same_nodes wf0 wf1 nonnull0 nonnull1 same notLeaflike
    have inLeft : subeq left0 left1 = true ↔ ∀ x, Contains left0 x → Contains left1 x := ih wf0.2.2.2.1 wfLeft1
    rw [left_node, left_node, not_eq_true', ← not_eq_true, inLeft] at notSubset
    simp only [false_eq_true, false_iff, subset_nodes wf0 wf1 half]
    exact fun parts => notSubset parts.2.1
  | case7 t0 t1 ne nonnull0 nonnull1 =>
    rename_i same notLeaflike absent subset ihLeft ihRight
    obtain ⟨key0, left0, right0, key1, left1, right1, rfl, rfl, half, wfLeft1, wfRight1⟩ :=
      same_nodes wf0 wf1 nonnull0 nonnull1 same notLeaflike
    have inLeft : subeq left0 left1 = true ↔ ∀ x, Contains left0 x → Contains left1 x :=
      ihLeft wf0.2.2.2.1 wfLeft1
    have inRight : subeq right0 right1 = true ↔ ∀ x, Contains right0 x → Contains right1 x :=
      ihRight wf0.2.2.2.2.1 wfRight1
    rw [left_node, left_node, not_eq_true', not_eq_false, inLeft] at subset
    rw [gt_iff_lt, BitVec.lt_def, rawKey_node, rawKey_node, toNat_presence, toNat_presence] at absent
    rw [right_node, right_node, inRight, subset_nodes wf0 wf1 half]
    exact ⟨fun right => ⟨by omega, subset, right⟩, fun parts => parts.2.2⟩
  | case8 t0 t1 ne nonnull0 nonnull1 =>
    rename_i other covers less ih
    obtain ⟨key, left, right, rfl, inLeft, _⟩ := covered_by_node wf0 wf1 nonnull0 nonnull1 other covers
    obtain ⟨below, agree⟩ := inLeft less
    exact (ih below wf1.2.2.2.1).trans (forall_congr' fun x => imp_congr_right (agree x))
  | case9 t0 t1 ne nonnull0 nonnull1 =>
    rename_i other covers notLess ih
    obtain ⟨key, left, right, rfl, _, inRight⟩ := covered_by_node wf0 wf1 nonnull0 nonnull1 other covers
    obtain ⟨above, agree⟩ := inRight notLess
    exact (ih above wf1.2.2.2.2.1).trans (forall_congr' fun x => imp_congr_right (agree x))
  | case10 t0 t1 ne nonnull0 nonnull1 =>
    rename_i other uncovered
    simp only [false_eq_true, false_iff]
    exact not_subset_of_uncovered wf0 wf1 nonnull0 nonnull1 other uncovered

theorem disjoint_iff (wf0 : Wf t0 low high) (wf1 : Wf t1 low high) :
    disjoint t0 t1 = true ↔ ∀ x, ¬(Contains t0 x ∧ Contains t1 x) := by
  fun_induction disjoint t0 t1 generalizing low high with
  | case1 t0 t1 empty =>
    simp only [true_iff]
    rintro x ⟨member0, member1⟩
    rcases empty with rfl | rfl
    · exact member0
    · exact member1
  | case2 t1 nonnull =>
    obtain ⟨x, mem⟩ := wf0.exists_contains (not_or.mp nonnull).1
    simp only [false_eq_true, false_iff]
    exact fun apart => apart x ⟨mem, mem⟩
  | case3 t0 t1 nonnull ne =>
    rename_i same leaflike
    obtain ⟨nonnull0, nonnull1⟩ := not_or.mp nonnull
    obtain ⟨key, bitset0, bitset1, rfl, rfl⟩ := same_leaves wf0 wf1 nonnull0 nonnull1 same leaflike
    rw [decide_eq_true_iff]
    exact disjoint_leaves
  | case4 t0 t1 nonnull ne =>
    rename_i same notLeaflike present
    obtain ⟨nonnull0, nonnull1⟩ := not_or.mp nonnull
    obtain ⟨key0, left0, right0, key1, left1, right1, rfl, rfl, half, wfLeft1, wfRight1⟩ :=
      same_nodes wf0 wf1 nonnull0 nonnull1 same notLeaflike
    have joined := and_key half
    rw [rawKey_node, rawKey_node, Ne, and_one_eq_zero_iff] at present
    simp only [false_eq_true, false_iff, disjoint_nodes wf0 wf1 half]
    omega
  | case5 t0 t1 nonnull ne =>
    rename_i same notLeaflike absent meeting ih
    obtain ⟨nonnull0, nonnull1⟩ := not_or.mp nonnull
    obtain ⟨key0, left0, right0, key1, left1, right1, rfl, rfl, half, wfLeft1, wfRight1⟩ :=
      same_nodes wf0 wf1 nonnull0 nonnull1 same notLeaflike
    have inLeft : disjoint left0 left1 = true ↔ ∀ x, ¬(Contains left0 x ∧ Contains left1 x) :=
      ih wf0.2.2.2.1 wfLeft1
    rw [left_node, left_node, not_eq_true', ← not_eq_true, inLeft] at meeting
    simp only [false_eq_true, false_iff, disjoint_nodes wf0 wf1 half]
    exact fun parts => meeting parts.2.1
  | case6 t0 t1 nonnull ne =>
    rename_i same notLeaflike absent apart ihLeft ihRight
    obtain ⟨nonnull0, nonnull1⟩ := not_or.mp nonnull
    obtain ⟨key0, left0, right0, key1, left1, right1, rfl, rfl, half, wfLeft1, wfRight1⟩ :=
      same_nodes wf0 wf1 nonnull0 nonnull1 same notLeaflike
    have inLeft : disjoint left0 left1 = true ↔ ∀ x, ¬(Contains left0 x ∧ Contains left1 x) :=
      ihLeft wf0.2.2.2.1 wfLeft1
    have inRight : disjoint right0 right1 = true ↔ ∀ x, ¬(Contains right0 x ∧ Contains right1 x) :=
      ihRight wf0.2.2.2.2.1 wfRight1
    have joined := and_key half
    rw [left_node, left_node, not_eq_true', not_eq_false, inLeft] at apart
    rw [rawKey_node, rawKey_node, Ne, and_one_eq_zero_iff] at absent
    rw [right_node, right_node, inRight, disjoint_nodes wf0 wf1 half]
    exact ⟨fun right => ⟨by omega, apart, right⟩, fun parts => parts.2.2⟩
  | case7 t0 t1 nonnull ne =>
    rename_i other covers less ih
    obtain ⟨nonnull0, nonnull1⟩ := not_or.mp nonnull
    obtain ⟨key, left, right, rfl, inLeft, _⟩ := covered_by_node wf0 wf1 nonnull0 nonnull1 other covers
    obtain ⟨below, agree⟩ := inLeft less
    exact (ih below wf1.2.2.2.1).trans (forall_congr' fun x => not_congr (and_congr_right (agree x)))
  | case8 t0 t1 nonnull ne =>
    rename_i other covers notLess ih
    obtain ⟨nonnull0, nonnull1⟩ := not_or.mp nonnull
    obtain ⟨key, left, right, rfl, _, inRight⟩ := covered_by_node wf0 wf1 nonnull0 nonnull1 other covers
    obtain ⟨above, agree⟩ := inRight notLess
    exact (ih above wf1.2.2.2.2.1).trans (forall_congr' fun x => not_congr (and_congr_right (agree x)))
  | case9 t0 t1 nonnull ne =>
    rename_i other _ covers less ih
    obtain ⟨nonnull0, nonnull1⟩ := not_or.mp nonnull
    obtain ⟨key, left, right, rfl, inLeft, _⟩ :=
      covered_by_node wf1 wf0 nonnull1 nonnull0 (fun same => other same.symm) covers
    obtain ⟨below, agree⟩ := inLeft less
    exact (ih wf0.2.2.2.1 below).trans (forall_congr' fun x => not_congr (and_congr_left (agree x)))
  | case10 t0 t1 nonnull ne =>
    rename_i other _ covers notLess ih
    obtain ⟨nonnull0, nonnull1⟩ := not_or.mp nonnull
    obtain ⟨key, left, right, rfl, _, inRight⟩ :=
      covered_by_node wf1 wf0 nonnull1 nonnull0 (fun same => other same.symm) covers
    obtain ⟨above, agree⟩ := inRight notLess
    exact (ih wf0.2.2.2.2.1 above).trans (forall_congr' fun x => not_congr (and_congr_left (agree x)))
  | case11 t0 t1 nonnull ne =>
    rename_i other uncovered0 uncovered1
    obtain ⟨nonnull0, nonnull1⟩ := not_or.mp nonnull
    simp only [true_iff]
    exact fun x both => disjoint_elements wf0 wf1 nonnull0 nonnull1 other uncovered0 uncovered1 both.1 both.2

end Culibs.Cucon.Ucset
