import Culibs.Cuex.Atree.Basic

/-! The search invariant of the trees. A node sits at the centre of a dyadic
block with its subtrees in the two halves. Two words that differ in their top
bit have no centre, so a whole tree lies in one half of the words. -/

namespace Culibs.Cuex.Atree

open Cu DyadicBlock BitVec

variable {α : Type}

theorem toNat_centreToMin (nonzero : centre ≠ 0) :
    (centreToMin centre).toNat = lo 64 centre.toNat :=
  toNat_block_start centre nonzero

theorem toNat_centreToMax (centre : Word) : (centreToMax centre).toNat = hi 64 centre.toNat - 1 :=
  toNat_block_end centre

/-- One of the two halves of a block. -/
def Half (low high : Nat) : Prop :=
  ∃ c : Word, c ≠ 0 ∧ ((low = lo 64 c.toNat ∧ high = c.toNat) ∨ (low = c.toNat ∧ high = hi 64 c.toNat))

theorem Half.left {c : Word} (nonzero : c ≠ 0) : Half (lo 64 c.toNat) c.toNat :=
  ⟨c, nonzero, .inl ⟨rfl, rfl⟩⟩

theorem Half.right {c : Word} (nonzero : c ≠ 0) : Half c.toNat (hi 64 c.toNat) :=
  ⟨c, nonzero, .inr ⟨rfl, rfl⟩⟩

theorem Half.lower : Half 0 (2 ^ 63) := ⟨BitVec.ofNat 64 (2 ^ 63), by decide, .inl (by decide +kernel)⟩

theorem Half.upper : Half (2 ^ 63) (2 ^ 64) := ⟨BitVec.ofNat 64 (2 ^ 63), by decide, .inr (by decide +kernel)⟩

theorem toNat_pos {c : Word} (nonzero : c ≠ 0) : 0 < c.toNat := by
  rcases eq_zero_or_pos c.toNat with zero | pos
  · exact absurd (eq_of_toNat_eq (by simpa using zero)) nonzero
  · exact pos

theorem Half.same_top {low high a b : Nat} (half : Half low high) (start : low ≤ a) (stop : b < high) :
    ¬ (a < 2 ^ 63 ∧ 2 ^ 63 ≤ b) := by
  obtain ⟨c, nonzero, bounds⟩ := half
  rintro ⟨below, above⟩
  have top : lo 64 (2 ^ 63) = 0 ∧ hi 64 (2 ^ 63) = 2 ^ 64 := by decide +kernel
  have := lo_le 64 c.toNat
  have := lt_hi 64 c.toNat
  have := toNat_pos nonzero
  by_cases same : c.toNat = 2 ^ 63
  · omega
  · have cases := laminar c.isLt (show 2 ^ 63 < 2 ^ 64 by decide) same
    omega

/-- The centre of two words of a half: its block separates them and stays in the half. -/
theorem pairCentre_spec (half : Half low high) (start : low ≤ a.toNat)
    (less : a.toNat < b.toNat) (stop : b.toNat < high) :
    pairCentre a b ≠ 0 ∧ low ≤ lo 64 (pairCentre a b).toNat ∧ hi 64 (pairCentre a b).toNat ≤ high ∧
      lo 64 (pairCentre a b).toNat ≤ a.toNat ∧ a.toNat < (pairCentre a b).toNat ∧
      (pairCentre a b).toNat ≤ b.toNat ∧ b.toNat < hi 64 (pairCentre a b).toNat := by
  obtain ⟨n, q, bit, mask, quotient0, quotient1, first, left, middle, last⟩ := dcover_xor less
  have top := half.same_top start stop
  have narrow : n < 63 := by
    by_contra wide
    obtain rfl : n = 63 := by omega
    omega
  have halved : (uintptrDcover (a ^^^ b) + 1) >>> 1 = (uintptrDcover (a ^^^ b) >>> 1) + 1 := by
    have power : 2 ^ (n + 1) ≤ 2 ^ 63 := Nat.pow_le_pow_right (by decide) narrow
    have := Nat.two_pow_pos n
    apply eq_of_toNat_eq
    simp only [toNat_add, toNat_ushiftRight, mask, Nat.shiftRight_one, ofNat_eq_ofNat,
      toNat_ofNat]
    omega
  obtain ⟨j, value, _, begins, under, above, ends⟩ := join_words less
  have centre : pairCentre a b = j := by
    rw [pairCentre, halved]
    exact (value a (.inl rfl)).1
  rw [centre]
  refine ⟨?_, ?_, ?_, begins, under, above, ends⟩
  · rintro rfl
    exact absurd under (Nat.not_lt_zero _)
  all_goals
    obtain ⟨c, nonzero, bounds⟩ := half
    have := lo_le 64 c.toNat
    have := lt_hi 64 c.toNat
    have ne : c.toNat ≠ j.toNat := by omega
    have cases := laminar c.isLt j.isLt ne
    omega

/-- A well-formed tree with its keys in `[low, high)`. -/
def Wf (getKey : α → Word) : Atree α → Nat → Nat → Prop
  | leaf value, low, high => low ≤ (getKey value).toNat ∧ (getKey value).toNat < high
  | anode centre left right, low, high =>
    centre ≠ 0 ∧ low ≤ lo 64 centre.toNat ∧ hi 64 centre.toNat ≤ high ∧
      Wf getKey left (lo 64 centre.toNat) centre.toNat ∧ Wf getKey right centre.toNat (hi 64 centre.toNat)

/-- The elements in the order of the tree. -/
def toList : Atree α → List α
  | leaf value => [value]
  | anode _ left right => left.toList ++ right.toList

variable {getKey : α → Word} {low high low' high' : Nat} {t t0 t1 left right : Atree α} {centre key : Word}
  {value : α}

theorem Wf.mono (wf : Wf getKey t low high) (lower : low' ≤ low) (upper : high ≤ high') :
    Wf getKey t low' high' := by
  cases t with
  | leaf value => exact ⟨le_trans lower wf.1, lt_of_lt_of_le wf.2 upper⟩
  | anode centre left right =>
    obtain ⟨nonzero, start, stop, inner⟩ := wf
    exact ⟨nonzero, le_trans lower start, le_trans stop upper, inner⟩

theorem key_of_findLoop (found : findLoop getKey t key = some value) : getKey value = key := by
  induction t with
  | leaf old =>
    simp only [findLoop] at found
    split at found
    · next same => exact Option.some.inj found ▸ same
    · cases found
  | anode centre left right ihLeft ihRight =>
    simp only [findLoop] at found
    split at found <;> split at found
    · cases found
    · exact ihLeft found
    · cases found
    · exact ihRight found

theorem Wf.findLoop_bounds (wf : Wf getKey t low high) (found : findLoop getKey t key = some value) :
    low ≤ key.toNat ∧ key.toNat < high := by
  induction t generalizing low high with
  | leaf old =>
    have same := key_of_findLoop found
    simp only [findLoop] at found
    split at found
    · cases found
      exact same ▸ wf
    · cases found
  | anode centre left right ihLeft ihRight =>
    obtain ⟨_, start, stop, wfLeft, wfRight⟩ := wf
    have := lo_le 64 centre.toNat
    have := lt_hi 64 centre.toNat
    simp only [findLoop] at found
    split at found <;> split at found
    · cases found
    · have := ihLeft wfLeft found
      omega
    · cases found
    · have := ihRight wfRight found
      omega

theorem Wf.findLoop_eq_none (wf : Wf getKey t low high) (outside : key.toNat < low ∨ high ≤ key.toNat) :
    findLoop getKey t key = none := by
  apply Option.eq_none_iff_forall_ne_some.mpr
  intro value found
  have := wf.findLoop_bounds found
  omega

@[simp] theorem findLoop_leaf : findLoop getKey (leaf value) key = if getKey value = key then some value else none := rfl

section

variable (wf : Wf getKey (anode centre left right) low high)

include wf

theorem Wf.findLoop_anode :
    findLoop getKey (anode centre left right) key =
      if key.toNat < centre.toNat then findLoop getKey left key else findLoop getKey right key := by
  obtain ⟨nonzero, _, _, wfLeft, wfRight⟩ := wf
  simp only [findLoop, lt_def, toNat_centreToMin nonzero, toNat_centreToMax]
  split <;> split
  · next outside => exact (wfLeft.findLoop_eq_none (.inl outside)).symm
  · rfl
  · next outside => exact (wfRight.findLoop_eq_none (.inr (by omega))).symm
  · rfl

theorem Wf.findLoop_left (less : key.toNat < centre.toNat) :
    findLoop getKey (anode centre left right) key = findLoop getKey left key := by
  rw [wf.findLoop_anode, if_pos less]

theorem Wf.findLoop_right (more : centre.toNat ≤ key.toNat) :
    findLoop getKey (anode centre left right) key = findLoop getKey right key := by
  rw [wf.findLoop_anode, if_neg (Nat.not_lt_of_le more)]

theorem Wf.findLoop_of_left (found : findLoop getKey left key = some value) :
    findLoop getKey (anode centre left right) key = some value := by
  rw [wf.findLoop_left (wf.2.2.2.1.findLoop_bounds found).2, found]

theorem Wf.findLoop_of_right (found : findLoop getKey right key = some value) :
    findLoop getKey (anode centre left right) key = some value := by
  rw [wf.findLoop_right (wf.2.2.2.2.findLoop_bounds found).1, found]

end

theorem Wf.mem_toList_iff (wf : Wf getKey t low high) :
    value ∈ t.toList ↔ findLoop getKey t (getKey value) = some value := by
  induction t generalizing low high with
  | leaf old =>
    simp only [toList, List.mem_singleton, findLoop_leaf]
    constructor
    · rintro rfl
      rw [if_pos rfl]
    · intro found
      split at found
      · exact (Option.some.inj found).symm
      · cases found
  | anode centre left right ihLeft ihRight =>
    simp only [toList, List.mem_append, ihLeft wf.2.2.2.1, ihRight wf.2.2.2.2]
    constructor
    · rintro (inLeft | inRight)
      · exact wf.findLoop_of_left inLeft
      · exact wf.findLoop_of_right inRight
    · intro found
      rw [wf.findLoop_anode] at found
      split at found
      · exact .inl found
      · exact .inr found

theorem Wf.exists_find (wf : Wf getKey t low high) : ∃ key value, findLoop getKey t key = some value := by
  induction t generalizing low high with
  | leaf value => exact ⟨getKey value, value, by simp⟩
  | anode centre left right ihLeft _ =>
    obtain ⟨key, value, found⟩ := ihLeft wf.2.2.2.1
    exact ⟨key, value, wf.findLoop_of_left found⟩

section

variable (wf : Wf getKey (anode centre left right) low high)

include wf

theorem Wf.exists_both :
    ∃ key0 value0 key1 value1, findLoop getKey (anode centre left right) key0 = some value0 ∧
      findLoop getKey (anode centre left right) key1 = some value1 ∧ lo 64 centre.toNat ≤ key0.toNat ∧
      key0.toNat < centre.toNat ∧ centre.toNat ≤ key1.toNat ∧ key1.toNat < hi 64 centre.toNat := by
  obtain ⟨key0, value0, found0⟩ := wf.2.2.2.1.exists_find
  obtain ⟨key1, value1, found1⟩ := wf.2.2.2.2.exists_find
  have bounds0 := wf.2.2.2.1.findLoop_bounds found0
  have bounds1 := wf.2.2.2.2.findLoop_bounds found1
  exact ⟨key0, value0, key1, value1, wf.findLoop_of_left found0, wf.findLoop_of_right found1, bounds0.1, bounds0.2,
    bounds1.1, bounds1.2⟩

theorem Wf.block_bounds (found : findLoop getKey (anode centre left right) key = some value) :
    lo 64 centre.toNat ≤ key.toNat ∧ key.toNat < hi 64 centre.toNat := by
  have own : Wf getKey (anode centre left right) (lo 64 centre.toNat) (hi 64 centre.toNat) :=
    ⟨wf.1, le_rfl, le_rfl, wf.2.2.2⟩
  exact own.findLoop_bounds found

/-- The elements of a tree determine the centre of its root: the blocks of two
candidates would each have to lie in one half of the other. -/
theorem Wf.centre_unique
    (wf' : Wf getKey (anode centre' left' right') low' high')
    (same : ∀ key, findLoop getKey (anode centre left right) key = findLoop getKey (anode centre' left' right') key) :
    centre = centre' := by
  by_contra ne
  obtain ⟨key0, value0, key1, value1, found0, found1, bounds⟩ := wf.exists_both
  obtain ⟨key0', value0', key1', value1', found0', found1', bounds'⟩ := wf'.exists_both
  have := wf'.block_bounds (same key0 ▸ found0)
  have := wf'.block_bounds (same key1 ▸ found1)
  have := wf.block_bounds ((same key0').trans found0')
  have := wf.block_bounds ((same key1').trans found1')
  have := laminar centre.isLt centre'.isLt (fun equal => ne (eq_of_toNat_eq equal))
  omega

end

theorem Wf.unique (wf0 : Wf getKey t0 low high) (wf1 : Wf getKey t1 low' high')
    (same : ∀ key, findLoop getKey t0 key = findLoop getKey t1 key) : t0 = t1 := by
  induction t0 generalizing t1 low high low' high' with
  | leaf value0 =>
    cases t1 with
    | leaf value1 =>
      have found := same (getKey value0)
      simp only [findLoop_leaf, if_true] at found
      split at found
      · exact congrArg leaf (Option.some.inj found)
      · cases found
    | anode centre left right =>
      obtain ⟨key0, value0, key1, value1, found0, found1, bounds⟩ := wf1.exists_both
      rw [← same, findLoop_leaf] at found0 found1
      split at found0 <;> split at found1 <;> simp_all
      omega
  | anode centre left right ihLeft ihRight =>
    cases t1 with
    | leaf value1 =>
      obtain ⟨key0, value0, key1, value1, found0, found1, bounds⟩ := wf0.exists_both
      rw [same, findLoop_leaf] at found0 found1
      split at found0 <;> split at found1 <;> simp_all
      omega
    | anode centre' left' right' =>
      obtain rfl := wf0.centre_unique wf1 same
      have sameLeft : left = left' := by
        apply ihLeft wf0.2.2.2.1 wf1.2.2.2.1
        intro key
        by_cases less : key.toNat < centre.toNat
        · rw [← wf0.findLoop_left less, ← wf1.findLoop_left less, same]
        · rw [wf0.2.2.2.1.findLoop_eq_none (.inr (by omega)), wf1.2.2.2.1.findLoop_eq_none (.inr (by omega))]
      have sameRight : right = right' := by
        apply ihRight wf0.2.2.2.2 wf1.2.2.2.2
        intro key
        by_cases more : centre.toNat ≤ key.toNat
        · rw [← wf0.findLoop_right more, ← wf1.findLoop_right more, same]
        · rw [wf0.2.2.2.2.findLoop_eq_none (.inl (by omega)), wf1.2.2.2.2.findLoop_eq_none (.inl (by omega))]
      rw [sameLeft, sameRight]

end Culibs.Cuex.Atree
