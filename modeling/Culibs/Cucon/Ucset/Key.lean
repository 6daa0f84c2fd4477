import Culibs.Cucon.Ucset.Basic

/-! The key predicates of `cucon/ucset.c` in terms of dyadic blocks. Leaves are
centred at odd multiples of 64, inner nodes at nonzero multiples of 128. -/

namespace Culibs.Cucon.Ucset

open Cu DyadicBlock BitVec Nat

theorem keyCoverseq_iff (key0 key1 : Word) :
    keyCoverseq key0 key1 = true ↔
      lo 64 key0.toNat ≤ key1.toNat ∧ key1.toNat < hi 64 key0.toNat := by
  rw [keyCoverseq, beq_iff_eq]
  exact same_block_iff key0 key1

theorem keyCovers_iff (key0 key1 : Word) :
    keyCovers key0 key1 = true ↔
      key0.toNat ≠ 0 ∧ (lo 64 key0.toNat < key1.toNat ∨ key1.toNat = 0) ∧
        lo 64 key0.toNat ≤ key1.toNat ∧ key1.toNat < hi 64 key0.toNat := by
  have inside : keyCoverseq key0 key1 = true ↔ _ := keyCoverseq_iff key0 key1
  simp only [keyCoverseq] at inside
  simp only [keyCovers, Bool.and_eq_true, inside, bne_iff_ne, Bool.or_eq_true, beq_iff_eq, Ne, BitVec.not_not]
  have zero (a : Word) : a = 0 ↔ a.toNat = 0 := by rw [toNat_eq]; rfl
  constructor
  · rintro ⟨⟨nonzero, start, stop⟩, offset⟩
    have first := under_mask_eq_zero_iff key0 key1 start stop
    simp only [lowMask] at first
    rw [zero] at nonzero
    rw [first, zero key1] at offset
    omega
  · rintro ⟨nonzero, offset, start, stop⟩
    have first := under_mask_eq_zero_iff key0 key1 start stop
    simp only [lowMask] at first
    rw [zero key0, first, zero key1]
    omega

/-- Leaf keys and inner node keys, as unsigned values. -/
def IsLeafKey (k : Nat) : Prop := k % 128 = 64

def IsNodeKey (k : Nat) : Prop := k % 128 = 0 ∧ k ≠ 0

def IsTrieKey (k : Nat) : Prop := IsLeafKey k ∨ IsNodeKey k

variable {k : Nat}

theorem rad_leafKey (leaf : IsLeafKey k) : rad 64 k = 64 := by
  have multiple : k = 2 ^ 6 * (2 * (k / 128) + 1) := by
    simp only [IsLeafKey] at leaf
    omega
  rw [multiple, rad_two_pow_mul_odd (by omega)]
  rfl

theorem rad_nodeKey (node : IsNodeKey k) : 128 ∣ rad 64 k :=
  Nat.dvd_gcd (dvd_of_mod_eq_zero node.1) (by decide)

theorem leaf_block (leaf : IsLeafKey k) : lo 64 k = k - 64 ∧ hi 64 k = k + 64 := by
  rw [lo, hi, rad_leafKey leaf]
  exact ⟨rfl, rfl⟩

theorem bounds_mod (trie : IsTrieKey k) (below : k < 2 ^ 64) :
    lo 64 k % 128 = 0 ∧ hi 64 k % 128 = 0 := by
  rcases trie with leaf | node
  · rw [(leaf_block leaf).1, (leaf_block leaf).2]
    simp only [IsLeafKey] at leaf
    omega
  · have bounds := bounds_dvd (pos_of_ne_zero node.2) below
    have divides := Dvd.dvd.mul_left (rad_nodeKey node) 2
    exact ⟨mod_eq_zero_of_dvd (divides.trans bounds.1), mod_eq_zero_of_dvd (divides.trans bounds.2)⟩

theorem block_room (trie : IsTrieKey k) : lo 64 k + 128 ≤ hi 64 k := by
  rcases trie with leaf | node
  · rw [(leaf_block leaf).1, (leaf_block leaf).2]
    simp only [IsLeafKey] at leaf
    omega
  · have := le_of_dvd (rad_pos 64 k) (rad_nodeKey node)
    have := lo_add_rad (w := 64) (pos_of_ne_zero node.2)
    rw [hi]
    omega

variable (key : Word)

theorem keyIsLeaflike_iff :
    keyIsLeaflike key = true ↔ key.toNat = 0 ∨ key.toNat % 128 ≠ 0 := by
  by_cases zero : key = 0
  · subst zero
    simp [keyIsLeaflike]
  have value : key.toNat ≠ 0 := fun same => zero (eq_of_toNat_eq (by simpa using same))
  obtain ⟨t, m, bound, multiple, _, mask⟩ := toNat_lowMask key zero
  simp only [keyIsLeaflike, zero, if_false, decide_eq_true_iff, lt_def, value, false_or]
  rw [show key ^^^ (key - 1) = lowMask key from rfl, mask]
  change 2 ^ (t + 1) - 1 < 2 ^ 7 ↔ _
  constructor
  · intro small
    have exponent : t + 1 ≤ 7 := by
      apply (Nat.pow_le_pow_iff_right (show 1 < 2 by omega)).mp
      omega
    intro divisible
    obtain ⟨c, product⟩ := dvd_of_mod_eq_zero divisible
    have split : 128 = 2 ^ t * (2 * 2 ^ (6 - t)) := by
      rw [← Nat.pow_succ', ← Nat.pow_add]
      have : t + (6 - t + 1) = 7 := by omega
      rw [this]
    rw [multiple, split, mul_assoc] at product
    have := Nat.eq_of_mul_eq_mul_left (Nat.two_pow_pos t) product
    rw [mul_assoc] at this
    omega
  · intro indivisible
    have exponent : t < 7 := by
      by_contra large
      apply indivisible
      rw [multiple]
      exact mod_eq_zero_of_dvd
        (Nat.dvd_mul_right_of_dvd (pow_dvd_pow 2 (show 7 ≤ t by omega)) _)
    have := Nat.pow_le_pow_right (show 0 < 2 by omega) (show t + 1 ≤ 7 by omega)
    omega

theorem toNat_bitsetMask : bitsetMask.toNat = 2 ^ 7 - 1 := rfl

theorem toNat_leafKey : (leafKey key).toNat = 128 * (key.toNat / 128) + 64 := by
  have half : (bitsetMask + 1) >>> 1 = 64#64 := by decide
  rw [leafKey, toNat_or, toNat_and_not_mask _ _ toNat_bitsetMask]
  exact (two_pow_add_eq_or_of_lt (i := 7) (b := 64) (by decide) (key.toNat / 2 ^ 7)).symm

theorem isLeafKey_leafKey : IsLeafKey (leafKey key).toNat := by
  rw [toNat_leafKey, IsLeafKey]
  omega

theorem toNat_clear_one : (key &&& ~~~1).toNat = 2 * (key.toNat / 2) := by
  have := toNat_and_not_mask key 1 (s := 1) (by decide)
  simpa using this

theorem and_one_eq_zero_iff : key &&& 1 = 0 ↔ key.toNat % 2 = 0 := by
  rw [toNat_eq]
  simp

variable {a b : Word}

/-- The key and presence bits of the words that the operations put together. -/
theorem or_key (same : a.toNat / 2 = b.toNat / 2) :
    (a ||| b).toNat / 2 = a.toNat / 2 ∧
      ((a ||| b).toNat % 2 = 1 ↔ a.toNat % 2 = 1 ∨ b.toNat % 2 = 1) := by
  rw [toNat_or, Nat.or_div_two, same, Nat.or_self, Nat.or_mod_two_eq_one]
  exact ⟨rfl, Iff.rfl⟩

theorem and_key (same : a.toNat / 2 = b.toNat / 2) :
    (a &&& b).toNat / 2 = a.toNat / 2 ∧
      ((a &&& b).toNat % 2 = 1 ↔ a.toNat % 2 = 1 ∧ b.toNat % 2 = 1) := by
  rw [toNat_and, Nat.and_div_two, same, Nat.and_self, Nat.and_mod_two_eq_one]
  exact ⟨rfl, Iff.rfl⟩

theorem or_one_key :
    (key ||| 1).toNat / 2 = key.toNat / 2 ∧ (key ||| 1).toNat % 2 = 1 := by
  rw [toNat_or, or_div_two]
  simp

theorem and_not_one_key :
    (key &&& ~~~1).toNat / 2 = key.toNat / 2 ∧ (key &&& ~~~1).toNat % 2 = 0 := by
  rw [toNat_clear_one]
  omega

theorem and_not_bit_key (a b : Word) :
    (a &&& ~~~(b &&& 1)).toNat / 2 = a.toNat / 2 ∧
      ((a &&& ~~~(b &&& 1)).toNat % 2 = 1 ↔ a.toNat % 2 = 1 ∧ b.toNat % 2 = 0) := by
  rcases mod_two_eq_zero_or_one b.toNat with even | odd
  · have unchanged : a &&& ~~~(0 : Word) = a := by
      rw [show ~~~(0 : Word) = BitVec.allOnes 64 by decide, and_allOnes]
    rw [(and_one_eq_zero_iff b).mpr even, unchanged]
    simp [even]
  · have one : b &&& 1 = 1 := by
      apply eq_of_toNat_eq
      simpa using odd
    have cleared := and_not_one_key a
    rw [one]
    omega

theorem nodeKey_of_wide (nonzero : k ≠ 0) (wide : 128 ≤ rad 64 k) : IsNodeKey k := by
  obtain ⟨n, _, radius⟩ := rad_eq_two_pow 64 k
  have exponent : 7 ≤ n := by
    by_contra small
    have : 2 ^ n ≤ 2 ^ 6 := Nat.pow_le_pow_right (by omega) (by omega)
    omega
  have divides : 2 ^ 7 ∣ k := by
    have := rad_dvd 64 k
    rw [radius] at this
    exact (pow_dvd_pow 2 exponent).trans this
  exact ⟨mod_eq_zero_of_dvd divides, nonzero⟩

/-- Joining a word of a block with a word beyond it gives a node key at most the
latter, with the block in its left half. -/
theorem join_above (k0 : Word) (trie : IsTrieKey c) (below : c < 2 ^ 64)
    (inside : lo 64 c ≤ k0.toNat ∧ k0.toNat < hi 64 c) (beyond : hi 64 c ≤ k1.toNat) :
    ∃ j : Word, (∀ a : Word, a = k0 ∨ a = k1 →
        (a &&& ~~~(uintptrDcover (k0 ^^^ k1))) ||| ((uintptrDcover (k0 ^^^ k1) >>> 1) + 1) = j ∧
        (a &&& ~~~(uintptrDcover (k0 ^^^ k1))) + ((uintptrDcover (k0 ^^^ k1) >>> 1) + 1) = j) ∧
      (k0 ||| uintptrDcover (k0 ^^^ k1)).toNat = hi 64 j.toNat - 1 ∧
      IsNodeKey j.toNat ∧ lo 64 j.toNat ≤ lo 64 c ∧ hi 64 c ≤ j.toNat ∧ j.toNat ≤ k1.toNat ∧
      k1.toNat < hi 64 j.toNat := by
  obtain ⟨j, value, last, start, left, middle, stop⟩ :=
    @join_words k0 k1 (by omega)
  have half := join_left_half below j.isLt inside beyond start left stop
  -- The left half holds a whole block, so it is at least 128 wide.
  have wide : 128 ≤ rad 64 j.toNat := by
    have := lo_add_rad (w := 64) (k := j.toNat) (by omega)
    have := block_room trie
    omega
  exact ⟨j, value, last, nodeKey_of_wide (by omega) wide, half.1, half.2, middle, stop⟩

theorem join_spec (trie0 : IsTrieKey c0) (below0 : c0 < 2 ^ 64)
    (below1 : c1 < 2 ^ 64) (inside0 : lo 64 c0 ≤ k0.toNat ∧ k0.toNat < hi 64 c0)
    (inside1 : lo 64 c1 ≤ k1.toNat ∧ k1.toNat < hi 64 c1) (apart : hi 64 c0 ≤ lo 64 c1) :
    ∃ j : Word, (∀ a : Word, a = k0 ∨ a = k1 →
        (a &&& ~~~(uintptrDcover (k0 ^^^ k1))) ||| ((uintptrDcover (k0 ^^^ k1) >>> 1) + 1) = j) ∧
      IsNodeKey j.toNat ∧ lo 64 j.toNat ≤ lo 64 c0 ∧ hi 64 c0 ≤ j.toNat ∧
      j.toNat ≤ lo 64 c1 ∧ hi 64 c1 ≤ hi 64 j.toNat := by
  obtain ⟨j, value, _, nodeKey, start, left, middle, stop⟩ :=
    join_above k0 trie0 below0 inside0 (by omega : hi 64 c0 ≤ k1.toNat)
  have halves := join_halves below0 below1 j.isLt inside0 inside1 apart (by omega) (by omega) middle stop
  exact ⟨j, fun a either => (value a either).1, nodeKey, halves⟩

end Culibs.Cucon.Ucset
