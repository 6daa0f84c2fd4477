import Culibs.Cucon.Ucset.Algebra

namespace Culibs.Cucon.Ucset

open DyadicBlock BitVec

variable {low high : Nat}

/-- The words that may follow in a region: past its first word, unless that is zero. -/
def Above (low : Nat) (keys : List Word) : Prop :=
  ∀ y ∈ keys, low ≤ y.toNat ∧ (low < y.toNat ∨ y.toNat = 0)

variable {taken : List Word}

theorem filled_leaf_represents {curKey : Word} {bitset : Bitset}
    (region : Region low high) (above : Above low taken) (within : curKey.toNat < high)
    (first : curKey ∈ taken) (leaflike : keyIsLeaflike curKey = true)
    (least : ∀ y ∈ taken, curKey.toNat ≤ y.toNat)
    (small : ∀ y ∈ taken, y.toNat ≤ (curKey ||| bitsetMask).toNat)
    (bits : ∀ i, bit bitset i = true ↔ ∃ y ∈ taken, y.toNat % 128 = i % 128) :
    Represents (leaf (leafKey curKey) bitset) low high (· ∈ taken) := by
  have lowMod := region.lowMod
  have highMod := region.highMod
  have leafIsKey := isLeafKey_leafKey curKey
  have value := toNat_leafKey curKey
  have block := leaf_block leafIsKey
  have last := toNat_or_mask curKey _ toNat_bitsetMask
  rw [keyIsLeaflike_iff] at leaflike
  have start := above curKey first
  refine ⟨⟨leafIsKey, by omega, by omega, ⟨curKey.toNat % 128, Nat.mod_lt _ (by omega), ?_⟩, ?_⟩, ?_⟩
  · rw [bits]
    exact ⟨curKey, first, by omega⟩
  · rw [bits]
    rintro ⟨y, mem, position⟩
    have := least y mem
    have := small y mem
    omega
  intro y
  rw [Contains, bits]
  constructor
  · rintro ⟨sameBlock, z, mem, position⟩
    have := least z mem
    have := small z mem
    have same : y = z := eq_of_toNat_eq (by omega)
    rwa [same]
  · intro mem
    have := least y mem
    have := small y mem
    exact ⟨by omega, y, mem, rfl⟩

theorem start_represents {x : Word} {right : Ucset} (region : Region low high)
    (nodeKey : IsNodeKey x.toNat) (more : low < x.toNat) (less : x.toNat < high)
    (inRight : Represents right x.toNat (hi 64 x.toNat) (· ∈ taken)) :
    Represents (ucnodeNew (x ||| 1) null right) low high (fun y => y = x ∨ y ∈ taken) := by
  have stored := or_one_key x
  have even := nodeKey.1
  have bounds := region.inside _ (.inr nodeKey) more less
  have empty : Represents null (lo 64 x.toNat) x.toNat (fun _ => False) :=
    ⟨trivial, fun y => Iff.rfl⟩
  refine (node_represents (by omega) nodeKey bounds.1 bounds.2 empty inRight (by omega)).congr
    fun y => ?_
  simp only [stored.2, true_and, false_or, toNat_eq]

theorem grow_represents {t right : Ucset} {P : Word → Prop} {j stored : Word}
    {next : Nat} (region : Region low high) (inLeft : Represents t low high P) (nonnull : t ≠ null)
    (nodeKey : IsNodeKey j.toNat) (start : lo 64 j.toNat ≤ lo 64 t.centre)
    (left : hi 64 t.centre ≤ j.toNat) (reached : j.toNat ≤ next) (less : next < high)
    (inRight : Represents right j.toNat (hi 64 j.toNat) (· ∈ taken))
    (either : stored = j ||| 1 ∨ (stored = j ∧ right ≠ null)) :
    Represents (ucnodeNew stored t right) low high
      (fun y => (stored = j ||| 1 ∧ y = j) ∨ P y ∨ y ∈ taken) ∧
      (ucnodeNew stored t right).centre = j.toNat := by
  have raised := or_one_key j
  have even := nodeKey.1
  have block := inLeft.wf.block nonnull
  have room := block_room block.1
  have bounds := region.inside _ (.inr nodeKey) (by omega) (by omega)
  have own : Represents t (lo 64 j.toNat) j.toNat P :=
    ⟨(inLeft.wf.own_block nonnull).mono start left, inLeft.contains⟩
  have centred : 2 * (stored.toNat / 2) = j.toNat := by
    rcases either with same | ⟨same, _⟩ <;> rw [same] <;> omega
  constructor
  · refine (node_represents centred nodeKey bounds.1 bounds.2 own inRight ?_).congr fun y => ?_
    · rcases either with same | ⟨same, some⟩
      · rw [same]; omega
      · exact fun _ => ⟨nonnull, some⟩
    · have odd : stored.toNat % 2 = 1 ↔ stored = j ||| 1 := by
        rcases either with same | ⟨same, _⟩
        · simp only [same, raised.2]
        · rw [same, toNat_eq]; omega
      rw [odd, toNat_eq (x := y)]
  · rw [ucnodeNew, centre_node, centred]

end Culibs.Cucon.Ucset
