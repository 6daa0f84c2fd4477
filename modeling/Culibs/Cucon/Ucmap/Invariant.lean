import Culibs.Cucon.Ucmap.Basic

/-! The trie invariant of the integer maps. The keys of a subtree lie strictly
inside one half of the block of the node above it, since the first key of a
block covers the whole block. The bindings then determine the tree. -/

namespace Culibs.Cucon.Ucmap

open Cu DyadicBlock BitVec

theorem keyCoverseq_iff (key0 key1 : Word) :
    keyCoverseq key0 key1 = true ↔
      lo 64 key0.toNat ≤ key1.toNat ∧ key1.toNat < hi 64 key0.toNat := by
  rw [keyCoverseq, beq_iff_eq]
  exact same_block_iff key0 key1

theorem keyCovers_iff (key0 key1 : Word) :
    keyCovers key0 key1 = true ↔ Covers 64 key0.toNat key1.toNat := by
  have inside : keyCoverseq key0 key1 = true ↔ _ := keyCoverseq_iff key0 key1
  simp only [keyCoverseq] at inside
  simp only [keyCovers, Bool.and_eq_true, inside, bne_iff_ne, Ne, BitVec.not_not, Covers]
  constructor
  · rintro ⟨⟨start, stop⟩, offset⟩
    have first := under_mask_eq_zero_iff key0 key1 start stop
    simp only [lowMask] at first
    rw [first] at offset
    exact ⟨lt_of_le_of_ne start (Ne.symm offset), stop⟩
  · rintro ⟨start, stop⟩
    have first := under_mask_eq_zero_iff key0 key1 (le_of_lt start) stop
    simp only [lowMask] at first
    rw [first]
    exact ⟨⟨le_of_lt start, stop⟩, ne_of_gt start⟩

theorem toNat_keyMax (key : Word) : (keyMax key).toNat = hi 64 key.toNat - 1 := toNat_or_pred key

/-- Two keys that do not cover each other lie strictly inside the halves of the
block centred at their join. -/
theorem keyJoin_spec (less : k0.toNat < k1.toNat)
    (uncovered0 : ¬ Covers 64 k0.toNat k1.toNat) (uncovered1 : ¬ Covers 64 k1.toNat k0.toNat) :
    keyJoin k0 k1 = keyJoin k1 k0 ∧
      lo 64 (keyJoin k0 k1).toNat < k0.toNat ∧ hi 64 k0.toNat ≤ (keyJoin k0 k1).toNat ∧
      (keyJoin k0 k1).toNat < k1.toNat ∧ hi 64 k1.toNat ≤ hi 64 (keyJoin k0 k1).toNat := by
  obtain ⟨j, value, _, start, left, middle, stop⟩ := join_words less
  have first : keyJoin k0 k1 = j := (value k0 (.inl rfl)).1
  have second : keyJoin k1 k0 = j := by
    rw [keyJoin, BitVec.xor_comm]
    exact (value k1 (.inr rfl)).1
  have apart := disjoint_of_not_covers k0.isLt k1.isLt less uncovered0 uncovered1
  have inside0 : lo 64 k0.toNat ≤ k0.toNat ∧ k0.toNat < hi 64 k0.toNat := ⟨lo_le _ _, lt_hi _ _⟩
  have inside1 : lo 64 k1.toNat ≤ k1.toNat ∧ k1.toNat < hi 64 k1.toNat := ⟨lo_le _ _, lt_hi _ _⟩
  have halves := join_halves k0.isLt k1.isLt j.isLt inside0 inside1 apart start left middle stop
  rw [first, second]
  have pos : 0 < k0.toNat := by
    rcases eq_zero_or_pos k0.toNat with zero | pos
    · have := j.isLt
      rw [zero, hi_zero] at halves
      omega
    · exact pos
  have := lo_lt (w := 64) pos
  have := lo_lt (w := 64) (lt_trans pos less)
  exact ⟨rfl, by omega, halves.2.1, by omega, halves.2.2.2⟩

/-- An interval of keys that contains the inner keys of every block centred in it. -/
def Region (low high : Nat) : Prop :=
  ∀ k : Word, low ≤ k.toNat → k.toNat < high → low ≤ lo 64 k.toNat + 1 ∧ hi 64 k.toNat ≤ high

theorem Region.top : Region 0 (2 ^ 64) := fun k _ _ => ⟨Nat.zero_le _, hi_le k.isLt⟩

theorem Region.leftHalf (k : Word) : Region (lo 64 k.toNat + 1) k.toNat := by
  intro c start stop
  have := lt_hi 64 k.toNat
  have covers : Covers 64 k.toNat c.toNat := ⟨start, by omega⟩
  have half := covers.left k.isLt c.isLt stop
  omega

theorem Region.rightHalf (k : Word) : Region (k.toNat + 1) (hi 64 k.toNat) := by
  intro c start stop
  have := lo_le 64 k.toNat
  have covers : Covers 64 k.toNat c.toNat := ⟨by omega, stop⟩
  have half := covers.right k.isLt c.isLt start
  omega

/-- A well-formed tree with a root key in `[low, high)`. A node without a
binding has the value zero and two subtrees. -/
def Wf : Ucmap → Nat → Nat → Prop
  | null, _, _ => True
  | node key hasValue value left right, low, high =>
    low ≤ key.toNat ∧ key.toNat < high ∧
      Wf left (lo 64 key.toNat + 1) key.toNat ∧ Wf right (key.toNat + 1) (hi 64 key.toNat) ∧
      (hasValue = false → value = 0 ∧ left ≠ null ∧ right ≠ null)

/-- The key of some node, with or without a binding. -/
def HasKey : Ucmap → Word → Prop
  | null, _ => False
  | node key _ _ left right, x => x = key ∨ HasKey left x ∨ HasKey right x

/-- The key of a node without a binding. -/
def HasJoin : Ucmap → Word → Prop
  | null, _ => False
  | node key hasValue _ left right, x => (x = key ∧ hasValue = false) ∨ HasJoin left x ∨ HasJoin right x

instance HasJoin.decidable : (t : Ucmap) → (x : Word) → Decidable (HasJoin t x)
  | null, _ => inferInstanceAs (Decidable False)
  | node key hasValue _ left right, x =>
    have := decidable left x
    have := decidable right x
    inferInstanceAs (Decidable ((x = key ∧ hasValue = false) ∨ HasJoin left x ∨ HasJoin right x))

/-- The binding of a key found by the order of the keys alone. -/
def lookup : Ucmap → Word → Option Word
  | null, _ => none
  | node key hasValue value left right, x =>
    if x = key then (if hasValue then some value else none)
    else if x < key then lookup left x else lookup right x

variable {t : Ucmap} {low high : Nat} {x : Word}

theorem HasJoin.hasKey (join : HasJoin t x) : HasKey t x := by
  induction t with
  | null => exact join
  | node key hasValue value left right ihLeft ihRight =>
    rcases join with ⟨same, _⟩ | inLeft | inRight
    · exact .inl same
    · exact .inr (.inl (ihLeft inLeft))
    · exact .inr (.inr (ihRight inRight))

theorem hasKey_of_lookup (found : lookup t x = some v) : HasKey t x := by
  induction t with
  | null => cases found
  | node key hasValue value left right ihLeft ihRight =>
    unfold lookup at found
    split at found
    · next same => exact .inl same
    · split at found
      · exact .inr (.inl (ihLeft found))
      · exact .inr (.inr (ihRight found))

theorem Wf.mono (wf : Wf t low high) (lower : low' ≤ low) (upper : high ≤ high') :
    Wf t low' high' := by
  cases t with
  | null => trivial
  | node key hasValue value left right =>
    obtain ⟨start, stop, inner⟩ := wf
    exact ⟨by omega, by omega, inner⟩

theorem Wf.hasKey_bounds (region : Region low high) (wf : Wf t low high) (stored : HasKey t x) :
    low ≤ x.toNat ∧ x.toNat < high := by
  induction t generalizing low high with
  | null => exact stored.elim
  | node key hasValue value left right ihLeft ihRight =>
    obtain ⟨start, stop, wfLeft, wfRight, _⟩ := wf
    have closed := region key start stop
    rcases stored with rfl | inLeft | inRight
    · exact ⟨start, stop⟩
    · have := ihLeft (Region.leftHalf key) wfLeft inLeft
      omega
    · have := ihRight (Region.rightHalf key) wfRight inRight
      omega

section Node

variable {key value : Word} {hasValue : Bool} {left right : Ucmap}

section

variable (wf : Wf (node key hasValue value left right) low high)

include wf

theorem Wf.hasKey_left (stored : HasKey left x) : lo 64 key.toNat < x.toNat ∧ x.toNat < key.toNat :=
  wf.2.2.1.hasKey_bounds (Region.leftHalf key) stored

theorem Wf.hasKey_right (stored : HasKey right x) : key.toNat < x.toNat ∧ x.toNat < hi 64 key.toNat :=
  wf.2.2.2.1.hasKey_bounds (Region.rightHalf key) stored

theorem Wf.hasKey_block (stored : HasKey (node key hasValue value left right) x) :
    x = key ∨ Covers 64 key.toNat x.toNat := by
  have := lo_le 64 key.toNat
  have := lt_hi 64 key.toNat
  rcases stored with same | inLeft | inRight
  · exact .inl same
  · have := wf.hasKey_left inLeft
    exact .inr ⟨by omega, by omega⟩
  · have := wf.hasKey_right inRight
    exact .inr ⟨by omega, by omega⟩

end

theorem lookup_eq_none (absent : ¬ HasKey t x) : lookup t x = none :=
  Option.eq_none_iff_forall_ne_some.mpr fun _ found => absent (hasKey_of_lookup found)

theorem Wf.lookup_left_eq_none (wf : Wf (node key hasValue value left right) low high)
    (outside : x.toNat ≤ lo 64 key.toNat ∨ key.toNat ≤ x.toNat) : lookup left x = none :=
  lookup_eq_none fun stored => by have := wf.hasKey_left stored; omega

theorem Wf.lookup_right_eq_none (wf : Wf (node key hasValue value left right) low high)
    (outside : x.toNat ≤ key.toNat ∨ hi 64 key.toNat ≤ x.toNat) : lookup right x = none :=
  lookup_eq_none fun stored => by have := wf.hasKey_right stored; omega

theorem left_half_lookup (wf : Wf t (lo 64 key.toNat + 1) key.toNat)
    (outside : key.toNat ≤ x.toNat) : lookup t x = none :=
  lookup_eq_none fun stored => by
    have := wf.hasKey_bounds (Region.leftHalf key) stored
    omega

theorem right_half_lookup (wf : Wf t (key.toNat + 1) (hi 64 key.toNat))
    (outside : x.toNat ≤ key.toNat) : lookup t x = none :=
  lookup_eq_none fun stored => by
    have := wf.hasKey_bounds (Region.rightHalf key) stored
    omega

/-- The search reaches exactly the bindings. The test of the block only ends it
earlier. -/
theorem Wf.find_eq (wf : Wf t low high) : find t x = lookup t x := by
  induction t generalizing low high with
  | null => rfl
  | node key hasValue value left right ihLeft ihRight =>
    unfold find lookup
    split
    · rfl
    by_cases inside : keyCoverseq key x = true
    · rw [if_pos inside, ihLeft wf.2.2.1, ihRight wf.2.2.2.1]
    rw [if_neg inside]
    rw [keyCoverseq_iff] at inside
    have := lo_le 64 key.toNat
    have := lt_hi 64 key.toNat
    split
    · next less =>
      exact (wf.lookup_left_eq_none (by omega)).symm
    · next more =>
      exact (wf.lookup_right_eq_none (by omega)).symm

theorem lookup_root : lookup (node key hasValue value left right) key =
    if hasValue then some value else none := by
  simp [lookup]

theorem lookup_of_lt (less : x.toNat < key.toNat) :
    lookup (node key hasValue value left right) x = lookup left x := by
  have differ : x ≠ key := by rintro rfl; omega
  rw [lookup, if_neg differ, if_pos (lt_def.mpr less)]

theorem lookup_of_gt (more : key.toNat < x.toNat) :
    lookup (node key hasValue value left right) x = lookup right x := by
  have differ : x ≠ key := by rintro rfl; omega
  have notLess : ¬ x < key := by rw [lt_def]; omega
  rw [lookup, if_neg differ, if_neg notLess]

end Node

theorem Wf.lookup_join (wf : Wf t low high) (join : HasJoin t x) : lookup t x = none := by
  induction t generalizing low high with
  | null => rfl
  | node key hasValue value left right ihLeft ihRight =>
    rcases join with ⟨same, bare⟩ | inLeft | inRight
    · rw [same, lookup_root, bare]
      rfl
    · rw [lookup_of_lt (wf.hasKey_left inLeft.hasKey).2]
      exact ihLeft wf.2.2.1 inLeft
    · rw [lookup_of_gt (wf.hasKey_right inRight.hasKey).1]
      exact ihRight wf.2.2.2.1 inRight

theorem Wf.exists_lookup (wf : Wf t low high) (nonnull : t ≠ null) : ∃ x v, lookup t x = some v := by
  induction t generalizing low high with
  | null => exact absurd rfl nonnull
  | node key hasValue value left right ihLeft _ =>
    cases hasValue with
    | true => exact ⟨key, value, by simp [lookup_root]⟩
    | false =>
      obtain ⟨x, v, found⟩ := ihLeft wf.2.2.1 (wf.2.2.2.2 rfl).2.1
      have := wf.hasKey_left (hasKey_of_lookup found)
      exact ⟨x, v, by rwa [lookup_of_lt this.2]⟩

theorem Wf.eq_null (wf : Wf t low high) (empty : ∀ x, lookup t x = none) : t = null := by
  by_contra nonnull
  obtain ⟨x, v, found⟩ := wf.exists_lookup nonnull
  rw [empty] at found
  cases found

section Unique

variable {key key' value value' : Word} {hasValue hasValue' : Bool} {left right left' right' : Ucmap}
  {low' high' : Nat}

theorem Wf.straddles (wf : Wf (node key hasValue value left right) low high) :
    (∃ x v, lookup (node key hasValue value left right) x = some v ∧ x.toNat ≤ key.toNat) ∧
      ∃ x v, lookup (node key hasValue value left right) x = some v ∧ key.toNat ≤ x.toNat := by
  cases hasValue with
  | true => exact ⟨⟨key, value, by simp [lookup_root]⟩, ⟨key, value, by simp [lookup_root]⟩⟩
  | false =>
    obtain ⟨_, leftNonnull, rightNonnull⟩ := wf.2.2.2.2 rfl
    obtain ⟨x, v, found⟩ := wf.2.2.1.exists_lookup leftNonnull
    obtain ⟨y, u, found'⟩ := wf.2.2.2.1.exists_lookup rightNonnull
    have := wf.hasKey_left (hasKey_of_lookup found)
    have := wf.hasKey_right (hasKey_of_lookup found')
    exact ⟨⟨x, v, by rwa [lookup_of_lt (by omega)], by omega⟩, ⟨y, u, by rwa [lookup_of_gt (by omega)], by omega⟩⟩

/-- Trees with the same bindings have the same root key: otherwise the bindings
of one would all lie outside the block of the other, or in one half of it. -/
theorem Wf.root_unique (wf : Wf (node key hasValue value left right) low high)
    (wf' : Wf (node key' hasValue' value' left' right') low' high')
    (same : ∀ x, lookup (node key hasValue value left right) x =
      lookup (node key' hasValue' value' left' right') x) : key = key' := by
  by_contra ne
  have relation := @laminar 64 key.toNat key'.toNat key.isLt key'.isLt
    fun equal => ne (eq_of_toNat_eq equal)
  obtain ⟨⟨x, v, found, below⟩, ⟨y, u, found', above⟩⟩ := wf.straddles
  obtain ⟨⟨x', v', foundX, below'⟩, ⟨y', u', foundY, above'⟩⟩ := wf'.straddles
  have block := wf'.hasKey_block (hasKey_of_lookup (same x ▸ found))
  have block' := wf'.hasKey_block (hasKey_of_lookup (same y ▸ found'))
  have blockX := wf.hasKey_block (hasKey_of_lookup ((same x').symm ▸ foundX))
  have blockY := wf.hasKey_block (hasKey_of_lookup ((same y').symm ▸ foundY))
  simp only [Covers, toNat_eq] at ne block block' blockX blockY
  have := lo_le 64 key.toNat
  have := lt_hi 64 key.toNat
  have := lo_le 64 key'.toNat
  have := lt_hi 64 key'.toNat
  omega

theorem Wf.ext (wf : Wf t low high) (wf' : Wf t' low' high')
    (same : ∀ x, lookup t x = lookup t' x) : t = t' := by
  induction t generalizing low high low' high' t' with
  | null => exact (wf'.eq_null fun x => (same x).symm).symm
  | node key hasValue value left right ihLeft ihRight =>
    cases t' with
    | null => exact wf.eq_null same
    | node key' hasValue' value' left' right' =>
      obtain rfl := wf.root_unique wf' same
      have leftSame : left = left' := by
        refine ihLeft wf.2.2.1 wf'.2.2.1 fun x => ?_
        by_cases less : x.toNat < key.toNat
        · have := same x
          rwa [lookup_of_lt less, lookup_of_lt less] at this
        · rw [wf.lookup_left_eq_none (by omega), wf'.lookup_left_eq_none (by omega)]
      have rightSame : right = right' := by
        refine ihRight wf.2.2.2.1 wf'.2.2.2.1 fun x => ?_
        by_cases more : key.toNat < x.toNat
        · have := same x
          rwa [lookup_of_gt more, lookup_of_gt more] at this
        · rw [wf.lookup_right_eq_none (by omega), wf'.lookup_right_eq_none (by omega)]
      have root := same key
      rw [lookup_root, lookup_root] at root
      obtain rfl := leftSame
      obtain rfl := rightSame
      cases hasValue <;> cases hasValue'
      · rw [(wf.2.2.2.2 rfl).1, (wf'.2.2.2.2 rfl).1]
      · simp at root
      · simp at root
      · simpa using root

end Unique

/-- A well-formed tree with exactly the given bindings. -/
structure Represents (t : Ucmap) (low high : Nat) (map : Word → Option Word) : Prop where
  wf : Wf t low high
  lookup_eq : ∀ x, lookup t x = map x

theorem Wf.represents (wf : Wf t low high) : Represents t low high (lookup t) := ⟨wf, fun _ => rfl⟩

theorem Represents.congr (rep : Represents t low high map)
    (same : ∀ x, map x = map' x) : Represents t low high map' :=
  ⟨rep.wf, fun x => (rep.lookup_eq x).trans (same x)⟩

theorem Represents.ne_null (rep : Represents t low high map)
    (bound : map x ≠ none) : t ≠ null := by
  rintro rfl
  exact bound (rep.lookup_eq x).symm

end Culibs.Cucon.Ucmap
