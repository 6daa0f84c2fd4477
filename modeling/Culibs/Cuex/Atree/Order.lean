import Culibs.Cuex.Atree.Canonical

/-! Inclusion and order of trees by their keys and values. The search for the smaller tree below a node leaves
out the last word of the block as a centre, which is one where two keys end the block. -/

namespace Culibs.Cuex.Atree

open Cu DyadicBlock List

section Functions

variable {α β γ : Type} [DecidableEq α] (opnAt : α → Nat → β) (getKey : α → Word) (valueIndex : Nat)

/-- `cuex_atree_deep_subseteq`, which its variants for operands of the elements apply to their adaptors. -/
def deepSubseteq (valueSubseteq : α → α → Bool) (tree0 tree1 : Option (Atree α)) : Bool :=
  if tree0 = tree1 then true
  else
    match tree0, tree1 with
    | none, _ => true
    | _, none => false
    | some tree0, some tree1 => subseteqLoop getKey valueSubseteq tree0 tree1

/-- What `cuex_atree_order` and its deep variants have in common. -/
def deepOrder (valueSubseteq : α → α → Bool) (valueOrder : α → α → Order) (tree0 tree1 : Option (Atree α)) : Order :=
  if tree0 = tree1 then .eq
  else
    match tree0, tree1 with
    | none, _ => .lt
    | _, none => .gt
    | some tree0, some tree1 => orderLoop getKey valueSubseteq valueOrder tree0 tree1

/-- `_subseteq_iv_adaptor` and `_order_iv_adaptor`. -/
def ivAdaptor (f : β → β → γ) (e0 e1 : α) : γ := f (opnAt e0 valueIndex) (opnAt e1 valueIndex)

def deepSubseteqIv (valueSubseteq : β → β → Bool) : Option (Atree α) → Option (Atree α) → Bool :=
  deepSubseteq getKey (ivAdaptor opnAt valueIndex valueSubseteq)

/-- `cuex_atree_deep_order_iv`, which stores `value_order` as `value_subseteq`. Only `cu_order_none` is zero. -/
def deepOrderIv (_valueSubseteq : β → β → Bool) (valueOrder : β → β → Order) :
    Option (Atree α) → Option (Atree α) → Order :=
  deepOrder getKey (ivAdaptor opnAt valueIndex fun v0 v1 => valueOrder v0 v1 != .none)
    (ivAdaptor opnAt valueIndex valueOrder)

end Functions

variable {α : Type} {getKey : α → Word} {q r : α → α → Bool} {valueOrder : α → α → Order}
  {low0 high0 low1 high1 low high : Nat} {t t0 t1 left right left0 left1 right0 right1 : Atree α}
  {tree0 tree1 : Option (Atree α)} {centre centre0 centre1 x y : Word} {value0 value1 : α}

/-- Every element of the first tree has its key in the second, with values that are in order. -/
def Included (getKey : α → Word) (r : α → α → Bool) (tree0 tree1 : Option (Atree α)) : Prop :=
  ∀ key value0, find getKey tree0 key = some value0 → ∃ value1, find getKey tree1 key = some value1 ∧ r value0 value1

theorem Included.refl (self : ∀ value, r value value = true) (tree : Option (Atree α)) : Included getKey r tree tree :=
  fun _ value found => ⟨value, found, self value⟩

/-- A node has elements on both sides of its centre. -/
theorem not_included (wf0 : Wf getKey (anode centre left right) low high) (wf1 : Wf getKey t1 low1 high1)
    (apart : centre.toNat ≤ low1 ∨ high1 ≤ centre.toNat) :
    ¬ Included getKey r (some (anode centre left right)) (some t1) := by
  intro included
  obtain ⟨key0, value0, key1, value1, found0, found1, bounds⟩ := wf0.exists_both
  obtain ⟨_, found0', _⟩ := included key0 value0 found0
  obtain ⟨_, found1', _⟩ := included key1 value1 found1
  have := wf1.findLoop_bounds found0'
  have := wf1.findLoop_bounds found1'
  omega

theorem not_included_leaf (wf0 : Wf getKey (anode centre left right) low high) :
    ¬ Included getKey r (some (anode centre left right)) (some (leaf value1)) := by
  have single : Wf getKey (leaf value1) (getKey value1).toNat ((getKey value1).toNat + 1) :=
    ⟨le_rfl, Nat.lt_succ_self _⟩
  exact not_included wf0 single (by omega)

theorem not_included_none (wf : Wf getKey t low high) : ¬ Included getKey r (some t) none := by
  intro included
  obtain ⟨key, value, found⟩ := wf.exists_find
  obtain ⟨_, found', _⟩ := included key value found
  cases found'

theorem included_congr (same : ∀ key value, findLoop getKey t key = some value → findLoop getKey t0 key = findLoop
    getKey t1 key) :
    Included getKey r (some t) (some t0) ↔ Included getKey r (some t) (some t1) := by
  refine forall_congr' fun key => forall_congr' fun value => forall_congr' fun found => ?_
  rw [find_some, same key value found, ← find_some]

theorem Wf.included_left (wf1 : Wf getKey (anode centre left right) low high)
    (wf0 : Wf getKey t0 (lo 64 centre.toNat) centre.toNat) :
    Included getKey r (some t0) (some (anode centre left right)) ↔ Included getKey r (some t0) (some left) :=
  included_congr fun _ _ found => wf1.findLoop_left (wf0.findLoop_bounds found).2

theorem Wf.included_right (wf1 : Wf getKey (anode centre left right) low high)
    (wf0 : Wf getKey t0 centre.toNat (hi 64 centre.toNat)) :
    Included getKey r (some t0) (some (anode centre left right)) ↔ Included getKey r (some t0) (some right) :=
  included_congr fun _ _ found => wf1.findLoop_right (wf0.findLoop_bounds found).1

theorem leaf_included_iff : Included getKey r (some (leaf value0)) tree1 ↔
    ∃ value, find getKey tree1 (getKey value0) = some value ∧ r value0 value = true := by
  constructor
  · intro included
    exact included (getKey value0) value0 (by simp)
  · rintro ⟨value, found, less⟩ key value' own
    rw [find_some, findLoop_leaf] at own
    split at own
    · next same =>
      cases own
      exact ⟨value, same ▸ found, less⟩
    · cases own

theorem Wf.own_block (wf : Wf getKey (anode centre left right) low high) :
    Wf getKey (anode centre left right) (lo 64 centre.toNat) (hi 64 centre.toNat) :=
  wf.of_block (le_rfl) (le_rfl)

/-- The centres of the nodes of a tree. -/
def centres : Atree α → List Word
  | leaf _ => []
  | anode centre left right => centre :: (centres left ++ centres right)

def root : Atree α → Option Word
  | leaf _ => none
  | anode centre _ _ => some centre

/-- The centres of the nodes whose right subtree has the last word of their block as its centre. -/
def ends : Atree α → List Word
  | leaf _ => []
  | anode centre left right =>
    (if root right = some (centreToMax centre) then [centre] else []) ++ (ends left ++ ends right)

/-- The first tree has a node at the last word of the block of a node of the second one, as the right subtree is
there, but has no node with the centre of the latter. -/
def Crowded (t0 t1 : Atree α) : Prop := ∃ y ∈ ends t1, centreToMax y ∈ centres t0 ∧ y ∉ centres t0

theorem mem_ends_anode : y ∈ ends (anode centre left right) ↔
    (y = centre ∧ root right = some (centreToMax centre)) ∨ y ∈ ends left ∨ y ∈ ends right := by
  rw [ends, mem_append, mem_append]
  split <;> simp [*]

theorem mem_centres_anode :
    x ∈ centres (anode centre left right) ↔ x = centre ∨ x ∈ centres left ∨ x ∈ centres right := by
  rw [centres, mem_cons, mem_append]

theorem mem_centres_root (here : root t = some x) : x ∈ centres t := by
  cases t with
  | leaf value => cases here
  | anode centre left right => exact mem_centres_anode.mpr (.inl (Option.some.inj here).symm)

theorem centres_of_ends (atEnd : y ∈ ends t) : y ∈ centres t ∧ centreToMax y ∈ centres t := by
  induction t with
  | leaf value => cases atEnd
  | anode centre left right ihLeft ihRight =>
    rw [mem_centres_anode, mem_centres_anode]
    rcases mem_ends_anode.mp atEnd with ⟨rfl, last⟩ | inLeft | inRight
    · exact ⟨.inl rfl, .inr (.inr (mem_centres_root last))⟩
    · exact ⟨.inr (.inl (ihLeft inLeft).1), .inr (.inl (ihLeft inLeft).2)⟩
    · exact ⟨.inr (.inr (ihRight inRight).1), .inr (.inr (ihRight inRight).2)⟩

theorem Wf.centre_bounds (wf : Wf getKey t low high) (inside : x ∈ centres t) : low < x.toNat ∧ x.toNat < high := by
  induction t generalizing low high with
  | leaf value => cases inside
  | anode centre left right ihLeft ihRight =>
    obtain ⟨nonzero, start, stop, wfLeft, wfRight⟩ := wf
    have := lo_lt (w := 64) (toNat_pos nonzero)
    have := lt_hi 64 centre.toNat
    rcases mem_centres_anode.mp inside with rfl | inLeft | inRight
    · omega
    · have := ihLeft wfLeft inLeft
      omega
    · have := ihRight wfRight inRight
      omega

theorem not_crowded_leaf : ¬ Crowded (leaf value0) t1 := by
  rintro ⟨y, _, inside, _⟩
  cases inside

theorem not_crowded_self : ¬ Crowded t t := fun ⟨_, atEnd, _, apart⟩ => apart (centres_of_ends atEnd).1

section Node

variable (wf1 : Wf getKey (anode centre left right) low high)

include wf1

theorem Wf.mem_centres_left (before : x.toNat < centre.toNat) : x ∈ centres (anode centre left right) ↔ x ∈ centres left := by
  rw [mem_centres_anode, ← or_assoc, or_iff_left, or_iff_right]
  · rintro rfl
    exact lt_irrefl _ before
  · exact fun inside => lt_asymm before (wf1.2.2.2.2.centre_bounds inside).1

theorem Wf.mem_centres_right (after : centre.toNat < x.toNat) :
    x ∈ centres (anode centre left right) ↔ x ∈ centres right := by
  rw [mem_centres_anode, or_iff_right, or_iff_right]
  · exact fun inside => lt_asymm after (wf1.2.2.2.1.centre_bounds inside).2
  · rintro rfl
    exact lt_irrefl _ after

theorem Wf.crowded_left (wf0 : Wf getKey t0 (lo 64 centre.toNat) centre.toNat) :
    Crowded t0 (anode centre left right) ↔ Crowded t0 left := by
  refine ⟨?_, fun ⟨y, atEnd, rest⟩ => ⟨y, mem_ends_anode.mpr (.inr (.inl atEnd)), rest⟩⟩
  rintro ⟨y, atEnd, last, apart⟩
  have before := (wf0.centre_bounds last).2
  have notRight (inside : centreToMax y ∈ centres right) : False :=
    lt_asymm before (wf1.2.2.2.2.centre_bounds inside).1
  rcases mem_ends_anode.mp atEnd with ⟨rfl, last⟩ | inLeft | inRight
  · exact (notRight (mem_centres_root last)).elim
  · exact ⟨y, inLeft, last, apart⟩
  · exact (notRight (centres_of_ends inRight).2).elim

theorem Wf.crowded_right (wf0 : Wf getKey t0 centre.toNat (hi 64 centre.toNat)) :
    Crowded t0 (anode centre left right) ↔
      Crowded t0 right ∨ root right = some (centreToMax centre) ∧ centreToMax centre ∈ centres t0 := by
  constructor
  · rintro ⟨y, atEnd, last, apart⟩
    rcases mem_ends_anode.mp atEnd with ⟨rfl, here⟩ | inLeft | inRight
    · exact .inr ⟨here, last⟩
    · exact absurd (wf1.2.2.2.1.centre_bounds (centres_of_ends inLeft).2).2
        (lt_asymm (wf0.centre_bounds last).1)
    · exact .inl ⟨y, inRight, last, apart⟩
  · rintro (⟨y, atEnd, rest⟩ | ⟨here, last⟩)
    · exact ⟨y, mem_ends_anode.mpr (.inr (.inr atEnd)), rest⟩
    · exact ⟨centre, mem_ends_anode.mpr (.inl ⟨rfl, here⟩), last,
        fun own => lt_irrefl _ (wf0.centre_bounds own).1⟩

end Node

section SameCentre

variable (wf0 : Wf getKey (anode centre left0 right0) low0 high0) (wf1 : Wf getKey (anode centre left1 right1) low1 high1)

include wf0 wf1

theorem included_same_centre :
    Included getKey r (some (anode centre left0 right0)) (some (anode centre left1 right1)) ↔
      Included getKey r (some left0) (some left1) ∧ Included getKey r (some right0) (some right1) := by
  rw [← wf1.included_left wf0.2.2.2.1, ← wf1.included_right wf0.2.2.2.2]
  constructor
  · intro included
    exact ⟨fun key value found => included key value (wf0.findLoop_of_left found),
      fun key value found => included key value (wf0.findLoop_of_right found)⟩
  · rintro ⟨inLeft, inRight⟩ key value found
    rw [find_some, wf0.findLoop_anode] at found
    split at found
    · exact inLeft key value found
    · exact inRight key value found

theorem crowded_same_centre : Crowded (anode centre left0 right0) (anode centre left1 right1) ↔
    Crowded left0 left1 ∨ Crowded right0 right1 := by
  have atLeft (y : Word) (atEnd : y ∈ ends left1) :
      (centreToMax y ∈ centres (anode centre left0 right0) ∧ y ∉ centres (anode centre left0 right0)) ↔
        centreToMax y ∈ centres left0 ∧ y ∉ centres left0 := by
    have inside := centres_of_ends atEnd
    rw [wf0.mem_centres_left (wf1.2.2.2.1.centre_bounds inside.1).2,
      wf0.mem_centres_left (wf1.2.2.2.1.centre_bounds inside.2).2]
  have atRight (y : Word) (atEnd : y ∈ ends right1) :
      (centreToMax y ∈ centres (anode centre left0 right0) ∧ y ∉ centres (anode centre left0 right0)) ↔
        centreToMax y ∈ centres right0 ∧ y ∉ centres right0 := by
    have inside := centres_of_ends atEnd
    rw [wf0.mem_centres_right (wf1.2.2.2.2.centre_bounds inside.1).1,
      wf0.mem_centres_right (wf1.2.2.2.2.centre_bounds inside.2).1]
  simp only [Crowded, mem_ends_anode, or_and_right, exists_or]
  rw [or_iff_right]
  · exact or_congr (exists_congr fun y => and_congr_right (atLeft y)) (exists_congr fun y => and_congr_right (atRight y))
  · rintro ⟨y, ⟨rfl, _⟩, _, apart⟩
    exact apart (mem_centres_anode.mpr (.inl rfl))

end SameCentre

/-- The positions of two blocks by the comparisons of `atree_subseteq`. -/
theorem block_above_min (nonzero1 : centre1 ≠ 0) (less : centre0 < centre1) (min : centreToMin centre1 < centre0) :
    lo 64 centre1.toNat ≤ lo 64 centre0.toNat ∧ hi 64 centre0.toNat ≤ centre1.toNat := by
  rw [BitVec.lt_def] at less
  rw [BitVec.lt_def, toNat_centreToMin nonzero1] at min
  have := lo_le 64 centre0.toNat
  have := lt_hi 64 centre0.toNat
  have := lt_hi 64 centre1.toNat
  have := laminar centre0.isLt centre1.isLt (ne_of_lt less)
  omega

theorem block_below_max (less : centre1 < centre0) (max : centre0.toNat < hi 64 centre1.toNat) :
    centre1.toNat ≤ lo 64 centre0.toNat ∧ hi 64 centre0.toNat ≤ hi 64 centre1.toNat := by
  rw [BitVec.lt_def] at less
  have := lo_le 64 centre0.toNat
  have := lt_hi 64 centre0.toNat
  have := lo_le 64 centre1.toNat
  have := laminar centre0.isLt centre1.isLt (ne_of_gt less)
  omega

/-- Where the first root is the last word of the block of the second, it is a root on the way to the end of the block. -/
theorem crowded_of_last (wf0 : Wf getKey (anode x left0 right0) low0 high0)
    (wf1 : Wf getKey (anode centre1 left1 right1) low1 high1) (less : centre1 < x) (last : hi 64 centre1.toNat = x.toNat + 1)
    (included : Included getKey r (some (anode x left0 right0)) (some (anode centre1 left1 right1))) :
    Crowded (anode x left0 right0) (anode centre1 left1 right1) := by
  induction right1 generalizing centre1 left1 low1 high1 with
  | leaf value =>
    have block := block_below_max less (by omega)
    exact absurd ((wf1.included_right (wf0.of_block block.1 block.2)).mp included) (not_included_leaf wf0)
  | anode centre left right _ ih =>
    have block := block_below_max less (by omega)
    have moved := wf0.of_block block.1 block.2
    rw [wf1.included_right moved] at included
    rw [wf1.crowded_right moved]
    have wf := wf1.2.2.2.2
    by_cases here : centre = x
    · have max : centreToMax centre1 = x := BitVec.eq_of_toNat_eq (by rw [toNat_centreToMax]; omega)
      exact .inr ⟨by rw [root, here, max], max ▸ mem_centres_anode.mpr (.inl rfl)⟩
    · have ends : x.toNat < hi 64 centre.toNat := by
        by_contra outside
        exact not_included wf0 wf.own_block (.inr (Nat.le_of_not_lt outside)) included
      have := wf.2.2.1
      have := lt_hi 64 centre.toNat
      have : centre.toNat ≠ x.toNat := fun same => here (BitVec.eq_of_toNat_eq same)
      exact .inl (ih wf (BitVec.lt_def.mpr (by omega)) (by omega) included)

/-- A subtree in the right half is only crowded there, or its root is the last word of the block. -/
theorem Wf.crowded_right_iff (wf1 : Wf getKey (anode centre1 left1 right1) low1 high1)
    (wf0 : Wf getKey (anode centre0 left0 right0) centre1.toNat (hi 64 centre1.toNat)) (max : centre0 < centreToMax centre1)
    (included : Included getKey r (some (anode centre0 left0 right0)) (some right1)) :
    Crowded (anode centre0 left0 right0) (anode centre1 left1 right1) ↔ Crowded (anode centre0 left0 right0) right1 := by
  rw [wf1.crowded_right wf0, or_iff_left]
  rintro ⟨here, _⟩
  have after := (wf1.2.2.2.2.centre_bounds (mem_centres_root here)).1
  cases right1 with
  | leaf value => cases here
  | anode centre left right =>
    cases here
    have value := toNat_centreToMax centre1
    have block := block_below_max (BitVec.lt_def.mpr after) (by omega)
    -- The block of the last word ends with it.
    have size : lo 64 (centreToMax centre1).toNat + rad 64 (centreToMax centre1).toNat = (centreToMax centre1).toNat :=
      lo_add_rad (Nat.zero_lt_of_lt after)
    rw [hi] at block
    rw [BitVec.lt_def] at max
    exact not_included wf0 wf1.2.2.2.2.own_block (.inl (by omega)) included

/-- The order with the sides exchanged. -/
def swapOrder : Order → Order
  | .lt => .gt
  | .gt => .lt
  | order => order

/-- The order of two maps by the inclusions of their keys. -/
def Describes : Order → Prop → Prop → Prop
  | .eq, less, greater => less ∧ greater
  | .lt, less, greater => less ∧ ¬ greater
  | .gt, less, greater => ¬ less ∧ greater
  | .none, less, greater => ¬ less ∧ ¬ greater

section Orders

variable {order order0 order1 : Order} {b : Bool} {p p0 p1 q q0 q1 : Prop}

theorem Describes.congr (describes : Describes order p q) (left : p ↔ p0) (right : q ↔ q0) : Describes order p0 q0 := by
  rwa [← propext left, ← propext right]

theorem Describes.swap (describes : Describes order p q) (same : swapOrder order = order0) : Describes order0 q p := by
  subst same
  cases order <;> exact ⟨describes.2, describes.1⟩

theorem Describes.iff_both (describes : Describes order p q) : Describes order p0 q0 ↔ (p ↔ p0) ∧ (q ↔ q0) := by
  refine ⟨fun describes0 => ?_, fun same => describes.congr same.1 same.2⟩
  cases order <;> simp_all [Describes]

/-- The order of two nodes of one centre from those of their subtrees. -/
theorem Describes.both (left : Describes order0 p0 q0) (right : Describes order1 p1 q1) :
    Describes (if order0 = .none then .none else if order0 = order1 then order0 else if order0 = .eq then order1
      else if order1 = .eq then order0 else .none) (p0 ∧ p1) (q0 ∧ q1) := by
  cases order0 <;> cases order1 <;> simp_all [Describes]

theorem describes_lt (found : b = true ↔ p) (smaller : ¬ q) : Describes (if b then .lt else .none) p q := by
  cases b with
  | true => exact ⟨found.mp rfl, smaller⟩
  | false => exact ⟨fun less => Bool.false_ne_true (found.mpr less), smaller⟩

end Orders

/-- The orders of values that callers provide: `value_subseteq` is reflexive, and `value_order` is its order. -/
structure Fits (r : α → α → Bool) (valueOrder : α → α → Order) : Prop where
  self : ∀ value, r value value = true
  describes : ∀ value0 value1, Describes (valueOrder value0 value1) (r value0 value1 = true) (r value1 value0 = true)

/-- The key leads to two leaves, past nodes with the same centres, so that `value_order` compares the elements. -/
def Aligned : Atree α → Atree α → Word → Prop
  | leaf _, leaf _, _ => True
  | anode centre0 left0 right0, anode centre1 left1 right1, key =>
    centre0 = centre1 ∧ if key.toNat < centre0.toNat then Aligned left0 left1 key else Aligned right0 right1 key
  | _, _, _ => False

/-- The first tree is crowded in the half of the second one that it lies in, below the nodes with the same centres. -/
def CrowdedBelow : Atree α → Atree α → Prop
  | anode centre0 left0 right0, anode centre1 left1 right1 =>
    if centre0 = centre1 then CrowdedBelow left0 left1 ∨ CrowdedBelow right0 right1
    else Crowded (anode centre0 left0 right0) (if centre0 < centre1 then left1 else right1)
  | _, _ => False

/-- Inclusion by what the callbacks compare: `q` is asked for as `value_subseteq`, `r` is what `value_order` describes. -/
def Compared (getKey : α → Word) (q r : α → α → Bool) (t0 t1 : Atree α) : Prop :=
  ∀ key value0, findLoop getKey t0 key = some value0 →
    ∃ value1, findLoop getKey t1 key = some value1 ∧ q value0 value1 ∧ (Aligned t0 t1 key → r value0 value1)

/-- The inclusions that `atree_order` finds. -/
def Found (getKey : α → Word) (q r : α → α → Bool) (t0 t1 : Atree α) : Prop :=
  Compared getKey q r t0 t1 ∧ ¬ CrowdedBelow t0 t1

theorem compared_apart (apart : ∀ key, ¬ Aligned t0 t1 key) :
    Compared getKey q r t0 t1 ↔ Included getKey q (some t0) (some t1) := by
  simp [Compared, Included, apart, find_some]

private theorem compared_same_centre (wf0 : Wf getKey (anode centre left0 right0) low0 high0)
    (wf1 : Wf getKey (anode centre left1 right1) low1 high1) :
    Compared getKey q r (anode centre left0 right0) (anode centre left1 right1) ↔
      Compared getKey q r left0 left1 ∧ Compared getKey q r right0 right1 := by
  constructor
  · intro compared
    constructor
    · intro key value0 found
      have below := (wf0.2.2.2.1.findLoop_bounds found).2
      obtain ⟨value1, found1, less, aligned⟩ := compared key value0 (wf0.findLoop_of_left found)
      refine ⟨value1, wf1.findLoop_left below ▸ found1, less, fun both => aligned ⟨rfl, ?_⟩⟩
      rwa [if_pos below]
    · intro key value0 found
      have above := (wf0.2.2.2.2.findLoop_bounds found).1
      obtain ⟨value1, found1, less, aligned⟩ := compared key value0 (wf0.findLoop_of_right found)
      refine ⟨value1, wf1.findLoop_right above ▸ found1, less, fun both => aligned ⟨rfl, ?_⟩⟩
      rwa [if_neg (Nat.not_lt_of_le above)]
  · rintro ⟨inLeft, inRight⟩ key value0 found
    rw [wf0.findLoop_anode] at found
    rw [wf1.findLoop_anode, Aligned]
    split_ifs at found ⊢ with below
    · obtain ⟨value1, found1, less, aligned⟩ := inLeft key value0 found
      exact ⟨value1, found1, less, fun both => aligned both.2⟩
    · obtain ⟨value1, found1, less, aligned⟩ := inRight key value0 found
      exact ⟨value1, found1, less, fun both => aligned both.2⟩

theorem CrowdedBelow.crowded (below : CrowdedBelow t0 t1) (wf0 : Wf getKey t0 low0 high0) (wf1 : Wf getKey t1 low1 high1) :
    Crowded t0 t1 := by
  induction t0 generalizing t1 low0 high0 low1 high1 with
  | leaf value => cases t1 <;> cases below
  | anode centre0 left0 right0 ihLeft ihRight =>
    cases t1 with
    | leaf value => cases below
    | anode centre1 left1 right1 =>
      rw [CrowdedBelow] at below
      split_ifs at below with same less
      · subst same
        exact (crowded_same_centre wf0 wf1).mpr
          (below.imp (ihLeft · wf0.2.2.2.1 wf1.2.2.2.1) (ihRight · wf0.2.2.2.2 wf1.2.2.2.2))
      · exact below.imp fun y => .imp_left fun atEnd => mem_ends_anode.mpr (.inr (.inl atEnd))
      · exact below.imp fun y => .imp_left fun atEnd => mem_ends_anode.mpr (.inr (.inr atEnd))

private theorem found_leaf_leaf (less : ∀ e0 e1, r e0 e1 = true → q e0 e1 = true) :
    Found getKey q r (leaf value0) (leaf value1) ↔ getKey value1 = getKey value0 ∧ r value0 value1 = true := by
  constructor
  · rintro ⟨compared, _⟩
    obtain ⟨_, found, _, aligned⟩ := compared (getKey value0) value0 (by simp)
    rw [findLoop_leaf] at found
    split at found
    · next same =>
      cases found
      exact ⟨same, aligned trivial⟩
    · cases found
  · rintro ⟨same, own⟩
    refine ⟨fun key value found => ?_, id⟩
    rw [findLoop_leaf] at found
    split at found
    · next here =>
      cases found
      exact ⟨value1, by simp [same, here], less _ _ own, fun _ => own⟩
    · cases found

theorem Found.refl (selfQ : ∀ value, q value value = true) (selfR : ∀ value, r value value = true)
    (wf : Wf getKey t low high) : Found getKey q r t t :=
  ⟨fun _ value found => ⟨value, found, selfQ value, fun _ => selfR value⟩,
    fun below => not_crowded_self (below.crowded wf wf)⟩

private theorem found_beside (apart : centre0 ≠ centre1) :
    Found getKey q r (anode centre0 left0 right0) (anode centre1 left1 right1) ↔
      Included getKey q (some (anode centre0 left0 right0)) (some (anode centre1 left1 right1)) ∧
        ¬ Crowded (anode centre0 left0 right0) (if centre0 < centre1 then left1 else right1) := by
  rw [Found, CrowdedBelow, if_neg apart, compared_apart]
  intro key aligned
  rw [Aligned] at aligned
  exact apart aligned.1

private theorem leaf_describes (wf1 : Wf getKey (anode centre1 left1 right1) low1 high1) :
    Describes
      (match findLoop getKey (anode centre1 left1 right1) (getKey value0) with
      | some value => if q value0 value then .lt else .none
      | none => .none)
      (Found getKey q r (leaf value0) (anode centre1 left1 right1))
      (Found getKey q r (anode centre1 left1 right1) (leaf value0)) := by
  have smaller : ¬ Found getKey q r (anode centre1 left1 right1) (leaf value0) := fun found =>
    not_included_leaf wf1 ((compared_apart fun _ => id).mp found.1)
  have found : Found getKey q r (leaf value0) (anode centre1 left1 right1) ↔
      ∃ value, findLoop getKey (anode centre1 left1 right1) (getKey value0) = some value ∧ q value0 value = true := by
    rw [Found, compared_apart fun _ => id, leaf_included_iff]
    exact and_iff_left id
  split
  · next value here => exact describes_lt (by simp [found, here]) smaller
  · next absent => exact ⟨by simp [found, absent], smaller⟩

variable [DecidableEq α]

/-- The search is right unless the first tree is included and crowded. -/
theorem subseteqLoop_iff (self : ∀ value, r value value = true) (wf0 : Wf getKey t0 low0 high0)
    (wf1 : Wf getKey t1 low1 high1) :
    subseteqLoop getKey r t0 t1 = true ↔ Included getKey r (some t0) (some t1) ∧ ¬ Crowded t0 t1 := by
  fun_induction subseteqLoop getKey r t0 t1 generalizing low0 high0 low1 high1 with
  | case1 t => exact iff_of_true rfl ⟨.refl self _, not_crowded_self⟩
  | case2 value0 t1 leaf1 found _ => simp [not_crowded_leaf, leaf_included_iff, found]
  | case3 value0 t1 absent _ => simp [leaf_included_iff, absent]
  | case4 => simp [not_included_leaf wf0]
  | case5 =>
    rename_i apart _ ih
    rw [ih wf0.2.2.2.1 wf1.2.2.2.1] at apart
    rw [included_same_centre wf0 wf1, crowded_same_centre wf0 wf1, not_or]
    exact iff_of_false Bool.false_ne_true fun both => apart ⟨both.1.1, both.2.1⟩
  | case6 =>
    rename_i included _ ihLeft ihRight
    rw [Decidable.not_not, ihLeft wf0.2.2.2.1 wf1.2.2.2.1] at included
    rw [ihRight wf0.2.2.2.2 wf1.2.2.2.2, included_same_centre wf0 wf1, crowded_same_centre wf0 wf1, not_or,
      and_and_and_comm, and_iff_right included]
  | case7 =>
    rename_i less min1 min _ ih
    have block := block_above_min wf1.1 less min
    have moved := wf0.of_block block.1 block.2
    rw [ih wf0 wf1.2.2.2.1, wf1.included_left moved, wf1.crowded_left moved]
  | case8 =>
    rename_i less min1 min _
    rw [BitVec.lt_def, toNat_centreToMin wf1.1] at min
    simp [not_included wf0 wf1.own_block (.inl (Nat.le_of_not_lt min))]
  | case9 =>
    rename_i ne notLess max1 max _ ih
    have inside : _ < hi 64 _ - 1 := toNat_centreToMax _ ▸ BitVec.lt_def.mp max
    have block := block_below_max (less_of_not_less ne notLess) (lt_of_lt_of_le inside (Nat.sub_le _ _))
    have moved := wf0.of_block block.1 block.2
    rw [ih wf0 wf1.2.2.2.2, wf1.included_right moved]
    exact and_congr_right fun included => not_congr (wf1.crowded_right_iff moved max included).symm
  | case10 centre0 _ _ centre1 =>
    rename_i ne notLess max1 max _
    refine iff_of_false Bool.false_ne_true fun ⟨included, goes⟩ => goes ?_
    have inside : centre0.toNat < hi 64 centre1.toNat := by
      by_contra outside
      exact not_included wf0 wf1.own_block (.inr (Nat.le_of_not_lt outside)) included
    have value : max1.toNat = _ := toNat_centreToMax centre1
    rw [BitVec.lt_def] at max
    exact crowded_of_last wf0 wf1 (less_of_not_less ne notLess) (by omega) included

/-- One root lies beside the other tree, and at most one inclusion is left to search for. -/
theorem beside_describes (self : ∀ value, q value value = true) (wf0 : Wf getKey (anode centre0 left0 right0) low0 high0)
    (wf1 : Wf getKey (anode centre1 left1 right1) low1 high1) (less : centre0 < centre1) :
    Describes
      (if centreToMax centre0 < centre1 then
        if centreToMax centre0 < centreToMin centre1 then .none
        else if subseteqLoop getKey q (anode centre0 left0 right0) left1 then .lt else .none
      else if subseteqLoop getKey q (anode centre1 left1 right1) right0 then .gt else .none)
      (Found getKey q r (anode centre0 left0 right0) (anode centre1 left1 right1))
      (Found getKey q r (anode centre1 left1 right1) (anode centre0 left0 right0)) := by
  have apart : centre0 ≠ centre1 := fun same => BitVec.lt_irrefl _ (same ▸ less)
  rw [found_beside apart, found_beside apart.symm, if_pos less, if_neg fun more => BitVec.lt_asymm less more]
  split
  · next max =>
    split
    · next apart =>
      have before := blocks_apart wf1.1 apart
      have := lt_hi 64 centre0.toNat
      have := lo_le 64 centre1.toNat
      exact ⟨fun less => not_included wf0 wf1.own_block (.inl (by omega)) less.1,
        fun greater => not_included wf1 wf0.own_block (.inr (by omega)) greater.1⟩
    · next overlap =>
      have block := block_in_left wf1.1 less max overlap
      have moved := wf0.of_block block.1 block.2
      refine describes_lt ?_ fun greater => not_included wf1 moved (.inr le_rfl) greater.1
      rw [wf1.included_left moved, subseteqLoop_iff self wf0 wf1.2.2.2.1]
  · next max =>
    have block := block_in_right less max
    have moved := wf1.of_block block.1 block.2
    have found := subseteqLoop_iff self wf1 wf0.2.2.2.2
    rw [← wf0.included_right moved] at found
    refine (describes_lt (found) ?_).swap (apply_ite swapOrder _ _ _)
    exact fun less => not_included wf0 moved (.inl le_rfl) less.1

/-- Only nodes of one centre are compared on both sides. -/
theorem orderLoop_describes (fits : Fits r valueOrder) (less : ∀ e0 e1, r e0 e1 = true → q e0 e1 = true)
    (wf0 : Wf getKey t0 low0 high0) (wf1 : Wf getKey t1 low1 high1) :
    Describes (orderLoop getKey q valueOrder t0 t1) (Found getKey q r t0 t1) (Found getKey q r t1 t0) := by
  have self (value : α) : q value value = true := less value value (fits.self value)
  induction t0 generalizing t1 low0 high0 low1 high1 with
  | leaf value0 =>
    rw [orderLoop.eq_def]
    split
    · next same =>
      subst same
      exact ⟨.refl self fits.self wf0, .refl self fits.self wf0⟩
    cases t1 with
    | leaf value1 =>
      dsimp only
      rw [found_leaf_leaf less, found_leaf_leaf less]
      split
      · next equal => simpa [equal] using fits.describes value0 value1
      · next apart => exact ⟨fun both => apart both.1.symm, fun both => apart both.1⟩
    | anode centre1 left1 right1 => exact leaf_describes wf1
  | anode centre0 left0 right0 ihLeft ihRight =>
    rw [orderLoop.eq_def]
    split
    · next same =>
      subst same
      exact ⟨.refl self fits.self wf0, .refl self fits.self wf0⟩
    cases t1 with
    | leaf value1 =>
      refine (leaf_describes wf0).swap ?_
      dsimp only
      cases findLoop getKey (anode centre0 left0 right0) (getKey value1) with
      | none => rfl
      | some leaf0 => exact apply_ite swapOrder _ _ _
    | anode centre1 left1 right1 =>
      dsimp only
      split
      · next centre =>
        subst centre
        have both := (ihLeft wf0.2.2.2.1 wf1.2.2.2.1).both (ihRight wf0.2.2.2.2 wf1.2.2.2.2)
        refine both.congr ?_ ?_
        · rw [Found, Found, Found, compared_same_centre wf0 wf1, CrowdedBelow, if_pos rfl, not_or, and_and_and_comm]
        · rw [Found, Found, Found, compared_same_centre wf1 wf0, CrowdedBelow, if_pos rfl, not_or, and_and_and_comm]
      · next ne =>
        split
        · next less => exact beside_describes self wf0 wf1 less
        · next notLess =>
          exact (beside_describes self wf1 wf0 (less_of_not_less ne notLess)).swap (by split_ifs <;> rfl)

/-- A tree with an inclusion that the search misses. -/
def Misses (getKey : α → Word) (r : α → α → Bool) (tree0 tree1 : Option (Atree α)) : Prop :=
  Included getKey r tree0 tree1 ∧ ∃ t0 t1, tree0 = some t0 ∧ tree1 = some t1 ∧ Crowded t0 t1

/-- Inclusion in both directions and the order are right. -/
def Exact (getKey : α → Word) (r : α → α → Bool) (subseteq : Option (Atree α) → Option (Atree α) → Bool)
    (order : Option (Atree α) → Option (Atree α) → Order) (tree0 tree1 : Option (Atree α)) : Prop :=
  (subseteq tree0 tree1 = true ↔ Included getKey r tree0 tree1) ∧
    (subseteq tree1 tree0 = true ↔ Included getKey r tree1 tree0) ∧
    Describes (order tree0 tree1) (Included getKey r tree0 tree1) (Included getKey r tree1 tree0)

private theorem deepSubseteq_iff (self : ∀ value, r value value = true) (wf0 : WfTree getKey tree0 low0 high0)
    (wf1 : WfTree getKey tree1 low1 high1) :
    deepSubseteq getKey r tree0 tree1 = true ↔ Included getKey r tree0 tree1 ∧ ¬ Misses getKey r tree0 tree1 := by
  rw [deepSubseteq.eq_def]
  split
  · next same =>
    subst same
    refine iff_of_true rfl ⟨.refl self _, ?_⟩
    rintro ⟨_, t0, t1, rfl, own, crowded⟩
    exact not_crowded_self (Option.some.inj own ▸ crowded)
  cases tree0 with
  | none => exact iff_of_true rfl ⟨nofun, by rintro ⟨_, _, _, ⟨⟩, _⟩⟩
  | some t0 =>
    cases tree1 with
    | none => simp [not_included_none (wf0 t0 rfl)]
    | some t1 =>
      rw [subseteqLoop_iff self (wf0 t0 rfl) (wf1 t1 rfl)]
      refine and_congr_right fun included => not_congr ⟨fun crowded => ⟨included, t0, t1, rfl, rfl, crowded⟩, ?_⟩
      rintro ⟨_, _, _, ⟨⟩, ⟨⟩, crowded⟩
      exact crowded

omit [DecidableEq α] in
theorem Included.compared (included : Included getKey r (some t0) (some t1)) (less : ∀ e0 e1, r e0 e1 = true → q e0 e1 = true) :
    Compared getKey q r t0 t1 := by
  intro key value0 found
  obtain ⟨value1, found1, own⟩ := included key value0 found
  exact ⟨value1, found1, less _ _ own, fun _ => own⟩

/-- An inclusion is found that is none, for a value that only the callback in place of `value_subseteq` admits. -/
def Overstates (getKey : α → Word) (q r : α → α → Bool) (tree0 tree1 : Option (Atree α)) : Prop :=
  ¬ Included getKey r tree0 tree1 ∧ ∃ t0 t1, tree0 = some t0 ∧ tree1 = some t1 ∧ Found getKey q r t0 t1

omit [DecidableEq α] in
private theorem not_overstates : ¬ Overstates getKey r r tree0 tree1 := by
  rintro ⟨apart, t0, t1, rfl, rfl, compared, _⟩
  refine apart fun key value0 found => ?_
  obtain ⟨value1, found1, less, _⟩ := compared key value0 found
  exact ⟨value1, found1, less⟩

omit [DecidableEq α] in
theorem found_right_iff (less : ∀ e0 e1, r e0 e1 = true → q e0 e1 = true) (wf0 : Wf getKey t0 low0 high0)
    (wf1 : Wf getKey t1 low1 high1) (present : ¬ Misses getKey r (some t0) (some t1)) :
    (Found getKey q r t0 t1 ↔ Included getKey r (some t0) (some t1)) ↔ ¬ Overstates getKey q r (some t0) (some t1) := by
  constructor
  · rintro right ⟨apart, _, _, ⟨⟩, ⟨⟩, found⟩
    exact apart (right.mp found)
  · intro states
    constructor
    · intro found
      by_contra apart
      exact states ⟨apart, t0, t1, rfl, rfl, found⟩
    · intro included
      exact ⟨included.compared less, fun below => present ⟨included, t0, t1, rfl, rfl, below.crowded wf0 wf1⟩⟩

private theorem deepOrder_some : deepOrder getKey q valueOrder (some t0) (some t1) = orderLoop getKey q valueOrder t0 t1 := by
  rw [deepOrder]
  split
  · next same =>
    cases same
    rw [orderLoop.eq_def, if_pos rfl]
  · rfl

/-- Inclusion and order are right exactly where the search misses nothing, and claims nothing for values that are not
included. -/
theorem exact_iff (fits : Fits r valueOrder) (less : ∀ e0 e1, r e0 e1 = true → q e0 e1 = true)
    (wf0 : WfTree getKey tree0 low0 high0) (wf1 : WfTree getKey tree1 low1 high1) :
    Exact getKey r (deepSubseteq getKey r) (deepOrder getKey q valueOrder) tree0 tree1 ↔
      (¬ Misses getKey r tree0 tree1 ∧ ¬ Misses getKey r tree1 tree0) ∧
        ¬ Overstates getKey q r tree0 tree1 ∧ ¬ Overstates getKey q r tree1 tree0 := by
  have right {tree tree' : Option (Atree α)} {low high low' high' : Nat} (wf : WfTree getKey tree low high)
      (wf' : WfTree getKey tree' low' high') :
      (deepSubseteq getKey r tree tree' = true ↔ Included getKey r tree tree') ↔ ¬ Misses getKey r tree tree' := by
    rw [deepSubseteq_iff fits.self wf wf', and_iff_left_iff_imp]
    exact ⟨fun found misses => found misses.1 misses, fun found _ => found⟩
  rw [Exact, right wf0 wf1, right wf1 wf0, ← and_assoc, and_congr_right_iff]
  rintro ⟨present0, present1⟩
  cases tree0 with
  | none =>
    refine iff_of_true ?_ ⟨by rintro ⟨_, _, _, ⟨⟩, _⟩, by rintro ⟨_, _, _, _, ⟨⟩, _⟩⟩
    cases tree1 with
    | none => exact ⟨.refl fits.self _, .refl fits.self _⟩
    | some t1 => exact ⟨nofun, not_included_none (wf1 t1 rfl)⟩
  | some t0 =>
    cases tree1 with
    | none =>
      refine iff_of_true ⟨not_included_none (wf0 t0 rfl), nofun⟩ ⟨?_, ?_⟩
      · rintro ⟨_, _, _, _, ⟨⟩, _⟩
      · rintro ⟨_, _, _, ⟨⟩, _⟩
    | some t1 =>
      rw [deepOrder_some, (orderLoop_describes fits less (wf0 t0 rfl) (wf1 t1 rfl)).iff_both,
        found_right_iff less (wf0 t0 rfl) (wf1 t1 rfl) present0, found_right_iff less (wf1 t1 rfl) (wf0 t0 rfl) present1]

theorem exact_plain_iff (fits : Fits r valueOrder) (wf0 : WfTree getKey tree0 low0 high0)
    (wf1 : WfTree getKey tree1 low1 high1) :
    Exact getKey r (deepSubseteq getKey r) (deepOrder getKey r valueOrder) tree0 tree1 ↔
      ¬ Misses getKey r tree0 tree1 ∧ ¬ Misses getKey r tree1 tree0 :=
  (exact_iff fits (fun _ _ => id) wf0 wf1).trans (and_iff_left ⟨not_overstates, not_overstates⟩)

theorem rad_even (other : rad 64 c ≠ 1) : 2 ∣ rad 64 c := by
  obtain ⟨t, _, power⟩ := rad_eq_two_pow 64 c
  cases t with
  | zero => exact absurd power other
  | succ t => exact ⟨2 ^ t, by rw [power, pow_succ']⟩

/-- The keys of a tree that may be empty are even. -/
def EvenTree (getKey : α → Word) (tree : Option (Atree α)) : Prop :=
  ∀ key value, find getKey tree key = some value → 2 ∣ key.toNat

/-- Every key of the first tree is a key of the second, for trees that may be empty. -/
def SubkeysTree (getKey : α → Word) (tree0 tree1 : Option (Atree α)) : Prop :=
  ∀ key value, find getKey tree0 key = some value → ∃ value', find getKey tree1 key = some value'

omit [DecidableEq α] in
theorem fits_true : Fits subseteqTrue (orderEq : α → α → Order) := ⟨fun _ => rfl, fun _ _ => ⟨rfl, rfl⟩⟩

omit [DecidableEq α] in
/-- The centre of an odd block has only one number right of it, the centre itself. -/
theorem Wf.even_centre (wf : Wf getKey t low high) (even : EvenTree getKey (some t)) (inside : x ∈ centres t) :
    2 ∣ x.toNat := by
  induction t generalizing low high with
  | leaf value => cases inside
  | anode centre left right ihLeft ihRight =>
    rcases mem_centres_anode.mp inside with rfl | inLeft | inRight
    · obtain ⟨key0, value0, key1, value1, found0, found1, bounds⟩ := wf.exists_both
      have second := even key1 value1 found1
      simp only [lo, hi] at bounds
      by_cases one : rad 64 x.toNat = 1
      · omega
      · exact (rad_even one).trans (rad_dvd 64 x.toNat)
    · exact ihLeft wf.2.2.2.1 (fun key value found => even key value (wf.findLoop_of_left found)) inLeft
    · exact ihRight wf.2.2.2.2 (fun key value found => even key value (wf.findLoop_of_right found)) inRight

omit [DecidableEq α] in
theorem WfTree.not_misses (wf0 : WfTree getKey tree0 low high) (even : EvenTree getKey tree0) :
    ¬ Misses getKey r tree0 tree1 := by
  rintro ⟨_, t0, t1, rfl, _, y, _, last, apart⟩
  have lastEven := (wf0 t0 rfl).even_centre even last
  rw [toNat_centreToMax, hi] at lastEven
  by_cases one : rad 64 y.toNat = 1
  · have same : centreToMax y = y := BitVec.eq_of_toNat_eq (by rw [toNat_centreToMax, hi]; omega)
    exact apart (same ▸ last)
  · have radEven := rad_even one
    have := radEven.trans (rad_dvd 64 y.toNat)
    have := rad_pos 64 y.toNat
    omega

section EvenTrees

omit [DecidableEq α] in
theorem included_true_iff : Included getKey subseteqTrue tree0 tree1 ↔ SubkeysTree getKey tree0 tree1 := by
  simp [Included, SubkeysTree, subseteqTrue]

variable (wf0 : WfTree getKey tree0 low0 high0) (wf1 : WfTree getKey tree1 low1 high1) (even0 : EvenTree getKey tree0)
  (even1 : EvenTree getKey tree1)

include wf0 wf1 even0 even1

theorem exact_of_even : Exact getKey subseteqTrue (subseteq getKey) (order getKey) tree0 tree1 :=
  (exact_plain_iff fits_true wf0 wf1).mpr ⟨wf0.not_misses even0, wf1.not_misses even1⟩

end EvenTrees

omit [DecidableEq α] in
theorem Fits.comparable (fits : Fits r valueOrder) (e0 e1 : α) (less : r e0 e1 = true) : (valueOrder e0 e1 != .none)
    = true := by
  have describes := fits.describes e0 e1
  cases same : valueOrder e0 e1 with
  | none => exact absurd less (same ▸ describes).1
  | _ => rfl

/-- Subset tests and orders of trees with keys below the top bit, by the keys alone and with values, are right
exactly when neither tree is included in the other and crowded there. The variant that stores `value_order` as
`value_subseteq` must besides not find a tree with a greater value included. -/
theorem built_exact_iff {β : Type} {opnAt : α → Nat → β} {valueIndex : Nat} {valueSubseteq : β → β → Bool}
    {valueOrderIv : β → β → Order} (built0 : Built getKey tree0) (built1 : Built getKey tree1) (fits : Fits r valueOrder)
    (fitsIv : Fits (ivAdaptor opnAt valueIndex valueSubseteq) (ivAdaptor opnAt valueIndex valueOrderIv)) :
    (Exact getKey subseteqTrue (subseteq getKey) (order getKey) tree0 tree1 ↔
      ¬ Misses getKey subseteqTrue tree0 tree1 ∧ ¬ Misses getKey subseteqTrue tree1 tree0) ∧
    (Exact getKey r (deepSubseteq getKey r) (deepOrder getKey r valueOrder) tree0 tree1 ↔
      ¬ Misses getKey r tree0 tree1 ∧ ¬ Misses getKey r tree1 tree0) ∧
    let less := ivAdaptor opnAt valueIndex valueSubseteq
    let asked := ivAdaptor opnAt valueIndex fun v0 v1 => valueOrderIv v0 v1 != .none
    (Exact getKey less (deepSubseteqIv opnAt getKey valueIndex valueSubseteq)
        (deepOrderIv opnAt getKey valueIndex valueSubseteq valueOrderIv) tree0 tree1 ↔
      (¬ Misses getKey less tree0 tree1 ∧ ¬ Misses getKey less tree1 tree0) ∧
        ¬ Overstates getKey asked less tree0 tree1 ∧ ¬ Overstates getKey asked less tree1 tree0) :=
  ⟨exact_plain_iff fits_true built0.wf built1.wf, exact_plain_iff fits built0.wf built1.wf,
    exact_iff fitsIv fitsIv.comparable built0.wf built1.wf⟩

def pairOpnAt (e : Word × Nat) : Nat → Nat
  | 0 => e.1.toNat
  | _ => e.2

def natSubseteq (v0 v1 : Nat) : Bool := v0 ≤ v1

def natOrder (v0 v1 : Nat) : Order := if v0 = v1 then .eq else if v0 < v1 then .lt else .gt

private theorem fits_nat : Fits (ivAdaptor pairOpnAt 1 natSubseteq) (ivAdaptor pairOpnAt 1 natOrder) := by
  refine ⟨fun value => decide_eq_true le_rfl, fun value0 value1 => ?_⟩
  simp only [ivAdaptor, natOrder, natSubseteq, decide_eq_true_eq]
  split_ifs <;> simp only [Describes] <;> omega

/-- The values 5 and 5 of two keys below the values 6, 5 and 0 of three. -/
theorem built_exact_pairs :
    Exact pairKey subseteqTrue (subseteq pairKey) (order pairKey) (ofPairs [(1, 5), (2, 5)])
      (ofPairs [(1, 6), (2, 5), (3, 0)]) ∧
    Exact pairKey (ivAdaptor pairOpnAt 1 natSubseteq) (deepSubseteqIv pairOpnAt pairKey 1 natSubseteq)
      (deepOrderIv pairOpnAt pairKey 1 natSubseteq natOrder) (ofPairs [(1, 5), (2, 5)]) (ofPairs [(1, 6), (2, 5), (3, 0)]) := by
  have built0 : Built pairKey (ofPairs [(1, 5), (2, 5)]) := built_ofPairs (by decide)
  have built1 : Built pairKey (ofPairs [(1, 6), (2, 5), (3, 0)]) := built_ofPairs (by decide)
  have shape0 : ofPairs [(1, 5), (2, 5)] = some (anode 2 (leaf (1, 5)) (leaf (2, 5))) := by decide
  have shape1 : ofPairs [(1, 6), (2, 5), (3, 0)] = some (anode 2 (leaf (1, 6)) (anode 3 (leaf (2, 5)) (leaf (3, 0)))) := by
    decide
  have all := built_exact_iff built0 built1 fits_nat fits_nat
  have wf0 := built0.wf _ shape0
  have wf1 := built1.wf _ shape1
  rw [shape0, shape1] at all ⊢
  have present0 {r} : ¬ Misses pairKey r (some (anode 2 (leaf (1, 5)) (leaf (2, 5))))
      (some (anode 2 (leaf (1, 6)) (anode 3 (leaf (2, 5)) (leaf (3, 0))))) := by
    rintro ⟨_, _, _, ⟨⟩, ⟨⟩, y, atEnd, last, _⟩
    have only : ends (anode 2 (leaf ((1 : Word), 6)) (anode 3 (leaf (2, 5)) (leaf (3, 0)))) = [2] := by decide
    rw [only, mem_singleton] at atEnd
    subst atEnd
    exact absurd last (by decide)
  have present1 {r} : ¬ Misses pairKey r (some (anode 2 (leaf (1, 6)) (anode 3 (leaf (2, 5)) (leaf (3, 0)))))
      (some (anode 2 (leaf (1, 5)) (leaf (2, 5)))) := by
    rintro ⟨_, _, _, ⟨⟩, ⟨⟩, y, atEnd, _⟩
    have none : ends (anode 2 (leaf ((1 : Word), 5)) (leaf (2, 5))) = [] := by decide
    rw [none] at atEnd
    cases atEnd
  refine ⟨all.1.mpr ⟨present0, present1⟩, all.2.2.mpr ⟨⟨present0, present1⟩, ?_, ?_⟩⟩
  · rintro ⟨apart, _⟩
    apply apart
    rw [included_same_centre wf0 wf1, leaf_included_iff, leaf_included_iff]
    exact ⟨⟨(1, 6), by decide, by decide⟩, ⟨(2, 5), by decide, by decide⟩⟩
  · rintro ⟨_, _, _, ⟨⟩, ⟨⟩, compared, _⟩
    obtain ⟨_, found, _⟩ := compared 3 (3, 0) (by decide)
    cases found.symm.trans (by decide : findLoop pairKey (anode 2 (leaf (1, 5)) (leaf (2, 5))) 3 = none)

/-- A value 7 is in the place of the second 5, and is not below it. -/
example : deepOrderIv pairOpnAt pairKey 1 natSubseteq natOrder (ofPairs [(1, 5), (2, 7)])
    (ofPairs [(1, 6), (2, 5), (3, 0)]) = .lt := by
  have shape0 : ofPairs [(1, 5), (2, 7)] = some (anode 2 (leaf (1, 5)) (leaf (2, 7))) := by decide
  have shape1 : ofPairs [(1, 6), (2, 5), (3, 0)] = some (anode 2 (leaf (1, 6)) (anode 3 (leaf (2, 5)) (leaf (3, 0)))) := by
    decide
  rw [shape0, shape1, deepOrderIv, deepOrder_some]
  simp [orderLoop, findLoop, ivAdaptor, natOrder, pairOpnAt, pairKey, centreToMin]

def three : Option (Atree Word) := insert id (insert id (insert id empty 1) 2) 3

def lastTwo : Option (Atree Word) := insert id (insert id empty 2) 3

private theorem built_three : Built id three := .insert (.insert (.insert .empty 1 rfl) 2 rfl) 3 rfl

/-- The set of 2 and 3 is not found to be a subset of that of 1, 2 and 3. -/
theorem last_two_not_exact : Built id lastTwo ∧ Built id three ∧
    ¬ Exact id subseteqTrue (subseteq id) (order id) lastTwo three := by
  have built : Built id lastTwo := .insert (.insert .empty 2 rfl) 3 rfl
  refine ⟨built, built_three, fun exact => ((exact_plain_iff fits_true built.wf built_three.wf).mp exact).1 ⟨?_, ?_⟩⟩
  · have shape : lastTwo = some (anode 3 (leaf 2) (leaf 3)) := by decide
    intro key value found
    rw [shape, find_some] at found
    simp only [findLoop, id] at found
    split_ifs at found with _ _ same _ same
    · exact same ▸ ⟨2, by decide, rfl⟩
    · exact same ▸ ⟨3, by decide, rfl⟩
  · exact ⟨_, _, rfl, rfl, 2, by decide, by decide, by decide⟩

end Culibs.Cuex.Atree
