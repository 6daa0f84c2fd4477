import Culibs.Cucon.Ucset.Canonical
import Mathlib.Data.Set.Card

namespace Culibs.Cucon

open Cu List BitVec Bool Nat

namespace Ucset

open DyadicBlock

/-- The loop of `cucon_ucset_umin` over the words of a leaf. -/
def ucleafUmin (set : Ucset) (key : Word) : Word :=
  if set.bitset 0 ≠ 0 then (key &&& ~~~bitsetMask) + BitVec.ofNat 64 (log2Lowbit (set.bitset 0))
  else if set.bitset 1 ≠ 0 then
    (key &&& ~~~bitsetMask) + BitVec.ofNat 64 (log2Lowbit (set.bitset 1)) + 64
  else key

/-- The loop of `cucon_ucset_umax` over the words of a leaf. -/
def ucleafUmax (set : Ucset) (key : Word) : Word :=
  if set.bitset 1 ≠ 0 then
    (key &&& ~~~bitsetMask) + BitVec.ofNat 64 (ulongFloorLog2 (set.bitset 1)) + 64
  else if set.bitset 0 ≠ 0 then
    (key &&& ~~~bitsetMask) + BitVec.ofNat 64 (ulongFloorLog2 (set.bitset 0))
  else key

/-- The loop of `cucon_ucset_umin`, with the key passed last. -/
def uminFrom (min : Word) (set : Ucset) : Word :=
  if _nonnull : set = null then min
  else
    let key := ucnodeKey set
    if keyIsLeaflike key then ucleafUmin set key else uminFrom key set.left
termination_by set.size
decreasing_by exact size_left_lt _nonnull

/-- The loop of `cucon_ucset_umax`, with the key passed last. -/
def umaxFrom (max : Word) (set : Ucset) : Word :=
  if _nonnull : set = null then max
  else
    let key := ucnodeKey set
    if keyIsLeaflike key then ucleafUmax set key else umaxFrom key set.right
termination_by set.size
decreasing_by exact size_right_lt _nonnull

def umin (set : Ucset) : Word := uminFrom (allOnes 64) set

def umax (set : Ucset) : Word := umaxFrom 0 set

/-- `INTPTR_MIN` as the word it is stored in. -/
def intptrMin : Word := 0x8000000000000000

def intptrMax : Word := 0x7fffffffffffffff

/-- The result is an `intptr_t`, as the word it is stored in. -/
def smin (node : Ucset) : Word :=
  if node = null then intptrMax
  else
    let minKey := intptrMax
    let nodeKey := ucnodeKey node
    if nodeKey = intptrMin then
      if hasKey node then intptrMin
      else if node.right ≠ null then umin node.right
      else if node.left = null then minKey
      else umin node.left
    else if minKey.slt nodeKey then 0
    else umin node

/-- The result is an `intptr_t`, as the word it is stored in. -/
def smax (node : Ucset) : Word :=
  if node = null then intptrMin
  else
    let maxKey := intptrMin
    let nodeKey := ucnodeKey node
    if nodeKey = intptrMin then
      if node.left ≠ null then umax node.left
      else if maxKey = 0 then 0
      else if node.right = null then maxKey
      else umax node.right
    else if nodeKey.slt maxKey then 0
    else umax node

def ucleafCard (node : Ucset) : Word :=
  (node.rawKey &&& 1) + BitVec.ofNat 64 (wordBitCount (node.bitset 0)) +
    BitVec.ofNat 64 (wordBitCount (node.bitset 1))

/-- The loop of `cucon_ucset_card`, with the elements counted so far. -/
def cardFrom (card : Word) (node : Ucset) : Word :=
  if _nonnull : node = null then card
  else if keyIsLeaflike (ucnodeKey node) then card + ucleafCard node
  else
    let card := if hasKey node then card + 1 else card
    cardFrom (card + cardFrom 0 node.left) node.right
termination_by node.size
decreasing_by
  · exact size_left_lt _nonnull
  · exact size_right_lt _nonnull

def card (node : Ucset) : Word := cardFrom 0 node

def ucleafIsSingleton (node : Ucset) : Bool :=
  let cnt := wordBitCount (node.bitset 0)
  if cnt > 1 then false
  else if cnt ≠ 0 then node.bitset 1 == 0
  else
    let cnt := wordBitCount (node.bitset 1)
    if cnt > 1 then false else cnt != 0

def isSingleton (set : Ucset) : Bool :=
  if keyIsLeaflike (ucnodeKey set) then ucleafIsSingleton set
  else set.left == null && set.right == null

variable {t : Ucset} {low high : Nat}

section Leaf

variable {key : Word} {bitset : Bitset}

/-- The highest set bit of the last nonzero word is the last set bit of the leaf. -/
theorem highest_bit (nonempty : ∃ i < 128, bit bitset i = true) :
    ∃ p < 128, bit bitset p = true ∧ (∀ i < 128, p < i → bit bitset i = false) ∧
      ((bitset 1 ≠ 0 ∧ p = ulongFloorLog2 (bitset 1) + 64) ∨
        (bitset 1 = 0 ∧ bitset 0 ≠ 0 ∧ p = ulongFloorLog2 (bitset 0))) := by
  have topmost (x : Word) (nonzero : x ≠ 0) : ulongFloorLog2 x < 64 ∧
      x.getLsbD (ulongFloorLog2 x) = true ∧ ∀ j, ulongFloorLog2 x < j → x.getLsbD j = false := by
    have pos : x.toNat ≠ 0 := fun zero => nonzero (eq_of_toNat_eq zero)
    rw [ulongFloorLog2_eq]
    refine ⟨(log2_lt pos).mpr x.isLt, ?_, fun j above => ?_⟩
    · rw [← testBit_toNat]
      exact testBit_log2 pos
    · rw [← testBit_toNat]
      exact testBit_lt_two_pow ((log2_lt pos).mp above)
  by_cases zero1 : bitset 1 = 0
  · have clear1 (j : Nat) (bound : j < 64) : bit bitset (64 + j) = false := by
      rw [bit_second _ bound, zero1]
      simp
    have nonzero0 : bitset 0 ≠ 0 := by
      obtain ⟨i, bound, set⟩ := nonempty
      intro zero0
      by_cases low : i < 64
      · rw [bit_first _ low, zero0] at set
        simp at set
      · rw [show i = 64 + (i - 64) by omega, clear1 _ (by omega)] at set
        exact absurd set (by simp)
    obtain ⟨bound, set, clear⟩ := topmost (bitset 0) nonzero0
    refine ⟨ulongFloorLog2 (bitset 0), by omega, ?_, ?_, .inr ⟨zero1, nonzero0, rfl⟩⟩
    · rw [bit_first _ bound]
      exact set
    · intro i inside above
      by_cases low : i < 64
      · rw [bit_first _ low]
        exact clear i above
      · rw [show i = 64 + (i - 64) by omega]
        exact clear1 _ (by omega)
  · obtain ⟨bound, set, clear⟩ := topmost (bitset 1) zero1
    refine ⟨ulongFloorLog2 (bitset 1) + 64, by omega, ?_, ?_, .inl ⟨zero1, rfl⟩⟩
    · rw [add_comm, bit_second _ bound]
      exact set
    · intro i inside above
      rw [show i = 64 + (i - 64) by omega, bit_second _ (by omega)]
      exact clear _ (by omega)

theorem toNat_leafWord (key : Word) (bound : p < 128) :
    ((key &&& ~~~1 &&& ~~~bitsetMask) + BitVec.ofNat 64 p).toNat = 128 * (key.toNat / 128) + p := by
  have start := toNat_and_not_mask (key &&& ~~~1) bitsetMask toNat_bitsetMask
  have even := toNat_clear_one key
  rw [toNat_add, toNat_ofNat]
  omega

theorem contains_leafWord (bound : p < 128) (set : bit bitset p = true) :
    Contains (leaf key bitset) ((key &&& ~~~1 &&& ~~~bitsetMask) + BitVec.ofNat 64 p) := by
  have number := toNat_leafWord key bound
  refine ⟨by omega, ?_⟩
  rw [number, ← bit_mod, show (128 * (key.toNat / 128) + p) % 128 = p by omega]
  exact set

private theorem ucleafUmin_least (wf : Wf (leaf key bitset) low high) :
    Contains (leaf key bitset) (ucleafUmin (leaf key bitset) (key &&& ~~~1)) ∧
      ∀ y, Contains (leaf key bitset) y →
        (ucleafUmin (leaf key bitset) (key &&& ~~~1)).toNat ≤ y.toNat := by
  obtain ⟨p, bound, set, clear, word⟩ := lowest_bit wf.2.2.2.1
  have value : ucleafUmin (leaf key bitset) (key &&& ~~~1) =
      (key &&& ~~~1 &&& ~~~bitsetMask) + BitVec.ofNat 64 p := by
    rcases word with ⟨nonzero, rfl⟩ | ⟨zero, nonzero, rfl⟩
    · simp only [ucleafUmin, Ucset.bitset, nonzero, ne_eq, not_false_eq_true, if_true]
    · simp only [ucleafUmin, Ucset.bitset, zero, nonzero, ne_eq, not_true_eq_false, if_false,
        not_false_eq_true, if_true]
      rw [ofNat_add, ← BitVec.add_assoc]
      rfl
  have number := toNat_leafWord key bound
  have mem := @contains_leafWord key bitset p bound set
  rw [← value] at number mem
  refine ⟨mem, fun y other => ?_⟩
  obtain ⟨block, present⟩ := other
  by_contra before
  rw [← bit_mod, clear (y.toNat % 128) (by omega)] at present
  exact false_ne_true present

theorem ucleafUmax_greatest (wf : Wf (leaf key bitset) low high) :
    Contains (leaf key bitset) (ucleafUmax (leaf key bitset) (key &&& ~~~1)) ∧
      ∀ y, Contains (leaf key bitset) y →
        y.toNat ≤ (ucleafUmax (leaf key bitset) (key &&& ~~~1)).toNat := by
  obtain ⟨p, bound, set, clear, word⟩ := highest_bit wf.2.2.2.1
  have value : ucleafUmax (leaf key bitset) (key &&& ~~~1) =
      (key &&& ~~~1 &&& ~~~bitsetMask) + BitVec.ofNat 64 p := by
    rcases word with ⟨nonzero, rfl⟩ | ⟨zero, nonzero, rfl⟩
    · simp only [ucleafUmax, Ucset.bitset, nonzero, ne_eq, not_false_eq_true, if_true]
      rw [ofNat_add, ← BitVec.add_assoc]
      rfl
    · simp only [ucleafUmax, Ucset.bitset, zero, nonzero, ne_eq, not_true_eq_false, if_false,
        not_false_eq_true, if_true]
  have number := toNat_leafWord key bound
  have mem := @contains_leafWord key bitset p bound set
  rw [← value] at number mem
  refine ⟨mem, fun y other => ?_⟩
  obtain ⟨block, present⟩ := other
  by_contra after
  rw [← bit_mod, clear (y.toNat % 128) (mod_lt _ (by omega)) (by omega)] at present
  exact false_ne_true present

end Leaf

/-- The search for the least element stops at it, since a node without a left
subtree stores its key. -/
theorem uminFrom_least (wf : Wf t low high) (nonnull : t ≠ null) (min : Word) :
    Contains t (uminFrom min t) ∧ ∀ y, Contains t y → (uminFrom min t).toNat ≤ y.toNat := by
  induction t generalizing low high min with
  | null => exact absurd rfl nonnull
  | leaf key bitset =>
    rw [uminFrom]
    simp only [wf.leaf_leaflike, if_true]
    exact ucleafUmin_least wf
  | node key left right ihLeft _ =>
    have whole := wf
    obtain ⟨_, _, _, wfLeft, _, children⟩ := wf
    have inLeft := whole.contains_left
    have value := toNat_clear_one key
    rw [uminFrom]
    simp only [whole.node_not_leaflike, false_eq_true, if_false, left_node]
    change Contains _ (uminFrom (key &&& ~~~1) left) ∧ ∀ y, _ → (uminFrom (key &&& ~~~1) left).toNat ≤ _
    by_cases absent : left = null
    · subst absent
      have odd : key.toNat % 2 = 1 := by
        by_contra even
        exact (children (by omega)).1 rfl
      have stop : uminFrom (key &&& ~~~1) null = key &&& ~~~1 := by
        rw [uminFrom]
        simp
      rw [stop]
      refine ⟨.inl ⟨odd, value⟩, fun y mem => ?_⟩
      by_contra less
      exact (inLeft y).mpr ⟨mem, by omega⟩
    · obtain ⟨least, below⟩ := ihLeft wfLeft absent (key &&& ~~~1)
      refine ⟨.inr (.inl least), fun y mem => ?_⟩
      by_cases before : y.toNat < 2 * (key.toNat / 2)
      · exact below y ((inLeft y).mpr ⟨mem, before⟩)
      · have := ((inLeft _).mp least).2
        omega

theorem umaxFrom_greatest (wf : Wf t low high) (nonnull : t ≠ null) (max : Word) :
    Contains t (umaxFrom max t) ∧ ∀ y, Contains t y → y.toNat ≤ (umaxFrom max t).toNat := by
  induction t generalizing low high max with
  | null => exact absurd rfl nonnull
  | leaf key bitset =>
    rw [umaxFrom]
    simp only [wf.leaf_leaflike, if_true]
    exact ucleafUmax_greatest wf
  | node key left right _ ihRight =>
    have whole := wf
    obtain ⟨_, _, _, _, wfRight, children⟩ := wf
    have inRight := whole.contains_right
    have value := toNat_clear_one key
    rw [umaxFrom]
    simp only [whole.node_not_leaflike, false_eq_true, if_false, right_node]
    change Contains _ (umaxFrom (key &&& ~~~1) right) ∧ ∀ y, _ → _ ≤ (umaxFrom (key &&& ~~~1) right).toNat
    by_cases absent : right = null
    · subst absent
      have odd : key.toNat % 2 = 1 := by
        by_contra even
        exact (children (by omega)).2 rfl
      have stop : umaxFrom (key &&& ~~~1) null = key &&& ~~~1 := by
        rw [umaxFrom]
        simp
      rw [stop]
      refine ⟨.inl ⟨odd, value⟩, fun y mem => ?_⟩
      by_contra more
      exact (inRight y).mpr ⟨mem, by omega⟩
    · obtain ⟨greatest, above⟩ := ihRight wfRight absent (key &&& ~~~1)
      refine ⟨.inr (.inr greatest), fun y mem => ?_⟩
      by_cases after : 2 * (key.toNat / 2) < y.toNat
      · exact above y ((inRight y).mpr ⟨mem, after⟩)
      · have := ((inRight _).mp greatest).2
        omega

section Signed

theorem toNat_eq_intptrMin_iff (x : Word) : x = intptrMin ↔ x.toNat = 2 ^ 63 := by
  rw [toNat_eq]
  rfl

private theorem toInt_intptrMin : intptrMin.toInt = -2 ^ 63 := by decide

theorem toInt_le_iff (x y : Word) : x.toInt ≤ y.toInt ↔
    (2 ^ 63 ≤ x.toNat ∧ y.toNat < 2 ^ 63) ∨ ((2 ^ 63 ≤ x.toNat ↔ 2 ^ 63 ≤ y.toNat) ∧ x.toNat ≤ y.toNat) := by
  have xSigned := toInt_eq_toNat_cond x
  have ySigned := toInt_eq_toNat_cond y
  split at xSigned <;> split at ySigned <;> omega

/-- The elements have one sign, unless the root is the node of the sign bit. -/
theorem Wf.same_sign (wf : Wf t low high) (apart : t.centre ≠ 2 ^ 63)
    (mem : Contains t x) (member' : Contains t y) : 2 ^ 63 ≤ x.toNat ↔ 2 ^ 63 ≤ y.toNat := by
  have nonnull : t ≠ null := by
    rintro rfl
    exact mem
  have pos : 0 < t.centre := by
    have trie := (wf.block nonnull).1
    simp only [IsTrieKey, IsLeafKey, IsNodeKey] at trie
    omega
  have middle : lo 64 (2 ^ 63) = 0 ∧ hi 64 (2 ^ 63) = 2 ^ 64 := by decide
  have blocks := laminar (w := 64) (by omega : 2 ^ 63 < 2 ^ 64) (centre_lt t) apart.symm
  have := centre_lt t
  have inside := wf.contains_block mem
  have inside' := wf.contains_block member'
  omega

theorem Wf.sign_node (wf : Wf t low high) (middle : ucnodeKey t = intptrMin) :
    ∃ key left right, t = node key left right ∧ 2 * (key.toNat / 2) = 2 ^ 63 := by
  have value : t.centre = 2 ^ 63 := (toNat_eq_intptrMin_iff _).mp middle
  cases t with
  | null => simp [centre, ucnodeKey, rawKey] at value
  | leaf key bitset =>
    have leafKey := wf.1
    rw [centre_leaf leafKey] at value
    rw [IsLeafKey] at leafKey
    omega
  | node key left right => exact ⟨key, left, right, rfl, by rwa [centre_node] at value⟩

private theorem smin_least (wf : Wf t low high) (nonnull : t ≠ null) :
    Contains t (smin t) ∧ ∀ y, Contains t y → (smin t).toInt ≤ y.toInt := by
  by_cases middle : ucnodeKey t = intptrMin
  · obtain ⟨key, left, right, rfl, value⟩ := wf.sign_node middle
    have whole := wf
    obtain ⟨_, _, _, _, wfRight, children⟩ := wf
    have inRight := whole.contains_right
    by_cases odd : key.toNat % 2 = 1
    · have result : smin (node key left right) = intptrMin := by simp [smin, middle, hasKey_iff, odd]
      rw [result]
      refine ⟨.inl ⟨odd, by rw [value]; rfl⟩, fun y _ => ?_⟩
      exact le_toInt y
    have present := (children (by omega)).2
    have result : smin (node key left right) = umin right := by
      simp [smin, middle, hasKey_iff, odd, present]
    rw [result]
    obtain ⟨least, below⟩ := uminFrom_least wfRight present (allOnes 64)
    refine ⟨.inr (.inr least), fun y mem => ?_⟩
    rw [umin, toInt_le_iff]
    have negative := ((inRight _).mp least).2
    by_cases after : 2 * (key.toNat / 2) < y.toNat
    · have := below y ((inRight y).mpr ⟨mem, after⟩)
      omega
    · have apart : y.toNat ≠ 2 * (key.toNat / 2) := fun same =>
        odd ((whole.contains_centre same).mp mem)
      omega
  · have bounded : ¬ intptrMax.slt (ucnodeKey t) = true := by
      rw [slt_iff_toInt_lt, show intptrMax.toInt = 2 ^ 63 - 1 by decide]
      have := toInt_lt (x := ucnodeKey t)
      omega
    rw [smin, if_neg nonnull]
    simp only [middle, if_false, bounded]
    obtain ⟨least, below⟩ := uminFrom_least wf nonnull (allOnes 64)
    refine ⟨least, fun y mem => ?_⟩
    rw [toInt_le_iff]
    exact .inr ⟨wf.same_sign (mt (toNat_eq_intptrMin_iff _).mpr middle) least mem, below y mem⟩

private theorem smax_greatest (wf : Wf t low high) (nonnull : t ≠ null) :
    Contains t (smax t) ∧ ∀ y, Contains t y → y.toInt ≤ (smax t).toInt := by
  by_cases middle : ucnodeKey t = intptrMin
  · obtain ⟨key, left, right, rfl, value⟩ := wf.sign_node middle
    have whole := wf
    obtain ⟨_, _, _, wfLeft, wfRight, children⟩ := wf
    have inLeft := whole.contains_left
    have inRight := whole.contains_right
    have nonzero : intptrMin ≠ 0#64 := by decide
    by_cases absent : left = null
    · subst absent
      have negative (y : Word) (mem : Contains (node key null right) y) : 2 ^ 63 ≤ y.toNat := by
        by_contra before
        exact (inLeft y).mpr ⟨mem, by omega⟩
      by_cases missing : right = null
      · subst missing
        have result : smax (node key null null) = intptrMin := by simp [smax, middle, nonzero]
        have odd : key.toNat % 2 = 1 := by
          by_contra even
          exact (children (by omega)).1 rfl
        rw [result]
        refine ⟨.inl ⟨odd, by rw [value]; rfl⟩, fun y mem => ?_⟩
        have only : y = intptrMin := by
          rw [toNat_eq_intptrMin_iff]
          by_contra ne
          have := negative y mem
          exact (inRight y).mpr ⟨mem, by omega⟩
        rw [only]
      · have result : smax (node key null right) = umax right := by
          simp [smax, middle, missing, nonzero]
        rw [result]
        obtain ⟨greatest, above⟩ := umaxFrom_greatest wfRight missing 0
        refine ⟨.inr (.inr greatest), fun y mem => ?_⟩
        rw [umax, toInt_le_iff]
        have := negative y mem
        by_cases after : 2 * (key.toNat / 2) < y.toNat
        · have := above y ((inRight y).mpr ⟨mem, after⟩)
          omega
        · omega
    · have result : smax (node key left right) = umax left := by simp [smax, middle, absent]
      rw [result]
      obtain ⟨greatest, above⟩ := umaxFrom_greatest wfLeft absent 0
      refine ⟨.inr (.inl greatest), fun y mem => ?_⟩
      rw [umax, toInt_le_iff]
      have pos := ((inLeft _).mp greatest).2
      by_cases before : y.toNat < 2 * (key.toNat / 2)
      · have := above y ((inLeft y).mpr ⟨mem, before⟩)
        omega
      · omega
  · have bounded : ¬ (ucnodeKey t).slt intptrMin = true := by
      rw [slt_iff_toInt_lt, toInt_intptrMin]
      have := le_toInt (ucnodeKey t)
      omega
    rw [smax, if_neg nonnull]
    simp only [middle, if_false, bounded]
    obtain ⟨greatest, above⟩ := umaxFrom_greatest wf nonnull 0
    refine ⟨greatest, fun y mem => ?_⟩
    rw [toInt_le_iff]
    exact .inr ⟨wf.same_sign (mt (toNat_eq_intptrMin_iff _).mpr middle) mem greatest, above y mem⟩

end Signed

section Card

theorem length_leafElements (key : Word) (bitset : Bitset) :
    (elements (leaf key bitset)).length = bitCount (bitset 0) + bitCount (bitset 1) := by
  rw [elements, leafElements, length_map, ← countP_eq_length_filter, Nat.sub_zero, ← range_eq_range', show 128 = 64
    + 64 by rfl, range_add, countP_append, countP_map]
  refine congrArg₂ _ ?_ ?_
  · apply countP_congr
    intro j mem
    rw [bit_first bitset (mem_range.mp mem)]
  · apply countP_congr
    intro j mem
    rw [Function.comp_apply, bit_second bitset (mem_range.mp mem)]

theorem cardFrom_eq (wf : Wf t low high) (card : Word) :
    cardFrom card t = card + BitVec.ofNat 64 (elements t).length := by
  induction t generalizing low high card with
  | null =>
    rw [cardFrom]
    simp [elements]
  | leaf key bitset =>
    have even : key &&& 1 = 0 := by
      have := wf.1
      rw [and_one_eq_zero_iff]
      simp only [IsLeafKey] at this
      omega
    rw [cardFrom]
    simp only [reduceCtorEq, dite_false, wf.leaf_leaflike, if_true]
    rw [length_leafElements, ucleafCard, rawKey, even, wordBitCount_eq, wordBitCount_eq, ofNat_add]
    simp [Ucset.bitset]
  | node key left right ihLeft ihRight =>
    have inner := wf.node_not_leaflike
    obtain ⟨_, _, _, wfLeft, wfRight, _⟩ := wf
    rw [cardFrom]
    simp only [reduceCtorEq, dite_false, inner, false_eq_true, if_false, left_node, right_node]
    rw [ihRight wfRight, ihLeft wfLeft, elements, length_append, length_append, ofNat_add, ofNat_add]
    have stored : (if hasKey (node key left right) = true then card + 1 else card) =
        card + BitVec.ofNat 64 (if key &&& 1 = 0 then ([] : List Word) else [key &&& ~~~1]).length := by
      have present := hasKey_iff (node key left right)
      by_cases odd : key.toNat % 2 = 1
      · have : ¬ key &&& 1 = 0 := by
          rw [and_one_eq_zero_iff]
          omega
        simp only [present.mpr odd, if_true, this, if_false]
        rfl
      · have : key &&& 1 = 0 := by
          rw [and_one_eq_zero_iff]
          omega
        rw [if_neg (mt present.mp odd), if_pos this]
        exact (BitVec.add_zero card).symm
    rw [stored]
    ac_rfl

theorem elements_nodup (wf : Wf t low high) : (elements t).Nodup :=
  (elements_sorted wf).imp fun less same => by
    rw [same] at less
    exact lt_irrefl _ less

private theorem length_elements_bound (wf : Wf t low high) : (elements t).length ≤ 2 ^ 64 := by
  have distinct : ((elements t).map BitVec.toNat).Nodup :=
    (elements_nodup wf).map fun x y => eq_of_toNat_eq
  have bounded : (elements t).map BitVec.toNat ⊆ List.range (2 ^ 64) := by
    intro n mem
    obtain ⟨x, _, rfl⟩ := List.mem_map.mp mem
    exact List.mem_range.mpr x.isLt
  have shorter := (distinct.subperm bounded).length_le
  rwa [length_map, length_range] at shorter

theorem length_elements_pos (wf : Wf t low high) (nonnull : t ≠ null) : 0 < (elements t).length := by
  obtain ⟨x, mem⟩ := wf.exists_contains nonnull
  exact length_pos_of_mem ((mem_elements wf x).mpr mem)

private theorem bitCount_eq_zero : bitCount x = 0 ↔ x = 0 := by
  constructor
  · intro none
    rw [bitCount, countP_eq_zero] at none
    apply eq_of_getLsbD_eq
    intro i bound
    simpa using none i (mem_range.mpr bound)
  · rintro rfl
    simp [bitCount]

private theorem isSingleton_iff (wf : Wf t low high) (nonnull : t ≠ null) :
    isSingleton t = true ↔ (elements t).length = 1 := by
  cases t with
  | null => exact absurd rfl nonnull
  | leaf key bitset =>
    have zero : bitset 1 = 0 ↔ bitCount (bitset 1) = 0 := bitCount_eq_zero.symm
    rw [isSingleton, if_pos wf.leaf_leaflike, length_leafElements, ucleafIsSingleton]
    simp only [Ucset.bitset, wordBitCount_eq]
    split
    · simp only [false_eq_true, false_iff]
      omega
    split
    · rw [beq_iff_eq, zero]
      omega
    · split
      · simp only [false_eq_true, false_iff]
        omega
      · rw [bne_iff_ne]
        omega
  | node key left right =>
    have inner := wf.node_not_leaflike
    obtain ⟨_, _, _, wfLeft, wfRight, children⟩ := wf
    have nonzero (s : Ucset) {l h : Nat} (wf : Wf s l h) : s = null ↔ (elements s).length = 0 := by
      constructor
      · rintro rfl
        rfl
      · intro empty
        by_contra present
        have := length_elements_pos wf present
        omega
    have stored : (if key &&& 1 = 0 then ([] : List Word) else [key &&& ~~~1]).length = key.toNat % 2 := by
      have := and_one_eq_zero_iff key
      split
      · next even => simp [this.mp even]
      · next odd =>
        rw [this] at odd
        simp only [length_singleton]
        omega
    rw [isSingleton, inner]
    simp only [false_eq_true, if_false, left_node, right_node, and_eq_true, beq_iff_eq]
    rw [elements, length_append, length_append]
    rw [ne_eq, ne_eq] at children
    rw [nonzero left wfLeft, nonzero right wfRight] at children ⊢
    omega

end Card

end Ucset

namespace UcsetTrie

open Ucset

/-- An element that comes before all others in an order. -/
def Least (set : UcsetTrie) (le : Word → Word → Prop) (x : Word) : Prop :=
  find set.tree x = true ∧ ∀ y, find set.tree y = true → le x y

private theorem ncard_eq (set : UcsetTrie) :
    Set.ncard {x | find set.tree x = true} = (elements set.tree).length := by
  have listed : {x | find set.tree x = true} = ((elements set.tree).toFinset : Set Word) := by
    ext x
    simp [find_iff set.wf, mem_elements set.wf]
  rw [listed, Set.ncard_coe_finset, toFinset_card_of_nodup (elements_nodup set.wf)]

/-- The extremal searches find the extremal elements, and the cardinality is the
number of elements, as a `size_t`. -/
theorem extremes_card (set : UcsetTrie) (nonempty : set.tree ≠ null) :
    (Least set (· ≤ ·) (umin set.tree) ∧ Least set (· ≥ ·) (umax set.tree)) ∧
    (Least set (fun x y => x.toInt ≤ y.toInt) (smin set.tree) ∧
      Least set (fun x y => x.toInt ≥ y.toInt) (smax set.tree)) ∧
    card set.tree = BitVec.ofNat 64 (Set.ncard {x | find set.tree x = true}) ∧
    (isSingleton set.tree = true ↔ Set.ncard {x | find set.tree x = true} = 1) ∧
    (isSingleton set.tree = true ↔ card set.tree = 1) := by
  have least := uminFrom_least set.wf nonempty (allOnes 64)
  have greatest := umaxFrom_greatest set.wf nonempty 0
  have signedLeast := smin_least set.wf nonempty
  have signedGreatest := smax_greatest set.wf nonempty
  have counted : card set.tree = BitVec.ofNat 64 (elements set.tree).length := by
    rw [card, cardFrom_eq set.wf, ofNat_eq_ofNat, BitVec.zero_add]
  have one := isSingleton_iff set.wf nonempty
  have bounded := length_elements_bound set.wf
  have wrapped : BitVec.ofNat 64 (elements set.tree).length = 1 ↔ (elements set.tree).length = 1 := by
    rw [toNat_eq, toNat_ofNat, show (1 : Word).toNat = 1 by rfl]
    omega
  rw [ncard_eq, counted]
  simp only [Least, find_iff set.wf]
  exact ⟨⟨least, greatest⟩, ⟨signedLeast, signedGreatest⟩, trivial, one, one.trans wrapped.symm⟩

/-- Words on both sides of the sign bit, two of them in one leaf, and one in a node. -/
def signedWords : UcsetTrie :=
  ⟨[5, 6, 128, 0x8000000000000003].foldl insert null, (@foldl_insert_represents _ null trivial).wf⟩

theorem extremes_card_signedWords :
    (Least signedWords (· ≤ ·) (umin signedWords.tree) ∧ Least signedWords (· ≥ ·) (umax signedWords.tree)) ∧
    (Least signedWords (fun x y => x.toInt ≤ y.toInt) (smin signedWords.tree) ∧
      Least signedWords (fun x y => x.toInt ≥ y.toInt) (smax signedWords.tree)) ∧
    card signedWords.tree = BitVec.ofNat 64 (Set.ncard {x | find signedWords.tree x = true}) ∧
    (isSingleton signedWords.tree = true ↔ Set.ncard {x | find signedWords.tree x = true} = 1) ∧
    (isSingleton signedWords.tree = true ↔ card signedWords.tree = 1) :=
  extremes_card signedWords fun isNull => by
    have stored : Contains signedWords.tree 5 :=
      ((@foldl_insert_represents _ null trivial).contains 5).mpr (.inr (by decide))
    rwa [isNull] at stored

end UcsetTrie

end Culibs.Cucon
