import Culibs.Cucon.Ucset.Algebra

namespace Culibs.Cucon.Ucset

open DyadicBlock Nat
open BitVec (getLsbD_and getLsbD_not le_def lt_def slt_iff_toInt_lt toInt_eq_toNat_cond toNat_add toNat_sub_of_le)

/-- One word of a clipped leaf, where `bsMin` is the number of its lowest bit. -/
def clipWord (bits bsMin clipMin clipMax : Word) : Word :=
  let bsMax := bsMin + 63
  if clipMin > bsMax ∨ clipMax < bsMin then 0
  else
    let mask : Word := ~~~0
    let mask := if clipMin > bsMin then mask &&& ~~~(((1 : Word) <<< (clipMin - bsMin)) - 1) else mask
    let mask := if clipMax < bsMax then mask &&& (((2 : Word) <<< (clipMax - bsMin)) - 1) else mask
    bits &&& mask

def ucleafUclip (node : Ucset) (clipMin clipMax : Word) : Ucset :=
  let nodeKey := node.rawKey
  let nodeMin := nodeKey &&& ~~~bitsetMask
  let nodeMax := nodeKey ||| bitsetMask
  if clipMax < nodeMin ∨ clipMin > nodeMax then null
  else if clipMin ≤ nodeMin ∧ clipMax ≥ nodeMax then node
  else
    let bitset : Bitset := fun i =>
      clipWord (node.bitset i) (nodeMin + 64 * BitVec.ofNat 64 i.val) clipMin clipMax
    if ∃ i, bitset i ≠ 0 then leaf node.rawKey bitset else null

/-- `_ucset_uclip`. -/
def uclipNode (node : Ucset) (clipMin clipMax : Word) : Ucset :=
  if _nonnull : node = null then null
  else
    let nodeKey := ucnodeKey node
    let nodeMask := nodeKey ^^^ (nodeKey - 1)
    let nodeMin := nodeKey &&& ~~~nodeMask
    let nodeMax := nodeKey ||| nodeMask
    if clipMin ≤ nodeMin ∧ nodeMax ≤ clipMax then node
    else if clipMax < nodeMin then null
    else if clipMin > nodeMax then null
    else if keyIsLeaflike nodeKey then ucleafUclip node clipMin clipMax
    else if clipMax < nodeKey then uclipNode node.left clipMin clipMax
    else if clipMin > nodeKey then uclipNode node.right clipMin clipMax
    else
      collapse node.rawKey (uclipNode node.left clipMin clipMax) (uclipNode node.right clipMin clipMax)
termination_by node.size
decreasing_by
  · exact size_left_lt _nonnull
  · exact size_right_lt _nonnull
  · exact size_left_lt _nonnull
  · exact size_right_lt _nonnull

def uclip (node : Ucset) (clipMin clipMax : Word) : Ucset :=
  if clipMin > clipMax then null else uclipNode node clipMin clipMax

/-- The bounds are `intptr_t`, compared as signed numbers. -/
def sclip (node : Ucset) (clipMin clipMax : Word) : Ucset :=
  if clipMax.slt clipMin then null
  else if clipMin.slt 0 = clipMax.slt 0 then uclipNode node clipMin clipMax
  else union (uclipNode node 0 clipMax) (uclipNode node clipMin (BitVec.allOnes 64))

private theorem getLsbD_below (s : Nat) (j : Nat) (bound : s < 64) :
    (((1 : Word) <<< s) - 1).getLsbD j = decide (j < s) := by
  have power : ((1 : Word) <<< s).toNat = 2 ^ s := by
    rw [BitVec.toNat_shiftLeft, Nat.shiftLeft_eq]
    have := Nat.pow_lt_pow_right (show 1 < 2 by omega) bound
    simp [mod_eq_of_lt this]
  have pos := Nat.two_pow_pos s
  have value : (((1 : Word) <<< s) - 1).toNat = 2 ^ s - 1 := by
    rw [toNat_sub_of_le (by rw [le_def, power]; exact pos), power]
    rfl
  rw [← BitVec.testBit_toNat, value, testBit_two_pow_sub_one]

private theorem getLsbD_clipWord (bits bsMin clipMin clipMax : Word) (room : bsMin.toNat + 63 < 2 ^ 64)
    (bound : j < 64) : (clipWord bits bsMin clipMin clipMax).getLsbD j =
      (bits.getLsbD j && decide (clipMin.toNat ≤ bsMin.toNat + j ∧ bsMin.toNat + j ≤ clipMax.toNat)) := by
  have last : (bsMin + 63).toNat = bsMin.toNat + 63 := by
    exact mod_eq_of_lt room
  simp only [clipWord, gt_iff_lt, lt_def, last]
  split
  · next outside =>
    have : ¬ (clipMin.toNat ≤ bsMin.toNat + j ∧ bsMin.toNat + j ≤ clipMax.toNat) := by omega
    simp [this]
  · next inside =>
    have lower : (if bsMin.toNat < clipMin.toNat
          then ~~~(0 : Word) &&& ~~~(((1 : Word) <<< (clipMin - bsMin)) - 1) else ~~~0).getLsbD j =
        decide (clipMin.toNat ≤ bsMin.toNat + j) := by
      split
      · next more =>
        have shift : (clipMin - bsMin).toNat = clipMin.toNat - bsMin.toNat :=
          toNat_sub_of_le (by rw [le_def]; omega)
        rw [getLsbD_and, getLsbD_not, getLsbD_not, BitVec.shiftLeft_eq', getLsbD_below _ _ (by omega)]
        simp only [bound, decide_true, BitVec.ofNat_eq_ofNat, BitVec.getLsbD_zero, Bool.not_false,
          Bool.true_and, ← decide_not, decide_eq_decide]
        omega
      · next less =>
        have : clipMin.toNat ≤ bsMin.toNat + j := by omega
        rw [getLsbD_not]
        simp [this, bound]
    generalize (if bsMin.toNat < clipMin.toNat
      then ~~~(0 : Word) &&& ~~~(((1 : Word) <<< (clipMin - bsMin)) - 1) else ~~~0) = mask at lower ⊢
    rw [getLsbD_and]
    split
    · next less =>
      have shift : (clipMax - bsMin).toNat = clipMax.toNat - bsMin.toNat :=
        toNat_sub_of_le (by rw [le_def]; omega)
      have double : (2 : Word) <<< (clipMax.toNat - bsMin.toNat) =
          (1 : Word) <<< (clipMax.toNat - bsMin.toNat + 1) := by
        rfl
      rw [getLsbD_and, lower, BitVec.shiftLeft_eq', shift, double, getLsbD_below _ _ (by omega),
        ← Bool.decide_and]
      congr 1
      rw [decide_eq_decide]
      omega
    · next more =>
      rw [lower]
      congr 1
      rw [decide_eq_decide]
      omega

variable {t : Ucset} {low high : Nat}

private theorem ucleafUclip_represents {bitset : Bitset} (wf : Wf (leaf key bitset) low high)
    (clipMin clipMax : Word) :
    Represents (ucleafUclip (leaf key bitset) clipMin clipMax) low high
      (fun y => Contains (leaf key bitset) y ∧ clipMin.toNat ≤ y.toNat ∧ y.toNat ≤ clipMax.toNat) := by
  have first : (key &&& ~~~bitsetMask).toNat = 128 * (key.toNat / 128) :=
    toNat_and_not_mask _ _ toNat_bitsetMask
  have last : (key ||| bitsetMask).toNat = 128 * (key.toNat / 128) + 127 :=
    toNat_or_mask _ _ toNat_bitsetMask
  change Represents (if clipMax.toNat < (key &&& ~~~bitsetMask).toNat ∨
      (key ||| bitsetMask).toNat < clipMin.toNat then null
    else if clipMin.toNat ≤ (key &&& ~~~bitsetMask).toNat ∧
      (key ||| bitsetMask).toNat ≤ clipMax.toNat then leaf key bitset
    else if ∃ i : Fin 2, clipWord (bitset i)
      ((key &&& ~~~bitsetMask) + 64 * BitVec.ofNat 64 i.val) clipMin clipMax ≠ 0
    then leaf key _ else null) low high _
  split
  · next outside =>
    refine ⟨trivial, fun y => ⟨False.elim, ?_⟩⟩
    rintro ⟨⟨block, _⟩, lower, upper⟩
    omega
  split
  · next inside =>
    refine wf.represents.congr fun y => ⟨fun mem => ⟨mem, ?_⟩, And.left⟩
    have := mem.1
    omega
  have start (i : Fin 2) : ((key &&& ~~~bitsetMask) + 64 * BitVec.ofNat 64 i.val).toNat =
      128 * (key.toNat / 128) + 64 * i.val := by
    rw [toNat_add, BitVec.toNat_mul, BitVec.toNat_ofNat, show (64 : Word).toNat = 64 by decide]
    omega
  have clipped (i : Nat) : bit (fun i : Fin 2 => clipWord (bitset i)
      ((key &&& ~~~bitsetMask) + 64 * BitVec.ofNat 64 i.val) clipMin clipMax) i =
      (bit bitset i && decide (clipMin.toNat ≤ 128 * (key.toNat / 128) + i % 128 ∧
        128 * (key.toNat / 128) + i % 128 ≤ clipMax.toNat)) := by
    have position : 64 * (Fin.ofNat 2 (i / 64)).val + i % 64 = i % 128 := by
      simp only [Fin.ofNat]
      omega
    rw [bit, getLsbD_clipWord _ _ _ _ (by rw [start]; omega) (mod_lt _ (by omega)), start,
      add_assoc, position, bit]
  refine (leaf_or_null_represents wf fun i set => ?_).congr fun y => ?_
  · rw [clipped, Bool.and_eq_true] at set
    exact set.1
  · rw [clipped, Bool.and_eq_true, decide_eq_true_iff, Contains, and_assoc]
    refine and_congr_right fun block => and_congr_right fun _ => ?_
    omega

/-- The tests of a block that lies inside or outside the interval as a whole. -/
theorem clip_block_represents {clipMin clipMax : Word} (wf : Wf t low high) (nonnull : t ≠ null)
    (partial_overlap : Represents clipped low high
      (fun y => Contains t y ∧ clipMin.toNat ≤ y.toNat ∧ y.toNat ≤ clipMax.toNat)) :
    Represents (if clipMin ≤ ucnodeKey t &&& ~~~(ucnodeKey t ^^^ (ucnodeKey t - 1)) ∧
        ucnodeKey t ||| (ucnodeKey t ^^^ (ucnodeKey t - 1)) ≤ clipMax then t
      else if clipMax < ucnodeKey t &&& ~~~(ucnodeKey t ^^^ (ucnodeKey t - 1)) then null
      else if clipMin > ucnodeKey t ||| (ucnodeKey t ^^^ (ucnodeKey t - 1)) then null
      else clipped) low high
      (fun y => Contains t y ∧ clipMin.toNat ≤ y.toNat ∧ y.toNat ≤ clipMax.toNat) := by
  have nonzero : ucnodeKey t ≠ 0 := fun zero => by
    have := wf.centre_pos nonnull
    rw [← toNat_nodeKey, zero] at this
    exact absurd this (by decide)
  have first := toNat_block_start (ucnodeKey t) nonzero
  have last := toNat_block_end (ucnodeKey t)
  rw [lowMask, toNat_nodeKey] at first last
  simp only [gt_iff_lt, lt_def, le_def, first, last]
  have block (y : Word) := wf.contains_block (x := y)
  split
  · next inside =>
    refine wf.represents.congr fun y => ⟨fun mem => ⟨mem, ?_⟩, And.left⟩
    have := block y mem
    omega
  split
  · next before =>
    refine ⟨trivial, fun y => ⟨False.elim, fun inside => ?_⟩⟩
    have := block y inside.1
    omega
  · split
    · next after =>
      refine ⟨trivial, fun y => ⟨False.elim, fun inside => ?_⟩⟩
      have := block y inside.1
      omega
    · exact partial_overlap

theorem uclipNode_represents (wf : Wf t low high) (clipMin clipMax : Word) :
    Represents (uclipNode t clipMin clipMax) low high
      (fun y => Contains t y ∧ clipMin.toNat ≤ y.toNat ∧ y.toNat ≤ clipMax.toNat) := by
  induction t generalizing low high with
  | null =>
    rw [uclipNode]
    exact ⟨trivial, fun y => by simp [Contains]⟩
  | leaf key bitset =>
    rw [uclipNode]
    simp only [reduceCtorEq, dite_false, wf.leaf_leaflike, if_true]
    exact clip_block_represents wf (by simp) (ucleafUclip_represents wf clipMin clipMax)
  | node key left right ihLeft ihRight =>
    have whole := wf
    have notLeaflike := wf.node_not_leaflike
    obtain ⟨nodeKey, lower, upper, wfLeft, wfRight, children⟩ := wf
    have inLeft := ihLeft wfLeft
    have inRight := ihRight wfRight
    have start := lo_le 64 (2 * (key.toNat / 2))
    have stop := lt_hi 64 (2 * (key.toNat / 2))
    have below := whole.contains_left
    have above := whole.contains_right
    rw [uclipNode]
    simp only [reduceCtorEq, dite_false, notLeaflike, Bool.false_eq_true, if_false]
    refine clip_block_represents whole (by simp) ?_
    simp only [gt_iff_lt, lt_def, toNat_nodeKey, centre_node]
    simp only [Contains] at below above ⊢
    split
    · next before =>
      refine (inLeft.mono lower ((le_of_lt stop).trans upper)).congr fun y => ?_
      grind
    · split
      · next after =>
        refine (inRight.mono (lower.trans start) upper).congr fun y => ?_
        grind
      · refine (collapse_represents rfl nodeKey lower upper inLeft inRight).congr fun y => ?_
        grind

theorem uclip_represents (wf : Wf t low high) (clipMin clipMax : Word) :
    Represents (uclip t clipMin clipMax) low high
      (fun y => Contains t y ∧ clipMin.toNat ≤ y.toNat ∧ y.toNat ≤ clipMax.toNat) := by
  rw [uclip]
  split
  · next crossed =>
    refine ⟨trivial, fun y => ⟨False.elim, fun ⟨_, lower, upper⟩ => ?_⟩⟩
    rw [gt_iff_lt, lt_def] at crossed
    omega
  · exact uclipNode_represents wf clipMin clipMax

section Signed

variable (clipMin clipMax y : Word)

/-- The words between two bounds as signed numbers. -/
def SignedBetween : Prop := clipMin.toInt ≤ y.toInt ∧ y.toInt ≤ clipMax.toInt

private theorem slt_zero_iff (x : Word) : x.slt 0 = true ↔ 2 ^ 63 ≤ x.toNat := by
  have value := toInt_eq_toNat_cond x
  rw [slt_iff_toInt_lt, show (0 : Word).toInt = 0 by decide]
  split at value <;> omega

theorem not_signedBetween (crossed : clipMax.slt clipMin = true) :
    ¬ SignedBetween clipMin clipMax y := by
  rw [slt_iff_toInt_lt] at crossed
  rintro ⟨lower, upper⟩
  omega

/-- Bounds of the same sign have the same words between them unsigned. -/
theorem signedBetween_of_same_sign (sameSign : clipMin.slt 0 = clipMax.slt 0) :
    SignedBetween clipMin clipMax y ↔ clipMin.toNat ≤ y.toNat ∧ y.toNat ≤ clipMax.toNat := by
  rw [Bool.eq_iff_iff, slt_zero_iff, slt_zero_iff] at sameSign
  have minSigned := toInt_eq_toNat_cond clipMin
  have maxSigned := toInt_eq_toNat_cond clipMax
  have ySigned := toInt_eq_toNat_cond y
  rw [SignedBetween]
  split at minSigned <;> split at maxSigned <;> split at ySigned <;> omega

/-- Between a negative and a nonnegative bound lie the words up to the latter
and the words from the former on. -/
theorem signedBetween_of_crossing (ordered : ¬ clipMax.slt clipMin = true)
    (crossing : ¬ clipMin.slt 0 = clipMax.slt 0) :
    SignedBetween clipMin clipMax y ↔
      ((0 : Word).toNat ≤ y.toNat ∧ y.toNat ≤ clipMax.toNat) ∨
        (clipMin.toNat ≤ y.toNat ∧ y.toNat ≤ (BitVec.allOnes 64).toNat) := by
  rw [slt_iff_toInt_lt] at ordered
  rw [Bool.eq_iff_iff, slt_zero_iff, slt_zero_iff] at crossing
  have minSigned := toInt_eq_toNat_cond clipMin
  have maxSigned := toInt_eq_toNat_cond clipMax
  have ySigned := toInt_eq_toNat_cond y
  rw [show (0 : Word).toNat = 0 by decide, show (BitVec.allOnes 64).toNat = 2 ^ 64 - 1 by decide, SignedBetween]
  split at minSigned <;> split at maxSigned <;> split at ySigned <;> omega

end Signed

theorem sclip_represents (region : Region low high) (wf : Wf t low high) (clipMin clipMax : Word) :
    Represents (sclip t clipMin clipMax) low high
      (fun y => Contains t y ∧ SignedBetween clipMin clipMax y) := by
  rw [sclip]
  split
  · next crossed =>
    exact ⟨trivial, fun y => ⟨False.elim, fun ⟨_, between⟩ => not_signedBetween _ _ y crossed between⟩⟩
  · next ordered =>
    split
    · next sameSign =>
      refine (uclipNode_represents wf clipMin clipMax).congr fun y => and_congr_right fun _ => ?_
      exact (signedBetween_of_same_sign _ _ y sameSign).symm
    · next crossing =>
      have upward := uclipNode_represents wf 0 clipMax
      have downward := uclipNode_represents wf clipMin (BitVec.allOnes 64)
      refine (union_represents region upward.wf downward.wf).congr fun y => ?_
      rw [upward.contains, downward.contains, ← and_or_left, signedBetween_of_crossing _ _ y ordered crossing]

end Culibs.Cucon.Ucset
