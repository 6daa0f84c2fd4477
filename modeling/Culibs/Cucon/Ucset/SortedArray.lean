import Culibs.Cucon.Ucset.Grow
import Mathlib.Data.List.TakeWhile

namespace Culibs.Cucon.Ucset

open DyadicBlock List
open BitVec (le_def)

/-- `*arr_io` and `*len_io` as the words from the cursor on, with a flag for a
read of the array where nothing is left. -/
structure Cursor where
  rest : List Word
  overread : Bool
deriving DecidableEq

namespace Cursor

/-- `**arr_io` without a preceding test of the length. -/
def deref (io : Cursor) : Word × Cursor :=
  (io.rest.headD 0, { io with overread := io.overread || io.rest.isEmpty })

/-- `do { ++*arr_io; --*len_io; } while (*len_io && **arr_io == key)`. -/
def skip (io : Cursor) (key : Word) : Cursor :=
  { io with rest := io.rest.tail.dropWhile (· == key) }

end Cursor

/-- The loop of `_ucset_leaf_from_sorted_array` after its first round. -/
def fillLeaf (curKeyMax : Word) (bitset : Bitset) : List Word → Bitset × List Word
  | [] => (bitset, [])
  | curKey :: rest =>
    if curKey ≤ curKeyMax then
      fillLeaf curKeyMax (setBit bitset curKey) (rest.dropWhile (· == curKey))
    else (bitset, curKey :: rest)
termination_by keys => keys.length
decreasing_by
  have := (dropWhile_suffix (· == curKey) (l := rest)).length_le
  simp only [length_cons]
  omega

def leafFromSortedArray (io : Cursor) : Ucset × Cursor :=
  match io.rest with
  | [] => (null, io)
  | curKey :: _ =>
    let io := io.skip curKey
    let filled := fillLeaf (curKey ||| bitsetMask) (setBit (fun _ => 0) curKey) io.rest
    (leaf (leafKey curKey) filled.1, { io with rest := filled.2 })

mutual

/-- `_ucset_from_sorted_array`, with fuel for its recursion and its loop. -/
def fromSorted : Nat → Word → Cursor → Option (Ucset × Cursor)
  | 0, _, _ => none
  | fuel + 1, maxKey, io =>
    let (curKey, io) := io.deref
    if io.rest = [] ∨ curKey > maxKey then some (null, io)
    else if keyIsLeaflike curKey then
      let (curNode, io) := leafFromSortedArray io
      fromSortedLoop fuel maxKey (ucnodeKey curNode) curNode io
    else
      match fromSorted fuel (keyMax curKey) (io.skip curKey) with
      | none => none
      | some (rightNode, io) =>
        fromSortedLoop fuel maxKey curKey (ucnodeNew (curKey ||| 1) null rightNode) io

/-- The loop of `_ucset_from_sorted_array`. -/
def fromSortedLoop : Nat → Word → Word → Ucset → Cursor → Option (Ucset × Cursor)
  | 0, _, _, _, _ => none
  | fuel + 1, maxKey, curKey, curNode, io =>
    match io.rest with
    | [] => some (curNode, io)
    | next :: _ =>
      if next ≤ maxKey then
        let key := keyJoin curKey next
        let (stored, io) := if next = key then (key ||| 1, io.skip key) else (key, io)
        match fromSorted fuel (keyMax key) io with
        | none => none
        | some (rightNode, io) =>
          fromSortedLoop fuel maxKey key (ucnodeNew stored curNode rightNode) io
      else some (curNode, io)

end

/-- `cucon_ucset_from_sorted_array` with the final cursor. Twice the length is
enough fuel. -/
def fromSortedArray (arr : List Word) : Option (Ucset × Cursor) :=
  fromSorted (2 * arr.length + 1) (BitVec.allOnes 64) { rest := arr, overread := false }

example : (fromSortedArray [3, 3, 64, 128, 1000]).map (fun made => find made.1 128) = some true := by
  decide +kernel

variable {rest : List Word}
variable {key : Word}

theorem dropWhile_sorted (sorted : (key :: rest).Pairwise (· ≤ ·)) :
    ∃ copies, key :: rest = copies ++ rest.dropWhile (· == key) ∧ (∀ y ∈ copies, y = key) ∧
      key ∈ copies ∧ ∀ y ∈ rest.dropWhile (· == key), key.toNat < y.toNat := by
  refine ⟨key :: rest.takeWhile (· == key), by simp, ?_, by simp, ?_⟩
  · intro y mem
    rcases mem_cons.mp mem with same | skipped
    · exact same
    · simpa using mem_takeWhile_imp skipped
  induction rest with
  | nil => simp
  | cons next rest ih =>
    have order := rel_of_pairwise_cons sorted (mem_cons_self ..)
    have tail : (key :: rest).Pairwise (· ≤ ·) :=
      sorted.sublist (Sublist.cons_cons key (sublist_cons_self next rest))
    by_cases same : next = key
    · rw [dropWhile_cons_of_pos (by simpa using same)]
      exact ih tail
    rw [dropWhile_cons_of_neg (by simpa using same)]
    have least : key.toNat < next.toNat := by
      rw [le_def] at order
      have : next.toNat ≠ key.toNat := fun equal => same (BitVec.eq_of_toNat_eq equal)
      omega
    intro y mem
    rcases mem_cons.mp mem with rfl | later
    · exact least
    · have := rel_of_pairwise_cons (pairwise_cons.mp sorted).2 later
      rw [le_def] at this
      omega

private theorem fillLeaf_spec (curKeyMax : Word) (bitset : Bitset) (keys : List Word)
    (sorted : keys.Pairwise (· ≤ ·)) :
    ∃ taken, keys = taken ++ (fillLeaf curKeyMax bitset keys).2 ∧
      (∀ y ∈ taken, y.toNat ≤ curKeyMax.toNat) ∧
      (∀ y ∈ (fillLeaf curKeyMax bitset keys).2, curKeyMax.toNat < y.toNat) ∧
      ∀ i, bit (fillLeaf curKeyMax bitset keys).1 i = true ↔
        bit bitset i = true ∨ ∃ y ∈ taken, y.toNat % 128 = i % 128 := by
  fun_induction fillLeaf curKeyMax bitset keys with
  | case1 bitset => exact ⟨[], by simp⟩
  | case2 bitset curKey rest within ih =>
    obtain ⟨copies, split, equal, first, _⟩ := dropWhile_sorted sorted
    have tail : (rest.dropWhile (· == curKey)).Pairwise (· ≤ ·) :=
      sorted.sublist (sublist_cons_of_sublist _ (dropWhile_sublist _))
    obtain ⟨taken, remaining, small, large, bits⟩ := ih tail
    refine ⟨copies ++ taken, by rw [append_assoc, ← remaining]; exact split, ?_, large, ?_⟩
    · intro y mem
      rcases mem_append.mp mem with copy | later
      · rw [equal y copy]; exact within
      · exact small y later
    intro i
    rw [bits, bit_setBit, Bool.or_eq_true, decide_eq_true_iff]
    constructor
    · rintro ((same | before) | ⟨y, mem, position⟩)
      · exact .inr ⟨curKey, mem_append_left _ first, same.symm⟩
      · exact .inl before
      · exact .inr ⟨y, mem_append_right _ mem, position⟩
    · rintro (before | ⟨y, mem, position⟩)
      · exact .inl (.inr before)
      · rcases mem_append.mp mem with copy | later
        · rw [equal y copy] at position
          exact .inl (.inl position.symm)
        · exact .inr ⟨y, later, position⟩
  | case3 bitset curKey rest beyond =>
    rw [le_def] at beyond
    refine ⟨[], by simp, by simp, fun y mem => ?_, by simp⟩
    rcases mem_cons.mp mem with rfl | later
    · omega
    · have := rel_of_pairwise_cons sorted later
      rw [le_def] at this
      omega

variable {low high : Nat}

/-- A builder has taken the words below `high` from the cursor and added them to
the elements it was given. -/
def Consumes (low high : Nat) (before : Word → Prop) (result : Option (Ucset × Cursor))
    (io : Cursor) : Prop :=
  ∃ t io' taken, result = some (t, io') ∧ io.rest = taken ++ io'.rest ∧
    (∀ y ∈ io'.rest, high ≤ y.toNat) ∧ Represents t low high (fun y => before y ∨ y ∈ taken)

theorem toNat_keyMax (key : Word) : (keyMax key).toNat = hi 64 key.toNat - 1 := toNat_or_pred key

variable {io : Cursor}
variable {taken : List Word}

theorem pairwise_rest (sorted : io.rest.Pairwise (· ≤ ·)) (split : io.rest = taken ++ rest) :
    rest.Pairwise (· ≤ ·) := by
  rw [split] at sorted
  exact (pairwise_append.mp sorted).2.1

theorem skip_spec (sorted : io.rest.Pairwise (· ≤ ·)) (first : io.rest = key :: rest) :
    ∃ copies, io.rest = copies ++ (io.skip key).rest ∧ (∀ y ∈ copies, y = key) ∧ key ∈ copies ∧
      (∀ y ∈ (io.skip key).rest, key.toNat < y.toNat) ∧
      (io.skip key).rest.length < io.rest.length := by
  rw [first] at sorted
  obtain ⟨copies, split, equal, mem, larger⟩ := dropWhile_sorted sorted
  have rest_eq : (io.skip key).rest = rest.dropWhile (· == key) := by
    simp only [Cursor.skip, first, tail_cons]
  rw [rest_eq, first]
  refine ⟨copies, split, equal, mem, larger, ?_⟩
  have := (dropWhile_suffix (· == key) (l := rest)).length_le
  simp only [length_cons]
  omega

/-- Building goes on after the words `taken`, which the tree built so far has got. -/
theorem Consumes.after (consumes : Consumes low high before' result io') (split : io.rest = taken ++ io'.rest)
    (adds : ∀ y, before' y ↔ before y ∨ y ∈ taken) : Consumes low high before result io := by
  obtain ⟨t, last, later, made, split', outside, rep⟩ := consumes
  refine ⟨t, last, taken ++ later, made, by rw [split, split', append_assoc], outside, rep.congr fun y => ?_⟩
  rw [adds, mem_append, or_assoc]

/-- What the builder of a region promises with the given fuel. -/
private def BuildsRegion (fuel : Nat) : Prop :=
  ∀ {low high : Nat} {maxKey : Word} {io : Cursor}, Region low high → maxKey.toNat + 1 = high →
    io.rest.Pairwise (· ≤ ·) → Above low io.rest → 2 * io.rest.length + 1 ≤ fuel →
    Consumes low high (fun _ => False) (fromSorted fuel maxKey io) io

/-- What its loop promises. -/
private def GrowsRegion (fuel : Nat) : Prop :=
  ∀ (curKey : Word) {low high : Nat} {maxKey : Word} {curNode : Ucset} {io : Cursor}
    {before : Word → Prop}, Region low high → maxKey.toNat + 1 = high → io.rest.Pairwise (· ≤ ·) →
    Represents curNode low high before → curNode ≠ null → curKey.toNat = curNode.centre →
    (∀ y ∈ io.rest, hi 64 curNode.centre ≤ y.toNat) → 2 * io.rest.length + 2 ≤ fuel →
    Consumes low high before (fromSortedLoop fuel maxKey curKey curNode io) io

private theorem grows_step (builds : BuildsRegion fuel) (grows : GrowsRegion fuel) :
    GrowsRegion (fuel + 1) := by
  intro curKey low high maxKey curNode io before region last sorted current nonnull atCentre beyond
    enough
  rw [fromSortedLoop]
  cases remaining : io.rest with
  | nil => exact ⟨curNode, io, [], rfl, by simp [remaining], by simp [remaining], by simpa using current⟩
  | cons next rest =>
    have least (y : Word) (mem : y ∈ io.rest) : next.toNat ≤ y.toNat := by
      rw [remaining] at mem sorted
      rcases mem_cons.mp mem with rfl | later
      · exact le_rfl
      · exact le_def.mp (rel_of_pairwise_cons sorted later)
    have present : next ∈ io.rest := by rw [remaining]; exact .head _ ..
    simp only [le_def]
    split
    · next within =>
      have block := current.wf.block nonnull
      obtain ⟨j, value, _, nodeKey, start, left, reached, stop⟩ := join_above curKey
        block.1 (centre_lt curNode) (by rw [atCentre]; exact ⟨lo_le _ _, lt_hi _ _⟩)
        (beyond next present)
      have key_eq : keyJoin curKey next = j := (value curKey (.inl rfl)).1
      rw [key_eq]
      have rightRegion := Region.rightHalf nodeKey j.isLt
      have rightLast : (keyMax j).toNat + 1 = hi 64 j.toNat := by
        rw [toNat_keyMax]
        omega
      by_cases stored : next = j
      · subst stored
        simp only [if_true]
        obtain ⟨copies, split, equal, mem, larger, shorter⟩ := skip_spec sorted remaining
        obtain ⟨right, io1, taken1, made, split1, far, inRight⟩ := builds
          rightRegion rightLast (pairwise_rest sorted split)
          (fun y inRest => by have := larger y inRest; omega) (by omega)
        rw [made]
        simp only [false_or] at inRight
        have grown := grow_represents region current nonnull nodeKey start left (le_rfl)
          (by omega) inRight (.inl rfl)
        have shorter1 := congrArg length split1
        rw [length_append] at shorter1
        have grew := grows next region last (pairwise_rest (pairwise_rest sorted split) split1) grown.1
          (by simp [ucnodeNew]) grown.2.symm (by rw [grown.2]; exact far) (by omega)
        have whole : io.rest = (copies ++ taken1) ++ io1.rest := by rw [split, split1, append_assoc]
        refine grew.after whole fun y => ?_
        grind
      · have above : ∀ y ∈ io.rest, j.toNat < y.toNat := by
          intro y mem
          have := least y mem
          have : next.toNat ≠ j.toNat := fun same => stored (BitVec.eq_of_toNat_eq same)
          omega
        simp only [stored, if_false]
        obtain ⟨right, io1, taken1, made, split1, far, inRight⟩ := builds
          rightRegion rightLast sorted (fun y inRest => by have := above y inRest; omega) (by omega)
        rw [made]
        simp only [false_or] at inRight
        have took : next ∈ taken1 := by
          have := split1 ▸ present
          rcases mem_append.mp this with taken | later
          · exact taken
          · have := far next later
            omega
        have grown := grow_represents region current nonnull nodeKey start left reached
          (by omega) inRight (.inr ⟨rfl, inRight.ne_null took⟩)
        have shorter1 := congrArg length split1
        rw [length_append] at shorter1
        have := length_pos_of_mem took
        have grew := grows j region last (pairwise_rest sorted split1) grown.1
          (by simp [ucnodeNew]) grown.2.symm (by rw [grown.2]; exact far) (by omega)
        have differ : j ≠ j ||| 1 := by
          have raised := (or_one_key j).2
          have := nodeKey.1
          intro same
          rw [← same] at raised
          omega
        exact grew.after split1 fun y => by simp only [differ, false_and, false_or]
    · next outside =>
      refine ⟨curNode, io, [], rfl, by simp [remaining], fun y mem => ?_, by simpa using current⟩
      have := least y mem
      omega

theorem leafFromSortedArray_spec (region : Region low high) (sorted : io.rest.Pairwise (· ≤ ·))
    (above : Above low io.rest) (first : io.rest = curKey :: rest) (within : curKey.toNat < high)
    (leaflike : keyIsLeaflike curKey = true) :
    ∃ taken, io.rest = taken ++ (leafFromSortedArray io).2.rest ∧ curKey ∈ taken ∧
      Represents (leafFromSortedArray io).1 low high (· ∈ taken) ∧
      (leafFromSortedArray io).1.centre = (leafKey curKey).toNat ∧
      ∀ y ∈ (leafFromSortedArray io).2.rest, hi 64 (leafKey curKey).toNat ≤ y.toNat := by
  obtain ⟨copies, split, equal, mem, larger, shorter⟩ := skip_spec sorted first
  obtain ⟨taken, remaining, small, large, bits⟩ := fillLeaf_spec (curKey ||| bitsetMask)
    (setBit (fun _ => 0) curKey) (io.skip curKey).rest (pairwise_rest sorted split)
  have last := toNat_or_mask curKey _ toNat_bitsetMask
  have value := toNat_leafKey curKey
  have leafIsKey := isLeafKey_leafKey curKey
  have made : leafFromSortedArray io =
      (leaf (leafKey curKey) (fillLeaf (curKey ||| bitsetMask) (setBit (fun _ => 0) curKey)
        (io.skip curKey).rest).1, { io.skip curKey with rest := (fillLeaf (curKey ||| bitsetMask)
          (setBit (fun _ => 0) curKey) (io.skip curKey).rest).2 }) := by
    rw [leafFromSortedArray, first]
  rw [made]
  have whole : io.rest = (copies ++ taken) ++ (fillLeaf (curKey ||| bitsetMask)
      (setBit (fun _ => 0) curKey) (io.skip curKey).rest).2 := by
    rw [append_assoc, ← remaining]
    exact split
  refine ⟨copies ++ taken, whole, mem_append_left _ mem, ?_, centre_leaf leafIsKey, ?_⟩
  · refine filled_leaf_represents region (fun y inTaken => above y ?_) within
      (mem_append_left _ mem) leaflike (fun y inTaken => ?_) (fun y inTaken => ?_) fun i => ?_
    · rw [whole]
      exact mem_append_left _ inTaken
    · rcases mem_append.mp inTaken with copy | later
      · rw [equal y copy]
      · exact le_of_lt (larger y (by rw [remaining]; exact mem_append_left _ later))
    · rcases mem_append.mp inTaken with copy | later
      · rw [equal y copy]
        omega
      · exact small y later
    rw [bits, bit_setBit, Bool.or_eq_true, decide_eq_true_iff]
    simp only [mem_append]
    constructor
    · rintro ((same | zero) | ⟨y, inTaken, position⟩)
      · exact ⟨curKey, .inl mem, same.symm⟩
      · simp at zero
      · exact ⟨y, .inr inTaken, position⟩
    · rintro ⟨y, copy | later, position⟩
      · rw [equal y copy] at position
        exact .inl (.inl position.symm)
      · exact .inr ⟨y, later, position⟩
  · intro y inRest
    have := large y inRest
    rw [(leaf_block leafIsKey).2]
    omega

private theorem builds_step (builds : BuildsRegion fuel) (grows : GrowsRegion fuel) :
    BuildsRegion (fuel + 1) := by
  intro low high maxKey io region last sorted above enough
  rw [fromSorted]
  cases remaining : io.rest with
  | nil =>
    refine ⟨null, io.deref.2, [], ?_, ?_, ?_, trivial, fun y => by simp [Contains]⟩
    · simp [Cursor.deref, remaining]
    · simp [Cursor.deref, remaining]
    · simp [Cursor.deref, remaining]
  | cons curKey rest =>
    have least (y : Word) (mem : y ∈ io.rest) : curKey.toNat ≤ y.toNat := by
      rw [remaining] at mem sorted
      rcases mem_cons.mp mem with rfl | later
      · exact le_rfl
      · exact le_def.mp (rel_of_pairwise_cons sorted later)
    have present : curKey ∈ io.rest := by rw [remaining]; exact .head _ ..
    have read : io.deref = (curKey, io) := by
      cases io
      simp_all [Cursor.deref]
    simp only [read, remaining, reduceCtorEq, false_or, gt_iff_lt, BitVec.lt_def]
    split
    · next beyond =>
      refine ⟨null, io, [], rfl, by simp [remaining], fun y mem => ?_, trivial,
        fun y => by simp [Contains]⟩
      have := least y mem
      omega
    · next within =>
      split
      · next leaflike =>
        obtain ⟨taken, split, took, filled, centred, far⟩ :=
          leafFromSortedArray_spec region sorted above remaining (by omega) leaflike
        have shorter := congrArg length split
        rw [length_append] at shorter
        have := length_pos_of_mem took
        have grew := grows (ucnodeKey (leafFromSortedArray io).1) region last (pairwise_rest sorted split)
          filled (filled.ne_null took) rfl (by rw [centred]; exact far) (by omega)
        exact grew.after split fun y => by rw [false_or]
      · next notLeaflike =>
        rw [keyIsLeaflike_iff] at notLeaflike
        have nodeKey : IsNodeKey curKey.toNat := ⟨by omega, by omega⟩
        have more := above curKey present
        have rightLast : (keyMax curKey).toNat + 1 = hi 64 curKey.toNat := by
          have := lt_hi 64 curKey.toNat
          rw [toNat_keyMax]
          omega
        obtain ⟨copies, split, equal, mem, larger, shorter⟩ := skip_spec sorted remaining
        obtain ⟨right, io1, taken1, made, split1, far, inRight⟩ := builds
          (Region.rightHalf nodeKey curKey.isLt) rightLast (pairwise_rest sorted split)
          (fun y inRest => by have := larger y inRest; omega) (by omega)
        rw [made]
        simp only [false_or] at inRight
        have started := start_represents region nodeKey (by omega) (by omega) inRight
        have raised := or_one_key curKey
        have centred : (ucnodeNew (curKey ||| 1) null right).centre = curKey.toNat := by
          rw [ucnodeNew, centre_node]
          omega
        have shorter1 := congrArg length split1
        rw [length_append] at shorter1
        have grew := grows curKey region last (pairwise_rest (pairwise_rest sorted split) split1) started
          (by simp [ucnodeNew]) centred.symm (by rw [centred]; exact far) (by omega)
        have whole : io.rest = (copies ++ taken1) ++ io1.rest := by rw [split, split1, append_assoc]
        refine grew.after whole fun y => ?_
        have copy : y ∈ copies ↔ y = curKey := ⟨equal y, fun same => same ▸ mem⟩
        simp [copy]

private theorem fromSorted_consumes (fuel : Nat) (maxKey : Word) (io : Cursor) (region : Region low high)
    (last : maxKey.toNat + 1 = high) (sorted : io.rest.Pairwise (· ≤ ·)) (above : Above low io.rest)
    (enough : 2 * io.rest.length + 1 ≤ fuel) :
    Consumes low high (fun _ => False) (fromSorted fuel maxKey io) io := by
  suffices both : BuildsRegion fuel ∧ GrowsRegion fuel from both.1 region last sorted above enough
  clear enough
  induction fuel with
  | zero => exact ⟨fun _ _ _ _ short => by omega, fun _ _ _ _ _ _ _ short => by omega⟩
  | succ fuel ih => exact ⟨builds_step ih.1 ih.2, grows_step ih.1 ih.2⟩

/-- Construction from a sorted array succeeds, leaves nothing of the array and
contains exactly its words. -/
theorem fromSortedArray_represents (sorted : arr.Pairwise (· ≤ ·)) :
    ∃ t io, fromSortedArray arr = some (t, io) ∧ io.rest = [] ∧
      Represents t 0 (2 ^ 64) (· ∈ arr) := by
  obtain ⟨t, io, taken, made, split, outside, rep⟩ := fromSorted_consumes
    (2 * arr.length + 1) (BitVec.allOnes 64) { rest := arr, overread := false } Region.top
    (by decide) sorted (fun y _ => ⟨Nat.zero_le _, by omega⟩) (Nat.le_refl _)
  have none_left : io.rest = [] := by
    apply eq_nil_iff_forall_not_mem.mpr
    intro y mem
    have := outside y mem
    omega
  have all : arr = taken := by simpa [none_left] using split
  exact ⟨t, io, made, none_left, rep.congr fun y => by simp [all]⟩

end Culibs.Cucon.Ucset
