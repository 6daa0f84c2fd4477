import Culibs.Cucon.Ucset.Predicate
import Culibs.Cucon.Ucset.SortedArray

/-! The reads of the array during construction from a sorted array. The builder of a
region reads the word at the cursor before it tests the length, so it reads past the
end when it is entered after the last word. -/

namespace Culibs.Cucon.Ucset

open DyadicBlock List

/-- The last word is stored in an inner node. -/
def EndsAtNode (words : List Word) : Prop := ∃ last ∈ words.getLast?, keyIsLeaflike last = false

@[simp] theorem endsAtNode_nil : ¬ EndsAtNode [] := by simp [EndsAtNode]

variable {rest : List Word}

theorem endsAtNode_append (nonempty : rest ≠ []) :
    EndsAtNode (taken ++ rest) ↔ EndsAtNode rest := by
  rw [EndsAtNode, EndsAtNode, getLast?_append_of_ne_nil _ nonempty]

theorem endsAtNode_of_all (nonempty : words ≠ [])
    (all : ∀ y ∈ words, keyIsLeaflike y = leaflike) : EndsAtNode words ↔ leaflike = false := by
  have last := all _ (getLast_mem nonempty)
  rw [EndsAtNode, getLast?_eq_some_getLast nonempty]
  simp [last]

/-- A step of the construction: words are taken, and the end of the array has been
passed when nothing is left and the last word is stored in an inner node. -/
structure Cursor.Reads (io io' : Cursor) : Prop where
  suffix : ∃ taken, io.rest = taken ++ io'.rest
  overread : io'.overread = true ↔ io.overread = true ∨ io'.rest = [] ∧ EndsAtNode io.rest

theorem Cursor.Reads.refl (io : Cursor) : io.Reads io := by
  refine ⟨⟨[], rfl⟩, (or_iff_left ?_).symm⟩
  rintro ⟨empty, ends⟩
  rw [empty] at ends
  exact endsAtNode_nil ends

variable {io : Cursor}

theorem Cursor.Reads.trans (first : io.Reads io1) (second : io1.Reads io2) :
    io.Reads io2 := by
  obtain ⟨⟨taken1, split1⟩, beyond1⟩ := first
  obtain ⟨⟨taken2, split2⟩, beyond2⟩ := second
  refine ⟨⟨taken1 ++ taken2, by rw [split1, split2, append_assoc]⟩, ?_⟩
  rw [beyond2, beyond1]
  by_cases left : io1.rest = []
  · have left2 : io2.rest = [] := by
      rw [left] at split2
      exact (append_eq_nil_iff.mp split2.symm).2
    simp [left, left2]
  · rw [split1, endsAtNode_append left]
    simp [left]

variable {io' : Cursor}

theorem Cursor.Reads.sorted (reads : io.Reads io') (sorted : io.rest.Pairwise (· ≤ ·)) :
    io'.rest.Pairwise (· ≤ ·) := by
  obtain ⟨taken, split⟩ := reads.suffix
  exact pairwise_rest sorted split

/-- The word at the cursor is above a bound. -/
def Cursor.Past (io : Cursor) (bound : Word) : Prop := ∀ next ∈ io.rest.head?, bound < next

/-- The builder of a region passes the end as well when there is nothing to begin with. -/
structure Cursor.Builds (maxKey : Word) (io io' : Cursor) : Prop where
  suffix : ∃ taken, io.rest = taken ++ io'.rest
  past : io'.Past maxKey
  overread : io'.overread = true ↔ io.overread = true ∨ io.rest = [] ∨ io'.rest = [] ∧ EndsAtNode io.rest

theorem Cursor.Builds.reads (builds : io.Builds maxKey io')
    (nonempty : io.rest ≠ []) : io.Reads io' := by
  refine ⟨builds.suffix, ?_⟩
  rw [builds.overread]
  simp [nonempty]

variable {key : Word}

/-- Skipping a node key and building the region to the right of it. -/
theorem Cursor.Builds.after_skip
    (sorted : io.rest.Pairwise (· ≤ ·)) (first : io.rest = key :: rest) (stored : keyIsLeaflike key = false)
    (builds : (io.skip key).Builds maxKey io') : io.Reads io' := by
  obtain ⟨copies, split, equal, mem, _⟩ := skip_spec sorted first
  obtain ⟨⟨taken, remaining⟩, _, beyond⟩ := builds
  refine ⟨⟨copies ++ taken, by rw [split, remaining, append_assoc]⟩, beyond.trans (or_congr_right ?_)⟩
  by_cases empty : (io.skip key).rest = []
  · -- Only copies of the key were left.
    have left : io'.rest = [] := by
      rw [empty] at remaining
      exact (append_eq_nil_iff.mp remaining.symm).2
    rw [empty, append_nil] at split
    have ends := (endsAtNode_of_all (ne_nil_of_mem mem) fun y copy => by rw [equal y copy, stored]).mpr rfl
    rw [← split] at ends
    simp [empty, left, ends]
  · rw [split, endsAtNode_append empty]
    simp [empty]

/-- The word at the cursor is in a block above the one of a key. -/
def Cursor.Above (io : Cursor) (key : Word) : Prop := ∀ next ∈ io.rest.head?, key.toNat / 128 < next.toNat / 128

theorem leafFromSortedArray_reads
    (sorted : io.rest.Pairwise (· ≤ ·)) (first : io.rest = curKey :: rest)
    (leaflike : keyIsLeaflike curKey = true) :
    io.Reads (leafFromSortedArray io).2 ∧
      (leafFromSortedArray io).2.Above (ucnodeKey (leafFromSortedArray io).1) := by
  obtain ⟨taken, split, mem, rep, centred, far⟩ := leafFromSortedArray_spec Region.top sorted
    (fun y _ => ⟨Nat.zero_le _, by omega⟩) first curKey.isLt leaflike
  constructor
  · refine ⟨⟨taken, split⟩, ?_⟩
    have unread : (leafFromSortedArray io).2.overread = io.overread := by
      rw [leafFromSortedArray, first]
      rfl
    rw [unread]
    refine (or_iff_left ?_).symm
    rintro ⟨empty, ends⟩
    -- The whole array went into the leaf.
    have inLeaf : ∀ y ∈ taken, keyIsLeaflike y = true := by
      intro y inTaken
      have contains := (rep.contains y).mpr inTaken
      have wf := rep.wf
      rw [leafFromSortedArray, first] at contains wf
      exact leaf_element_leaflike wf contains
    rw [split, empty, append_nil, endsAtNode_of_all (ne_nil_of_mem mem) inLeaf] at ends
    exact absurd ends (by decide)
  · intro next first
    have beyond := far next (mem_of_mem_head? first)
    have value := toNat_leafKey curKey
    rw [centre] at centred
    rw [(leaf_block (isLeafKey_leafKey curKey)).2] at beyond
    omega

private theorem keyJoin_nodeKey {curKey next : Word} (later : curKey.toNat / 128 < next.toNat / 128) :
    IsNodeKey (keyJoin curKey next).toNat := by
  have value := toNat_leafKey curKey
  have isLeafKey := isLeafKey_leafKey curKey
  have block := leaf_block isLeafKey
  obtain ⟨j, join, _, nodeKey, _⟩ := join_above curKey (.inl isLeafKey) (leafKey curKey).isLt
    (by omega) (by omega : hi 64 (leafKey curKey).toNat ≤ next.toNat)
  rwa [show keyJoin curKey next = j from (join curKey (.inl rfl)).1]

theorem Cursor.Past.above (nodeKey : IsNodeKey key.toNat)
    (past : io.Past (keyMax key)) : io.Above key := by
  intro next first
  have beyond := BitVec.lt_def.mp (past next first)
  have wide := Nat.le_of_dvd (rad_pos 64 key.toNat) (rad_nodeKey nodeKey)
  rw [toNat_keyMax, hi] at beyond
  omega

theorem notLeaflike_of_nodeKey (nodeKey : IsNodeKey key.toNat) : keyIsLeaflike key = false := by
  rw [← Bool.not_eq_true, keyIsLeaflike_iff]
  have := nodeKey
  rw [IsNodeKey] at this
  omega

private theorem fromSorted_reads (fuel : Nat) :
    (∀ {maxKey : Word} {io io' : Cursor} {t : Ucset}, io.rest.Pairwise (· ≤ ·) →
      fromSorted fuel maxKey io = some (t, io') → io.Builds maxKey io') ∧
    ∀ {maxKey curKey : Word} {curNode t : Ucset} {io io' : Cursor}, io.rest.Pairwise (· ≤ ·) → io.Above curKey →
      fromSortedLoop fuel maxKey curKey curNode io = some (t, io') → io.Reads io' ∧ io'.Past maxKey := by
  induction fuel with
  | zero => exact ⟨fun _ none => by simp [fromSorted] at none, fun _ _ none => by simp [fromSortedLoop] at none⟩
  | succ fuel ih =>
    obtain ⟨builds, loops⟩ := ih
    constructor
    · intro maxKey io io' t sorted made
      rw [fromSorted] at made
      cases remaining : io.rest with
      | nil =>
        simp only [Cursor.deref, remaining, true_or, if_true] at made
        obtain ⟨rfl, rfl⟩ := Prod.mk.inj (Option.some.inj made)
        exact ⟨⟨[], by simp [remaining]⟩, by simp [Cursor.Past], by simp [remaining]⟩
      | cons curKey rest =>
        have read : io.deref = (curKey, io) := by
          cases io
          simp_all [Cursor.deref]
        simp only [read, remaining, reduceCtorEq, false_or] at made
        -- The first word is beyond the region, or some are taken.
        suffices taken : io.Reads io' ∧ io'.Past maxKey by
          refine ⟨taken.1.suffix, taken.2, taken.1.overread.trans ?_⟩
          simp [remaining]
        split at made
        · next beyond =>
          obtain ⟨rfl, rfl⟩ := Prod.mk.inj (Option.some.inj made)
          refine ⟨.refl io, ?_⟩
          simpa [Cursor.Past, remaining] using beyond
        split at made
        · next leaflike =>
          obtain ⟨filled, above⟩ := leafFromSortedArray_reads sorted remaining leaflike
          have rest := loops (filled.sorted sorted) above made
          exact ⟨filled.trans rest.1, rest.2⟩
        · next notLeaflike =>
          have nodeKey : IsNodeKey curKey.toNat := by
            rw [keyIsLeaflike_iff] at notLeaflike
            exact ⟨by omega, by omega⟩
          generalize built : fromSorted fuel (keyMax curKey) (io.skip curKey) = right at made
          cases right with
          | none => cases made
          | some found =>
            have grown := builds (pairwise_rest sorted (skip_spec sorted remaining).choose_spec.1) built
            have taken := grown.after_skip sorted remaining (notLeaflike_of_nodeKey nodeKey)
            have rest := loops (taken.sorted sorted) (grown.past.above nodeKey) made
            exact ⟨taken.trans rest.1, rest.2⟩
    · intro maxKey curKey curNode t io io' sorted above made
      rw [fromSortedLoop] at made
      cases remaining : io.rest with
      | nil =>
        simp only [remaining] at made
        obtain ⟨rfl, rfl⟩ := Prod.mk.inj (Option.some.inj made)
        exact ⟨.refl io, by simp [Cursor.Past, remaining]⟩
      | cons next rest =>
        simp only [remaining] at made
        have nodeKey := keyJoin_nodeKey (above next (by simp [remaining]))
        have joined := notLeaflike_of_nodeKey nodeKey
        split at made
        · next within =>
          by_cases stored : next = keyJoin curKey next
          · simp only [← stored, if_true] at made
            rw [← stored] at nodeKey joined
            generalize built : fromSorted fuel (keyMax next) (io.skip next) = right at made
            cases right with
            | none => cases made
            | some found =>
              have grown := builds (pairwise_rest sorted (skip_spec sorted remaining).choose_spec.1) built
              have taken := grown.after_skip sorted remaining joined
              have rest := loops (taken.sorted sorted) (grown.past.above nodeKey) made
              exact ⟨taken.trans rest.1, rest.2⟩
          · simp only [stored, if_false] at made
            generalize built : fromSorted fuel (keyMax (keyJoin curKey next)) io = right at made
            cases right with
            | none => cases made
            | some found =>
              have grown := builds sorted built
              have taken := grown.reads (by simp [remaining])
              have rest := loops (taken.sorted sorted) (grown.past.above nodeKey) made
              exact ⟨taken.trans rest.1, rest.2⟩
        · next outside =>
          obtain ⟨rfl, rfl⟩ := Prod.mk.inj (Option.some.inj made)
          refine ⟨.refl io, ?_⟩
          simpa [Cursor.Past, remaining] using outside

/-- Construction reads past the end of an empty array, and of one whose last word is
stored in an inner node. -/
theorem fromSortedArray_overread (sorted : arr.Pairwise (· ≤ ·)) :
    ∃ t io, fromSortedArray arr = some (t, io) ∧ (io.overread = true ↔ arr = [] ∨ EndsAtNode arr) := by
  obtain ⟨t, io, made, left, _⟩ := fromSortedArray_represents sorted
  have builds := (fromSorted_reads _).1 sorted made
  refine ⟨t, io, made, builds.overread.trans ?_⟩
  simp [left]

end Culibs.Cucon.Ucset
