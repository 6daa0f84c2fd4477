import Culibs.Cucon.Ucmap.SortedArray
import Culibs.Cucon.Ucset.ArrayReads

namespace Culibs.Cucon.Ucmap

open List

/-- `*arr_io` and `*len_io` as the elements from the cursor on, with a flag for a read
of the array where nothing is left. -/
structure Cursor where
  rest : List Element
  overread : Bool
deriving DecidableEq

namespace Cursor

/-- `(*arr_io)->key`. -/
def key (io : Cursor) : Word × Cursor :=
  ((io.rest.headD (0, 0)).1, { io with overread := io.overread || io.rest.isEmpty })

/-- `(*arr_io)->value`. -/
def value (io : Cursor) : Word × Cursor :=
  ((io.rest.headD (0, 0)).2, { io with overread := io.overread || io.rest.isEmpty })

/-- `++*arr_io; --*len_io;` until nothing is left or another key is read. -/
def skip (curKey : Word) (io : Cursor) : Cursor :=
  if _empty : io.rest.tail = [] then { io with rest := io.rest.tail }
  else
    let read := key { io with rest := io.rest.tail }
    if read.1 = curKey then skip curKey read.2 else read.2
termination_by io.rest.length
decreasing_by
  have := length_pos_of_ne_nil _empty
  simp only [read, key, length_tail] at *
  omega

end Cursor

mutual

/-- `_ucmap_from_sorted_array` on a cursor that keeps track of the reads. -/
def fromSortedCursor : Nat → Word → Cursor → Option (Ucmap × Cursor)
  | 0, _, _ => none
  | fuel + 1, maxKey, io =>
    if io.rest = [] then some (null, io)
    else
      let (curKey, io) := io.key
      if curKey > maxKey then some (null, io)
      else
        let (value, io) := io.value
        let io := io.skip curKey
        if io.rest = [] then some (nodeNewVal curKey null null value, io)
        else
          let (nextKey, io) := io.key
          if keyCovers curKey nextKey then
            match fromSortedCursor fuel (keyMax curKey) io with
            | none => none
            | some (rightNode, io) =>
              let curNode := nodeNewVal curKey null rightNode value
              if io.rest = [] then some (curNode, io)
              else fromSortedCursorLoop fuel maxKey curKey curNode io
          else fromSortedCursorLoop fuel maxKey curKey (nodeNewVal curKey null null value) io

/-- The rest of the loop of `_ucmap_from_sorted_array` from its test of the length on. -/
def fromSortedCursorLoop : Nat → Word → Word → Ucmap → Cursor → Option (Ucmap × Cursor)
  | 0, _, _, _, _ => none
  | fuel + 1, maxKey, curKey, curNode, io =>
    if io.rest = [] then some (curNode, io)
    else
      let (nextKey, io) := io.key
      if nextKey > maxKey then some (curNode, io)
      else if keyCovers nextKey curKey then
        let (value, io) := io.value
        let io := io.skip nextKey
        if io.rest = [] then some (nodeNewVal nextKey curNode null value, io)
        else
          match fromSortedCursor fuel (keyMax nextKey) io with
          | none => none
          | some (rightNode, io) =>
            fromSortedCursorLoop fuel maxKey nextKey (nodeNewVal nextKey curNode rightNode value) io
      else
        let curKey := if ¬ keyCovers curKey nextKey then keyJoin curKey nextKey else curKey
        match fromSortedCursor fuel (keyMax curKey) io with
        | none => none
        | some (rightNode, io) =>
          fromSortedCursorLoop fuel maxKey curKey (nodeNewNoval curKey curNode rightNode) io

end

/-- `cucon_ucmap_from_sorted_array` with the final cursor. -/
def fromSortedArrayCursor (arr : List Element) : Option (Ucmap × Cursor) :=
  fromSortedCursor (2 * arr.length + 1) (BitVec.allOnes 64) { rest := arr, overread := false }

variable {curKey value : Word} {rest : List Element} {overread : Bool}

@[simp] theorem Cursor.key_cons :
    Cursor.key { rest := (curKey, value) :: rest, overread } =
      (curKey, { rest := (curKey, value) :: rest, overread }) := by
  simp [Cursor.key]

@[simp] theorem Cursor.value_cons :
    Cursor.value { rest := (curKey, value) :: rest, overread } =
      (value, { rest := (curKey, value) :: rest, overread }) := by
  simp [Cursor.value]

@[simp] theorem Cursor.skip_cons (first : Element) :
    Cursor.skip curKey { rest := first :: rest, overread } = { rest := skipKey curKey rest, overread } := by
  induction rest generalizing first with
  | nil =>
    rw [Cursor.skip]
    simp [skipKey]
  | cons next rest ih =>
    obtain ⟨nextKey, nextValue⟩ := next
    rw [Cursor.skip]
    simp only [tail_cons, reduceCtorEq, dite_false, Cursor.key_cons]
    by_cases same : nextKey = curKey
    · rw [if_pos same, ih, skipKey, skipKey, dropWhile_cons_of_pos (by simpa using same)]
    · rw [if_neg same, skipKey, dropWhile_cons_of_neg (by simpa using same)]

/-- The result of a builder on a cursor whose reads stay in the array. -/
def withCursor (overread : Bool) (result : Option (Ucmap × List Element)) : Option (Ucmap × Cursor) :=
  result.map (fun made => (made.1, { rest := made.2, overread }))

/-- The builders on a cursor are the ones on the elements, and read nothing more. -/
theorem fromSortedCursor_eq (fuel : Nat) (overread : Bool) :
    (∀ maxKey rest, fromSortedCursor fuel maxKey { rest, overread } =
      withCursor overread (fromSorted fuel maxKey rest)) ∧
    ∀ maxKey curKey curNode rest, fromSortedCursorLoop fuel maxKey curKey curNode { rest, overread } =
      withCursor overread (fromSortedLoop fuel maxKey curKey curNode rest) := by
  induction fuel with
  | zero => exact ⟨fun _ _ => by simp [fromSortedCursor, fromSorted, withCursor], fun _ _ _ _ => by
      simp [fromSortedCursorLoop, fromSortedLoop, withCursor]⟩
  | succ fuel ih =>
    obtain ⟨builds, loops⟩ := ih
    constructor
    · intro maxKey rest
      rw [fromSortedCursor.eq_def]
      cases rest with
      | nil => simp [fromSorted, withCursor]
      | cons first rest =>
        obtain ⟨curKey, value⟩ := first
        simp only [fromSorted, reduceCtorEq, if_false, Cursor.key_cons, Cursor.value_cons, Cursor.skip_cons]
        by_cases beyond : curKey > maxKey
        · simp [beyond, withCursor]
        simp only [if_neg beyond]
        cases skipKey curKey rest with
        | nil => simp [withCursor]
        | cons next later =>
          obtain ⟨nextKey, nextValue⟩ := next
          simp only [reduceCtorEq, if_false, Cursor.key_cons]
          by_cases covers : keyCovers curKey nextKey = true
          · simp only [if_pos covers, builds]
            cases fromSorted fuel (keyMax curKey) ((nextKey, nextValue) :: later) with
            | none => rfl
            | some made =>
              by_cases empty : made.2 = []
              · simp [withCursor, empty]
              · simpa [withCursor, empty] using loops maxKey curKey (nodeNewVal curKey null made.1 value) made.2
          · simp only [if_neg covers, loops]
    · intro maxKey curKey curNode rest
      cases rest with
      | nil => simp [fromSortedCursorLoop, fromSortedLoop, withCursor]
      | cons first rest =>
        obtain ⟨nextKey, value⟩ := first
        simp only [fromSortedCursorLoop, fromSortedLoop, reduceCtorEq, if_false, Cursor.key_cons, Cursor.value_cons,
          Cursor.skip_cons]
        by_cases beyond : nextKey > maxKey
        · simp [beyond, withCursor]
        simp only [if_neg beyond]
        by_cases covers : keyCovers nextKey curKey = true
        · simp only [if_pos covers]
          cases skipKey nextKey rest with
          | nil => simp [withCursor]
          | cons next later =>
            obtain ⟨key, nextValue⟩ := next
            simp only [reduceCtorEq, if_false, builds]
            cases fromSorted fuel (keyMax nextKey) ((key, nextValue) :: later) with
            | none => rfl
            | some made => exact loops _ _ _ made.2
        · simp only [if_neg covers, builds]
          generalize (if ¬ keyCovers curKey nextKey = true then keyJoin curKey nextKey else curKey) = outer
          cases fromSorted fuel (keyMax outer) ((nextKey, value) :: rest) with
          | none => rfl
          | some made => exact loops _ _ _ made.2

private theorem fromSortedArrayCursor_overread (sorted : Sorted arr) :
    ∃ map io, fromSortedArrayCursor arr = some (map, io) ∧ io.overread = false ∧
      fromSortedArray arr = some (map, io.rest) := by
  obtain ⟨map, made, _⟩ := fromSortedArray_represents sorted
  refine ⟨map, { rest := [], overread := false }, ?_, rfl, made⟩
  rw [fromSortedArrayCursor, (fromSortedCursor_eq _ _).1]
  exact congrArg (withCursor false) made

/-- Construction of a set from a sorted array stays in the array exactly when the array
has a last word and it is stored in a leaf. Construction of a map always does. -/
theorem sortedArray_reads (words : List Word) (elements : List Element) (sortedWords : words.Pairwise (· ≤ ·))
    (sortedElements : Sorted elements) :
    (∃ set io, Ucset.fromSortedArray words = some (set, io) ∧
      (io.overread = false ↔ ∃ last ∈ words.getLast?, last = 0 ∨ last.toNat % 128 ≠ 0)) ∧
    ∃ map io, fromSortedArrayCursor elements = some (map, io) ∧ io.overread = false ∧
      fromSortedArray elements = some (map, io.rest) := by
  refine ⟨?_, fromSortedArrayCursor_overread sortedElements⟩
  obtain ⟨set, io, made, beyond⟩ := Ucset.fromSortedArray_overread sortedWords
  refine ⟨set, io, made, ?_⟩
  rw [← Bool.not_eq_true, beyond, Ucset.EndsAtNode]
  cases last : words.getLast? with
  | none => simp [List.getLast?_eq_none_iff.mp last]
  | some word =>
    have nonempty : words ≠ [] := by
      rintro rfl
      simp at last
    have leaflike := Ucset.keyIsLeaflike_iff word
    have zero : word = 0 ↔ word.toNat = 0 := ⟨fun same => by rw [same]; rfl, fun same => BitVec.eq_of_toNat_eq same⟩
    simp only [nonempty, Option.mem_def, Option.some.injEq, exists_eq_left', false_or, Bool.not_eq_false, leaflike, zero]

theorem sortedArray_reads_keys :
    [0, 3, 128, 130].Pairwise (· ≤ · : Word → Word → Prop) ∧ Sorted [(0, 7), (12, 5)] ∧
    (∃ set io, Ucset.fromSortedArray [0, 3, 128, 130] = some (set, io) ∧
      (io.overread = false ↔ ∃ last ∈ [0, 3, 128, (130 : Word)].getLast?, last = 0 ∨ last.toNat % 128 ≠ 0)) ∧
    ∃ map io, fromSortedArrayCursor [(0, 7), (12, 5)] = some (map, io) ∧ io.overread = false ∧
      fromSortedArray [(0, 7), (12, 5)] = some (map, io.rest) :=
  ⟨by decide, by unfold Sorted; decide,
    sortedArray_reads [0, 3, 128, 130] [(0, 7), (12, 5)] (by decide) (by unfold Sorted; decide)⟩

/-- After its only word the array is read again. -/
theorem sortedArray_overread : ¬ ∀ words : List Word, words.Pairwise (· ≤ ·) →
    ∃ set io, Ucset.fromSortedArray words = some (set, io) ∧ io.overread = false := by
  intro always
  obtain ⟨set, io, made, unread⟩ := always [128] (by decide)
  have beyond : (Ucset.fromSortedArray [128]).map (fun made => made.2.overread) = some true := by decide
  rw [made] at beyond
  simp [unread] at beyond

end Culibs.Cucon.Ucmap
