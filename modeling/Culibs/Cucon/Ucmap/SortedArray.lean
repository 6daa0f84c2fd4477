import Culibs.Cucon.Ucmap.Update
import Mathlib.Data.List.TakeWhile

/-! Construction of an integer map from a sorted array. The array cursor and the
remaining length are shared by reference in the source, so the elements from the
cursor on are threaded through the recursion. -/

namespace Culibs.Cucon.Ucmap

open DyadicBlock List
open BitVec (lt_def)

/-- `struct cucon_ucmap_element`: a key and a value. -/
abbrev Element := Word × Word

/-- `do { ++*arr_io; --*len_io; } while (*len_io && (*arr_io)->key == key)`
after an element with that key. -/
def skipKey (key : Word) (rest : List Element) : List Element := rest.dropWhile (·.1 == key)

mutual

/-- `_ucmap_from_sorted_array`, with fuel for its recursion and its loop. -/
def fromSorted : Nat → Word → List Element → Option (Ucmap × List Element)
  | 0, _, _ => none
  | _ + 1, _, [] => some (null, [])
  | fuel + 1, maxKey, (curKey, value) :: rest =>
    if curKey > maxKey then some (null, (curKey, value) :: rest)
    else
      match skipKey curKey rest with
      | [] => some (nodeNewVal curKey null null value, [])
      | next :: later =>
        if keyCovers curKey next.1 then
          match fromSorted fuel (keyMax curKey) (next :: later) with
          | none => none
          | some (rightNode, arr) =>
            let curNode := nodeNewVal curKey null rightNode value
            if arr = [] then some (curNode, arr) else fromSortedLoop fuel maxKey curKey curNode arr
        else fromSortedLoop fuel maxKey curKey (nodeNewVal curKey null null value) (next :: later)

/-- The loop of `_ucmap_from_sorted_array`, which moves outwards. -/
def fromSortedLoop : Nat → Word → Word → Ucmap → List Element → Option (Ucmap × List Element)
  | 0, _, _, _, _ => none
  | _ + 1, _, _, curNode, [] => some (curNode, [])
  | fuel + 1, maxKey, curKey, curNode, (nextKey, value) :: rest =>
    if nextKey > maxKey then some (curNode, (nextKey, value) :: rest)
    else if keyCovers nextKey curKey then
      match skipKey nextKey rest with
      | [] => some (nodeNewVal nextKey curNode null value, [])
      | next :: later =>
        match fromSorted fuel (keyMax nextKey) (next :: later) with
        | none => none
        | some (rightNode, arr) =>
          fromSortedLoop fuel maxKey nextKey (nodeNewVal nextKey curNode rightNode value) arr
    else
      let curKey := if ¬ keyCovers curKey nextKey then keyJoin curKey nextKey else curKey
      match fromSorted fuel (keyMax curKey) ((nextKey, value) :: rest) with
      | none => none
      | some (rightNode, arr) =>
        fromSortedLoop fuel maxKey curKey (nodeNewNoval curKey curNode rightNode) arr

end

/-- `cucon_ucmap_from_sorted_array` with the elements it leaves. Twice the length
is enough fuel. -/
def fromSortedArray (arr : List Element) : Option (Ucmap × List Element) :=
  fromSorted (2 * arr.length + 1) (BitVec.allOnes 64) arr

/-- Elements in ascending key order. -/
def Sorted (arr : List Element) : Prop := arr.Pairwise (fun first second => first.1 ≤ second.1)

variable {low high : Nat} {key value : Word} {arr rest : List Element}

theorem Sorted.suffix (sorted : Sorted arr) (split : arr = taken ++ rest) :
    Sorted rest := by
  subst split
  exact (pairwise_append.mp sorted).2.1

theorem Sorted.least (sorted : Sorted ((key, value) :: rest)) :
    ∀ y ∈ (key, value) :: rest, key.toNat ≤ y.1.toNat := by
  intro y mem
  rcases mem_cons.mp mem with rfl | later
  · exact le_rfl
  · exact BitVec.le_def.mp (rel_of_pairwise_cons sorted later)

/-- Skipping a key of a sorted array leaves the larger keys, and the first
element decides the value of the key. -/
theorem skipKey_spec (sorted : Sorted ((key, value) :: rest)) :
    ∃ copies, (key, value) :: rest = copies ++ skipKey key rest ∧
      (∀ x, copies.lookup x = if x = key then some value else none) ∧
      (∀ y ∈ skipKey key rest, key.toNat < y.1.toNat) ∧ (skipKey key rest).length ≤ rest.length := by
  refine ⟨(key, value) :: rest.takeWhile (·.1 == key), by simp [skipKey], fun x => ?_, ?_,
    (dropWhile_suffix _).length_le⟩
  · rw [lookup_cons]
    by_cases same : x = key
    · simp [same]
    · have other : (x == key) = false := by simpa using same
      rw [other, if_neg same]
      refine lookup_eq_none_iff.mpr fun y mem => ?_
      have copied : y.1 = key := by simpa using mem_takeWhile_imp mem
      rw [copied]
      simpa using same
  · unfold skipKey
    induction rest with
    | nil => simp
    | cons next rest ih =>
      by_cases same : next.1 = key
      · rw [dropWhile_cons_of_pos (by simpa using same)]
        exact ih (sorted.sublist (Sublist.cons_cons _ (sublist_cons_self next rest)))
      · rw [dropWhile_cons_of_neg (by simpa using same)]
        have first := sorted.least next (.tail _ (mem_cons_self ..))
        have apart := toNat_ne same
        have tail : Sorted ((next.1, next.2) :: rest) := (pairwise_cons.mp sorted).2
        intro y mem
        have := tail.least y mem
        omega

theorem toNat_keyMax_succ (key : Word) : (keyMax key).toNat + 1 = hi 64 key.toNat := by
  have := lt_hi 64 key.toNat
  rw [toNat_keyMax]
  omega

theorem spine_represents (low high : Nat) (hasValue : Bool) (value : Word) (inside : low ≤ key.toNat ∧ key.toNat < high)
    (inLeft : Represents left (lo 64 key.toNat + 1) key.toNat P)
    (inRight : Represents right (key.toNat + 1) (hi 64 key.toNat) Q)
    (children : hasValue = false → value = 0 ∧ left ≠ null ∧ right ≠ null) :
    Represents (node key hasValue value left right) low high (fun x =>
      (P x).or ((if x = key ∧ hasValue = true then some value else none).or (Q x))) := by
  refine (node_represents inside inLeft inRight children).congr fun x => ?_
  have fromLeft (atLeast : key.toNat ≤ x.toNat) : P x = none :=
    (inLeft.lookup_eq x).symm.trans (left_half_lookup inLeft.wf atLeast)
  have fromRight (atMost : x.toNat ≤ key.toNat) : Q x = none :=
    (inRight.lookup_eq x).symm.trans (right_half_lookup inRight.wf atMost)
  rcases lt_trichotomy x.toNat key.toNat with less | same | more
  · have apart : x ≠ key := by rintro rfl; omega
    rw [if_pos (lt_def.mpr less), fromRight (le_of_lt less)]
    simp [apart]
  · obtain rfl := BitVec.eq_of_toNat_eq same
    rw [fromLeft (le_rfl), fromRight (le_rfl)]
    simp
  · have apart : x ≠ key := by rintro rfl; omega
    rw [if_neg apart, if_neg (by rw [lt_def]; omega), fromLeft (le_of_lt more)]
    simp [apart]

/-- A builder has taken the elements below `high` from the array and added them
to the bindings it was given. -/
def Consumes (low high : Nat) (before : Word → Option Word) (result : Option (Ucmap × List Element))
    (arr : List Element) : Prop :=
  ∃ t rest taken, result = some (t, rest) ∧ arr = taken ++ rest ∧
    (∀ y ∈ rest, high ≤ y.1.toNat) ∧
    Represents t low high (fun x => (before x).or (taken.lookup x))

/-- What the builder of a region promises with the given fuel. -/
private def Builds (fuel : Nat) : Prop :=
  ∀ {low high : Nat} (maxKey : Word) {arr : List Element}, Region low high →
    maxKey.toNat + 1 = high → Sorted arr → (∀ y ∈ arr, low ≤ y.1.toNat) →
    2 * arr.length + 1 ≤ fuel → Consumes low high (fun _ => none) (fromSorted fuel maxKey arr) arr

/-- What its loop promises above a finished tree. -/
private def MovesOut (fuel : Nat) : Prop :=
  ∀ {low high : Nat} {maxKey curKey : Word} {curNode : Ucmap} {arr : List Element}
    {before : Word → Option Word}, Region low high → maxKey.toNat + 1 = high → Sorted arr →
    Represents curNode curKey.toNat (curKey.toNat + 1) before → curNode ≠ null →
    low ≤ curKey.toNat → curKey.toNat < high → (∀ y ∈ arr, hi 64 curKey.toNat ≤ y.1.toNat) →
    2 * arr.length + 2 ≤ fuel →
    Consumes low high before (fromSortedLoop fuel maxKey curKey curNode arr) arr

private theorem moves_out_step (builds : Builds fuel) (moves : MovesOut fuel) :
    MovesOut (fuel + 1) := by
  intro low high maxKey curKey curNode arr before region last sorted current nonnull lower upper beyond
    enough
  cases arr with
  | nil =>
    refine ⟨curNode, [], [], rfl, rfl, by simp, ⟨current.wf.mono lower upper, fun x => ?_⟩⟩
    simpa using current.lookup_eq x
  | cons first rest =>
    obtain ⟨nextKey, value⟩ := first
    have next : hi 64 curKey.toNat ≤ nextKey.toNat := beyond _ (mem_cons_self ..)
    have least := sorted.least
    simp only [length_cons] at enough
    unfold fromSortedLoop
    simp only
    split
    · next outside =>
      rw [gt_iff_lt, lt_def] at outside
      refine ⟨curNode, _, [], rfl, rfl, fun y mem => ?_, ⟨current.wf.mono lower upper, fun x => ?_⟩⟩
      · have := least y mem
        omega
      · simpa using current.lookup_eq x
    · next within =>
      rw [gt_iff_lt, lt_def] at within
      split
      · next covers =>
        rw [keyCovers_iff] at covers
        have := lt_hi 64 curKey.toNat
        have inLeft : Represents curNode (lo 64 nextKey.toNat + 1) nextKey.toNat before :=
          ⟨current.wf.mono covers.1 (by omega), current.lookup_eq⟩
        obtain ⟨copies, split, found, larger, shorter⟩ := skipKey_spec sorted
        cases remaining : skipKey nextKey rest with
        | nil =>
          rw [remaining] at split
          refine ⟨_, [], copies, rfl, by rw [split, append_nil], by simp, ?_⟩
          refine (spine_represents low high true value ⟨by omega, by omega⟩ inLeft (null_represents ..)
            (by simp)).congr fun x => ?_
          simp [found]
        | cons after later =>
          rw [remaining] at split larger shorter
          obtain ⟨right, rest1, taken1, made, split1, far, inRight⟩ :=
            builds (keyMax nextKey) (Region.rightHalf nextKey) (toNat_keyMax_succ nextKey)
              (sorted.suffix split) larger (by omega)
          simp only [made]
          have grown := spine_represents nextKey.toNat (nextKey.toNat + 1) true value
            ⟨le_rfl, Nat.lt_succ_self _⟩ inLeft inRight (by simp)
          have shorter1 := congrArg length split1
          rw [length_append] at shorter1
          obtain ⟨t, rest2, taken2, finished, split2, outside, rep⟩ :=
            moves region last ((sorted.suffix split).suffix split1) grown (by simp) (by omega) (by omega)
              far (by omega)
          refine ⟨t, rest2, copies ++ taken1 ++ taken2, finished, ?_, outside, rep.congr fun x => ?_⟩
          · rw [split, split1, split2, append_assoc, append_assoc]
          · simp [lookup_append, found, Option.or_assoc]
      · next uncovered =>
        have notCovers : ¬ Covers 64 curKey.toNat nextKey.toNat := fun covers => by
          have := covers.2
          omega
        have := lt_hi 64 curKey.toNat
        rw [if_pos (by rw [keyCovers_iff]; exact notCovers)]
        rw [keyCovers_iff] at uncovered
        obtain ⟨_, start, left, right, stop⟩ := keyJoin_spec (by omega) notCovers uncovered
        have inLeft : Represents curNode (lo 64 (keyJoin curKey nextKey).toNat + 1)
            (keyJoin curKey nextKey).toNat before :=
          ⟨current.wf.mono (by omega) (by omega), current.lookup_eq⟩
        obtain ⟨rightNode, rest1, taken1, made, split1, far, inRight⟩ :=
          builds (keyMax (keyJoin curKey nextKey)) (Region.rightHalf (keyJoin curKey nextKey))
            (toNat_keyMax_succ _) sorted (fun y mem => by have := least y mem; omega)
            (by simp only [length_cons]; omega)
        simp only [made]
        -- The next element went to the right subtree, which is therefore not empty.
        have := lt_hi 64 nextKey.toNat
        have took : (nextKey, value) ∈ taken1 := by
          rcases mem_append.mp (split1 ▸ mem_cons_self (a := (nextKey, value)) (l := rest)) with
            taken | left
          · exact taken
          · have : hi 64 (keyJoin curKey nextKey).toNat ≤ nextKey.toNat := far _ left
            omega
        have filled : rightNode ≠ null := inRight.ne_null (x := nextKey) (by
          simp only [Option.none_or, Ne, lookup_eq_none_iff, not_forall]
          exact ⟨_, took, by simp⟩)
        have grown := spine_represents (keyJoin curKey nextKey).toNat
          ((keyJoin curKey nextKey).toNat + 1) false 0
          ⟨le_rfl, Nat.lt_succ_self _⟩ inLeft inRight fun _ => ⟨rfl, nonnull, filled⟩
        have shorter1 := congrArg length split1
        rw [length_append, length_cons] at shorter1
        have := length_pos_of_mem took
        obtain ⟨t, rest2, taken2, finished, split2, outside, rep⟩ :=
          moves region last (sorted.suffix split1) grown (by simp) (by omega) (by omega) far (by omega)
        refine ⟨t, rest2, taken1 ++ taken2, finished, ?_, outside, rep.congr fun x => ?_⟩
        · rw [split1, split2, append_assoc]
        · simp [lookup_append, Option.or_assoc]

private theorem builds_step (builds : Builds fuel) (moves : MovesOut fuel) :
    Builds (fuel + 1) := by
  intro low high maxKey arr region last sorted above enough
  cases arr with
  | nil =>
    refine ⟨null, [], [], rfl, rfl, by simp, (null_represents low high).congr fun x => ?_⟩
    rfl
  | cons first rest =>
    obtain ⟨curKey, value⟩ := first
    have lower : low ≤ curKey.toNat := above _ (mem_cons_self ..)
    have least := sorted.least
    simp only [length_cons] at enough
    unfold fromSorted
    simp only
    split
    · next outside =>
      rw [gt_iff_lt, lt_def] at outside
      refine ⟨null, _, [], rfl, rfl, fun y mem => ?_, (null_represents low high).congr fun x => rfl⟩
      have := least y mem
      omega
    · next within =>
      rw [gt_iff_lt, lt_def] at within
      have inside : low ≤ curKey.toNat ∧ curKey.toNat < high := ⟨lower, by omega⟩
      have own : curKey.toNat ≤ curKey.toNat ∧ curKey.toNat < curKey.toNat + 1 :=
        ⟨le_rfl, Nat.lt_succ_self _⟩
      obtain ⟨copies, split, found, larger, shorter⟩ := skipKey_spec sorted
      cases remaining : skipKey curKey rest with
      | nil =>
        rw [remaining] at split
        refine ⟨_, [], copies, rfl, by rw [split, append_nil], by simp, ?_⟩
        refine (spine_represents low high true value inside (null_represents ..) (null_represents ..)
          (by simp)).congr fun x => ?_
        simp [found]
      | cons next later =>
        rw [remaining] at split larger shorter
        have sortedRest := sorted.suffix split
        have nextMore : curKey.toNat < next.1.toNat := larger _ (mem_cons_self ..)
        simp only
        split
        · next covers =>
          obtain ⟨right, rest1, taken1, made, split1, far, inRight⟩ :=
            builds (keyMax curKey) (Region.rightHalf curKey) (toNat_keyMax_succ curKey)
              sortedRest larger (by omega)
          simp only [made]
          have shorter1 := congrArg length split1
          rw [length_append] at shorter1
          have started (low high : Nat) (inside : low ≤ curKey.toNat ∧ curKey.toNat < high) :=
            spine_represents low high true value inside (null_represents ..) inRight (by simp)
          split
          · next ended =>
            subst ended
            refine ⟨_, [], copies ++ taken1, rfl, by rw [split, split1, append_assoc], by simp, ?_⟩
            exact (started low high inside).congr fun x => by simp [lookup_append, found]
          · next more =>
            obtain ⟨t, rest2, taken2, finished, split2, outside, rep⟩ :=
              moves region last (sortedRest.suffix split1) (started _ _ own) (by simp) inside.1 inside.2
                far (by omega)
            refine ⟨t, rest2, copies ++ taken1 ++ taken2, finished, ?_, outside, rep.congr fun x => ?_⟩
            · rw [split, split1, split2, append_assoc, append_assoc]
            · simp [lookup_append, found, Option.or_assoc]
        · next uncovered =>
          rw [keyCovers_iff] at uncovered
          have started := spine_represents _ _ true value own
            (null_represents (lo 64 curKey.toNat + 1) curKey.toNat)
            (null_represents (curKey.toNat + 1) (hi 64 curKey.toNat)) (by simp)
          have beyond (y : Element) (mem : y ∈ next :: later) : hi 64 curKey.toNat ≤ y.1.toNat := by
            have := sortedRest.least y mem
            have := lo_le 64 curKey.toNat
            simp only [Covers] at uncovered
            omega
          obtain ⟨t, rest2, taken2, finished, split2, outside, rep⟩ :=
            moves region last sortedRest started (by simp) inside.1 inside.2 beyond (by omega)
          refine ⟨t, rest2, copies ++ taken2, finished, ?_, outside, rep.congr fun x => ?_⟩
          · rw [split, split2, append_assoc]
          · simp [lookup_append, found]

private theorem builds_and_moves (fuel : Nat) : Builds fuel ∧ MovesOut fuel := by
  induction fuel with
  | zero =>
    exact ⟨fun _ _ _ _ _ _ short => by omega, fun _ _ _ _ _ _ _ _ short => by omega⟩
  | succ fuel ih => exact ⟨builds_step ih.1 ih.2, moves_out_step ih.1 ih.2⟩

/-- Construction from a sorted array succeeds, leaves nothing of the array and
binds each key to the value of its first element. -/
theorem fromSortedArray_represents (sorted : Sorted arr) :
    ∃ t, fromSortedArray arr = some (t, []) ∧ Represents t 0 (2 ^ 64) (fun x => arr.lookup x) := by
  obtain ⟨t, rest, taken, made, split, outside, rep⟩ :=
    (builds_and_moves (2 * arr.length + 1)).1 (BitVec.allOnes 64) Region.top (by decide) sorted
      (fun _ _ => Nat.zero_le _) (Nat.le_refl _)
  have noneLeft : rest = [] := by
    apply eq_nil_iff_forall_not_mem.mpr
    intro y mem
    have := outside y mem
    omega
  subst noneLeft
  subst split
  exact ⟨t, made, rep.congr fun x => by simp⟩

example : (fromSortedArray [(0, 7), (3, 1), (3, 2), (12, 5)]).map (fun made => find made.1 3) =
    some (some 1) := by decide

end Culibs.Cucon.Ucmap
