import Culibs.Cucon.Ucmultimap.Update

namespace Culibs.Cucon.Ucmultimap

open BitVec Ucmap List

variable {allocator : Allocator} {table table' : HconsTable} {map0 map1 : Ucmap}

def OutOfMemory : Fault allocator → Prop
  | .outOfMemory .. => True
  | .dangling _ => False
  | .fuel => False

private theorem outOfMemory_iff (fault : Fault allocator) :
    OutOfMemory fault ↔ ∃ table full, fault = .outOfMemory table full := by
  cases fault with
  | dangling address => simp [OutOfMemory]
  | fuel => simp [OutOfMemory]
  | outOfMemory table full => exact ⟨fun _ => ⟨table, full, rfl⟩, fun _ => trivial⟩

/-- Memory grows, and when there is no more of it, it stays so. -/
instance : Preorder (Memory allocator) where
  le
    | .ok table, .ok table' => table ≤ table'
    | .ok _, .error fault => OutOfMemory fault
    | .error fault, .error fault' => fault = fault'
    | .error _, .ok _ => False
  le_refl memory := by
    cases memory with
    | ok table => exact le_refl table
    | error fault => exact rfl
  le_trans a b c first second := by
    cases a with
    | ok table =>
      cases b with
      | ok table' =>
        cases c with
        | ok table'' => exact le_trans (show table ≤ table' from first) second
        | error fault => exact second
      | error fault =>
        cases c with
        | ok table'' => exact second.elim
        | error fault' => exact (show fault = fault' from second) ▸ first
    | error fault =>
      cases b with
      | ok table' => exact first.elim
      | error fault' => exact (show fault = fault' from first) ▸ second

/-- The union of two sets of the first table is at the address in the last one. -/
def Unites (table : HconsTable) (memory : Memory allocator) (set0 set1 address : Word) : Prop :=
  match memory with
  | .ok table' => ∀ lhs rhs, table.deref set0 = some lhs → table.deref set1 = some rhs →
      table'.deref address = some (lhs.union rhs)
  | .error _ => True

theorem Unites.grow (grows : memory ≤ memory') {a b v : Word}
    (unites : Unites table memory a b v) : Unites table memory' a b v := by
  cases memory' with
  | error fault => trivial
  | ok table'' =>
    cases memory with
    | error fault => exact grows.elim
    | ok table' => exact fun lhs rhs left right => grows _ _ (unites lhs rhs left right)

private theorem unionMerge_calls (allocator : Allocator) (table : HconsTable) :
    Ucmap.Calls (unionMerge allocator) (Unites table) (IsImage table) (IsImage table) (.ok table) := by
  intro a b memory started imageLeft imageRight
  cases memory with
  | error fault => exact ⟨le_refl (Except.error fault), trivial⟩
  | ok now =>
    obtain ⟨lhs, left, _⟩ := imageLeft
    obtain ⟨rhs, right, _⟩ := imageRight
    have sets : unionSets allocator now a b = now.cast allocator (lhs.union rhs) := by
      rw [unionSets, HconsTable.read, started _ _ left, HconsTable.read, started _ _ right]
      rfl
    rcases now.cast_spec allocator (lhs.union rhs) with
      ⟨address, next, cast, grows, found⟩ | ⟨last, full, cast⟩
    · have call : unionMerge allocator a b (.ok now) = (address, .ok next) := by
        simp only [unionMerge, sets, cast]
      rw [call]
      refine ⟨grows, fun lhs' rhs' left' right' => ?_⟩
      rw [left] at left'
      rw [right] at right'
      cases left'
      cases right'
      exact found
    · have call : unionMerge allocator a b (.ok now) = (0, .error (.outOfMemory last full)) := by
        simp only [unionMerge, sets, cast]
      rw [call]
      exact ⟨trivial, trivial⟩

private theorem merged_image (grows : table ≤ table') (holds0 : Holds table map0) (holds1 : Holds table map1) (k : Word)
    {bound : Option Word} (merged : Ucmap.Merged (Unites table (.ok table' : Memory allocator))
      (lookup map0 k) (lookup map1 k) bound) :
    (∀ address, bound = some address → IsImage table' address) ∧
      ∃ set, table'.deref (bound.getD 0) = some set ∧ Ucset.Wf set 0 (2 ^ 64) ∧
        ∀ v, Ucset.Contains set v ↔ contains table map0 k v = true ∨ contains table map1 k v = true := by
  obtain ⟨lhs, left, wfLeft, unbound0⟩ := holds0.image k
  obtain ⟨rhs, right, wfRight, unbound1⟩ := holds1.image k
  simp only [contains_iff left wfLeft, contains_iff right wfRight]
  rw [holds0.image_eq] at left
  rw [holds1.image_eq] at right
  cases bound0 : lookup map0 k with
  | none =>
    rw [bound0] at merged
    obtain rfl := unbound0.mpr bound0
    refine ⟨fun address isBound => ?_, rhs, ?_, wfRight, fun v => ?_⟩
    · exact (holds1.images k address (merged.symm.trans isBound)).grow grows
    · rw [show bound = lookup map1 k from merged]
      exact grows _ _ right
    · simp [Ucset.Contains]
  | some address0 =>
    cases bound1 : lookup map1 k with
    | none =>
      rw [bound0, bound1] at merged
      obtain rfl : bound = some address0 := merged
      obtain rfl := unbound1.mpr bound1
      refine ⟨fun address isBound => ?_, lhs, ?_, wfLeft, fun v => ?_⟩
      · exact (holds0.images k address (bound0.trans isBound)).grow grows
      · rw [bound0] at left
        exact grows _ _ left
      · simp [Ucset.Contains]
    | some address1 =>
      rw [bound0, bound1] at merged
      rw [bound0] at left
      rw [bound1] at right
      obtain ⟨address, rfl, unites⟩ := merged
      have found := unites lhs rhs left right
      have united := Ucset.union_represents Ucset.Region.top wfLeft wfRight
      refine ⟨fun address' isBound => ?_, lhs.union rhs, found, united.wf, united.contains⟩
      cases isBound
      refine ⟨lhs.union rhs, found, fun isNull => ?_, united.wf⟩
      have empty := (Ucset.eq_null_iff united.wf).mp isNull
      have lhsNull : lhs = .null := (Ucset.eq_null_iff wfLeft).mpr fun v mem =>
        empty v ((united.contains v).mpr (.inl mem))
      rw [unbound0.mp lhsNull] at bound0
      cases bound0

theorem union_makes (holds0 : Holds table map0) (holds1 : Holds table map1) :
    Makes table (union allocator table map0 map1)
      fun k v => contains table map0 k v = true ∨ contains table map1 k v = true := by
  obtain ⟨grows, merges⟩ := combinedUnion_merges Unites.grow (unionMerge_calls allocator table)
    (le_refl (Except.ok table)) holds0.wf holds1.wf
    holds0.images holds1.images
  revert grows merges
  unfold union
  generalize combinedUnion (unionMerge allocator) map0 map1 (Except.ok table) = united
  intro grows merges
  obtain ⟨map', memory⟩ := united
  cases memory with
  | error fault =>
    obtain ⟨last, full, rfl⟩ := (outOfMemory_iff fault).mp grows
    exact .inr ⟨last, full, rfl⟩
  | ok table' =>
    have images (k : Word) := merged_image grows holds0 holds1 k (merges.lookup_eq k)
    have holds : Holds table' map' := ⟨merges.wf, fun k address bound => (images k).1 address bound⟩
    refine .inl ⟨map', table', rfl, grows, holds, fun k v => ?_⟩
    obtain ⟨set, found, wf, elements⟩ := (images k).2
    rw [contains_iff (by rw [holds.image_eq]; exact found) wf, elements]

section SortedArray

variable {arr rest : List Element} {key value : Word}

/-- Elements in ascending lexicographical order. -/
def Sorted (arr : List Element) : Prop := arr.Pairwise fun e0 e1 => elementCmp e0 e1 ≤ 0

theorem elementCmp_iff (e0 e1 : Element) : elementCmp e0 e1 ≤ 0 ↔
    e0.1 < e1.1 ∨ (e0.1 = e1.1 ∧ e0.2 ≤ e1.2) := by
  unfold elementCmp
  simp only [lt_def, le_def, gt_iff_lt, ← toNat_inj]
  split
  · omega
  split
  · omega
  split
  · omega
  split <;> omega

theorem Sorted.keys (sorted : Sorted arr) : Ucmap.Sorted arr := by
  refine Pairwise.imp (fun {e0 e1} ascending => ?_) sorted
  rcases (elementCmp_iff e0 e1).mp ascending with less | same
  · exact BitVec.le_of_lt less
  · exact BitVec.le_of_eq same.1

/-- The group has the values of the key, and the other elements have greater keys. -/
theorem group_spec (sorted : Sorted ((key, value) :: arr)) :
    (value :: (isokeyGroup key arr).1).Pairwise (· ≤ ·) ∧ Sorted (isokeyGroup key arr).2 ∧
      (∀ v, v ∈ value :: (isokeyGroup key arr).1 ↔ (key, v) ∈ (key, value) :: arr) ∧
      (∀ e ∈ (isokeyGroup key arr).2, key.toNat < e.1.toNat) ∧
      ∀ k v, k ≠ key → ((k, v) ∈ (isokeyGroup key arr).2 ↔ (k, v) ∈ (key, value) :: arr) := by
  obtain ⟨_, _, _, greater, _⟩ := skipKey_spec sorted.keys
  have taken (e : Element) (mem : e ∈ arr.takeWhile (·.1 == key)) : e.1 = key := by
    simpa using mem_takeWhile_imp mem
  have mem_iff (e : Element) : e ∈ arr ↔ e ∈ arr.takeWhile (·.1 == key) ∨ e ∈ (isokeyGroup key arr).2 := by
    rw [isokeyGroup, ← mem_append, takeWhile_append_dropWhile]
  have above (e : Element) (mem : e ∈ (isokeyGroup key arr).2) : key.toNat < e.1.toNat :=
    greater e mem
  refine ⟨?_, ?_, fun v => ?_, above, fun k v ne => ?_⟩
  · have group : ((key, value) :: arr.takeWhile (·.1 == key)).Pairwise fun e0 e1 => elementCmp e0 e1 ≤ 0 :=
      sorted.sublist (Sublist.cons_cons _ (takeWhile_sublist _))
    have keys (e : Element) (mem : e ∈ (key, value) :: arr.takeWhile (·.1 == key)) : e.1 = key :=
      (mem_cons.mp mem).elim (fun equal => by rw [equal]) (taken e)
    have values : ((key, value) :: arr.takeWhile (·.1 == key)).Pairwise fun e0 e1 => e0.2 ≤ e1.2 := by
      refine group.imp_of_mem fun {e0 e1} member0 member1 ascending => ?_
      rcases (elementCmp_iff e0 e1).mp ascending with less | same
      · rw [keys e0 member0, keys e1 member1] at less
        exact absurd less (BitVec.lt_irrefl key)
      · exact same.2
    exact pairwise_map.mpr values
  · exact (pairwise_cons.mp sorted).2.sublist (dropWhile_sublist _)
  · have fromGroup : v ∈ (isokeyGroup key arr).1 ↔ (key, v) ∈ arr := by
      rw [mem_iff]
      constructor
      · intro mem
        obtain ⟨⟨k, v⟩, inGroup, rfl⟩ := mem_map.mp mem
        obtain rfl : k = key := taken _ inGroup
        exact .inl inGroup
      · rintro (inGroup | later)
        · exact mem_map.mpr ⟨_, inGroup, rfl⟩
        · exact absurd (above _ later) (lt_irrefl _)
    rw [mem_cons, mem_cons, fromGroup, Prod.mk.injEq, and_iff_right rfl]
  · have notFirst : (k, v) ≠ (key, value) := fun equal => ne (congrArg Prod.fst equal)
    rw [mem_cons, or_iff_right notFirst, mem_iff, or_iff_right fun inGroup => ne (taken _ inGroup)]

/-- The set of the values of a key in an array. -/
def IsSetOf (table : HconsTable) (arr : List Element) (k address : Word) : Prop :=
  ∃ set, table.deref address = some set ∧ set ≠ .null ∧ Ucset.Wf set 0 (2 ^ 64) ∧
    ∀ v, Ucset.Contains set v ↔ (k, v) ∈ arr

private theorem castSorted_spec (allocator : Allocator) (table : HconsTable)
    (sorted : subArr.Pairwise (· ≤ ·)) (mem : value ∈ subArr) :
    (∃ address table', castSorted allocator table subArr = .ok (address, table') ∧ table ≤ table' ∧
      ∃ set, table'.deref address = some set ∧ set ≠ .null ∧ Ucset.Wf set 0 (2 ^ 64) ∧
        ∀ v, Ucset.Contains set v ↔ v ∈ subArr) ∨
    ∃ table' full, castSorted allocator table subArr = .error (.outOfMemory table' full) := by
  obtain ⟨set, io, made, _, rep⟩ := Ucset.fromSortedArray_represents sorted
  have unfolded : castSorted allocator table subArr = table.cast allocator set := by
    rw [castSorted, made]
  have nonnull : set ≠ .null := rep.ne_null mem
  rw [unfolded]
  refine (table.cast_spec allocator set).imp_left ?_
  rintro ⟨address, table', cast, grows, found⟩
  exact ⟨address, table', cast, grows, set, found, nonnull, rep.wf, rep.contains⟩

/-- The array of sets binds each key of the array to the set of its values. -/
structure Groups (table : HconsTable) (arr : List Element) (isokeyArr : List Ucmap.Element) : Prop where
  sorted : Ucmap.Sorted isokeyArr
  keys : ∀ e ∈ isokeyArr, ∃ v, (e.1, v) ∈ arr
  sets : ∀ k address, isokeyArr.lookup k = some address → IsSetOf table arr k address
  unbound : ∀ k, isokeyArr.lookup k = none → ∀ v, (k, v) ∉ arr

theorem Groups.cons (sorted : Sorted ((key, value) :: arr))
    (image : IsSetOf table ((key, value) :: arr) key address)
    (groups : Groups table (isokeyGroup key arr).2 isokeyArr) :
    Groups table ((key, value) :: arr) ((key, address) :: isokeyArr) := by
  obtain ⟨_, _, _, above, others⟩ := group_spec sorted
  have lookup_cons (k : Word) (ne : k ≠ key) :
      ((key, address) :: isokeyArr).lookup k = isokeyArr.lookup k := by
    have skips : (k == key) = false := by simpa using ne
    rw [lookup_cons, skips]
  refine ⟨pairwise_cons.mpr ⟨fun e mem => ?_, groups.sorted⟩, fun e mem => ?_, fun k found => ?_,
    fun k absent v => ?_⟩
  · obtain ⟨v, inRest⟩ := groups.keys e mem
    exact le_def.mpr (le_of_lt (above (e.1, v) inRest))
  · rcases mem_cons.mp mem with rfl | later
    · exact ⟨value, .head _ ..⟩
    · obtain ⟨v, inRest⟩ := groups.keys e later
      have ne : e.1 ≠ key := fun same => absurd (above (e.1, v) inRest) (by simp [same])
      exact ⟨v, (others e.1 v ne).mp inRest⟩
  · intro bound
    by_cases same : k = key
    · subst same
      rw [lookup_cons_self] at bound
      exact Option.some.inj bound ▸ image
    · rw [lookup_cons k same] at bound
      obtain ⟨set, deref, nonnull, wf, elements⟩ := groups.sets k found bound
      exact ⟨set, deref, nonnull, wf, fun v => (elements v).trans (others k v same)⟩
  · by_cases same : k = key
    · subst same
      rw [lookup_cons_self] at absent
      cases absent
    · rw [lookup_cons k same] at absent
      exact fun mem => groups.unbound k absent v ((others k v same).mpr mem)

theorem IsSetOf.grow {k address : Word} (image : IsSetOf table arr k address) (grows : table ≤ table') :
    IsSetOf table' arr k address := by
  obtain ⟨set, found, rest⟩ := image
  exact ⟨set, grows _ _ found, rest⟩

private theorem isokeyArray_spec (allocator : Allocator) (sorted : Sorted arr) (table : HconsTable) :
    (∃ isokeyArr table', isokeyArray allocator table arr = .ok (isokeyArr, table') ∧ table ≤ table' ∧
      Groups table' arr isokeyArr) ∨
    ∃ last full, isokeyArray allocator table arr = .error (.outOfMemory last full) := by
  fun_induction isokeyArray allocator table arr with
  | case1 table =>
    exact .inl ⟨[], table, rfl, le_refl table, Pairwise.nil, by simp, by simp, by simp⟩
  | case2 table key value arr ih =>
    obtain ⟨values, sortedRest, group, _, _⟩ := group_spec sorted
    rcases castSorted_spec allocator table values (mem_cons_self ..) with
      ⟨address, next, cast, grows, set, found, nonnull, wf, elements⟩ | ⟨last, full, cast⟩
    · rcases ih next sortedRest with ⟨isokeyArr, table', made, grows', groups⟩ | ⟨last, full, stopped⟩
      · have image : IsSetOf next ((key, value) :: arr) key address :=
          ⟨set, found, nonnull, wf, fun v => (elements v).trans (group v)⟩
        refine .inl ⟨(key, address) :: isokeyArr, table', ?_, le_trans grows grows',
          groups.cons sorted (image.grow grows')⟩
        rw [cast]
        simp only [bind, Except.bind, made]
        rfl
      · refine .inr ⟨last, full, ?_⟩
        rw [cast]
        simp only [bind, Except.bind, stopped]
    · refine .inr ⟨last, full, ?_⟩
      rw [cast]
      rfl

theorem fromSortedArray_makes (sorted : Sorted arr) (table : HconsTable) :
    Makes table (fromSortedArray allocator table arr) fun k v => (k, v) ∈ arr := by
  rcases isokeyArray_spec allocator sorted table with
    ⟨isokeyArr, table', made, grows, groups⟩ | ⟨last, full, stopped⟩
  · obtain ⟨map', built, rep⟩ := fromSortedArray_represents groups.sorted
    have holds : Holds table' map' := by
      refine ⟨rep.wf, fun k address bound => ?_⟩
      rw [rep.lookup_eq] at bound
      obtain ⟨set, found, nonnull, wf, _⟩ := groups.sets k address bound
      exact ⟨set, found, nonnull, wf⟩
    refine .inl ⟨map', table', ?_, grows, holds, fun k v => ?_⟩
    · rw [fromSortedArray, made]
      simp only [bind, Except.bind, built]
      rfl
    have image := holds.image_eq k
    rw [rep.lookup_eq] at image
    cases bound : isokeyArr.lookup k with
    | none =>
      rw [bound] at image
      rw [contains_iff image trivial]
      simpa [Ucset.Contains] using groups.unbound k bound v
    | some address =>
      obtain ⟨set, found, _, wf, elements⟩ := groups.sets k address bound
      rw [bound] at image
      rw [contains_iff (image.trans found) wf, elements]
  · refine .inr ⟨last, full, ?_⟩
    rw [fromSortedArray, stopped]
    rfl

end SortedArray

end Culibs.Cucon.Ucmultimap
