import Culibs.Cucon.Ucset.SortedArray
import Culibs.Cucon.Ucmap.Canonical

/-! Constructive multi-maps of `cucon/ucmultimap.c`. A multi-map is an integer map
whose values are the addresses of hash-consed sets, so the operations run over
the table of the sets in use. -/

namespace Culibs.Cucon

section Model

/-- The hash-consed sets in use with their addresses. The empty set is `NULL`. -/
structure HconsTable where
  objects : List (Word × Ucset)
  nonnull : ∀ object ∈ objects, object.1 ≠ 0 ∧ object.2 ≠ Ucset.null
  addressesDistinct : (objects.map Prod.fst).Nodup
  setsDistinct : (objects.map Prod.snd).Nodup

/-- Where the allocator puts the next object, if it finds memory for it. -/
structure Allocator where
  pick : List Word → Option Word
  fresh : ∀ {used : List Word} {address : Word}, pick used = some address → address ≠ 0 ∧ address ∉ used

/-- The first address that is not in use. -/
def firstFree : Allocator where
  pick used := ((List.range (used.length + 1)).map fun i => BitVec.ofNat 64 (i + 1)).find? fun address =>
    address ≠ 0 ∧ address ∉ used
  fresh picked := by simpa using List.find?_some picked

namespace HconsTable

def addresses (table : HconsTable) : List Word := table.objects.map Prod.fst

/-- The set at an address. -/
def deref (table : HconsTable) (address : Word) : Option Ucset :=
  if address = 0 then some .null else table.objects.lookup address

/-- The table with one more object. -/
def add (table : HconsTable) (address : Word) (set : Ucset) (nonnull : address ≠ 0 ∧ set ≠ Ucset.null)
    (newAddress : address ∉ table.addresses) (newSet : ∀ object ∈ table.objects, object.2 ≠ set) :
    HconsTable where
  objects := (address, set) :: table.objects
  nonnull := List.forall_mem_cons.mpr ⟨nonnull, table.nonnull⟩
  addressesDistinct := List.nodup_cons.mpr ⟨newAddress, table.addressesDistinct⟩
  setsDistinct := by
    refine List.nodup_cons.mpr ⟨fun member => ?_, table.setsDistinct⟩
    obtain ⟨object, stored, same⟩ := List.mem_map.mp member
    exact newSet object stored same

end HconsTable

/-- What stops an operation. -/
inductive Fault (allocator : Allocator) where
  | dangling (address : Word)
  | fuel
  | outOfMemory (table : HconsTable) (full : allocator.pick table.addresses = none)

variable (allocator : Allocator)

namespace HconsTable

/-- Reads the set a pointer refers to. -/
def read (table : HconsTable) (address : Word) : Except (Fault allocator) Ucset :=
  match table.deref address with
  | some set => .ok set
  | none => .error (.dangling address)

/-- The address of a set as an integer. A set that is not in use yet gets one. -/
def cast (table : HconsTable) (set : Ucset) : Except (Fault allocator) (Word × HconsTable) :=
  if isNull : set = .null then .ok (0, table)
  else
    match found : table.objects.find? (fun object => object.2 == set) with
    | some object => .ok (object.1, table)
    | none =>
      match picked : allocator.pick table.addresses with
      | some address =>
        have fresh := allocator.fresh picked
        .ok (address, table.add address set ⟨fresh.1, isNull⟩ fresh.2
          (by simpa using List.find?_eq_none.mp found))
      | none => .error (.outOfMemory table picked)

end HconsTable

namespace Ucmap

/-- `cucon_ucmap_find_ptr`. -/
def findPtr (map : Ucmap) (key : Word) : Word := (map.find key).getD 0

end Ucmap

namespace Ucmultimap

/-- `struct cucon_ucmultimap_element`, a key and a value. -/
abbrev Element := Word × Word

/-- `cucon_ucmultimap_element_cmp`. -/
def elementCmp (e0 e1 : Element) : Int :=
  if e0.1 < e1.1 then -1
  else if e0.1 > e1.1 then 1
  else if e0.2 < e1.2 then -1
  else if e0.2 > e1.2 then 1
  else 0

abbrev Result (allocator : Allocator) := Except (Fault allocator) (Ucmap × HconsTable)

def isokeyFind (table : HconsTable) (map : Ucmap) (k : Word) : Option Ucset :=
  table.deref (map.findPtr k)

def contains (table : HconsTable) (map : Ucmap) (k v : Word) : Bool :=
  (isokeyFind table map k).any (·.find v)

def isokeyInsert (table : HconsTable) (map : Ucmap) (k : Word) (set : Ucset) : Result allocator := do
  let (address, table) ← table.cast allocator set
  return (map.insert k address, table)

def isokeyErase (map : Ucmap) (k : Word) : Ucmap := map.erase k

/-- Replaces the set of a key by a larger one. -/
def isokeyGrow (table : HconsTable) (map : Ucmap) (k : Word) (grow : Ucset → Ucset) : Result allocator := do
  let setOld ← table.read allocator (map.findPtr k)
  let setNew := grow setOld
  if setNew = setOld then return (map, table)
  else isokeyInsert allocator table map k setNew

/-- Replaces the set of a key by a smaller one. -/
def isokeyShrink (table : HconsTable) (map : Ucmap) (k : Word) (shrink : Ucset → Ucset) :
    Result allocator := do
  let setOld ← table.read allocator (map.findPtr k)
  let setNew := shrink setOld
  if setNew = setOld then return (map, table)
  else if setNew = .null then return (isokeyErase map k, table)
  else isokeyInsert allocator table map k setNew

def isokeyMerge (table : HconsTable) (map : Ucmap) (k : Word) (set : Ucset) : Result allocator :=
  isokeyGrow allocator table map k fun setOld => setOld.union set

def isokeyUnmerge (table : HconsTable) (map : Ucmap) (k : Word) (set : Ucset) : Result allocator :=
  isokeyShrink allocator table map k fun setOld => setOld.compl set

def insert (table : HconsTable) (map : Ucmap) (k v : Word) : Result allocator :=
  isokeyGrow allocator table map k fun setOld => setOld.insert v

def erase (table : HconsTable) (map : Ucmap) (k v : Word) : Result allocator :=
  isokeyShrink allocator table map k fun setOld => setOld.erase v

/-- Memory between two calls of a closure. -/
abbrev Memory (allocator : Allocator) := Except (Fault allocator) HconsTable

def unionSets (table : HconsTable) (set0 set1 : Word) : Except (Fault allocator) (Word × HconsTable) := do
  let lhs ← table.read allocator set0
  let rhs ← table.read allocator set1
  table.cast allocator (lhs.union rhs)

/-- `_union_merge`. A fault lasts. -/
def unionMerge (set0 set1 : Word) (memory : Memory allocator) : Word × Memory allocator :=
  match memory with
  | .error fault => (0, .error fault)
  | .ok table =>
    match unionSets allocator table set0 set1 with
    | .error fault => (0, .error fault)
    | .ok (address, table) => (address, .ok table)

def union (table : HconsTable) (map0 map1 : Ucmap) : Result allocator := do
  let united := Ucmap.combinedUnion (unionMerge allocator) map0 map1 (.ok table)
  return (united.1, ← united.2)

/-- The values with the key of the first element, and the other elements. -/
def isokeyGroup (key : Word) (arr : List Element) : List Word × List Element :=
  ((arr.takeWhile (·.1 == key)).map Prod.snd, arr.dropWhile (·.1 == key))

/-- `cucon_ucset_from_sorted_array` and the cast of its result. -/
def castSorted (table : HconsTable) (subArr : List Word) : Except (Fault allocator) (Word × HconsTable) :=
  match Ucset.fromSortedArray subArr with
  | none => .error .fuel
  | some (set, _) => table.cast allocator set

/-- The loop of `cucon_ucmultimap_from_sorted_array`, which makes one set of
each run of equal keys. -/
def isokeyArray (table : HconsTable) (arr : List Element) :
    Except (Fault allocator) (List Ucmap.Element × HconsTable) :=
  match arr with
  | [] => .ok ([], table)
  | (key, value) :: arr => do
    let (address, table) ← castSorted allocator table (value :: (isokeyGroup key arr).1)
    let (isokeyArr, table) ← isokeyArray table (isokeyGroup key arr).2
    return ((key, address) :: isokeyArr, table)
termination_by arr.length
decreasing_by
  have := (List.dropWhile_sublist (p := fun element : Element => element.1 == key) (l := arr)).length_le
  simp only [isokeyGroup, List.length_cons]
  omega

def fromSortedArray (table : HconsTable) (arr : List Element) : Result allocator := do
  let (isokeyArr, table) ← isokeyArray allocator table arr
  match Ucmap.fromSortedArray isokeyArr with
  | none => .error .fuel
  | some (map, _) => return (map, table)

/-- `cucon_ucmultimap_eq`, pointer equality of hash-consed maps. -/
def eq (map0 map1 : Ucmap) : Bool := map0 = map1

end Ucmultimap

end Model

section Invariant

namespace HconsTable

variable {table table' : HconsTable} {allocator : Allocator} {address : Word} {set : Ucset}

theorem lookup_iff {objects : List (Word × α)} (distinct : (objects.map Prod.fst).Nodup) {value : α} :
    objects.lookup key = some value ↔ (key, value) ∈ objects := by
  induction objects with
  | nil => simp
  | cons object rest ih =>
    obtain ⟨address, stored⟩ := object
    obtain ⟨notBelow, distinct⟩ := List.nodup_cons.mp distinct
    by_cases same : key = address
    · subst same
      have absent : (key, value) ∉ rest := fun mem => notBelow (List.mem_map.mpr ⟨_, mem, rfl⟩)
      simp [absent, eq_comm]
    · have ne : (key, value) ≠ (address, stored) := fun equal => same (congrArg Prod.fst equal)
      have skips : (key == address) = false := by simpa using same
      rw [List.lookup_cons, skips, List.mem_cons, or_iff_right ne]
      exact ih distinct

theorem deref_iff : table.deref address = some set ↔
    (address = 0 ∧ set = .null) ∨ (address, set) ∈ table.objects := by
  unfold deref
  split
  · next isNull =>
    have absent : (address, set) ∉ table.objects := fun mem => (table.nonnull _ mem).1 isNull
    rw [or_iff_left absent, and_iff_right isNull, Option.some.injEq, eq_comm]
  · next nonnull =>
    rw [lookup_iff table.addressesDistinct, or_iff_right fun both => nonnull both.1]

private theorem deref_injective (found : table.deref address = some set)
    (found' : table.deref address' = some set) : address = address' := by
  rw [deref_iff] at found found'
  rcases found with ⟨rfl, rfl⟩ | mem
  · rcases found' with ⟨rfl, _⟩ | member'
    · rfl
    · exact absurd rfl (table.nonnull _ member').2
  · rcases found' with ⟨_, rfl⟩ | member'
    · exact absurd rfl (table.nonnull _ mem).2
    · exact congrArg Prod.fst (List.inj_on_of_nodup_map table.setsDistinct mem member' rfl)

private theorem deref_null_iff (found : table.deref address = some set) : address = 0 ↔ set = .null := by
  rcases deref_iff.mp found with ⟨rfl, rfl⟩ | mem
  · simp
  · have nonnull := table.nonnull _ mem
    exact iff_of_false nonnull.1 nonnull.2

/-- A table grows by further sets. -/
instance : Preorder HconsTable where
  le table table' := ∀ address set, table.deref address = some set → table'.deref address = some set
  le_refl _ _ _ found := found
  le_trans _ _ _ first second address set found := second address set (first address set found)

private theorem le_add {nonnull : address ≠ 0 ∧ set ≠ .null} :
    table ≤ table.add address set nonnull newAddress newSet := by
  intro address' set' found
  rw [deref_iff] at found ⊢
  exact found.imp_right (List.mem_cons_of_mem _)

theorem cast_spec (allocator : Allocator) (table : HconsTable) (set : Ucset) :
    (∃ address table', table.cast allocator set = .ok (address, table') ∧ table ≤ table' ∧
      table'.deref address = some set) ∨
    ∃ table' full, table.cast allocator set = .error (.outOfMemory table' full) := by
  unfold cast
  split
  · next isNull =>
    subst isNull
    exact .inl ⟨0, table, rfl, le_refl _, rfl⟩
  split
  · next object found =>
    have mem := List.mem_of_find?_eq_some found
    have same : object.2 = set := by simpa using List.find?_some found
    refine .inl ⟨object.1, table, rfl, le_refl _, deref_iff.mpr (.inr ?_)⟩
    rwa [← same]
  · split
    · exact .inl ⟨_, _, rfl, le_add, deref_iff.mpr (.inr (List.mem_cons_self ..))⟩
    · next full => exact .inr ⟨table, full, rfl⟩

end HconsTable

namespace Ucmultimap

variable {table table' : HconsTable} {map : Ucmap}

/-- The address of a nonempty set. -/
def IsImage (table : HconsTable) (address : Word) : Prop :=
  ∃ set, table.deref address = some set ∧ set ≠ .null ∧ Ucset.Wf set 0 (2 ^ 64)

/-- A trie of nonempty sets of the table. -/
structure Holds (table : HconsTable) (map : Ucmap) : Prop where
  wf : Ucmap.Wf map 0 (2 ^ 64)
  images : Ucmap.AllValues map (IsImage table)

variable {address : Word}

theorem IsImage.grow (image : IsImage table address) (grows : table ≤ table') :
    IsImage table' address := by
  obtain ⟨set, found, rest⟩ := image
  exact ⟨set, grows _ _ found, rest⟩

theorem Holds.grow (holds : Holds table map) (grows : table ≤ table') : Holds table' map :=
  ⟨holds.wf, fun x v bound => (holds.images x v bound).grow grows⟩

theorem Holds.image_eq (holds : Holds table map) (k : Word) :
    isokeyFind table map k = table.deref ((Ucmap.lookup map k).getD 0) := by
  rw [isokeyFind, Ucmap.findPtr, holds.wf.find_eq]

theorem Holds.image (holds : Holds table map) (k : Word) : ∃ set, isokeyFind table map k = some set ∧
    Ucset.Wf set 0 (2 ^ 64) ∧ (set = .null ↔ Ucmap.lookup map k = none) := by
  rw [holds.image_eq]
  cases bound : Ucmap.lookup map k with
  | none => exact ⟨.null, rfl, trivial, by simp⟩
  | some address =>
    obtain ⟨set, found, nonnull, wf⟩ := holds.images k address bound
    exact ⟨set, found, wf, by simp [nonnull]⟩

theorem Holds.image_grow (holds : Holds table map) (grows : table ≤ table') (k : Word) :
    isokeyFind table' map k = isokeyFind table map k := by
  obtain ⟨set, found, _⟩ := holds.image k
  rw [found]
  exact grows _ _ found

variable {k : Word} {set : Ucset}

theorem read_image {allocator : Allocator}
    (found : isokeyFind table map k = some set) :
    table.read allocator (map.findPtr k) = .ok set := by
  unfold HconsTable.read
  rw [show table.deref (map.findPtr k) = some set from found]

theorem contains_iff (found : isokeyFind table map k = some set)
    (wf : Ucset.Wf set 0 (2 ^ 64)) (v : Word) :
    contains table map k v = true ↔ Ucset.Contains set v := by
  rw [contains, found, Option.any_some, Ucset.find_iff wf]

theorem Holds.insert (holds : Holds table map)
    (found : table.deref address = some set) (nonnull : set ≠ .null) (wf : Ucset.Wf set 0 (2 ^ 64)) :
    Holds table (map.insert k address) ∧
      ∀ x, isokeyFind table (map.insert k address) x =
        if x = k then some set else isokeyFind table map x := by
  have inserted : Ucmap.Represents (map.insert k address) _ _ _ :=
    Ucmap.insert_represents holds.wf (Ucmap.inside_top k)
  have stored : ¬ (address = 0 ∧ Ucmap.HasJoin map k) := fun lost =>
    nonnull ((HconsTable.deref_null_iff found).mp lost.1)
  have bindings (x : Word) : Ucmap.lookup (map.insert k address) x =
      if x = k then some address else Ucmap.lookup map x := by
    rw [inserted.lookup_eq, Ucmap.inserted]
    exact if_congr (and_iff_left stored) rfl rfl
  have both : Holds table (map.insert k address) := by
    refine ⟨inserted.wf, fun x v bound => ?_⟩
    rw [bindings] at bound
    split at bound
    · cases bound
      exact ⟨set, found, nonnull, wf⟩
    · exact holds.images x v bound
  refine ⟨both, fun x => ?_⟩
  rw [both.image_eq, bindings, holds.image_eq]
  split
  · exact found
  · rfl

theorem Holds.erase (holds : Holds table map) (k : Word) :
    Holds table (map.erase k) ∧
      ∀ x, isokeyFind table (map.erase k) x = if x = k then some .null else isokeyFind table map x := by
  have erased := Ucmap.erase_represents (k := k) Ucmap.Region.top holds.wf
  have both : Holds table (map.erase k) := by
    refine ⟨erased.wf, fun x v bound => ?_⟩
    rw [erased.lookup_eq, Ucmap.erased] at bound
    split at bound
    · cases bound
    · exact holds.images x v bound
  refine ⟨both, fun x => ?_⟩
  rw [both.image_eq, erased.lookup_eq, Ucmap.erased, holds.image_eq]
  split <;> rfl

/-- Two multi-maps over one table with the same pairs are the same tree. -/
theorem Holds.ext (holds : Holds table map) (holds' : Holds table map')
    (same : ∀ k v, contains table map k v = contains table map' k v) : map = map' := by
  refine holds.wf.ext holds'.wf fun k => ?_
  obtain ⟨set, found, wf, unbound⟩ := holds.image k
  obtain ⟨set', found', wf', unbound'⟩ := holds'.image k
  have equal : set = set' := by
    refine wf.ext wf' fun v => ?_
    rw [← contains_iff found wf, ← contains_iff found' wf', same]
  subst equal
  rw [holds.image_eq] at found
  rw [holds'.image_eq] at found'
  have addresses := HconsTable.deref_injective found found'
  cases bound : Ucmap.lookup map k with
  | none => rw [unbound'.mp (unbound.mpr bound)]
  | some address =>
    cases bound' : Ucmap.lookup map' k with
    | none => rw [unbound.mp (unbound'.mpr bound')] at bound; cases bound
    | some address' =>
      rw [bound, bound'] at addresses
      exact congrArg some addresses

end Ucmultimap

end Invariant

end Culibs.Cucon
