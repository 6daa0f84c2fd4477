import Culibs.Cuex.Atree.Runs

/-! The algebra of the trees with keys that do not use the top bit, as object
addresses. Unions and intersections work key by key, and every tree is what its
elements give one by one. -/

namespace Culibs.Cuex.Atree

open Option List

variable {α : Type} {getKey : α → Word} {mergeValues : α → α → Option α} {tree : Option (Atree α)}

/-- The trees that the operations of `cuex/atree.h` build from elements whose keys
do not use the top bit. -/
inductive Built (getKey : α → Word) : Option (Atree α) → Prop where
  | empty : Built getKey empty
  | insert {tree : Option (Atree α)} (built : Built getKey tree) (value : α) (low : (getKey value).msb = false) :
      Built getKey (insert getKey tree value)
  | replace {tree : Option (Atree α)} (built : Built getKey tree) (value : α) (low : (getKey value).msb = false) :
      Built getKey (replace getKey tree value)
  | deepInsert {tree : Option (Atree α)} (built : Built getKey tree) (mergeValues : α → α → Option α) (value : α)
      (low : (getKey value).msb = false)
      (keeps : KeepsKey getKey mergeValues (find getKey tree) (find getKey (some (leaf value)))) :
      Built getKey (deepInsert getKey mergeValues tree value)
  | erase {tree : Option (Atree α)} (built : Built getKey tree) (key : Word) : Built getKey (erase getKey tree key)
  | findErase {tree : Option (Atree α)} (built : Built getKey tree) (key : Word) :
      Built getKey (findErase getKey tree key).1
  | leftUnion {tree0 tree1 : Option (Atree α)} (built0 : Built getKey tree0) (built1 : Built getKey tree1) :
      Built getKey (leftUnion getKey tree0 tree1)
  | disjointUnion {tree0 tree1 : Option (Atree α)} (built0 : Built getKey tree0) (built1 : Built getKey tree1) :
      Built getKey (disjointUnion getKey tree0 tree1)
  | deepUnion {tree0 tree1 : Option (Atree α)} (built0 : Built getKey tree0) (built1 : Built getKey tree1)
      (mergeValues : α → α → Option α) (keeps : KeepsKey getKey mergeValues (find getKey tree0) (find getKey tree1)) :
      Built getKey (deepUnion getKey mergeValues tree0 tree1)
  | leftIsecn {tree0 tree1 : Option (Atree α)} (built0 : Built getKey tree0) (built1 : Built getKey tree1) :
      Built getKey (leftIsecn getKey tree0 tree1)
  | deepIsecn {tree0 tree1 : Option (Atree α)} (built0 : Built getKey tree0) (built1 : Built getKey tree1)
      (mergeValues : α → α → Option α) (keeps : KeepsKey getKey mergeValues (find getKey tree0) (find getKey tree1)) :
      Built getKey (deepIsecn getKey mergeValues tree0 tree1)

theorem keepsKey_mergeAsFirst (tree0 tree1 : Option (Atree α)) :
    KeepsKey getKey mergeAsFirst (find getKey tree0) (find getKey tree1) := by
  intro key value0 value1 value found0 found1 merged
  cases merged
  exact key_of_find found0

theorem keepsKey_mergeAsSecond (tree0 tree1 : Option (Atree α)) :
    KeepsKey getKey mergeAsSecond (find getKey tree0) (find getKey tree1) := by
  intro key value0 value1 value found0 found1 merged
  cases merged
  exact key_of_find found1

theorem keepsKey_mergeDisjoin (tree0 tree1 : Option (Atree α)) :
    KeepsKey getKey mergeDisjoin (find getKey tree0) (find getKey tree1) := by
  intro key value0 value1 value found0 found1 merged
  cases merged

theorem low_bounds {key : Word} (low : key.msb = false) : 0 ≤ key.toNat ∧ key.toNat < 2 ^ 63 :=
  (side_iff key false).mpr low

variable {tree0 tree1 : Option (Atree α)}

theorem deepUnion_wf (wf0 : WfTree getKey tree0 0 (2 ^ 63)) (wf1 : WfTree getKey tree1 0 (2 ^ 63))
    (keeps : KeepsKey getKey mergeValues (find getKey tree0) (find getKey tree1)) :
    WfTree getKey (deepUnion getKey mergeValues tree0 tree1) 0 (2 ^ 63) := by
  by_cases nonempty : tree0 ≠ none ∨ tree1 ≠ none
  · exact (deepUnion_combines Half.lower wf0 wf1 keeps nonempty).wfTree
  · simp only [not_or, not_not] at nonempty
    rw [nonempty.1, nonempty.2]
    nofun

theorem Built.wf (built : Built getKey tree) : WfTree getKey tree 0 (2 ^ 63) := by
  induction built with
  | empty => nofun
  | insert _ value low ih =>
    exact (deepInsert_combines Half.lower ih (low_bounds low) (keepsKey_mergeAsFirst _ (some (leaf value)))).wfTree
  | replace _ value low ih =>
    exact (deepInsert_combines Half.lower ih (low_bounds low) (keepsKey_mergeAsSecond _ (some (leaf value)))).wfTree
  | deepInsert _ mergeValues value low keeps ih =>
    exact (deepInsert_combines Half.lower ih (low_bounds low) keeps).wfTree
  | erase _ key ih =>
    rw [erase_eq]
    exact (findErase_erased ih key).wf
  | findErase _ key ih => exact (findErase_erased ih key).wf
  | leftUnion _ _ ih0 ih1 => exact deepUnion_wf ih0 ih1 (keepsKey_mergeAsFirst _ _)
  | disjointUnion _ _ ih0 ih1 => exact deepUnion_wf ih0 ih1 (keepsKey_mergeDisjoin _ _)
  | deepUnion _ _ mergeValues keeps ih0 ih1 => exact deepUnion_wf ih0 ih1 keeps
  | leftIsecn _ _ ih0 ih1 => exact (deepIsecn_meets ih0 ih1 (keepsKey_mergeAsFirst _ _)).wf
  | deepIsecn _ _ mergeValues keeps ih0 ih1 => exact (deepIsecn_meets ih0 ih1 keeps).wf

/-- Insertion of elements one by one. -/
def insertAll (getKey : α → Word) (values : List α) : Option (Atree α) :=
  values.foldl (insert getKey) empty

@[simp] theorem combine_mergeAsFirst (x y : Option α) : combine mergeAsFirst x y = some (x.or y) := by
  cases x <;> cases y <;> rfl

variable {low high : Nat}

theorem insert_find (half : Half low high) (wf : WfTree getKey tree low high)
    (inside : low ≤ (getKey value).toNat ∧ (getKey value).toNat < high) :
    WfTree getKey (insert getKey tree value) low high ∧
      ∀ key, find getKey (insert getKey tree value) key =
        (find getKey tree key).or (if getKey value = key then some value else none) := by
  have combines := deepInsert_combines half wf inside (keepsKey_mergeAsFirst tree (some (leaf value)))
  refine ⟨combines.wfTree, ?_⟩
  rw [insert]
  cases inserted : deepInsert getKey mergeAsFirst tree value with
  | none =>
    rw [inserted] at combines
    obtain ⟨key, failed⟩ := combines
    simp at failed
  | some t =>
    rw [inserted] at combines
    intro key
    have found := combines.2 key
    rw [combine_mergeAsFirst] at found
    exact (some.inj found).symm

private theorem foldl_insert_find (half : Half low high) (values : List α) (wf : WfTree getKey tree low high)
    (inside : ∀ value ∈ values, low ≤ (getKey value).toNat ∧ (getKey value).toNat < high) :
    WfTree getKey (values.foldl (insert getKey) tree) low high ∧
      ∀ key, find getKey (values.foldl (insert getKey) tree) key =
        (find getKey tree key).or (values.find? fun value => getKey value = key) := by
  induction values generalizing tree with
  | nil => exact ⟨wf, fun key => by simp⟩
  | cons value rest ih =>
    have inserted := insert_find half wf (inside value (mem_cons_self ..))
    have later := ih inserted.1 fun other mem => inside other (mem_cons_of_mem value mem)
    refine ⟨later.1, fun key => ?_⟩
    rw [foldl_cons, later.2, inserted.2]
    split
    · next same => simp [same]
    · next ne => simp [ne]

/-- A tree is what inserting its elements one by one gives, in any order. -/
theorem WfTree.insertAll_eq (half : Half low high) (wf : WfTree getKey tree low high)
    (same : ∀ value, value ∈ values ↔ value ∈ elements tree) : insertAll getKey values = tree := by
  have inside : ∀ value ∈ values, low ≤ (getKey value).toNat ∧ (getKey value).toNat < high := by
    intro value mem
    rw [same, wf.mem_elements_iff] at mem
    cases tree with
    | none => cases mem
    | some t => exact (wf t rfl).findLoop_bounds mem
  have wfEmpty : WfTree getKey (empty : Option (Atree α)) low high := nofun
  have inserted := foldl_insert_find half values wfEmpty inside
  apply inserted.1.unique wf
  intro key
  rw [inserted.2, empty, find_none, none_or]
  cases found : values.find? fun value => getKey value = key with
  | none =>
    rw [find?_eq_none] at found
    symm
    apply eq_none_iff_forall_ne_some.mpr
    intro value stored
    obtain rfl := key_of_find stored
    exact found value ((same value).mpr ((wf.mem_elements_iff value).mpr stored)) (by simp)
  | some value =>
    have own : getKey value = key := by simpa using find?_some found
    have mem := (same value).mp (mem_of_find?_eq_some found)
    rw [← own, (wf.mem_elements_iff value).mp mem]

/-- The element of a key in a union: the merge where both maps have one. -/
def joinAt (mergeValues : α → α → Option α) : Option α → Option α → Option α
  | some value0, some value1 => mergeValues value0 value1
  | some value0, none => some value0
  | none, value1 => value1

private theorem combine_eq_none_iff (x y : Option α) :
    combine mergeValues x y = none ↔
      ∃ value0 value1, x = some value0 ∧ y = some value1 ∧ mergeValues value0 value1 = none := by
  cases x <;> cases y <;> simp [combine]

private theorem joinAt_of_combine (combined : combine mergeValues x y = some z) :
    joinAt mergeValues x y = z := by
  cases x with
  | none => exact some.inj combined
  | some value0 =>
    cases y with
    | none => exact some.inj combined
    | some value1 =>
      cases merged : mergeValues value0 value1 with
      | none => simp [combine, merged] at combined
      | some value =>
        rw [combine, merged] at combined
        rw [joinAt, merged]
        exact some.inj combined

theorem deepUnion_spec (wf0 : WfTree getKey tree0 0 (2 ^ 63)) (wf1 : WfTree getKey tree1 0 (2 ^ 63))
    (keeps : KeepsKey getKey mergeValues (find getKey tree0) (find getKey tree1)) :
    (deepUnion getKey mergeValues tree0 tree1 = none ↔ (tree0 = none ∧ tree1 = none) ∨
      ∃ key value0 value1, find getKey tree0 key = some value0 ∧ find getKey tree1 key = some value1 ∧
        mergeValues value0 value1 = none) ∧
    (deepUnion getKey mergeValues tree0 tree1 ≠ none → ∀ key, find getKey (deepUnion getKey mergeValues tree0 tree1) key =
      joinAt mergeValues (find getKey tree0 key) (find getKey tree1 key)) := by
  by_cases nonempty : tree0 ≠ none ∨ tree1 ≠ none
  · have combines := deepUnion_combines Half.lower wf0 wf1 keeps nonempty
    cases united : deepUnion getKey mergeValues tree0 tree1 with
    | none =>
      rw [united] at combines
      obtain ⟨key, failed⟩ := combines
      exact ⟨⟨fun _ => .inr ⟨key, (combine_eq_none_iff _ _).mp failed⟩, fun _ => rfl⟩, fun some => absurd rfl some⟩
    | some t =>
      rw [united] at combines
      refine ⟨⟨nofun, ?_⟩, fun _ key => (joinAt_of_combine (combines.2 key)).symm⟩
      rintro (⟨rfl, rfl⟩ | ⟨key, clash⟩)
      · simp at nonempty
      · have failed := (combine_eq_none_iff _ _).mpr clash
        rw [combines.2 key] at failed
        cases failed
  · simp only [not_or, not_not] at nonempty
    obtain ⟨rfl, rfl⟩ := nonempty
    exact ⟨⟨fun _ => .inl ⟨rfl, rfl⟩, fun _ => rfl⟩, fun some => absurd rfl some⟩

theorem leftUnion_find (wf0 : WfTree getKey tree0 0 (2 ^ 63)) (wf1 : WfTree getKey tree1 0 (2 ^ 63))
    (key : Word) :
    find getKey (leftUnion getKey tree0 tree1) key = (find getKey tree0 key).or (find getKey tree1 key) := by
  have spec := deepUnion_spec wf0 wf1 (keepsKey_mergeAsFirst tree0 tree1)
  have join (x y : Option α) : joinAt mergeAsFirst x y = x.or y := by cases x <;> cases y <;> rfl
  by_cases failed : deepUnion getKey mergeAsFirst tree0 tree1 = none
  · rcases spec.1.mp failed with ⟨rfl, rfl⟩ | ⟨_, _, _, _, _, merged⟩
    · rfl
    · cases merged
  · rw [leftUnion, spec.2 failed, join]

/-- Merges that agree on the elements of common keys give the same unions and intersections. -/
theorem merge_congr (wf0 : WfTree getKey tree0 0 (2 ^ 63)) (wf1 : WfTree getKey tree1 0 (2 ^ 63))
    (keeps : KeepsKey getKey mergeValues (find getKey tree0) (find getKey tree1))
    (agree : ∀ key value0 value1, find getKey tree0 key = some value0 → find getKey tree1 key = some value1 → other
      value0 value1 = mergeValues value0 value1) :
    deepUnion getKey other tree0 tree1 = deepUnion getKey mergeValues tree0 tree1 ∧
      deepIsecn getKey other tree0 tree1 = deepIsecn getKey mergeValues tree0 tree1 := by
  have keeps' : KeepsKey getKey other (find getKey tree0) (find getKey tree1) := by
    intro key value0 value1 value found0 found1 merged
    rw [agree key value0 value1 found0 found1] at merged
    exact keeps key value0 value1 value found0 found1 merged
  constructor
  · have spec := deepUnion_spec wf0 wf1 keeps
    have spec' := deepUnion_spec wf0 wf1 keeps'
    have fails : deepUnion getKey other tree0 tree1 = none ↔ deepUnion getKey mergeValues tree0 tree1 = none := by
      rw [spec.1, spec'.1]
      apply or_congr_right
      apply exists_congr; intro key
      apply exists_congr; intro value0
      apply exists_congr; intro value1
      apply and_congr_right; intro found0
      apply and_congr_right; intro found1
      rw [agree key value0 value1 found0 found1]
    by_cases failed : deepUnion getKey mergeValues tree0 tree1 = none
    · rw [failed, fails.mpr failed]
    apply (deepUnion_wf wf0 wf1 keeps').unique (deepUnion_wf wf0 wf1 keeps)
    intro key
    rw [spec.2 failed, spec'.2 (fun failed' => failed (fails.mp failed'))]
    cases found0 : find getKey tree0 key with
    | none => rfl
    | some value0 =>
      cases found1 : find getKey tree1 key with
      | none => rfl
      | some value1 => exact agree key value0 value1 found0 found1
  · have meets := deepIsecn_meets wf0 wf1 keeps
    have meets' := deepIsecn_meets wf0 wf1 keeps'
    apply meets'.wf.unique meets.wf
    intro key
    rw [meets.find_eq, meets'.find_eq]
    cases found0 : find getKey tree0 key with
    | none => rfl
    | some value0 =>
      cases found1 : find getKey tree1 key with
      | none => rfl
      | some value1 => exact agree key value0 value1 found0 found1

/-- Unions and intersections of trees are those of their maps, merged on the
common keys only, and canonical. Of the two results that may fail, the result
for two empty trees is the empty tree, which is `NULL` as well. -/
theorem built_algebra (getKey : α → Word) (mergeValues : α → α → Option α) (tree0 tree1 : Option (Atree α))
    (built0 : Built getKey tree0) (built1 : Built getKey tree1)
    (keeps : KeepsKey getKey mergeValues (find getKey tree0) (find getKey tree1)) :
    (∀ key, find getKey (leftUnion getKey tree0 tree1) key = (find getKey tree0 key).or (find getKey tree1 key)) ∧
    (deepUnion getKey mergeValues tree0 tree1 = none ↔ (tree0 = none ∧ tree1 = none) ∨
      ∃ key value0 value1, find getKey tree0 key = some value0 ∧ find getKey tree1 key = some value1 ∧
        mergeValues value0 value1 = none) ∧
    (deepUnion getKey mergeValues tree0 tree1 ≠ none → ∀ key, find getKey (deepUnion getKey mergeValues tree0 tree1) key =
      joinAt mergeValues (find getKey tree0 key) (find getKey tree1 key)) ∧
    (disjointUnion getKey tree0 tree1 = none ↔ (tree0 = none ∧ tree1 = none) ∨
      ∃ key, find getKey tree0 key ≠ none ∧ find getKey tree1 key ≠ none) ∧
    (disjointUnion getKey tree0 tree1 ≠ none → ∀ key, find getKey (disjointUnion getKey tree0 tree1) key =
      (find getKey tree0 key).or (find getKey tree1 key)) ∧
    (∀ key, find getKey (leftIsecn getKey tree0 tree1) key =
      if find getKey tree1 key = none then none else find getKey tree0 key) ∧
    (∀ key, find getKey (deepIsecn getKey mergeValues tree0 tree1) key =
      meet mergeValues (find getKey tree0 key) (find getKey tree1 key)) ∧
    (∀ other : α → α → Option α,
      (∀ key value0 value1, find getKey tree0 key = some value0 → find getKey tree1 key = some value1 →
        other value0 value1 = mergeValues value0 value1) →
      deepUnion getKey other tree0 tree1 = deepUnion getKey mergeValues tree0 tree1 ∧
        deepIsecn getKey other tree0 tree1 = deepIsecn getKey mergeValues tree0 tree1) ∧
    ∀ result ∈ [leftUnion getKey tree0 tree1, deepUnion getKey mergeValues tree0 tree1,
      disjointUnion getKey tree0 tree1, leftIsecn getKey tree0 tree1, deepIsecn getKey mergeValues tree0 tree1],
      ∀ values, (∀ value, value ∈ values ↔ value ∈ elements result) → insertAll getKey values = result := by
  have wf0 := built0.wf
  have wf1 := built1.wf
  have deep := deepUnion_spec wf0 wf1 keeps
  have disjoint := deepUnion_spec wf0 wf1 (keepsKey_mergeDisjoin tree0 tree1)
  have leftMeets := deepIsecn_meets wf0 wf1 (keepsKey_mergeAsFirst tree0 tree1)
  have meets := deepIsecn_meets wf0 wf1 keeps
  refine ⟨leftUnion_find wf0 wf1, deep.1, deep.2, ?_, fun succeeded key => ?_, fun key => ?_, meets.find_eq,
    fun other agree => merge_congr wf0 wf1 keeps agree, ?_⟩
  · rw [disjointUnion, disjoint.1]
    simp [mergeDisjoin, ne_none_iff_exists']
  · have apart : ¬ ∃ key value0 value1, find getKey tree0 key = some value0 ∧ find getKey tree1 key = some value1 ∧
        mergeDisjoin value0 value1 = none := fun clash => succeeded (disjoint.1.mpr (.inr clash))
    rw [disjointUnion, disjoint.2 succeeded key]
    cases found0 : find getKey tree0 key with
    | none => rfl
    | some value0 =>
      cases found1 : find getKey tree1 key with
      | none => rfl
      | some value1 => exact absurd ⟨key, value0, value1, found0, found1, rfl⟩ apart
  · rw [leftIsecn, leftMeets.find_eq]
    cases find getKey tree0 key <;> cases find getKey tree1 key <;> rfl
  · intro result member values same
    simp only [mem_cons, not_mem_nil, or_false] at member
    rcases member with rfl | rfl | rfl | rfl | rfl
    · exact (built0.leftUnion built1).wf.insertAll_eq Half.lower same
    · exact (built0.deepUnion built1 mergeValues keeps).wf.insertAll_eq Half.lower same
    · exact (built0.disjointUnion built1).wf.insertAll_eq Half.lower same
    · exact (built0.leftIsecn built1).wf.insertAll_eq Half.lower same
    · exact (built0.deepIsecn built1 mergeValues keeps).wf.insertAll_eq Half.lower same

/-- A key with its value. -/
def pairKey (e : Word × Nat) : Word := e.1

def ofPairs : List (Word × Nat) → Option (Atree (Word × Nat))
  | [] => empty
  | e :: pairs => insert pairKey (ofPairs pairs) e

theorem built_ofPairs (low : ∀ e ∈ pairs, (pairKey e).msb = false) :
    Built pairKey (ofPairs pairs) := by
  induction pairs with
  | nil => exact .empty
  | cons e pairs ih => exact .insert (ih fun e mem => low e (.tail _ mem)) e (low e (.head _))

/-- Of a common key, the greater value. -/
def pairMax (e0 e1 : Word × Nat) : Option (Word × Nat) := if e0.2 ≤ e1.2 then some e1 else some e0

theorem built_algebra_pairs :
    let tree0 := ofPairs [(1, 5), (2, 5)]
    let tree1 := ofPairs [(1, 6), (2, 5), (3, 0)]
    (∀ key, find pairKey (leftUnion pairKey tree0 tree1) key = (find pairKey tree0 key).or (find pairKey tree1 key)) ∧
    (deepUnion pairKey pairMax tree0 tree1 ≠ none → ∀ key, find pairKey (deepUnion pairKey pairMax tree0 tree1) key =
      joinAt pairMax (find pairKey tree0 key) (find pairKey tree1 key)) ∧
    (∀ key, find pairKey (deepIsecn pairKey pairMax tree0 tree1) key =
      meet pairMax (find pairKey tree0 key) (find pairKey tree1 key)) ∧
    ∀ values, (∀ value, value ∈ values ↔ value ∈ elements (deepUnion pairKey pairMax tree0 tree1)) →
      insertAll pairKey values = deepUnion pairKey pairMax tree0 tree1 := by
  intro tree0 tree1
  have keeps : KeepsKey pairKey pairMax (find pairKey tree0) (find pairKey tree1) := by
    intro key value0 value1 value found0 found1 merged
    rw [pairMax] at merged
    split at merged
    · exact some.inj merged ▸ key_of_find found1
    · exact some.inj merged ▸ key_of_find found0
  obtain ⟨left, _, deep, _, _, _, isecn, _, canonical⟩ :=
    built_algebra pairKey pairMax tree0 tree1 (built_ofPairs (by decide)) (built_ofPairs (by decide)) keeps
  exact ⟨left, deep, isecn, canonical _ (.tail _ (.head _))⟩

/-- The union of two empty trees is `NULL` without any merge, and what is merged to another key is not
found again. -/
theorem deepUnion_empty :
    (Built (fun key : Word => key) empty ∧
      ¬ (deepUnion (fun key : Word => key) mergeAsFirst empty empty = none ↔
        ∃ key value0 value1, find (fun key : Word => key) empty key = some value0 ∧
          find (fun key : Word => key) empty key = some value1 ∧ mergeAsFirst value0 value1 = none) ∧
      ¬ (disjointUnion (fun key : Word => key) empty empty = none ↔
        ∃ key, find (fun key : Word => key) empty key ≠ none ∧ find (fun key : Word => key) empty key ≠ none)) ∧
    Built (fun key : Word => key) (insert (fun key => key) empty 1) ∧
      find (fun key : Word => key) (deepUnion (fun key => key) (fun _ _ => some 2)
        (insert (fun key => key) empty 1) (insert (fun key => key) empty 1)) 1 ≠ some 2 := by
  refine ⟨⟨Built.empty, fun same => ?_, fun same => ?_⟩, Built.empty.insert 1 (by decide), ?_⟩
  · obtain ⟨_, _, _, _, _, merged⟩ := same.mp rfl
    cases merged
  · obtain ⟨_, stored, _⟩ := same.mp rfl
    exact stored rfl
  · simp [insert, deepInsert, empty, deepUnion, unionLoop, insertRevLoop, insertLoop, find, findLoop]

end Culibs.Cuex.Atree
