import Culibs.Cucon.Ucmultimap.Basic

namespace Culibs.Cucon.Ucmultimap

open Ucset

variable {allocator : Allocator} {table table' : HconsTable} {map : Ucmap}

/-- The operation makes a multi-map of the given pairs, if there is memory for it. -/
def Makes (table : HconsTable) (result : Result allocator) (pairs : Word → Word → Prop) : Prop :=
  (∃ map' table', result = .ok (map', table') ∧ table ≤ table' ∧ Holds table' map' ∧
    ∀ k v, contains table' map' k v = true ↔ pairs k v) ∨
  ∃ table' full, result = .error (.outOfMemory table' full)

theorem Makes.congr
    (makes : Makes table result pairs) (same : ∀ k v, pairs k v ↔ pairs' k v) :
    Makes table result pairs' := by
  rcases makes with ⟨map', table', made, grows, holds, found⟩ | full
  · exact .inl ⟨map', table', made, grows, holds, fun k v => (found k v).trans (same k v)⟩
  · exact .inr full

variable {set : Ucset}

theorem isokeyInsert_makes (holds : Holds table map) (k : Word) (nonnull : set ≠ .null)
    (wf : Ucset.Wf set 0 (2 ^ 64)) :
    Makes table (isokeyInsert allocator table map k set) fun k' v =>
      if k' = k then Ucset.Contains set v else contains table map k' v = true := by
  rcases table.cast_spec allocator set with
    ⟨address, table', cast, grows, found⟩ | ⟨table', full, cast⟩
  · obtain ⟨holds', image⟩ := (holds.grow grows).insert (k := k) found nonnull wf
    refine .inl ⟨map.insert k address, table', by simp [isokeyInsert, cast], grows, holds', fun k' v => ?_⟩
    have image := image k'
    beta_reduce
    split
    · next same =>
      rw [if_pos same] at image
      exact contains_iff image wf v
    · next ne =>
      rw [if_neg ne, holds.image_grow grows] at image
      rw [contains, contains, image]
  · exact .inr ⟨table', full, by simp [isokeyInsert, cast]⟩

/-- The effect of a change of one set on its elements. -/
structure Edits (edit : Ucset → Ucset) (effect : Prop → Word → Prop) : Prop where
  wf : ∀ {set}, Ucset.Wf set 0 (2 ^ 64) → Ucset.Wf (edit set) 0 (2 ^ 64)
  contains : ∀ {set}, Ucset.Wf set 0 (2 ^ 64) → ∀ v, Ucset.Contains (edit set) v ↔
    effect (Ucset.Contains set v) v

/-- The pairs after a change of the set of `k`. -/
def edited (table : HconsTable) (map : Ucmap) (k : Word) (effect : Prop → Word → Prop) (k' v : Word) : Prop :=
  if k' = k then effect (contains table map k v = true) v else contains table map k' v = true

variable {edit : Ucset → Ucset} {effect : Prop → Word → Prop}

variable {k : Word}

theorem edited_iff (edits : Edits edit effect)
    (found : isokeyFind table map k = some set) (wf : Ucset.Wf set 0 (2 ^ 64)) (k' v : Word) :
    edited table map k effect k' v ↔
      if k' = k then Ucset.Contains (edit set) v else contains table map k' v = true := by
  rw [edited, edits.contains wf, contains_iff found wf]

theorem unchanged_makes (edits : Edits edit effect) (holds : Holds table map)
    (found : isokeyFind table map k = some set) (wf : Ucset.Wf set 0 (2 ^ 64)) (same : edit set = set) :
    Makes table (.ok (map, table) : Result allocator) (edited table map k effect) := by
  refine .inl ⟨map, table, rfl, le_refl table, holds, fun k' v => ?_⟩
  rw [edited_iff edits found wf, same]
  split
  · next isKey =>
    rw [isKey]
    exact contains_iff found wf v
  · exact Iff.rfl

theorem isokeyGrow_eq (found : isokeyFind table map k = some set) :
    isokeyGrow allocator table map k edit =
      if edit set = set then .ok (map, table) else isokeyInsert allocator table map k (edit set) := by
  rw [isokeyGrow, read_image found]
  rfl

private theorem isokeyShrink_eq (found : isokeyFind table map k = some set) :
    isokeyShrink allocator table map k edit =
      if edit set = set then .ok (map, table)
      else if edit set = .null then .ok (isokeyErase map k, table)
      else isokeyInsert allocator table map k (edit set) := by
  rw [isokeyShrink, read_image found]
  rfl

theorem isokeyGrow_makes (edits : Edits edit effect)
    (grows : ∀ set, Ucset.Wf set 0 (2 ^ 64) → edit set = .null → set = .null)
    (holds : Holds table map) (k : Word) :
    Makes table (isokeyGrow allocator table map k edit) (edited table map k effect) := by
  obtain ⟨set, found, wf, _⟩ := holds.image k
  rw [isokeyGrow_eq found]
  split
  · next same => exact unchanged_makes edits holds found wf same
  · next ne =>
    have nonnull : edit set ≠ .null := fun isNull => ne (by rw [isNull, grows set wf isNull])
    exact (isokeyInsert_makes holds k nonnull (edits.wf wf)).congr
      fun k' v => (edited_iff edits found wf k' v).symm

theorem isokeyShrink_makes (edits : Edits edit effect) (holds : Holds table map) (k : Word) :
    Makes table (isokeyShrink allocator table map k edit) (edited table map k effect) := by
  obtain ⟨set, found, wf, _⟩ := holds.image k
  rw [isokeyShrink_eq found]
  split
  · next same => exact unchanged_makes edits holds found wf same
  split
  · next isNull =>
    obtain ⟨holds', image⟩ := holds.erase k
    refine .inl ⟨map.erase k, table, rfl, le_refl table, holds', fun k' v => ?_⟩
    have image := image k'
    rw [edited_iff edits found wf, isNull]
    split
    · next isKey =>
      rw [if_pos isKey] at image
      exact contains_iff image trivial v
    · next other =>
      rw [if_neg other] at image
      rw [contains, contains, image]
  · next nonnull =>
    exact (isokeyInsert_makes holds k nonnull (edits.wf wf)).congr
      fun k' v => (edited_iff edits found wf k' v).symm

private theorem edits_insert (x : Word) : Edits (fun set => set.insert x) fun stored v => v = x ∨ stored where
  wf wf := (insert_represents Ucset.Region.top (inRegion_top x) wf).wf
  contains wf := (insert_represents Ucset.Region.top (inRegion_top x) wf).contains

private theorem edits_erase (x : Word) : Edits (fun set => set.erase x) fun stored v => v ≠ x ∧ stored where
  wf wf := (erase_represents wf).wf
  contains wf := (erase_represents wf).contains

section Sets

variable {added : Ucset} (wf : Ucset.Wf added 0 (2 ^ 64))
include wf

private theorem edits_union : Edits (fun set => set.union added) fun stored v => stored ∨ Ucset.Contains added v where
  wf wfOld := (union_represents Ucset.Region.top wfOld wf).wf
  contains wfOld := (union_represents Ucset.Region.top wfOld wf).contains

private theorem edits_compl : Edits (fun set => set.compl added) fun stored v => stored ∧ ¬ Ucset.Contains added v where
  wf wfOld := (compl_represents wfOld wf).wf
  contains wfOld := (compl_represents wfOld wf).contains

end Sets

theorem Edits.ne_null (edits : Edits edit effect) (kept : ∀ {stored : Prop} {v}, stored → effect stored v)
    (set : Ucset) (wf : Ucset.Wf set 0 (2 ^ 64)) (isNull : edit set = .null) : set = .null := by
  rw [eq_null_iff wf]
  intro v stored
  have mem := (edits.contains wf v).mpr (kept stored)
  rw [isNull] at mem
  exact mem

theorem insert_makes (holds : Holds table map) (k v : Word) :
    Makes table (insert allocator table map k v)
      fun k' v' => (k', v') = (k, v) ∨ contains table map k' v' = true := by
  refine (isokeyGrow_makes (edits_insert v) ((edits_insert v).ne_null .inr) holds k).congr fun k' v' => ?_
  rw [edited]
  split
  · next same => simp [same]
  · next ne => simp [ne]

theorem erase_makes (holds : Holds table map) (k v : Word) :
    Makes table (erase allocator table map k v)
      fun k' v' => (k', v') ≠ (k, v) ∧ contains table map k' v' = true := by
  refine (isokeyShrink_makes (edits_erase v) holds k).congr fun k' v' => ?_
  simp only [edited, ne_eq, Prod.mk.injEq]
  split
  · next same => simp [same]
  · next ne => simp [ne]

theorem isokeyMerge_makes (holds : Holds table map) (k : Word)
    (wf : Ucset.Wf set 0 (2 ^ 64)) :
    Makes table (isokeyMerge allocator table map k set)
      fun k' v => contains table map k' v = true ∨ (k' = k ∧ set.find v = true) := by
  refine (isokeyGrow_makes (edits_union wf) ((edits_union wf).ne_null .inl) holds k).congr fun k' v => ?_
  rw [edited, find_iff wf]
  split
  · next same => simp [same]
  · next ne => simp [ne]

theorem isokeyUnmerge_makes (holds : Holds table map) (k : Word)
    (wf : Ucset.Wf set 0 (2 ^ 64)) :
    Makes table (isokeyUnmerge allocator table map k set)
      fun k' v => contains table map k' v = true ∧ ¬ (k' = k ∧ set.find v = true) := by
  refine (isokeyShrink_makes (edits_compl wf) holds k).congr fun k' v => ?_
  rw [edited, find_iff wf]
  split
  · next same => simp [same]
  · next ne => simp [ne]

end Culibs.Cucon.Ucmultimap
