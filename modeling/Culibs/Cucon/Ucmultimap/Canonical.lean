import Culibs.Cucon.Ucmultimap.Build
import Culibs.Cucon.Ucset.Canonical

namespace Culibs.Cucon.Ucmultimap

/-- The table of sets and the multi-maps a program holds. -/
structure Program where
  table : HconsTable
  multimaps : List Ucmap

/-- A call on multi-maps of the program. -/
inductive Call (allocator : Allocator) (program : Program) : Result allocator → Prop
  | insert {map : Ucmap} (held : map ∈ program.multimaps) (k v : Word) :
      Call allocator program (insert allocator program.table map k v)
  | erase {map : Ucmap} (held : map ∈ program.multimaps) (k v : Word) :
      Call allocator program (erase allocator program.table map k v)
  | isokeyMerge {map : Ucmap} (held : map ∈ program.multimaps) (k : Word) (set : Ucset.ReachableUcset) :
      Call allocator program (isokeyMerge allocator program.table map k set.val)
  | isokeyUnmerge {map : Ucmap} (held : map ∈ program.multimaps) (k : Word) (set : Ucset.ReachableUcset) :
      Call allocator program (isokeyUnmerge allocator program.table map k set.val)
  | union {map0 map1 : Ucmap} (held0 : map0 ∈ program.multimaps) (held1 : map1 ∈ program.multimaps) :
      Call allocator program (union allocator program.table map0 map1)
  | fromSortedArray {arr : List Element} (sorted : Sorted arr) :
      Call allocator program (fromSortedArray allocator program.table arr)

/-- The runs of programs that start with the empty multi-map. Between the calls,
multi-maps are dropped, other sets come into use, and sets that no multi-map
refers to are collected. -/
inductive Reachable : Program → Prop
  | empty (table : HconsTable) : Reachable ⟨table, [.null]⟩
  | call {program : Program} {allocator : Allocator} {map : Ucmap} {table : HconsTable} :
      Reachable program → Call allocator program (.ok (map, table)) → Reachable ⟨table, map :: program.multimaps⟩
  | collect {program : Program} {table : HconsTable} {kept : List Ucmap} : Reachable program →
      kept ⊆ program.multimaps →
      (∀ map ∈ kept, ∀ k address, map.find k = some address →
        table.deref address = program.table.deref address) →
      Reachable ⟨table, kept⟩

theorem Call.makes
    (call : Call allocator program result) (holds : ∀ map ∈ program.multimaps, Holds program.table map) :
    ∃ pairs, Makes program.table result pairs := by
  cases call with
  | insert held k v => exact ⟨_, insert_makes (holds _ held) k v⟩
  | erase held k v => exact ⟨_, erase_makes (holds _ held) k v⟩
  | isokeyMerge held k set => exact ⟨_, isokeyMerge_makes (holds _ held) k set.property.wf⟩
  | isokeyUnmerge held k set => exact ⟨_, isokeyUnmerge_makes (holds _ held) k set.property.wf⟩
  | union held0 held1 => exact ⟨_, union_makes (holds _ held0) (holds _ held1)⟩
  | fromSortedArray sorted => exact ⟨_, fromSortedArray_makes sorted program.table⟩

/-- Every step keeps the invariant of all multi-maps the program holds. -/
theorem Reachable.holds (reachable : Reachable program) :
    ∀ map ∈ program.multimaps, Holds program.table map := by
  induction reachable with
  | empty table =>
    intro map mem
    obtain rfl := List.mem_singleton.mp mem
    exact ⟨trivial, fun _ _ bound => by simp [Ucmap.lookup] at bound⟩
  | call _ call ih =>
    obtain ⟨pairs, ⟨map', table', made, grows, holds, _⟩ | ⟨last, full, stopped⟩⟩ := call.makes ih
    · cases made
      intro map mem
      rcases List.mem_cons.mp mem with rfl | older
      · exact holds
      · exact (ih map older).grow grows
    · cases stopped
  | collect _ subset same ih =>
    intro map mem
    have before := ih map (subset mem)
    refine ⟨before.wf, fun k address bound => ?_⟩
    obtain ⟨set, found, rest⟩ := before.images k address bound
    rw [← before.wf.find_eq] at bound
    exact ⟨set, (same map mem k address bound).trans found, rest⟩

/-- A reachable program, for statements about all of them. -/
abbrev ReachableProgram := { program : Program // Reachable program }

/-- A multi-map the program holds. -/
abbrev Held (program : ReachableProgram) := { map : Ucmap // map ∈ program.val.multimaps }

/-- Multi-maps are sets of pairs: every operation makes the expected pairs or runs
out of memory, no key is bound to an empty set, and equality of trees is equality
of pairs. -/
theorem reachable_pairs (allocator : Allocator) (program : ReachableProgram) (map map' : Held program) :
    (∀ k v, Makes program.val.table (insert allocator program.val.table map.val k v) fun k' v' =>
      (k', v') = (k, v) ∨ contains program.val.table map.val k' v' = true) ∧
    (∀ k v, Makes program.val.table (erase allocator program.val.table map.val k v) fun k' v' =>
      (k', v') ≠ (k, v) ∧ contains program.val.table map.val k' v' = true) ∧
    (∀ k (set : Ucset.ReachableUcset),
      Makes program.val.table (isokeyMerge allocator program.val.table map.val k set.val) fun k' v =>
        contains program.val.table map.val k' v = true ∨ (k' = k ∧ set.val.find v = true)) ∧
    (∀ k (set : Ucset.ReachableUcset),
      Makes program.val.table (isokeyUnmerge allocator program.val.table map.val k set.val) fun k' v =>
        contains program.val.table map.val k' v = true ∧ ¬ (k' = k ∧ set.val.find v = true)) ∧
    (Makes program.val.table (union allocator program.val.table map.val map'.val) fun k v =>
      contains program.val.table map.val k v = true ∨ contains program.val.table map'.val k v = true) ∧
    (∀ arr, Sorted arr → Makes program.val.table (fromSortedArray allocator program.val.table arr) fun k v =>
      (k, v) ∈ arr) ∧
    (∀ k address, map.val.find k = some address →
      ∃ set v, program.val.table.deref address = some set ∧ set.find v = true) ∧
    (eq map.val map'.val = true ↔
      ∀ k v, contains program.val.table map.val k v = contains program.val.table map'.val k v) := by
  have holds := program.property.holds map.val map.property
  have holds' := program.property.holds map'.val map'.property
  refine ⟨fun k v => insert_makes holds k v, fun k v => erase_makes holds k v,
    fun k set => isokeyMerge_makes holds k set.property.wf,
    fun k set => isokeyUnmerge_makes holds k set.property.wf, union_makes holds holds',
    fun arr sorted => fromSortedArray_makes sorted _, fun k address bound => ?_, ?_⟩
  · rw [holds.wf.find_eq] at bound
    obtain ⟨set, found, nonnull, wf⟩ := holds.images k address bound
    obtain ⟨v, member⟩ := wf.exists_contains nonnull
    exact ⟨set, v, found, (Ucset.find_iff wf v).mpr member⟩
  · rw [eq, decide_eq_true_iff]
    exact ⟨fun same k v => by rw [same], holds.ext holds'⟩

end Culibs.Cucon.Ucmultimap
