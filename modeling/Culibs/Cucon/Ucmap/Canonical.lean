import Culibs.Cucon.Ucmap.SortedArray
import Culibs.Cucon.Ucmap.Union

namespace Culibs.Cucon.Ucmap

theorem inside_top (key : Word) : 0 ≤ key.toNat ∧ key.toNat < 2 ^ 64 := ⟨Nat.zero_le _, key.isLt⟩

section Map

/-- One update of a map. -/
inductive Command where
  | insert (key val : Word)
  | erase (key : Word)
deriving DecidableEq

/-- The code of an update. -/
def Command.apply (map : Ucmap) : Command → Ucmap
  | insert key val => map.insert key val
  | erase key => map.erase key

/-- The tree after a sequence of updates of the empty map. -/
def build (history : List Command) : Ucmap := history.foldl Command.apply null

/-- Insertion binds the key to the value and keeps the other bindings. -/
def Binds (map : Ucmap) (key val : Word) : Prop :=
  find (map.insert key val) key = some val ∧ ∀ x, x ≠ key → find (map.insert key val) x = find map x

/-- Deletion removes the binding and keeps the others. -/
def Unbinds (map : Ucmap) (key : Word) : Prop :=
  find (map.erase key) key = none ∧ ∀ x, x ≠ key → find (map.erase key) x = find map x

theorem build_wf (history : List Command) : Wf (build history) 0 (2 ^ 64) := by
  suffices keeps : ∀ map : Ucmap, Wf map 0 (2 ^ 64) → Wf (history.foldl Command.apply map) 0 (2 ^ 64) from
    keeps null trivial
  induction history with
  | nil => exact fun _ wf => wf
  | cons command rest ih =>
    intro map wf
    cases command with
    | insert key val => exact ih _ (insert_represents wf (inside_top key)).wf
    | erase key => exact ih _ (erase_represents Region.top wf).wf

private theorem binds_iff (wf : Wf map 0 (2 ^ 64)) (key val : Word) :
    Binds map key val ↔ ¬ (val = 0 ∧ HasJoin map key) := by
  have rep : Represents (map.insert key val) 0 (2 ^ 64) _ := insert_represents wf (inside_top key)
  have finds (x : Word) : find (map.insert key val) x = inserted map key val x := by
    rw [rep.wf.find_eq, rep.lookup_eq]
  unfold Binds
  rw [finds]
  constructor
  · rintro ⟨bound, _⟩ lost
    rw [inserted, if_neg (fun both => both.2 lost), wf.lookup_join lost.2] at bound
    cases bound
  · intro kept
    refine ⟨if_pos ⟨rfl, kept⟩, fun x other => ?_⟩
    rw [finds, inserted, if_neg (fun both => other both.1), wf.find_eq]

private theorem unbinds (wf : Wf map 0 (2 ^ 64)) (key : Word) : Unbinds map key := by
  have rep := erase_represents (k := key) Region.top wf
  have finds (x : Word) : find (map.erase key) x = erased map key x := by
    rw [rep.wf.find_eq, rep.lookup_eq]
  refine ⟨by rw [finds, erased, if_pos rfl], fun x other => ?_⟩
  rw [finds, erased, if_neg other, wf.find_eq]

/-- After any sequence of updates, deletion works, and insertion works unless it
stores the value zero at the key of a node without a binding. -/
theorem build_binds_iff (history : List Command) (key val : Word) :
    (Binds (build history) key val ∧ Unbinds (build history) key) ↔
      ¬ (val = 0 ∧ HasJoin (build history) key) := by
  have wf := build_wf history
  rw [binds_iff wf key val]
  exact and_iff_left (unbinds wf key)

/-- The keys 1 and 3 are joined by a node with the key 2, which swallows the
value zero. -/
theorem build_not_binds : ¬ (Binds (build [.insert 1 5, .insert 3 7]) 2 0 ∧
    Unbinds (build [.insert 1 5, .insert 3 7]) 2) := by
  rintro ⟨⟨bound, _⟩, _⟩
  exact absurd bound (by decide)

end Map

section Canonical

/-- The trees that sequences of operations build from the empty map. -/
inductive Reachable : Ucmap → Prop
  | empty : Reachable null
  | insert {map : Ucmap} (key val : Word) : Reachable map → Reachable (insert map key val)
  | erase {map : Ucmap} (key : Word) : Reachable map → Reachable (erase map key)
  | leftUnion {map0 map1 : Ucmap} : Reachable map0 → Reachable map1 → Reachable (leftUnion map0 map1)
  | combinedUnion {map0 map1 : Ucmap} {σ : Type} (f : Word → Word → σ → Word × σ) (state : σ) :
      Reachable map0 → Reachable map1 → Reachable (combinedUnion f map0 map1 state).1
  | fromSortedArray {arr rest : List Element} {map : Ucmap} : Sorted arr →
      fromSortedArray arr = some (map, rest) → Reachable map

theorem Reachable.wf (reachable : Reachable map) : Wf map 0 (2 ^ 64) := by
  induction reachable with
  | empty => trivial
  | insert key val _ ih => exact (insert_represents ih (inside_top key)).wf
  | erase key _ ih => exact (erase_represents Region.top ih).wf
  | leftUnion _ _ ih0 ih1 => exact (leftUnion_represents ih0 ih1).wf
  | combinedUnion f state _ _ ih0 ih1 => exact (combinedUnion_combines state ih0 ih1).wf
  | fromSortedArray sorted made =>
    obtain ⟨t, result, rep⟩ := fromSortedArray_represents sorted
    rw [result] at made
    obtain rfl := congrArg Prod.fst (Option.some.inj made)
    exact rep.wf

/-- A node without a binding has two subtrees. -/
def JoinsBranch : Ucmap → Prop
  | null => True
  | node _ hasValue _ left right =>
    (hasValue = false → left ≠ null ∧ right ≠ null) ∧ JoinsBranch left ∧ JoinsBranch right

theorem Wf.joinsBranch (wf : Wf t low high) : JoinsBranch t := by
  induction t generalizing low high with
  | null => trivial
  | node key hasValue value left right ihLeft ihRight =>
    exact ⟨fun bare => (wf.2.2.2.2 bare).2, ihLeft wf.2.2.1, ihRight wf.2.2.2.1⟩

theorem eq_iff (map0 map1 : Ucmap) : eq map0 map1 = true ↔ map0 = map1 := by
  fun_induction eq map0 map1 with
  | case1 => simp
  | case2 => simp
  | case3 => simp
  | case4 => simp_all
  | case5 => simp_all
  | case6 => simp_all
  | case7 => simp_all
  | case8 => simp_all
  | case9 => simp_all

abbrev ReachableUcmap := { map : Ucmap // Reachable map }

/-- Reachable trees with the same bindings are the same tree, which is what
`cucon_ucmap_eq` decides, and their joins branch. Construction from a sorted
array succeeds. -/
theorem reachable_find_iff (lhs rhs : ReachableUcmap) :
    ((∀ x, find lhs.val x = find rhs.val x) ↔ lhs.val = rhs.val) ∧
      (eq lhs.val rhs.val = true ↔ lhs.val = rhs.val) ∧ JoinsBranch lhs.val ∧
      ∀ arr : { arr : List Element // Sorted arr }, ∃ map, fromSortedArray arr.val = some (map, []) := by
  have wf0 := lhs.property.wf
  have wf1 := rhs.property.wf
  refine ⟨⟨fun same => ?_, fun same x => by rw [same]⟩, eq_iff _ _, wf0.joinsBranch, fun arr => ?_⟩
  · refine wf0.ext wf1 fun x => ?_
    rw [← wf0.find_eq, ← wf1.find_eq, same x]
  · obtain ⟨map, made, _⟩ := fromSortedArray_represents arr.property
    exact ⟨map, made⟩

end Canonical

end Culibs.Cucon.Ucmap
