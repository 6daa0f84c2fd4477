import Culibs.Cuflow.Gworkq.Sections
import Mathlib.Tactic.IntervalCases

namespace Culibs.Cuflow

open Int

theorem cellInt_ofInt (least : -1 ≤ v) (most : v < 16) : cellInt (BitVec.ofInt 64 v) = v := by
  interval_cases v <;> rfl

/-- The cell is only raised if it does not hold the wrapped value. -/
theorem raisedCell_ofInt (least : -1 ≤ v) (most : v < 16) (p : Priority) :
    raisedCell (BitVec.ofInt 64 v) p = BitVec.ofInt 64 (if v < 0 then v else max v p) := by
  interval_cases v <;> revert p <;> decide

/-- The values that the sections write to the cell. -/
def CellRange (cell : Word) : Prop := ∃ v : Int, -1 ≤ v ∧ v < 16 ∧ cell = BitVec.ofInt 64 v

theorem CellRange.cellInt (range : CellRange cell) : -1 ≤ cellInt cell ∧ cellInt cell < 16 := by
  obtain ⟨v, least, most, rfl⟩ := range
  rw [cellInt_ofInt least most]
  exact ⟨least, most⟩

theorem CellRange.ofInt (least : -1 ≤ v) (most : v < 16) : CellRange (BitVec.ofInt 64 v) :=
  ⟨v, least, most, rfl⟩

theorem CellRange.raised (range : CellRange cell) (p : Priority) : CellRange (raisedCell cell p) ∧
    Cuflow.cellInt (raisedCell cell p) =
      if Cuflow.cellInt cell < 0 then Cuflow.cellInt cell else max (Cuflow.cellInt cell) p := by
  obtain ⟨v, least, most, rfl⟩ := range
  have below : (p : Int) < 16 := by exact_mod_cast p.isLt
  have isRange : -1 ≤ (if v < 0 then v else max v p) ∧ (if v < 0 then v else max v (p : Int)) < 16 := by
    split <;> omega
  rw [raisedCell_ofInt least most, cellInt_ofInt least most]
  exact ⟨.ofInt isRange.1 isRange.2, cellInt_ofInt isRange.1 isRange.2⟩

namespace Gworkq

variable {Flex Fn : Type} {gwq gwq' : Gworkq Flex Fn} {node : Gflexq Flex} {fn : Fn} {p : Priority}

/-- The cell, read as an `int`, is at least every priority with a pending task. -/
def Covered (gwq : Gworkq Flex Fn) : Prop := ∀ p, gwq.Pending p → (p : Int) ≤ cellInt gwq.gworkqPriority

variable [DecidableEq Flex]

theorem pending_added (added : Added gwq gwq' node fn) (priority : gwq'.priority = gwq.priority) :
    gwq'.Pending p ↔ gwq.Pending p ∨ gwq.levelOf node = some p := by
  constructor
  · rintro ⟨x, level, nonempty⟩
    rw [levelOf_congr priority] at level
    rw [added x] at nonempty
    split at nonempty
    · next same => exact .inr (same ▸ level)
    · exact .inl ⟨x, level, nonempty⟩
  · rintro (⟨x, level, nonempty⟩ | level)
    · refine ⟨x, (levelOf_congr priority x).trans level, ?_⟩
      rw [added x]
      split
      · simp
      · exact nonempty
    · refine ⟨node, (levelOf_congr priority node).trans level, ?_⟩
      rw [added node, if_pos rfl]
      simp

private theorem pending_taken (taken : Taken gwq gwq' node) (priority : gwq'.priority = gwq.priority)
    (pending : gwq'.Pending p) : gwq.Pending p := by
  obtain ⟨x, level, nonempty⟩ := pending
  rw [levelOf_congr priority] at level
  rw [taken x] at nonempty
  split at nonempty
  · next same =>
    refine ⟨x, level, fun empty => ?_⟩
    rw [← same, empty] at nonempty
    exact nonempty rfl
  · exact ⟨x, level, nonempty⟩

/-- What every section keeps. -/
structure Sound (gwq : Gworkq Flex Fn) : Prop where
  linked : ∃ lists, gwq.Linked lists
  range : CellRange gwq.gworkqPriority

theorem Sound.schedAt (sound : gwq.Sound) (fn : Fn) (p : Priority) : (gwq.schedAt fn p).Sound := by
  obtain ⟨⟨lists, linked⟩, range⟩ := sound
  refine ⟨⟨lists, linked.schedAt fn p⟩, ?_⟩
  rw [schedAt_cell]
  exact (range.raised p).1

theorem Sound.gflexqSchedGlck (sound : gwq.Sound) (g : Flex) (fn : Fn) : (gwq.gflexqSchedGlck g fn).Sound := by
  obtain ⟨⟨lists, linked⟩, range⟩ := sound
  refine ⟨linked.gflexqSchedGlck g fn, ?_⟩
  rw [gflexqSchedGlck_cell linked]
  split
  · exact (range.raised _).1
  · exact range

theorem Sound.gflexqSetPriorityGlck (sound : gwq.Sound) (g : Flex) (p : Priority) :
    (gwq.gflexqSetPriorityGlck g p).Sound := by
  obtain ⟨⟨lists, linked⟩, range⟩ := sound
  refine ⟨linked.gflexqSetPriorityGlck g p, ?_⟩
  rcases gflexqSetPriorityGlck_cell linked g p with ⟨_, cell⟩ | ⟨_, cell⟩ <;> rw [cell]
  · exact (range.raised p).1
  · exact range

/-- A new task is covered exactly if the cell does not hold the wrapped value. -/
theorem schedAt_covered_iff (sound : gwq.Sound) (covered : gwq.Covered) (fn : Fn) (p : Priority) :
    (gwq.schedAt fn p).Covered ↔ 0 ≤ cellInt gwq.gworkqPriority := by
  have raised := (sound.range.raised p).2
  have pending := fun q => pending_added (p := q) (schedAt_added fn p : Added gwq _ _ _) (schedAt_priority fn p)
  constructor
  · intro after
    have new := after p ((pending p).mpr (.inr rfl))
    rw [schedAt_cell, raised] at new
    split at new <;> omega
  · intro nonneg q isPending
    rw [schedAt_cell, raised, if_neg (by omega)]
    rcases (pending q).mp isPending with old | new
    · exact le_trans (covered q old) (le_max_left ..)
    · cases new
      exact le_max_right ..

theorem gflexqSchedGlck_covered_iff (sound : gwq.Sound) (covered : gwq.Covered) (g : Flex) (fn : Fn) :
    (gwq.gflexqSchedGlck g fn).Covered ↔
      if gwq.next (.flex g) = .null then 0 ≤ cellInt gwq.gworkqPriority
      else (gwq.priority g : Int) ≤ cellInt gwq.gworkqPriority := by
  obtain ⟨⟨lists, linked⟩, range⟩ := sound
  have raised := (range.raised (gwq.priority g)).2
  have pending := fun q => pending_added (p := q) (gflexqSchedGlck_added linked g fn) (gflexqSchedGlck_priority linked g fn)
  constructor
  · intro after
    have new := after (gwq.priority g) ((pending _).mpr (.inr rfl))
    rw [gflexqSchedGlck_cell linked] at new
    split at new
    · next null =>
      rw [if_pos null]
      rw [raised] at new
      split at new <;> omega
    · next isLinked => rwa [if_neg isLinked]
  · intro timely q isPending
    rw [gflexqSchedGlck_cell linked]
    split at timely
    · next null =>
      rw [if_pos null, raised, if_neg (by omega)]
      rcases (pending q).mp isPending with old | new
      · exact le_trans (covered q old) (le_max_left ..)
      · cases new
        exact le_max_right ..
    · next isLinked =>
      rw [if_neg isLinked]
      rcases (pending q).mp isPending with old | new
      · exact covered q old
      · cases new
        exact timely

theorem Covered.gflexqSetPriorityGlck (covered : gwq.Covered) (sound : gwq.Sound) (g : Flex) (p : Priority) :
    (gwq.gflexqSetPriorityGlck g p).Covered := by
  obtain ⟨⟨lists, linked⟩, range⟩ := sound
  have raised := (range.raised p).2
  intro q ⟨node, level, nonempty⟩
  rw [gflexqSetPriorityGlck_tasks linked] at nonempty
  have old : ∀ q, gwq.levelOf node = some q → (q : Int) ≤ cellInt gwq.gworkqPriority :=
    fun q level => covered q ⟨node, level, nonempty⟩
  have kept : gwq.levelOf node = some q →
      (q : Int) ≤ cellInt (gwq.gflexqSetPriorityGlck g p).gworkqPriority := by
    intro same
    have least := old q same
    rcases gflexqSetPriorityGlck_cell linked g p with ⟨_, cell⟩ | ⟨_, cell⟩ <;> rw [cell]
    · rw [raised]
      split <;> omega
    · exact least
  cases node with
  | null => cases level
  | head r => exact kept level
  | flex x =>
    simp only [levelOf, gflexqSetPriorityGlck_priority linked] at level
    by_cases same : x = g
    · subst same
      rw [Function.update_self] at level
      cases level
      have mem := linked.queued x nonempty
      have nonneg := old _ rfl
      rcases gflexqSetPriorityGlck_cell linked x p with ⟨_, cell⟩ | ⟨free, _⟩
      · rw [cell, raised]
        split <;> omega
      · exact absurd mem free
    · rw [Function.update_of_ne same] at level
      exact kept level

omit [DecidableEq Flex] in
theorem FirstTask.levelOf (linked : gwq.Linked lists)
    (first : FirstTask gwq lists p node fn) : gwq.levelOf node = some p :=
  linked.levelOf_served (List.mem_of_find?_eq_some first.1)

section Yielded

variable {lists : Priority → List Flex} {cutoff : Priority} {gwqPriority : Int}
  {found : Option (Fn × Gflexq Flex) × Gworkq Flex Fn}

theorem Yielded.sound (yielded : Yielded gwq lists cutoff gwqPriority found) (least : -1 ≤ gwqPriority)
    (most : gwqPriority < 16) : found.2.Sound := by
  refine ⟨yielded.linked, ?_⟩
  rcases yielded.outcome with ⟨level, _, _, _, _, top, _, _, _, cell⟩ | ⟨_, _, _, cell⟩ <;> rw [cell]
  · exact .ofInt (by omega) (by omega)
  · exact .ofInt (by omega) (by omega)

/-- The cell may be lowered exactly if nothing is pending above the priority that was read. -/
theorem Yielded.covered_iff (yielded : Yielded gwq lists cutoff gwqPriority found) (linked : gwq.Linked lists)
    (least : -1 ≤ gwqPriority) (most : gwqPriority < 16) :
    found.2.Covered ↔ ∀ q, gwq.Pending q → (q : Int) ≤ gwqPriority := by
  rcases yielded.outcome with ⟨level, fn, node, _, above, top, none, first, taken, cell⟩ | ⟨_, none, same, cell⟩
  · have value : cellInt found.2.gworkqPriority = level := by rw [cell, cellInt_ofInt (by omega) (by omega)]
    constructor
    · rintro after q ⟨x, isLevel, nonempty⟩
      by_contra higher
      have ne : x ≠ node := by
        rintro rfl
        have sameLevel := (first.levelOf linked).symm.trans isLevel
        cases sameLevel
        exact higher top
      have still : found.2.Pending q := by
        refine ⟨x, (levelOf_congr yielded.priority x).trans isLevel, ?_⟩
        rwa [taken x, if_neg ne]
      have := after q still
      omega
    · intro timely q pending
      have old := pending_taken taken yielded.priority pending
      by_contra higher
      exact none q (by rw [Fin.lt_def]; omega) (timely q old) old
  · have value : cellInt found.2.gworkqPriority = min gwqPriority (cutoff - 1) := by
      rw [cell, cellInt_ofInt (by omega) (by omega)]
    have pending := fun q => pending_congr (q := q) yielded.priority same
    constructor
    · intro after q isPending
      have := after q ((pending q).mpr isPending)
      omega
    · intro timely q isPending
      have old := (pending q).mp isPending
      have top := timely q old
      by_contra higher
      exact none q (by rw [Fin.le_def]; omega) top old

end Yielded

end Gworkq

end Culibs.Cuflow
