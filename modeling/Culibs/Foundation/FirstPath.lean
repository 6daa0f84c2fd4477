import Culibs.Foundation.DepthFirst

/-! The first path to a node, by the order of the lists of successors: a depth-first search reaches the
node along this path. -/

namespace Culibs.DepthFirst

open Relation List

variable {α : Type*} {next : α → List α} {root a b c q : α}

/-- `c` is the first successor of `a` that reaches the goal. -/
def FirstStep (next : α → List α) (q a c : α) : Prop :=
  ∃ before after, next a = before ++ c :: after ∧ Reach next c q ∧ ∀ b ∈ before, ¬ Reach next b q

/-- `a` is on the first path from the root to the goal. -/
def Comes (next : α → List α) (root q : α) : α → Prop := ReflTransGen (FirstStep next q) root

/-- The last node before the goal on the first path to it. -/
def First (next : α → List α) (root q a : α) : Prop := Comes next root q a ∧ FirstStep next q a q

theorem FirstStep.step (first : FirstStep next q a c) : c ∈ next a := by
  obtain ⟨before, after, split, _⟩ := first
  rw [split]
  exact mem_append_right _ mem_cons_self

theorem FirstStep.unique (first : FirstStep next q a b) (second : FirstStep next q a c) : b = c := by
  obtain ⟨before, after, split, reach, others⟩ := first
  obtain ⟨before', after', split', reach', others'⟩ := second
  rcases append_eq_append_iff.mp (split.symm.trans split') with
    ⟨between, isBefore, isAfter⟩ | ⟨between, isBefore, isAfter⟩
  · cases between with
    | nil => exact (cons.inj isAfter).1
    | cons d rest =>
      refine absurd reach (others' b ?_)
      rw [isBefore, ← (cons.inj isAfter).1]
      exact mem_append_right _ mem_cons_self
  · cases between with
    | nil => exact (cons.inj isAfter).1.symm
    | cons d rest =>
      refine absurd reach' (others c ?_)
      rw [isBefore, ← (cons.inj isAfter).1]
      exact mem_append_right _ mem_cons_self

/-- A part of the first path to a node is a part of the first paths to those before it. -/
theorem FirstStep.earlier (first : FirstStep next q a b) (reach : Reach next b c) (further : Reach next c q) :
    FirstStep next c a b := by
  obtain ⟨before, after, split, _, others⟩ := first
  exact ⟨before, after, split, reach, fun d mem reach => others d mem (reach.trans further)⟩

theorem Comes.reach (comes : Comes next root q a) : Reach next root a := by
  induction comes with
  | refl => exact .refl next root
  | tail _ first ih => exact ih.tail first.step

theorem Comes.earlier (comes : Comes next root q a) (reach : Reach next a c) (further : Reach next c q) :
    Comes next root c a := by
  induction comes with
  | refl => exact .refl
  | tail _ first ih => exact (ih (.head first.step reach)).tail (first.earlier reach further)

theorem First.unique (grounded : Grounded next root) (first : First next root q a) (second : First next root q b) :
    a = b := by
  have apart {a b : α} (first : First next root q a) (second : First next root q b)
      (path : ReflTransGen (FirstStep next q) a b) : a = b := by
    rcases path.cases_head with same | ⟨c, step, path⟩
    · exact same
    · obtain rfl := step.unique first.2
      have reach : Reach next c b := Comes.reach path
      exact absurd reach ((grounded.reach second.1.reach).acyclic second.2.step)
  have unique : Relator.RightUnique (FirstStep next q) := fun _ _ _ left right => left.unique right
  rcases ReflTransGen.total_of_right_unique unique first.1 second.1 with path | path
  · exact apart first second path
  · exact (apart second first path).symm

section Fresh

variable {before rest : List α} {visited visited' : α → Prop}

/-- What a search has visited when it has dealt with some successors of `a`: of the nodes that can be
reached from the others, all but those to which the first path is by `a` and the rest of its successors. -/
structure Fresh (next : α → List α) (root a : α) (before rest : List α) (visited : α → Prop) : Prop where
  whole : next a = before ++ rest
  fresh : ∀ q, (∃ b ∈ rest, Reach next b q) → (¬ visited q ↔ Comes next root q a ∧ ∀ b ∈ before, ¬ Reach next b q)

theorem Fresh.start (grounded : Grounded next root) (isRoot : ∀ x, visited x ↔ x = root) :
    Fresh next root root [] (next root) visited := by
  refine ⟨rfl, fun q ahead => ?_⟩
  obtain ⟨b, step, reach⟩ := ahead
  refine iff_of_true (fun isVisited => ?_) ⟨.refl, nofun⟩
  exact grounded.acyclic step ((isRoot q).mp isVisited ▸ reach)

variable (nodup : (next a).Nodup) (fresh : Fresh next root a before (c :: rest) visited)

include nodup fresh

omit nodup in
theorem Fresh.firstStep (reach : Reach next c q) (none : ∀ b ∈ before, ¬ Reach next b q) : FirstStep next q a c :=
  ⟨before, rest, fresh.whole, reach, none⟩

theorem Fresh.none_before (first : FirstStep next q a c) : ∀ b ∈ before, ¬ Reach next b q := by
  obtain ⟨before', after', split, reach, others⟩ := first
  rw [fresh.whole] at nodup split
  rcases append_eq_append_iff.mp split with ⟨between, isBefore, _⟩ | ⟨between, isBefore, isAfter⟩
  · exact fun b mem => others b (by rw [isBefore]; exact mem_append_left _ mem)
  cases between with
  | nil => exact fun b mem => others b (by rwa [isBefore, append_nil] at mem)
  | cons d rest' =>
    rw [← (cons.inj isAfter).1] at isBefore
    have again : c ∈ before := by
      rw [isBefore]
      exact mem_append_right _ mem_cons_self
    exact absurd rfl ((nodup_append.mp nodup).2.2 c again c mem_cons_self)

/-- A successor is new exactly when the first path to it is by this link. -/
theorem Fresh.first_iff : ¬ visited c ↔ First next root c a := by
  rw [fresh.fresh c ⟨c, .head _, .refl next c⟩]
  exact and_congr_right fun _ => ⟨fresh.firstStep (.refl next c), fresh.none_before nodup⟩

omit nodup in
theorem Fresh.seen (isVisited : visited c) : Fresh next root a (before ++ [c]) rest visited := by
  refine ⟨by rw [fresh.whole, append_assoc]; rfl, fun q ahead => ?_⟩
  obtain ⟨b, mem, reach⟩ := ahead
  have ahead' : ∃ b ∈ c :: rest, Reach next b q := ⟨b, mem_cons_of_mem c mem, reach⟩
  rw [fresh.fresh q ahead']
  refine and_congr_right fun comes => ?_
  rw [forall_mem_append, forall_mem_singleton, iff_self_and]
  intro none further
  -- The first path to `c` would be by `a` as well, but `c` has been visited.
  have isNext : c ∈ next a := by
    rw [fresh.whole]
    exact mem_append_right _ mem_cons_self
  refine (fresh.fresh c ⟨c, .head _, .refl next c⟩).mpr ⟨?_, fun b mem reach => ?_⟩ isVisited
  · exact comes.earlier (.head isNext (.refl next c)) further
  · exact none b mem (reach.trans further)

theorem Fresh.enter (grounded : Grounded next root) (isNew : ¬ visited c)
    (entered : ∀ x, visited' x ↔ x = c ∨ visited x) : Fresh next root c [] (next c) visited' := by
  refine ⟨rfl, fun q ahead => ?_⟩
  obtain ⟨b, step, reach⟩ := ahead
  obtain ⟨comes, first⟩ := (fresh.first_iff nodup).mp isNew
  have groundedC : Grounded next c := (grounded.reach comes.reach).after first.step
  have ne : q ≠ c := by
    rintro rfl
    exact groundedC.acyclic step reach
  have further : Reach next c q := .head step reach
  rw [entered, or_iff_right ne, fresh.fresh q ⟨c, .head _, further⟩]
  constructor
  · rintro ⟨comesQ, none⟩
    exact ⟨comesQ.tail (fresh.firstStep further none), nofun⟩
  · rintro ⟨comesQ, _⟩
    rcases ReflTransGen.cases_tail comesQ with same | ⟨a', comesA', stepQ⟩
    · exact absurd (same ▸ comes.reach) ((grounded.reach comes.reach).acyclic first.step)
    · have first' : First next root c a' :=
        ⟨Comes.earlier comesA' (.head stepQ.step (.refl next c)) further, stepQ.earlier (.refl next c) further⟩
      obtain rfl := first'.unique grounded ⟨comes, first⟩
      exact ⟨comesA', fresh.none_before nodup stepQ⟩

omit nodup in
theorem Fresh.after (explored : ∀ x, visited' x ↔ visited x ∨ Reach next c x) :
    Fresh next root a (before ++ [c]) rest visited' := by
  refine ⟨by rw [fresh.whole, append_assoc]; rfl, fun q ahead => ?_⟩
  obtain ⟨b, mem, reach⟩ := ahead
  rw [explored, not_or, fresh.fresh q ⟨b, mem_cons_of_mem c mem, reach⟩, and_assoc, forall_mem_append,
    forall_mem_singleton]

end Fresh

section Finished

variable {rest : List α} {visited visited' : α → Prop}

/-- What can be reached from nodes that are ahead and have been visited has been visited. -/
def Finished (next : α → List α) (list : List α) (visited : α → Prop) : Prop :=
  ∀ v, visited v → (∃ a ∈ list, Reach next a v) → ∀ b, Reach next v b → visited b

theorem Finished.start (grounded : Grounded next root) (isRoot : ∀ x, visited x ↔ x = root) :
    Finished next (next root) visited := by
  rintro v isVisited ⟨a, step, reach⟩
  exact absurd ((isRoot v).mp isVisited ▸ reach) (grounded.acyclic step)

section

variable (closed : Finished next (c :: rest) visited)

include closed

theorem Finished.seen (isVisited : visited c) (reach : Reach next c b) : visited b :=
  closed c isVisited ⟨c, .head _, .refl next c⟩ b reach

theorem Finished.skip : Finished next rest visited :=
  fun v isVisited ahead => closed v isVisited (ahead.imp fun _ both => ⟨mem_cons_of_mem c both.1, both.2⟩)

theorem Finished.enter (grounded : Grounded next c) (entered : ∀ x, visited' x ↔ x = c ∨ visited x) :
    Finished next (next c) visited' := by
  rintro v isVisited ⟨a, step, reach⟩ b further
  rcases (entered v).mp isVisited with rfl | before
  · exact absurd reach (grounded.acyclic step)
  · exact (entered b).mpr (.inr (closed v before ⟨c, .head _, .head step reach⟩ b further))

theorem Finished.after (explored : ∀ x, visited' x ↔ visited x ∨ Reach next c x) : Finished next rest visited' := by
  intro v isVisited ahead b further
  rcases (explored v).mp isVisited with before | reach
  · exact (explored b).mpr (.inl (closed.skip v before ahead b further))
  · exact (explored b).mpr (.inr (reach.trans further))

end

theorem explored_node {entered : α → Prop} (isEntered : ∀ x, entered x ↔ x = c ∨ visited x)
    (explored : ∀ x, visited' x ↔ entered x ∨ ∃ b ∈ next c, Reach next b x) (x : α) :
    visited' x ↔ visited x ∨ Reach next c x := by
  rw [explored, isEntered, or_comm (a := x = c), or_assoc]
  refine or_congr_right ⟨?_, fun reach => reach.cases_head.imp_left Eq.symm⟩
  rintro (rfl | ⟨b, step, reach⟩)
  · exact .refl next x
  · exact .head step reach

end Finished

end Culibs.DepthFirst
