import Culibs.Cuex.Subst.Update

namespace Culibs.Cuex.Subst

open List

open Triangular (SolvesOn)

variable {α : Type} {world world1 : World α} {subst i : Nat} {v w : Var} {U : Set Var}
  {ex ex0 ex1 t : Expr α} {result : Option (Expr α)} {σ : Var → Expr α}

/-- Variables that may not be substituted stand for themselves. -/
def Fixes (qcset : Qcset) (σ : Var → Expr α) : Prop := ∀ v, qcset.contains v.qcode = false → σ v = .var v

/-- The classes have the solutions which they had and which the two expressions have in common. -/
structure Solved (world world' : World α) (subst : Nat) (U : Set Var) (ex0 ex1 ex : Expr α) : Prop where
  within : ∀ v ∈ ex.vars, v ∈ U
  passive : unifiableVar (world.substs subst).qcset ex0 = none → unifiableVar (world.substs subst).qcset ex1 = none →
    unifiableVar (world.substs subst).qcset ex = none
  implies : ∀ σ, (step world' subst).SolvesOn U σ → ex.bind σ = ex0.bind σ ∧ ex.bind σ = ex1.bind σ
  complete : ∀ σ, (step world subst).SolvesOn U σ → ex0.bind σ = ex1.bind σ → (step world' subst).SolvesOn U σ

def Unsolvable (world : World α) (subst : Nat) (U : Set Var) (ex0 ex1 : Expr α) : Prop :=
  ∀ σ, Fixes (world.substs subst).qcset σ → (step world subst).SolvesOn U σ → ex0.bind σ ≠ ex1.bind σ

def Outcome (world world' : World α) (subst : Nat) (U : Set Var) (ex0 ex1 : Expr α) : Option (Expr α) → Prop
  | some ex => Solved world world' subst U ex0 ex1 ex
  | none => Unsolvable world subst U ex0 ex1

/-- Whatever set of variables is looked at, the classes of it evolve and the solutions are right. -/
def Achieves (world world' : World α) (subst : Nat) (ex0 ex1 : Expr α) (result : Option (Expr α)) : Prop :=
  ∀ U, ClassClosed world subst U → (∀ v ∈ ex0.vars, v ∈ U) → (∀ v ∈ ex1.vars, v ∈ U) →
    Evolves world world' subst U ∧ Outcome world world' subst U ex0 ex1 result

variable {world' : World α}

theorem Solved.symm (solved : Solved world world' subst U ex0 ex1 ex) :
    Solved world world' subst U ex1 ex0 ex where
  within := solved.within
  passive passive1 passive0 := solved.passive passive0 passive1
  implies σ solves := (solved.implies σ solves).symm
  complete σ solves same := solved.complete σ solves same.symm

theorem Achieves.symm (achieves : Achieves world world' subst ex0 ex1 result) :
    Achieves world world' subst ex1 ex0 result := by
  intro U closed within1 within0
  obtain ⟨evolves, outcome⟩ := achieves U closed within0 within1
  refine ⟨evolves, ?_⟩
  cases result with
  | none => exact fun σ fixes solves => (outcome σ fixes solves).symm
  | some ex => exact outcome.symm

theorem Achieves.after (first : ∀ U, ClassClosed world subst U → (∀ v ∈ ex0.vars, v ∈ U) →
      (∀ v ∈ ex1.vars, v ∈ U) → Evolves world world1 subst U) (same : step world1 subst = step world subst)
    (achieves : Achieves world1 world' subst ex0 ex1 result) : Achieves world world' subst ex0 ex1 result := by
  intro U closed within0 within1
  have evolves := first U closed within0 within1
  obtain ⟨evolves', outcome⟩ := achieves U evolves.closed within0 within1
  refine ⟨evolves.trans evolves', ?_⟩
  cases result with
  | none =>
    intro σ fixes solves
    refine outcome σ ?_ ?_
    · rw [evolves.qcset]
      exact fixes
    · rw [same]
      exact solves
  | some ex =>
    refine ⟨outcome.within, ?_, outcome.implies, ?_⟩
    · rw [← evolves.qcset]
      exact outcome.passive
    · rw [← same]
      exact outcome.complete

theorem achieves_same (inv : Inv world subst) (ex : Expr α) : Achieves world world subst ex ex (some ex) := by
  intro U closed within _
  exact ⟨.refl inv closed, within, fun passive _ => passive, fun σ _ => ⟨rfl, rfl⟩, fun σ solves _ => solves⟩

theorem achieves_mate (inv : Inv world subst) (found0 : table world subst v0 = some i)
    (found1 : table world subst v1 = some i) : Achieves world world subst (.var v0) (.var v1) (some (.var v0)) := by
  intro U closed within0 within1
  have inside0 := within0 v0 (mem_singleton_self v0)
  have inside1 := within1 v1 (mem_singleton_self v1)
  refine ⟨.refl inv closed, within0, fun passive _ => passive, fun σ solves => ⟨rfl, ?_⟩, fun σ solves _ => solves⟩
  rw [Term.bind_var, Term.bind_var, solves v0 inside0, solves v1 inside1, inv.step_mate found0 found1]

theorem achieves_inside (inv : Inv world subst) (found : table world subst v = some i)
    (passive : unifiableVar (world.substs subst).qcset ex1 = none) (inside : Inside world subst i ex1) :
    Achieves world world subst (.var v) ex1 none := by
  intro U closed _ within1
  refine ⟨.refl inv closed, fun σ _ solves same => ?_⟩
  obtain ⟨_, _, smaller⟩ := inside U σ closed within1 solves v found
  rw [← same, Term.bind_var] at smaller
  exact lt_irrefl _ (smaller passive)

theorem achieves_bind (inv : Inv world subst) (found : table world subst v = some i)
    (value : (world.veqvs i).value = none) (passive : unifiableVar (world.substs subst).qcset ex1 = none)
    (apart : Apart world subst i ex1) :
    Achieves world (world.setValue i (some ex1)) subst (.var v) ex1 (some (.var v)) := by
  intro U closed within0 within1
  have inside := within0 v (mem_singleton_self v)
  have replaces := inv.replaces_setValue found passive
  have term (w : Var) (mem : table world subst w = some i) : step (world.setValue i (some ex1)) subst w = ex1 :=
    replaces.step_of_value mem (by rw [setValue_veqvs, Function.update_self])
  have evolves : Evolves world (world.setValue i (some ex1)) subst U := by
    apply inv.setValue_evolves found passive apart closed inside within1
    intro σ solves w mem equal
    obtain ⟨head, _, own, known⟩ := inv.step_of_no_value mem value
    rw [known, Term.bind_var, solves head (closed.mates inside found own), term head own]
    exact equal
  refine ⟨evolves, within0, ?_, ?_, ?_⟩
  · intro active _
    rw [unifiableVar, if_pos (inv.active found)] at active
    cases active
  · intro σ solves
    refine ⟨rfl, ?_⟩
    rw [Term.bind_var, solves v inside, term v found]
  · intro σ solves same w mem
    by_cases mate : table world subst w = some i
    · rw [term w mate, ← same, Term.bind_var, solves w mem, solves v inside, inv.step_mate found mate]
    · rw [replaces.step_outside mate]
      exact solves w mem

theorem Evolves.untouched (evolves : Evolves world world1 subst U) (inv : Inv world subst)
    (found : table world subst v = some i) (avoids : ∀ w ∈ U, table world subst w ≠ some i) :
    table world1 subst v = some i ∧ world1.veqvs i = world.veqvs i ∧
      (∀ w, table world1 subst w = some i ↔ table world subst w = some i) ∧
      ∀ w, table world subst w = some i → step world1 subst w = step world subst v := by
  have outer (w : Var) (mem : table world subst w = some i) : w ∉ U := fun inside => avoids w inside mem
  have found' := (evolves.outside v (outer v found)).1.trans found
  have same := (evolves.outside v (outer v found)).2 i found
  refine ⟨found', same, fun w => ?_, fun w mem => ?_⟩
  · rw [← evolves.inv.mem_varLink found', ← inv.mem_varLink found, same]
  · rw [evolves.step_outside (outer w mem), inv.step_mate found mem]

/-- If a value can be unified with an expression, then the variable does not occur in it. -/
theorem Solved.apart (solved : Solved world world1 subst U t ex1 ex) (evolves : Evolves world world1 subst U)
    (inv : Inv world subst) (found : table world subst v = some i) (value : (world.veqvs i).value = some t)
    (passive : unifiableVar (world.substs subst).qcset ex1 = none) (closed : ClassClosed world subst U) (inside : v ∈ U)
    (within : ∀ v ∈ ex1.vars, v ∈ U) : Apart world subst i ex1 := by
  obtain ⟨b, _, spec⟩ := inv.contains i ex1
  cases b with
  | false => exact spec
  | true =>
    have solves1 := Triangular.solvesOn_norm evolves.inv.acyclic U
    have solves := evolves.refines _ solves1
    obtain ⟨_, _, smaller⟩ := spec U _ closed within solves v found
    obtain ⟨first, second⟩ := solved.implies _ solves1
    have own := solves v inside
    rw [step_of_value found value, ← first, second] at own
    exact absurd (smaller passive) (by rw [own]; exact lt_irrefl _)

theorem achieves_setValue (inv : Inv world subst) (found : table world subst v = some i)
    (value : (world.veqvs i).value = some t) (passive : unifiableVar (world.substs subst).qcset ex1 = none)
    (achieves : Achieves world world1 subst t ex1 (some ex)) :
    Achieves world (world1.setValue i (some ex)) subst (.var v) ex1 (some ex) := by
  intro U closed within0 within1
  have inside := within0 v (mem_singleton_self v)
  have term := step_of_value found value
  have below : ∀ w ∈ t.vars, w ∈ U := by
    rw [← term]
    exact closed.terms v inside
  obtain ⟨evolves, solved⟩ := achieves U closed below within1
  have passive' : unifiableVar (world1.substs subst).qcset ex = none := by
    rw [evolves.qcset]
    exact solved.passive (inv.value found value) passive
  -- the recursion has only changed what is reached from the value and the expression
  obtain ⟨A, closedA, withinA, avoidsA⟩ := inv.apart_own found value
  obtain ⟨B, closedB, withinB, avoidsB⟩ := solved.apart evolves inv found value passive closed inside within1
  obtain ⟨evolves0, solved0⟩ := achieves ((A ∪ B) ∩ U) ((closedA.union closedB).inter closed)
    (fun w occurs => ⟨.inl (withinA w occurs), below w occurs⟩)
    (fun w occurs => ⟨.inr (withinB w occurs), within1 w occurs⟩)
  have avoids : ∀ w ∈ (A ∪ B) ∩ U, table world subst w ≠ some i :=
    fun w mem => mem.1.elim (avoidsA w) (avoidsB w)
  obtain ⟨found', _, mates, steps⟩ := evolves0.untouched inv found avoids
  have apart : Apart world1 subst i ex :=
    ⟨_, evolves0.closed, solved0.within, fun w mem mate => avoids w mem ((mates w).mp mate)⟩
  have replaces := evolves.inv.replaces_setValue found' passive'
  have new (w : Var) (mem : table world1 subst w = some i) : step (world1.setValue i (some ex)) subst w = ex :=
    replaces.step_of_value mem (by rw [setValue_veqvs, Function.update_self])
  have part (σ : Var → Expr α) (solves : (step (world1.setValue i (some ex)) subst).SolvesOn U σ) :
      (step world1 subst).SolvesOn ((A ∪ B) ∩ U) σ := by
    intro w mem
    rw [← replaces.step_outside fun mate => avoids w mem ((mates w).mp mate)]
    exact solves w mem.2
  have evolves' : Evolves world1 (world1.setValue i (some ex)) subst U := by
    apply evolves.inv.setValue_evolves found' passive' apart evolves.closed inside solved.within
    intro σ solves w mem equal
    rw [steps w ((mates w).mp mem), term, equal]
    exact (solved0.implies σ (part σ solves)).1
  refine ⟨evolves.trans evolves', solved.within, ?_, ?_, ?_⟩
  · intro active _
    rw [unifiableVar, if_pos (inv.active found)] at active
    cases active
  · intro σ solves
    refine ⟨?_, (solved0.implies σ (part σ solves)).2⟩
    rw [Term.bind_var, solves v inside, new v found']
  intro σ solves same
  have equal : t.bind σ = ex1.bind σ := by
    rw [← same, Term.bind_var, solves v inside, term]
  have solves1 := solved.complete σ solves equal
  intro w mem
  by_cases mate : table world1 subst w = some i
  · rw [new w mate, (solved.implies σ solves1).1, solves1 w mem, steps w ((mates w).mp mate), term]
  · rw [replaces.step_outside mate]
    exact solves1 w mem

/-- If the value cannot be unified with an expression, then the variable cannot. -/
theorem achieves_of_value_none (found : table world subst v = some i) (value : (world.veqvs i).value = some t)
    (achieves : Achieves world world1 subst t ex1 none) : Achieves world world1 subst (.var v) ex1 none := by
  intro U closed within0 within1
  have inside := within0 v (mem_singleton_self v)
  have term := step_of_value found value
  have below : ∀ w ∈ t.vars, w ∈ U := by
    rw [← term]
    exact closed.terms v inside
  obtain ⟨evolves, unsolvable⟩ := achieves U closed below within1
  refine ⟨evolves, fun σ fixes solves same => unsolvable σ fixes solves ?_⟩
  rw [← same, Term.bind_var, solves v inside, term]

section Variables

variable {v0 v1 : Var} {i0 i1 : Nat}

/-- Variables, one of which is part of the value of the other, are never equal. -/
theorem achieves_value_inside (inv : Inv world subst) (found0 : table world subst v0 = some i0)
    (found1 : table world subst v1 = some i1) (value : (world.veqvs i0).value = some t) (inside : Inside world subst i1 t) :
    Achieves world world subst (.var v0) (.var v1) none := by
  intro U closed within0 _
  have inside0 := within0 v0 (mem_singleton_self v0)
  have term := step_of_value found0 value
  have below : ∀ w ∈ t.vars, w ∈ U := by
    rw [← term]
    exact closed.terms v0 inside0
  refine ⟨.refl inv closed, fun σ _ solves same => ?_⟩
  obtain ⟨_, _, smaller⟩ := inside U σ closed below solves v1 found1
  rw [Term.bind_var, Term.bind_var, solves v0 inside0, term] at same
  rw [same] at smaller
  exact lt_irrefl _ (smaller (inv.value found0 value))

section Value

variable (inv : Inv world subst) (found0 : table world subst v0 = some i0) (found1 : table world subst v1 = some i1)
  (other : i0 ≠ i1)

include inv found0 found1 other

theorem solved_unifyVeqvs (passive : unifiableVar (world.substs subst).qcset ex = none)
    (apart0 : Apart world subst i0 ex) (apart1 : Apart world subst i1 ex) (closed : ClassClosed world subst U)
    (inside0 : v0 ∈ U) (inside1 : v1 ∈ U) (within : ∀ v ∈ ex.vars, v ∈ U)
    (same : ∀ j t, j = i0 ∨ j = i1 → (world.veqvs j).value = some t →
      ∀ σ, (step (unifyVeqvs world subst i0 i1 (some ex)) subst).SolvesOn U σ → ex.bind σ = t.bind σ)
    (valued : ∀ σ, (step world subst).SolvesOn U σ → σ v0 = σ v1 → ex.bind σ = σ v0) :
    Evolves world (unifyVeqvs world subst i0 i1 (some ex)) subst U ∧
      Solved world (unifyVeqvs world subst i0 i1 (some ex)) subst U (.var v0) (.var v1) ex := by
  obtain ⟨replaces, own⟩ := inv.replaces_unifyVeqvs (some ex) found0 found1 other fun t' equal => by
    cases equal
    exact passive
  have new (w : Var) (mem : table world subst w = some i0 ∨ table world subst w = some i1) :
      step (unifyVeqvs world subst i0 i1 (some ex)) subst w = ex :=
    replaces.step_of_value mem (by rw [own]; rfl)
  have sub (w : Var) (mem : table world subst w = some i0 ∨ table world subst w = some i1) : w ∈ U :=
    mem.elim (closed.mates inside0 found0) (closed.mates inside1 found1)
  have old (σ : Var → Expr α) (solves : (step (unifyVeqvs world subst i0 i1 (some ex)) subst).SolvesOn U σ) (w : Var)
      (j : Nat) (which : j = i0 ∨ j = i1) (mem : table world subst w = some j) :
      ex.bind σ = (step world subst w).bind σ := by
    cases value : (world.veqvs j).value with
    | some t =>
      rw [step_of_value mem value]
      exact same j t which value σ solves
    | none =>
      obtain ⟨head, _, mate, known⟩ := inv.step_of_no_value mem value
      have member' : table world subst head = some i0 ∨ table world subst head = some i1 := by
        rcases which with rfl | rfl
        · exact .inl mate
        · exact .inr mate
      rw [known, Term.bind_var, solves head (sub head member'), new head member']
  have evolves := inv.unifyVeqvs_value found0 found1 other passive apart0 apart1 closed inside0 inside1 within
    fun σ solves w mem equal => by
      rw [equal]
      exact mem.elim (old σ solves w i0 (.inl rfl)) (old σ solves w i1 (.inr rfl))
  refine ⟨evolves.1, within, ?_, ?_, ?_⟩
  · intro active _
    rw [unifiableVar, if_pos (inv.active found0)] at active
    cases active
  · intro σ solves
    rw [Term.bind_var, Term.bind_var, solves v0 inside0, solves v1 inside1, new v0 (.inl found0), new v1 (.inr found1)]
    exact ⟨rfl, rfl⟩
  intro σ solves equal w mem
  by_cases mate : table world subst w = some i0 ∨ table world subst w = some i1
  · rw [new w mate, valued σ solves equal]
    rcases mate with mate | mate
    · rw [solves w mem, solves v0 inside0, inv.step_mate found0 mate]
    · rw [Term.bind_var, Term.bind_var] at equal
      rw [equal, solves w mem, solves v1 inside1, inv.step_mate found1 mate]
  · rw [replaces.step_outside mate]
    exact solves w mem

theorem achieves_value_left (value0 : (world.veqvs i0).value = some t) (value1 : (world.veqvs i1).value = none)
    (apart : Apart world subst i1 t) :
    Achieves world (unifyVeqvs world subst i0 i1 (some t)) subst (.var v0) (.var v1) (some t) := by
  intro U closed within0 within1
  have inside0 := within0 v0 (mem_singleton_self v0)
  have term := step_of_value found0 value0
  apply solved_unifyVeqvs inv found0 found1 other (inv.value found0 value0) (inv.apart_own found0 value0) apart closed
    inside0 (within1 v1 (mem_singleton_self v1))
  · rw [← term]
    exact closed.terms v0 inside0
  · rintro j t' (rfl | rfl) value σ _
    · rw [value0] at value
      cases value
      rfl
    · rw [value1] at value
      cases value
  · intro σ solves _
    rw [solves v0 inside0, term]

theorem achieves_value_right (value0 : (world.veqvs i0).value = none) (value1 : (world.veqvs i1).value = some t)
    (apart : Apart world subst i0 t) :
    Achieves world (unifyVeqvs world subst i0 i1 (some t)) subst (.var v0) (.var v1) (some t) := by
  intro U closed within0 within1
  have inside1 := within1 v1 (mem_singleton_self v1)
  have term := step_of_value found1 value1
  apply solved_unifyVeqvs inv found0 found1 other (inv.value found1 value1) apart (inv.apart_own found1 value1) closed
    (within0 v0 (mem_singleton_self v0)) inside1
  · rw [← term]
    exact closed.terms v1 inside1
  · rintro j t' (rfl | rfl) value σ _
    · rw [value0] at value
      cases value
    · rw [value1] at value
      cases value
      rfl
  · intro σ solves equal
    rw [equal, solves v1 inside1, term]

theorem achieves_no_values (value0 : (world.veqvs i0).value = none) (value1 : (world.veqvs i1).value = none) :
    Achieves world (unifyVeqvs world subst i0 i1 none) subst (.var v0) (.var v1) (some (.var v0)) := by
  intro U closed within0 within1
  have inside0 := within0 v0 (mem_singleton_self v0)
  have inside1 := within1 v1 (mem_singleton_self v1)
  obtain ⟨evolves, head, own, known, new⟩ :=
    inv.unifyVeqvs_none found0 found1 other closed inside0 inside1 value0 value1
  refine ⟨evolves, within0, fun passive _ => passive, ?_, ?_⟩
  · intro σ solves
    refine ⟨rfl, ?_⟩
    rw [Term.bind_var, Term.bind_var, solves v0 inside0, solves v1 inside1, new v0 (.inl found0), new v1 (.inr found1)]
  intro σ solves equal w mem
  have headed : σ v1 = σ head := by
    rw [solves v1 inside1, inv.step_mate own found1, known, Term.bind_var]
  rw [Term.bind_var, Term.bind_var] at equal
  by_cases mate0 : table world subst w = some i0
  · rw [new w (.inl mate0), Term.bind_var, ← headed, ← equal, solves w mem, solves v0 inside0,
      inv.step_mate found0 mate0]
  · by_cases mate1 : table world subst w = some i1
    · rw [new w (.inr mate1), Term.bind_var, ← headed, solves w mem, solves v1 inside1, inv.step_mate found1 mate1]
    · rw [inv.step_unifyVeqvs_outside none found0 found1 other (fun _ same => by cases same) mate0 mate1]
      exact solves w mem

variable {t0 t1 : Expr α}

theorem achieves_values (value0 : (world.veqvs i0).value = some t0)
    (value1 : (world.veqvs i1).value = some t1) (apart0 : Apart world subst i1 t0) (apart1 : Apart world subst i0 t1)
    (achieves : Achieves world world1 subst t0 t1 (some ex)) :
    Achieves world (unifyVeqvs world1 subst i0 i1 (some ex)) subst (.var v0) (.var v1) (some ex) := by
  intro U closed within0 within1
  have inside0 := within0 v0 (mem_singleton_self v0)
  have inside1 := within1 v1 (mem_singleton_self v1)
  have term0 := step_of_value found0 value0
  have term1 := step_of_value found1 value1
  have below0 : ∀ w ∈ t0.vars, w ∈ U := by
    rw [← term0]
    exact closed.terms v0 inside0
  have below1 : ∀ w ∈ t1.vars, w ∈ U := by
    rw [← term1]
    exact closed.terms v1 inside1
  obtain ⟨evolves, solved⟩ := achieves U closed below0 below1
  have passive : unifiableVar (world1.substs subst).qcset ex = none := by
    rw [evolves.qcset]
    exact solved.passive (inv.value found0 value0) (inv.value found1 value1)
  -- the recursion has only changed what is reached from the two values, which is apart from both classes
  obtain ⟨A, closedA, withinA, avoidsA⟩ := inv.apart_own found0 value0
  obtain ⟨A', closedA', withinA', avoidsA'⟩ := apart0
  obtain ⟨B, closedB, withinB, avoidsB⟩ := inv.apart_own found1 value1
  obtain ⟨B', closedB', withinB', avoidsB'⟩ := apart1
  obtain ⟨evolves0, solved0⟩ := achieves (((A ∩ A') ∪ (B' ∩ B)) ∩ U)
    (((closedA.inter closedA').union (closedB'.inter closedB)).inter closed)
    (fun w occurs => ⟨.inl ⟨withinA w occurs, withinA' w occurs⟩, below0 w occurs⟩)
    (fun w occurs => ⟨.inr ⟨withinB' w occurs, withinB w occurs⟩, below1 w occurs⟩)
  have avoids0 : ∀ w ∈ ((A ∩ A') ∪ (B' ∩ B)) ∩ U, table world subst w ≠ some i0 :=
    fun w mem => mem.1.elim (fun inA => avoidsA w inA.1) fun inB => avoidsB' w inB.1
  have avoids1 : ∀ w ∈ ((A ∩ A') ∪ (B' ∩ B)) ∩ U, table world subst w ≠ some i1 :=
    fun w mem => mem.1.elim (fun inA => avoidsA' w inA.2) fun inB => avoidsB w inB.2
  obtain ⟨found0', same0, mates0, steps0⟩ := evolves0.untouched inv found0 avoids0
  obtain ⟨found1', same1, mates1, steps1⟩ := evolves0.untouched inv found1 avoids1
  have part (σ : Var → Expr α) (solves : (step (unifyVeqvs world1 subst i0 i1 (some ex)) subst).SolvesOn U σ) :
      (step world1 subst).SolvesOn (((A ∩ A') ∪ (B' ∩ B)) ∩ U) σ := by
    intro w mem
    rw [← evolves.inv.step_unifyVeqvs_outside (some ex) found0' found1' other
      (fun t equal => by cases equal; exact passive) (fun mate => avoids0 w mem ((mates0 w).mp mate))
      fun mate => avoids1 w mem ((mates1 w).mp mate)]
    exact solves w mem.2
  obtain ⟨evolves', solved'⟩ := solved_unifyVeqvs evolves.inv found0' found1' other passive
    ⟨_, evolves0.closed, solved0.within, fun w mem mate => avoids0 w mem ((mates0 w).mp mate)⟩
    ⟨_, evolves0.closed, solved0.within, fun w mem mate => avoids1 w mem ((mates1 w).mp mate)⟩
    evolves.closed inside0 inside1 solved.within
    (fun j t which value σ solves => by
      obtain ⟨first, second⟩ := solved0.implies σ (part σ solves)
      rcases which with rfl | rfl
      · rw [same0, value0] at value
        cases value
        exact first
      · rw [same1, value1] at value
        cases value
        exact second)
    (fun σ solves _ => by
      rw [solves v0 inside0, steps0 v0 found0, term0]
      exact (solved.implies σ solves).1)
  refine ⟨evolves.trans evolves', solved.within, ?_, solved'.implies, ?_⟩
  · rw [← evolves.qcset]
    exact solved'.passive
  · intro σ solves equal
    refine solved'.complete σ (solved.complete σ solves ?_) equal
    rw [Term.bind_var, Term.bind_var, solves v0 inside0, solves v1 inside1, term0, term1] at equal
    exact equal

omit inv other in
theorem achieves_of_values_none (value0 : (world.veqvs i0).value = some t0)
    (value1 : (world.veqvs i1).value = some t1) (achieves : Achieves world world1 subst t0 t1 none) :
    Achieves world world1 subst (.var v0) (.var v1) none := by
  intro U closed within0 within1
  have inside0 := within0 v0 (mem_singleton_self v0)
  have inside1 := within1 v1 (mem_singleton_self v1)
  have term0 := step_of_value found0 value0
  have term1 := step_of_value found1 value1
  obtain ⟨evolves, unsolvable⟩ := achieves U closed (by rw [← term0]; exact closed.terms v0 inside0)
    (by rw [← term1]; exact closed.terms v1 inside1)
  refine ⟨evolves, fun σ fixes solves equal => unsolvable σ fixes solves ?_⟩
  rw [Term.bind_var, Term.bind_var, solves v0 inside0, solves v1 inside1, term0, term1] at equal
  exact equal

end Value

end Variables

end Culibs.Cuex.Subst
