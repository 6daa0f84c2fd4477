import Culibs.Cuex.Subst.Unify
import Mathlib.Data.Prod.Lex

/-! Unification always returns. Either a variable that was free becomes bound, or
the expressions that the variables stand for become smaller, or variables are
replaced by their values. -/

namespace Culibs.Cuex.Subst

open Option Term List

open Triangular (SolvesOn)

variable {α : Type} {world world' world1 : World α} {subst i : Nat} {v : Var} {U : Set Var}
  {ex ex0 ex1 t : Expr α} {operands0 operands1 : List (Expr α)}

/-- What has been found for the operands of two operations. -/
def OperandsOutcome (world world' : World α) (subst : Nat) (U : Set Var) (operands0 operands1 : List (Expr α)) :
    Option (List (Expr α)) → Prop
  | some exs => (∀ ex ∈ exs, ∀ v ∈ ex.vars, v ∈ U) ∧
    (∀ σ, (step world' subst).SolvesOn U σ → exs.map (Term.bind σ) = operands0.map (Term.bind σ) ∧
      exs.map (Term.bind σ) = operands1.map (Term.bind σ)) ∧
    ∀ σ, (step world subst).SolvesOn U σ → operands0.map (Term.bind σ) = operands1.map (Term.bind σ) →
      (step world' subst).SolvesOn U σ
  | none => ∀ σ, Fixes (world.substs subst).qcset σ → (step world subst).SolvesOn U σ →
    operands0.map (Term.bind σ) ≠ operands1.map (Term.bind σ)

variable {qcset : Qcset}

/-- Expressions with different operators, and those that are not operations, are only equal if they are the same. -/
theorem bind_ne_of_clash (fixes : Fixes qcset σ)
    (passive0 : unifiableVar qcset ex0 = none) (passive1 : unifiableVar qcset ex1 = none) (ne : ex0 ≠ ex1)
    (clash : ∀ f g args0 args1, ex0 = .app f args0 → ex1 = .app g args1 → ¬(f = g ∧ args0.length = args1.length)) :
    ex0.bind σ ≠ ex1.bind σ := by
  -- What is not an operation stays.
  have stays (e : Expr α) (passive : unifiableVar qcset e = none) : (∃ f args, e = .app f args) ∨ e.bind σ = e := by
    cases e with
    | atom a => exact .inr rfl
    | app f args => exact .inl ⟨f, args, rfl⟩
    | var v =>
      refine .inr (fixes v ?_)
      rw [unifiableVar] at passive
      split at passive
      · cases passive
      · next inactive => exact Bool.eq_false_iff.mpr inactive
  intro same
  rcases stays ex0 passive0 with ⟨f, args0, rfl⟩ | own0
  · rcases stays ex1 passive1 with ⟨g, args1, rfl⟩ | own1
    · rw [bind_app, bind_app] at same
      injection same with equal maps
      refine clash f g args0 args1 rfl rfl ⟨equal, ?_⟩
      rw [← length_map (Term.bind σ), maps, length_map]
    · rw [own1, bind_app] at same
      exact clash f f args0 _ rfl same.symm ⟨rfl, (length_map _).symm⟩
  · rcases stays ex1 passive1 with ⟨g, args1, rfl⟩ | own1
    · rw [own0, bind_app] at same
      exact clash g g _ args1 same rfl ⟨rfl, length_map _⟩
    · rw [own0, own1] at same
      exact ne same

variable [DecidableEq α]

/-- Unification returns, and what it does to the classes. -/
def UnifySpec (world : World α) (subst : Nat) (ex0 ex1 : Expr α) : Prop :=
  ∃ world' result, Returns (fun fuel => unifyAux subst fuel world ex0 ex1) (world', result) ∧
    Achieves world world' subst ex0 ex1 result

private theorem operands_spec (inv : Inv world subst) (closed : ClassClosed world subst S)
    (within0 : ∀ t ∈ operands0, ∀ v ∈ t.vars, v ∈ S) (within1 : ∀ t ∈ operands1, ∀ v ∈ t.vars, v ∈ S)
    (same : operands0.length = operands1.length)
    (each : ∀ world', Evolves world world' subst S → ∀ t0 ∈ operands0, ∀ t1 ∈ operands1, UnifySpec world' subst t0 t1) :
    ∃ world' result, Returns (fun fuel => unifyOperands (unifyAux subst fuel) world operands0 operands1) (world', result) ∧
      ∀ U, ClassClosed world subst U → (∀ t ∈ operands0, ∀ v ∈ t.vars, v ∈ U) → (∀ t ∈ operands1, ∀ v ∈ t.vars, v ∈ U) →
        Evolves world world' subst U ∧ OperandsOutcome world world' subst U operands0 operands1 result := by
  induction operands0 generalizing world operands1 with
  | nil =>
    cases operands1 with
    | cons t1 operands1 => cases same
    | nil =>
      refine ⟨world, some [], Returns.const _, fun U closed _ _ => ⟨.refl inv closed, nofun, ?_, ?_⟩⟩
      · exact fun σ _ => ⟨rfl, rfl⟩
      · exact fun σ solves _ => solves
  | cons t0 operands0 ih =>
    cases operands1 with
    | nil => cases same
    | cons t1 operands1 =>
      obtain ⟨world1, first, returns, achieves⟩ :=
        each world (.refl inv closed) t0 mem_cons_self t1 mem_cons_self
      have evolves := (achieves S closed (within0 t0 mem_cons_self) (within1 t1 mem_cons_self)).1
      cases first with
      | none =>
        refine ⟨world1, none, returns.andThen (Returns.const _) fun fuel done => ?_, fun U closed below0 below1 => ?_⟩
        · simp only [unifyOperands, done, bind_eq_bind, bind_some]
        · obtain ⟨evolves, unsolvable⟩ :=
            achieves U closed (below0 t0 mem_cons_self) (below1 t1 mem_cons_self)
          exact ⟨evolves, fun σ fixes solves equal => unsolvable σ fixes solves (cons.inj equal).1⟩
      | some ex =>
        obtain ⟨world2, rest, returns', outcome⟩ := ih evolves.inv evolves.closed
          (fun t mem => within0 t (mem_cons_of_mem t0 mem))
          (fun t mem => within1 t (mem_cons_of_mem t1 mem)) (Nat.succ.inj same)
          fun world' evolves' s0 member0 s1 member1 =>
            each world' (evolves.trans evolves') s0 (mem_cons_of_mem t0 member0) s1 (mem_cons_of_mem t1 member1)
        refine ⟨world2, rest.map (ex :: ·), returns.andThen (returns'.map fun found => (found.1, found.2.map (ex :: ·)))
          fun fuel done => ?_, fun U closed below0 below1 => ?_⟩
        · simp only [unifyOperands, done, bind_eq_bind, bind_some]
          cases unifyOperands (unifyAux subst fuel) world1 operands0 operands1 <;> rfl
        obtain ⟨evolves, solved⟩ :=
          achieves U closed (below0 t0 mem_cons_self) (below1 t1 mem_cons_self)
        obtain ⟨evolves', found⟩ := outcome U evolves.closed
          (fun t mem => below0 t (mem_cons_of_mem t0 mem))
          (fun t mem => below1 t (mem_cons_of_mem t1 mem))
        refine ⟨evolves.trans evolves', ?_⟩
        cases rest with
        | none =>
          intro σ fixes solves equal
          obtain ⟨head, tail⟩ := cons.inj equal
          refine found σ ?_ (solved.complete σ solves head) tail
          rw [evolves.qcset]
          exact fixes
        | some exs =>
          obtain ⟨within, implies, complete⟩ := found
          refine ⟨forall_mem_cons.mpr ⟨solved.within, within⟩, ?_, ?_⟩
          · intro σ solves
            obtain ⟨head0, head1⟩ := solved.implies σ (evolves'.refines σ solves)
            obtain ⟨tail0, tail1⟩ := implies σ solves
            simp only [map_cons, head0, tail0, ← head1, ← tail1, true_and]
          · intro σ solves equal
            obtain ⟨head, tail⟩ := cons.inj equal
            exact complete σ (solved.complete σ solves head) tail

omit [DecidableEq α] in
private theorem achieves_app
    (outcome : ∀ U, ClassClosed world subst U → (∀ t ∈ operands0, ∀ v ∈ t.vars, v ∈ U) →
      (∀ t ∈ operands1, ∀ v ∈ t.vars, v ∈ U) →
        Evolves world world' subst U ∧ OperandsOutcome world world' subst U operands0 operands1 result) :
    Achieves world world' subst (.app f operands0) (.app f operands1) (result.map (.app f)) := by
  intro U closed within0 within1
  obtain ⟨evolves, found⟩ := outcome U closed
    (fun t mem v occurs => within0 v (mem_vars_app.mpr ⟨t, mem, occurs⟩))
    (fun t mem v occurs => within1 v (mem_vars_app.mpr ⟨t, mem, occurs⟩))
  refine ⟨evolves, ?_⟩
  cases result with
  | none =>
    intro σ fixes solves equal
    rw [bind_app, bind_app] at equal
    injection equal with _ maps
    exact found σ fixes solves maps
  | some exs =>
    obtain ⟨within, implies, complete⟩ := found
    refine ⟨?_, fun _ _ => rfl, ?_, ?_⟩
    · intro v occurs
      obtain ⟨t, mem, inside⟩ := mem_vars_app.mp occurs
      exact within t mem v inside
    · intro σ solves
      obtain ⟨first, second⟩ := implies σ solves
      rw [bind_app, bind_app, bind_app]
      exact ⟨congrArg _ first, congrArg _ second⟩
    · intro σ solves equal
      rw [bind_app, bind_app] at equal
      injection equal with _ maps
      exact complete σ solves maps

/-- Whether an expression is a variable that may be substituted. -/
def activity (qcset : Qcset) (ex : Expr α) : Nat := if (unifiableVar qcset ex).isSome then 1 else 0

omit [DecidableEq α] in
theorem activity_none (passive : unifiableVar qcset ex = none) : activity qcset ex = 0 := by
  rw [activity, passive]
  rfl

/-- What decreases in the recursion: the number of free variables, the size of the expressions after replacing all
variables, and the number of expressions that are variables. -/
noncomputable def weight (inv : Inv world subst) (S : Finset Var) (ex0 ex1 : Expr α) : Nat ×ₗ Nat ×ₗ Nat :=
  toLex ((step world subst).freeCount S, toLex
    ((ex0.bind ((step world subst).norm inv.acyclic)).size + (ex1.bind ((step world subst).norm inv.acyclic)).size,
      activity (world.substs subst).qcset ex0 + activity (world.substs subst).qcset ex1))

section

omit [DecidableEq α]

variable {S : Finset Var} {t0 t1 : Expr α}

theorem weight_lt_of_value (inv : Inv world subst) (inv1 : Inv world1 subst)
    (same : step world1 subst = step world subst) (qcset : (world1.substs subst).qcset = (world.substs subst).qcset)
    (equal0 : t0.bind ((step world subst).norm inv.acyclic) = ex0.bind ((step world subst).norm inv.acyclic))
    (equal1 : t1.bind ((step world subst).norm inv.acyclic) = ex1.bind ((step world subst).norm inv.acyclic))
    (less : activity (world.substs subst).qcset t0 + activity (world.substs subst).qcset t1 <
      activity (world.substs subst).qcset ex0 + activity (world.substs subst).qcset ex1) :
    weight inv1 S t0 t1 < weight inv S ex0 ex1 := by
  have norms : (step world1 subst).norm inv1.acyclic = (step world subst).norm inv.acyclic := by
    congr 1
  rw [weight, weight, norms, same, qcset, equal0, equal1]
  exact Prod.Lex.toLex_lt_toLex.mpr (.inr ⟨rfl, Prod.Lex.toLex_lt_toLex.mpr (.inr ⟨rfl, less⟩)⟩)

private theorem weight_lt_of_operand (inv : Inv world subst)
    (closed : ClassClosed world subst ↑S) (within0 : ∀ v ∈ (Term.app f operands0 : Expr α).vars, v ∈ (↑S : Set Var))
    (within1 : ∀ v ∈ (Term.app g operands1 : Expr α).vars, v ∈ (↑S : Set Var)) (evolves : Evolves world world' subst ↑S)
    (member0 : t0 ∈ operands0) (member1 : t1 ∈ operands1) :
    weight evolves.inv S t0 t1 < weight inv S (.app f operands0) (.app g operands1) := by
  rcases lt_or_eq_of_le (Triangular.freeCount_le evolves.shrinks) with fewer | equal
  · exact Prod.Lex.toLex_lt_toLex.mpr (.inl fewer)
  have norms (t : Expr α) (within : ∀ v ∈ t.vars, v ∈ (↑S : Set Var)) :
      t.bind ((step world' subst).norm evolves.inv.acyclic) = t.bind ((step world subst).norm inv.acyclic) :=
    bind_congr fun v occurs => Triangular.norm_eq_of_freeCount evolves.shrinks inv.acyclic evolves.inv.acyclic
      closed.terms evolves.refines equal (within v occurs)
  refine Prod.Lex.toLex_lt_toLex.mpr (.inr ⟨equal, Prod.Lex.toLex_lt_toLex.mpr (.inl ?_)⟩)
  rw [norms t0 fun v occurs => within0 v (mem_vars_app.mpr ⟨t0, member0, occurs⟩),
    norms t1 fun v occurs => within1 v (mem_vars_app.mpr ⟨t1, member1, occurs⟩), bind_app, bind_app]
  exact add_lt_add (size_lt_app (mem_map_of_mem member0)) (size_lt_app (mem_map_of_mem member1))

theorem eq_var_of_unifiableVar (unifiable : unifiableVar qcset ex = some v) :
    ex = .var v ∧ qcset.contains v.qcode = true := by
  cases ex with
  | atom a => cases unifiable
  | app f args => cases unifiable
  | var w =>
    rw [unifiableVar] at unifiable
    split at unifiable
    · cases unifiable
      exact ⟨rfl, ‹_›⟩
    · cases unifiable

theorem activity_some (unifiable : unifiableVar qcset ex = some v) : activity qcset ex = 1 := by
  rw [activity, unifiable]
  rfl

private theorem valueContains_spec (inv : Inv world subst) (i j : Nat) :
    ∃ b, Returns (fun fuel => valueContains subst fuel world i j) (world, b) ∧
      if b then ∃ t, (world.veqvs i).value = some t ∧ Inside world subst j t
      else ∀ t, (world.veqvs i).value = some t → Apart world subst j t := by
  cases value : (world.veqvs i).value with
  | none =>
    refine ⟨false, (Returns.const _).congr fun fuel => ?_, fun t same => by cases same⟩
    simp only [valueContains, value]
  | some t =>
    obtain ⟨b, returns, spec⟩ := inv.contains j t
    refine ⟨b, returns.congr fun fuel => ?_, ?_⟩
    · simp only [valueContains, value]
    · cases b with
      | true => exact ⟨t, rfl, spec⟩
      | false =>
        intro t' same
        cases same
        exact spec

private theorem mutuallyContain_spec (inv : Inv world subst)
    (found0 : table world subst v0 = some i0) (found1 : table world subst v1 = some i1) :
    ∃ b, Returns (fun fuel => mutuallyContain subst fuel world i0 i1) (world, b) ∧
      if b then Achieves world world subst (.var v0) (.var v1) none
      else (∀ t, (world.veqvs i0).value = some t → Apart world subst i1 t) ∧
        ∀ t, (world.veqvs i1).value = some t → Apart world subst i0 t := by
  obtain ⟨b, returns, spec⟩ := valueContains_spec inv i0 i1
  cases b with
  | true =>
    obtain ⟨t, value, inside⟩ := spec
    refine ⟨true, returns.andThen (Returns.const _) fun fuel done => ?_, ?_⟩
    · simp only [mutuallyContain, inv.isIdem, if_true, done, bind_eq_bind, bind_some]
    · exact achieves_value_inside inv found0 found1 value inside
  | false =>
    obtain ⟨b', returns', spec'⟩ := valueContains_spec inv i1 i0
    refine ⟨b', returns.andThen returns' fun fuel done => ?_, ?_⟩
    · simp only [mutuallyContain, inv.isIdem, if_true, done, bind_eq_bind, bind_some, Bool.false_eq_true, if_false]
    · cases b' with
      | true =>
        obtain ⟨t, value, inside⟩ := spec'
        exact (achieves_value_inside inv found1 found0 value inside).symm
      | false => exact ⟨spec, spec'⟩

theorem occurCheckAndSetVar_spec (inv : Inv world subst) (found : table world subst v = some i)
    (value : (world.veqvs i).value = none) (passive : unifiableVar (world.substs subst).qcset ex = none) :
    ∃ world' b, Returns (fun fuel => occurCheckAndSetVar subst fuel world i ex) (world', b) ∧
      Achieves world world' subst (.var v) ex (if b then some (.var v) else none) := by
  obtain ⟨b, returns, spec⟩ := inv.contains i ex
  cases b with
  | true =>
    refine ⟨world, false, returns.andThen (Returns.const _) fun fuel done => ?_, achieves_inside inv found passive spec⟩
    simp only [occurCheckAndSetVar, inv.isIdem, if_true, done, bind_eq_bind, bind_some]
  | false =>
    refine ⟨_, true, returns.andThen (Returns.const _) fun fuel done => ?_, achieves_bind inv found value passive spec⟩
    simp only [occurCheckAndSetVar, inv.isIdem, if_true, done, bind_eq_bind, bind_some, Bool.false_eq_true, if_false]

/-- The value of a class weighs as much as a variable of it, but is no variable. -/
theorem weight_of_value (inv : Inv world subst) (inv1 : Inv world1 subst) (same : step world1 subst = step world subst)
    (qcset : (world1.substs subst).qcset = (world.substs subst).qcset) (found : table world1 subst v = some i)
    (value : (world1.veqvs i).value = some t) :
    t.bind ((step world subst).norm inv.acyclic) = (Term.var v).bind ((step world subst).norm inv.acyclic) ∧
      activity (world.substs subst).qcset t = 0 := by
  constructor
  · have term : step world subst v = t := by
      rw [← same, step_of_value found value]
    rw [bind_var, Triangular.norm_eq inv.acyclic v, term]
  · rw [← qcset]
    exact activity_none (inv1.value found value)

end

section Cases

variable {S : Finset Var} {v0 v1 : Var} (inv : Inv world subst) (closed : ClassClosed world subst ↑S)
  (within0 : ∀ v ∈ ex0.vars, v ∈ (↑S : Set Var)) (within1 : ∀ v ∈ ex1.vars, v ∈ (↑S : Set Var)) (ne : ex0 ≠ ex1)
  (smaller : ∀ (world1 : World α) (t0 t1 : Expr α) (inv1 : Inv world1 subst), ClassClosed world1 subst ↑S →
    (∀ v ∈ t0.vars, v ∈ (↑S : Set Var)) → (∀ v ∈ t1.vars, v ∈ (↑S : Set Var)) →
      weight inv1 S t0 t1 < weight inv S ex0 ex1 → UnifySpec world1 subst t0 t1)

include closed within0 within1 ne smaller

private theorem unify_vars (unifiable0 : unifiableVar (world.substs subst).qcset ex0 = some v0)
    (unifiable1 : unifiableVar (world.substs subst).qcset ex1 = some v1) : UnifySpec world subst ex0 ex1 := by
  obtain ⟨rfl, active0⟩ := eq_var_of_unifiableVar unifiable0
  obtain ⟨rfl, active1⟩ := eq_var_of_unifiableVar unifiable1
  have inside0 := within0 v0 (mem_singleton_self v0)
  have inside1 := within1 v1 (mem_singleton_self v1)
  obtain ⟨world1, i0, made0, found0, same0, _, evolves0⟩ := inv.mref_spec active0
  have start0 := evolves0 S closed inside0
  obtain ⟨world2, i1, made1, found1, same1, kept, evolves1⟩ :=
    start0.inv.mref_spec (v := v1) (by rw [start0.qcset]; exact active1)
  have start1 := evolves1 S start0.closed inside1
  have inv2 := start1.inv
  have same := same1.trans same0
  have found0' := (kept v0 i0 found0).1
  -- nothing has happened but that both variables have classes
  have before {world' : World α} {result : Option (Expr α)}
      (achieves : Achieves world2 world' subst (.var v0) (.var v1) result) :
      Achieves world world' subst (.var v0) (.var v1) result := by
    refine achieves.after (fun U closed within0 within1 => ?_) same
    have first := evolves0 U closed (within0 v0 (mem_singleton_self v0))
    exact first.trans (evolves1 U first.closed (within1 v1 (mem_singleton_self v1)))
  by_cases apart : i0 = i1
  · subst apart
    refine ⟨world2, _, Returns.step ((Returns.const _).congr fun fuel => ?_), before (achieves_mate inv2 found0' found1)⟩
    simp only [unifyAux, if_neg ne, unifiable0, unifiable1, made0, made1, if_true]
  obtain ⟨b, tested, spec⟩ := mutuallyContain_spec inv2 found0' found1
  cases b with
  | true =>
    refine ⟨world2, none, Returns.step (tested.andThen (Returns.const _) fun fuel done => ?_), before spec⟩
    simp only [unifyAux, if_neg ne, unifiable0, unifiable1, made0, made1, if_neg apart, done,
      bind_eq_bind, bind_some, if_true]
  | false =>
    obtain ⟨apart0, apart1⟩ := spec
    cases value0 : (world2.veqvs i0).value with
    | none =>
      cases value1 : (world2.veqvs i1).value with
      | none =>
        refine ⟨_, _, Returns.step (tested.andThen (Returns.const _) fun fuel done => ?_),
          before (achieves_no_values inv2 found0' found1 apart value0 value1)⟩
        simp only [unifyAux, if_neg ne, unifiable0, unifiable1, made0, made1, if_neg apart, done,
          bind_eq_bind, bind_some, Bool.false_eq_true, if_false, value0, value1]
      | some t1 =>
        refine ⟨_, _, Returns.step (tested.andThen (Returns.const _) fun fuel done => ?_),
          before (achieves_value_right inv2 found0' found1 apart value0 value1 (apart1 t1 value1))⟩
        simp only [unifyAux, if_neg ne, unifiable0, unifiable1, made0, made1, if_neg apart, done,
          bind_eq_bind, bind_some, Bool.false_eq_true, if_false, value0, value1]
    | some t0 =>
      cases value1 : (world2.veqvs i1).value with
      | none =>
        refine ⟨_, _, Returns.step (tested.andThen (Returns.const _) fun fuel done => ?_),
          before (achieves_value_left inv2 found0' found1 apart value0 value1 (apart0 t0 value0))⟩
        simp only [unifyAux, if_neg ne, unifiable0, unifiable1, made0, made1, if_neg apart, done,
          bind_eq_bind, bind_some, Bool.false_eq_true, if_false, value0, value1]
      | some t1 =>
        have below0 : ∀ v ∈ t0.vars, v ∈ (↑S : Set Var) := by
          rw [← step_of_value found0' value0]
          exact start1.closed.terms v0 inside0
        have below1 : ∀ v ∈ t1.vars, v ∈ (↑S : Set Var) := by
          rw [← step_of_value found1 value1]
          exact start1.closed.terms v1 inside1
        have qcset := start1.qcset.trans start0.qcset
        obtain ⟨equal0, passive0⟩ := weight_of_value inv inv2 same qcset found0' value0
        obtain ⟨equal1, passive1⟩ := weight_of_value inv inv2 same qcset found1 value1
        have less : weight inv2 S t0 t1 < weight inv S (.var v0) (.var v1) := by
          apply weight_lt_of_value inv inv2 same qcset equal0 equal1
          rw [passive0, passive1, activity_some unifiable0, activity_some unifiable1]
          exact two_pos
        obtain ⟨world3, result, returns, achieves⟩ := smaller world2 t0 t1 inv2 start1.closed below0 below1 less
        cases result with
        | none =>
          refine ⟨world3, none, Returns.step (tested.both returns fun fuel done done' => ?_),
            before (achieves_of_values_none found0' found1 value0 value1 achieves)⟩
          simp only [unifyAux, if_neg ne, unifiable0, unifiable1, made0, made1, if_neg apart, done,
            bind_eq_bind, bind_some, Bool.false_eq_true, if_false, value0, value1, done']
        | some ex =>
          refine ⟨_, _, Returns.step (tested.both returns fun fuel done done' => ?_),
            before (achieves_values inv2 found0' found1 apart value0 value1 (apart0 t0 value0) (apart1 t1 value1) achieves)⟩
          simp only [unifyAux, if_neg ne, unifiable0, unifiable1, made0, made1, if_neg apart, done,
            bind_eq_bind, bind_some, Bool.false_eq_true, if_false, value0, value1, done']

private theorem unify_left (unifiable0 : unifiableVar (world.substs subst).qcset ex0 = some v0)
    (passive1 : unifiableVar (world.substs subst).qcset ex1 = none) : UnifySpec world subst ex0 ex1 := by
  obtain ⟨rfl, active0⟩ := eq_var_of_unifiableVar unifiable0
  have inside0 := within0 v0 (mem_singleton_self v0)
  obtain ⟨world1, i0, made0, found0, same, _, evolves0⟩ := inv.mref_spec active0
  have start := evolves0 S closed inside0
  have inv1 := start.inv
  have before {world' : World α} {result : Option (Expr α)} (achieves : Achieves world1 world' subst (.var v0) ex1 result) :
      Achieves world world' subst (.var v0) ex1 result :=
    achieves.after (fun U closed within0 _ => evolves0 U closed (within0 v0 (mem_singleton_self v0))) same
  have passive : unifiableVar (world1.substs subst).qcset ex1 = none := by
    rw [start.qcset]
    exact passive1
  cases value0 : (world1.veqvs i0).value with
  | none =>
    obtain ⟨world2, b, returns, achieves⟩ := occurCheckAndSetVar_spec inv1 found0 value0 passive
    refine ⟨_, _, Returns.step (returns.andThen (Returns.const _) fun fuel done => ?_), before achieves⟩
    simp only [unifyAux, if_neg ne, unifiable0, passive1, made0, value0, done, bind_eq_bind, bind_some]
  | some t0 =>
    have below0 : ∀ v ∈ t0.vars, v ∈ (↑S : Set Var) := by
      rw [← step_of_value found0 value0]
      exact start.closed.terms v0 inside0
    obtain ⟨equal0, passive0⟩ := weight_of_value inv inv1 same start.qcset found0 value0
    have less : weight inv1 S t0 ex1 < weight inv S (.var v0) ex1 := by
      apply weight_lt_of_value inv inv1 same start.qcset equal0 rfl
      rw [passive0, activity_some unifiable0, activity_none passive1]
      exact one_pos
    obtain ⟨world2, result, returns, achieves⟩ := smaller world1 t0 ex1 inv1 start.closed below0 within1 less
    cases result with
    | none =>
      refine ⟨world2, none, Returns.step (returns.andThen (Returns.const _) fun fuel done => ?_),
        before (achieves_of_value_none found0 value0 achieves)⟩
      simp only [unifyAux, if_neg ne, unifiable0, passive1, made0, value0, done, bind_eq_bind, bind_some]
    | some ex =>
      refine ⟨_, _, Returns.step (returns.andThen (Returns.const _) fun fuel done => ?_),
        before (achieves_setValue inv1 found0 value0 passive achieves)⟩
      simp only [unifyAux, if_neg ne, unifiable0, passive1, made0, value0, done, bind_eq_bind, bind_some]

theorem unify_right (passive0 : unifiableVar (world.substs subst).qcset ex0 = none)
    (unifiable1 : unifiableVar (world.substs subst).qcset ex1 = some v1) : UnifySpec world subst ex0 ex1 := by
  obtain ⟨rfl, active1⟩ := eq_var_of_unifiableVar unifiable1
  have inside1 := within1 v1 (mem_singleton_self v1)
  obtain ⟨world1, i1, made1, found1, same, _, evolves1⟩ := inv.mref_spec active1
  have start := evolves1 S closed inside1
  have inv1 := start.inv
  have before {world' : World α} {result : Option (Expr α)} (achieves : Achieves world1 world' subst (.var v1) ex0 result) :
      Achieves world world' subst ex0 (.var v1) result := by
    have after : Achieves world world' subst (.var v1) ex0 result :=
      achieves.after (fun U closed within1 _ => evolves1 U closed (within1 v1 (mem_singleton_self v1))) same
    exact after.symm
  have passive : unifiableVar (world1.substs subst).qcset ex0 = none := by
    rw [start.qcset]
    exact passive0
  cases value1 : (world1.veqvs i1).value with
  | none =>
    obtain ⟨world2, b, returns, achieves⟩ := occurCheckAndSetVar_spec inv1 found1 value1 passive
    refine ⟨_, _, Returns.step (returns.andThen (Returns.const _) fun fuel done => ?_), before achieves⟩
    simp only [unifyAux, if_neg ne, passive0, unifiable1, made1, value1, done, bind_eq_bind, bind_some]
  | some t1 =>
    have below1 : ∀ v ∈ t1.vars, v ∈ (↑S : Set Var) := by
      rw [← step_of_value found1 value1]
      exact start.closed.terms v1 inside1
    obtain ⟨equal1, passive1⟩ := weight_of_value inv inv1 same start.qcset found1 value1
    have less : weight inv1 S ex0 t1 < weight inv S ex0 (.var v1) := by
      apply weight_lt_of_value inv inv1 same start.qcset rfl equal1
      rw [passive1, activity_none passive0, activity_some unifiable1]
      exact one_pos
    obtain ⟨world2, result, returns, achieves⟩ := smaller world1 ex0 t1 inv1 start.closed within0 below1 less
    cases result with
    | none =>
      refine ⟨world2, none, Returns.step (returns.andThen (Returns.const _) fun fuel done => ?_),
        before (achieves_of_value_none found1 value1 achieves.symm)⟩
      simp only [unifyAux, if_neg ne, passive0, unifiable1, made1, value1, done, bind_eq_bind, bind_some]
    | some ex =>
      refine ⟨_, _, Returns.step (returns.andThen (Returns.const _) fun fuel done => ?_),
        before (achieves_setValue inv1 found1 value1 passive achieves.symm)⟩
      simp only [unifyAux, if_neg ne, passive0, unifiable1, made1, value1, done, bind_eq_bind, bind_some]

private theorem unify_operations (passive0 : unifiableVar (world.substs subst).qcset ex0 = none)
    (passive1 : unifiableVar (world.substs subst).qcset ex1 = none) : UnifySpec world subst ex0 ex1 := by
  by_cases clash : ∀ f g args0 args1, ex0 = .app f args0 → ex1 = .app g args1 → ¬(f = g ∧ args0.length = args1.length)
  · refine ⟨world, none, Returns.step ((Returns.const _).congr fun fuel => ?_), fun U closed' _ _ =>
      ⟨.refl inv closed', fun σ fixes _ => bind_ne_of_clash fixes passive0 passive1 ne clash⟩⟩
    simp only [unifyAux, if_neg ne, passive0, passive1]
    split
    · next f args0 g args1 => rw [if_neg (clash f g args0 args1 rfl rfl)]
    · rfl
  · push Not at clash
    obtain ⟨f, g, args0, args1, rfl, rfl, rfl, lengths⟩ := clash
    obtain ⟨world', result, returns, outcome⟩ := operands_spec inv closed
      (fun t mem v occurs => within0 v (mem_vars_app.mpr ⟨t, mem, occurs⟩))
      (fun t mem v occurs => within1 v (mem_vars_app.mpr ⟨t, mem, occurs⟩)) lengths
      fun world' evolves t0 member0 t1 member1 => smaller world' t0 t1 evolves.inv evolves.closed
        (fun v occurs => within0 v (mem_vars_app.mpr ⟨t0, member0, occurs⟩))
        (fun v occurs => within1 v (mem_vars_app.mpr ⟨t1, member1, occurs⟩))
        (weight_lt_of_operand inv closed within0 within1 evolves member0 member1)
    refine ⟨world', _, Returns.step (returns.andThen (Returns.const _) fun fuel done => ?_), achieves_app outcome⟩
    simp only [unifyAux, if_neg ne, passive0, passive1, lengths, true_and, if_true, done, bind_eq_bind,
      bind_some]

end Cases

theorem unifyAux_spec {S : Finset Var} (inv : Inv world subst) (closed : ClassClosed world subst ↑S)
    (within0 : ∀ v ∈ ex0.vars, v ∈ (↑S : Set Var)) (within1 : ∀ v ∈ ex1.vars, v ∈ (↑S : Set Var)) :
    UnifySpec world subst ex0 ex1 := by
  generalize weighed : weight inv S ex0 ex1 = n
  induction n using WellFoundedLT.induction generalizing world ex0 ex1 with
  | ind n ih =>
    by_cases ne : ex0 = ex1
    · subst ne
      refine ⟨world, some ex0, Returns.step ((Returns.const _).congr fun fuel => ?_), achieves_same inv ex0⟩
      simp only [unifyAux, if_true]
    have smaller (world1 : World α) (t0 t1 : Expr α) (inv1 : Inv world1 subst) (closed1 : ClassClosed world1 subst ↑S)
        (below0 : ∀ v ∈ t0.vars, v ∈ (↑S : Set Var)) (below1 : ∀ v ∈ t1.vars, v ∈ (↑S : Set Var))
        (less : weight inv1 S t0 t1 < weight inv S ex0 ex1) : UnifySpec world1 subst t0 t1 :=
      ih _ (weighed ▸ less) inv1 closed1 below0 below1 rfl
    cases unifiable0 : unifiableVar (world.substs subst).qcset ex0 with
    | some v0 =>
      cases unifiable1 : unifiableVar (world.substs subst).qcset ex1 with
      | some v1 => exact unify_vars inv closed within0 within1 ne smaller unifiable0 unifiable1
      | none => exact unify_left inv closed within0 within1 ne smaller unifiable0 unifiable1
    | none =>
      cases unifiable1 : unifiableVar (world.substs subst).qcset ex1 with
      | some v1 => exact unify_right inv closed within0 within1 ne smaller unifiable0 unifiable1
      | none => exact unify_operations inv closed within0 within1 ne smaller unifiable0 unifiable1

end Culibs.Cuex.Subst
