import Culibs.Cuex.Subst.Total

namespace Culibs.Cuex.Subst

open List Option

open Triangular (SolvesOn)

variable {α : Type} {world world' : World α} {subst i : Nat} {v w : Var} {U : Set Var} {ex t : Expr α}
  {o1SubstBlock : Word}

/-- The terms of variables that are not blocked. -/
def shown (o1SubstBlock : Word) (world : World α) (subst : Nat) : Triangular α Word Var := fun v =>
  if isBlock o1SubstBlock (step world subst v) then .var v else step world subst v

theorem shown_of_not_block (free : isBlock o1SubstBlock (step world subst v) = false) :
    shown o1SubstBlock world subst v = step world subst v := by
  rw [shown, free]
  rfl

theorem Inv.shown_acyclic (inv : Inv world subst) : (shown o1SubstBlock world subst).Acyclic := by
  refine inv.acyclic.mono fun w v below => ?_
  by_cases blocked : isBlock o1SubstBlock (step world subst v) = true
  · exact absurd (if_pos blocked) below.1
  · rw [Triangular.Below, Triangular.Free, shown_of_not_block (Bool.eq_false_iff.mpr blocked)] at below
    exact below

/-- An expression with all variables replaced. -/
noncomputable def Inv.applied (inv : Inv world subst) (o1SubstBlock : Word) (v : Var) : Expr α :=
  (shown o1SubstBlock world subst).norm inv.shown_acyclic v

namespace Inv

variable (inv : Inv world subst)

include inv

theorem applied_of_none (absent : table world subst v = none) : inv.applied o1SubstBlock v = .var v := by
  refine Triangular.norm_of_free inv.shown_acyclic ?_
  rw [Triangular.Free, shown, step_of_none absent]
  rfl

/-- A variable of a class without value stands for the first variable of the class. -/
theorem applied_of_no_value (o1SubstBlock : Word) (found : table world subst v = some i)
    (value : (world.veqvs i).value = none) :
    ∃ head, (world.veqvs i).varLink.head? = some head ∧ table world subst head = some i ∧
      inv.applied o1SubstBlock v = .var head := by
  obtain ⟨head, first, mate, term⟩ := inv.step_of_no_value found value
  refine ⟨head, first, mate, ?_⟩
  have headed : shown o1SubstBlock world subst head = .var head := by
    rw [shown, inv.step_mate found mate, term]
    rfl
  have shows : shown o1SubstBlock world subst v = .var head := by
    rw [shown, term]
    rfl
  rw [applied, Triangular.norm_eq, shows, Term.bind_var]
  exact Triangular.norm_of_free inv.shown_acyclic headed

theorem applied_of_block (found : table world subst v = some i) (value : (world.veqvs i).value = some t)
    (blocked : isBlock o1SubstBlock t = true) : inv.applied o1SubstBlock v = .var v := by
  refine Triangular.norm_of_free inv.shown_acyclic ?_
  rw [Triangular.Free, shown, step_of_value found value, if_pos blocked]

theorem applied_of_value (found : table world subst v = some i) (value : (world.veqvs i).value = some t)
    (visible : isBlock o1SubstBlock t = false) :
    inv.applied o1SubstBlock v = t.bind (inv.applied o1SubstBlock) := by
  have term := step_of_value found value
  have shows : shown o1SubstBlock world subst v = t := by
    rw [shown_of_not_block (by rw [term]; exact visible), term]
  have acyclic : (shown o1SubstBlock world subst).Acyclic := inv.shown_acyclic
  have unfolded := Triangular.norm_eq acyclic v
  rwa [shows] at unfolded

private theorem apply_var (value : ∀ k t, table world subst v = some k → (world.veqvs k).value = some t →
      isBlock o1SubstBlock t = false →
      Returns (fun fuel => apply o1SubstBlock subst fuel world t) (world, t.bind (inv.applied o1SubstBlock))) :
    Returns (fun fuel => apply o1SubstBlock subst fuel world (.var v)) (world, inv.applied o1SubstBlock v) := by
  have looked := cref_root inv.root v
  cases found : table world subst v with
  | none =>
    rw [inv.applied_of_none found]
    refine Returns.step ((Returns.const _).congr fun fuel => ?_)
    simp only [apply, looked, found]
  | some k =>
    cases valued : (world.veqvs k).value with
    | none =>
      obtain ⟨head, first, _, same⟩ := inv.applied_of_no_value o1SubstBlock found valued
      rw [same]
      refine Returns.step ((Returns.const _).congr fun fuel => ?_)
      simp only [apply, looked, found, valued, first, map_some, getD_some]
    | some t =>
      by_cases blocked : isBlock o1SubstBlock t = true
      · rw [inv.applied_of_block found valued blocked]
        refine Returns.step ((Returns.const _).congr fun fuel => ?_)
        simp only [apply, looked, found, valued, blocked, if_true]
      · have visible := Bool.eq_false_iff.mpr blocked
        rw [inv.applied_of_value found valued visible]
        refine Returns.step ((value k t found valued visible).congr fun fuel => ?_)
        simp only [apply, looked, found, valued, visible, Bool.false_eq_true, if_false]

end Inv

/-- What the application gives for variables, each in the heap that those before it leave. -/
def Gives (o1SubstBlock : Word) (subst : Nat) (next : World α → Var → World α) (σ : Var → Expr α) :
    World α → List Var → Prop
  | _, [] => True
  | world, v :: vars =>
    Returns (fun fuel => apply o1SubstBlock subst fuel world (.var v)) (next world v, σ v) ∧
      Gives o1SubstBlock subst next σ (next world v) vars

variable {next : World α → Var → World α} {σ : Var → Expr α} {vars vars' : List Var}

private theorem gives_append : Gives o1SubstBlock subst next σ world (vars ++ vars') ↔
    Gives o1SubstBlock subst next σ world vars ∧ Gives o1SubstBlock subst next σ (vars.foldl next world) vars' := by
  induction vars generalizing world with
  | nil => exact (and_iff_right trivial).symm
  | cons v vars ih => exact (and_congr_right fun _ => ih).trans and_assoc.symm

private theorem gives_same (each : ∀ v ∈ vars, Returns (fun fuel => apply o1SubstBlock subst fuel world (.var v))
    (world, σ v)) :
    Gives o1SubstBlock subst (fun world _ => world) σ world vars := by
  induction vars with
  | nil => trivial
  | cons v vars ih => exact ⟨each v (.head _), ih fun w mem => each w (.tail _ mem)⟩

private theorem tranOperands_spec (each : ∀ t ∈ operands, ∀ world,
      Gives o1SubstBlock subst next σ world t.vars →
        Returns (fun fuel => apply o1SubstBlock subst fuel world t) (t.vars.foldl next world, t.bind σ))
    (gives : Gives o1SubstBlock subst next σ world (Term.varsArgs operands)) :
    Returns (fun fuel => tranOperands (apply o1SubstBlock subst fuel) world operands)
      ((Term.varsArgs operands).foldl next world, operands.map (Term.bind σ)) := by
  induction operands generalizing world with
  | nil => exact Returns.const _
  | cons t operands ih =>
    rw [Term.varsArgs, gives_append] at gives
    rw [Term.varsArgs, foldl_append]
    refine (each t mem_cons_self world gives.1).both
      (ih (fun s mem => each s (mem_cons_of_mem t mem)) gives.2) fun fuel done done' => ?_
    simp only [tranOperands, done, done', bind_eq_bind, bind_some, map_cons]

theorem apply_of_vars (gives : Gives o1SubstBlock subst next σ world ex.vars) :
    Returns (fun fuel => apply o1SubstBlock subst fuel world ex) (ex.vars.foldl next world, ex.bind σ) := by
  induction ex using Term.inductArgs generalizing world with
  | atom a => exact Returns.step ((Returns.const _).congr fun fuel => rfl)
  | var v => exact gives.1
  | app f operands ih =>
    rw [Term.vars] at gives ⊢
    rw [Term.bind_app]
    refine Returns.step ((tranOperands_spec (fun t mem _ => ih t mem) gives).andThen (Returns.const _) fun fuel done => ?_)
    simp only [apply, done, bind_eq_bind, bind_some]

theorem Inv.apply_spec (inv : Inv world subst) (o1SubstBlock : Word) (ex : Expr α) :
    Returns (fun fuel => apply o1SubstBlock subst fuel world ex) (world, ex.bind (inv.applied o1SubstBlock)) := by
  have each (v : Var) :
      Returns (fun fuel => apply o1SubstBlock subst fuel world (.var v)) (world, inv.applied o1SubstBlock v) := by
    induction v using inv.acyclic.induction with
    | h v ih =>
      refine inv.apply_var fun k t found value _ => ?_
      have values := apply_of_vars (gives_same fun w (occurs : w ∈ t.vars) => ih w ⟨inv.not_free_of_value found value, by
        rw [step_of_value found value]
        exact occurs⟩)
      rwa [foldl_fixed] at values
  have all := apply_of_vars (gives_same fun v (_ : v ∈ ex.vars) => each v)
  rwa [foldl_fixed] at all

theorem Inv.applied_applied (inv : Inv world subst) (o1SubstBlock : Word) (ex : Expr α) :
    (ex.bind (inv.applied o1SubstBlock)).bind (inv.applied o1SubstBlock) = ex.bind (inv.applied o1SubstBlock) :=
  Triangular.norm_norm inv.shown_acyclic ex

section Calls

variable [DecidableEq α] {ex0 ex1 : Expr α} {calls : List (Expr α × Expr α)} {σ : Var → Expr α}

/-- Calls of `cuex_subst_unify` and what they return. -/
def unifyEach (subst : Nat) (fuel : Nat) (world : World α) : List (Expr α × Expr α) → Option (World α × List Bool)
  | [] => some (world, [])
  | call :: calls => do
    let (world, unified) ← unify subst fuel world call.1 call.2
    let (world, rest) ← unifyEach subst fuel world calls
    some (world, unified :: rest)

/-- Both sides of every call are equal. -/
def Unifies (σ : Var → Expr α) (calls : List (Expr α × Expr α)) : Prop :=
  ∀ call ∈ calls, call.1.bind σ = call.2.bind σ

omit [DecidableEq α] in
theorem unifies_cons (call : Expr α × Expr α) :
    Unifies σ (call :: calls) ↔ call.1.bind σ = call.2.bind σ ∧ Unifies σ calls := forall_mem_cons

variable {S : Finset Var}

theorem unify_spec (inv : Inv world subst) (closed : ClassClosed world subst ↑S)
    (within0 : ∀ v ∈ ex0.vars, v ∈ (↑S : Set Var)) (within1 : ∀ v ∈ ex1.vars, v ∈ (↑S : Set Var)) :
    ∃ world' unified, Returns (fun fuel => unify subst fuel world ex0 ex1) (world', unified) ∧
      ∀ U, ClassClosed world subst U → (∀ v ∈ ex0.vars, v ∈ U) → (∀ v ∈ ex1.vars, v ∈ U) →
        Evolves world world' subst U ∧
        (unified = true → ∀ σ, (step world' subst).SolvesOn U σ ↔
          (step world subst).SolvesOn U σ ∧ ex0.bind σ = ex1.bind σ) ∧
        (unified = false → Unsolvable world subst U ex0 ex1) := by
  obtain ⟨world', result, returns, achieves⟩ := unifyAux_spec inv closed within0 within1
  refine ⟨world', result.isSome, returns.andThen (Returns.const _) fun fuel done => ?_,
    fun U closed within0 within1 => ?_⟩
  · simp only [unify, done, bind_eq_bind, bind_some]
  obtain ⟨evolves, outcome⟩ := achieves U closed within0 within1
  cases result with
  | none => exact ⟨evolves, nofun, fun _ => outcome⟩
  | some ex =>
    refine ⟨evolves, fun _ σ => ⟨fun solves => ⟨evolves.refines σ solves, ?_⟩, fun both => ?_⟩, nofun⟩
    · obtain ⟨first, second⟩ := outcome.implies σ solves
      exact first.symm.trans second
    · exact outcome.complete σ both.1 both.2

theorem unifyEach_spec (inv : Inv world subst) (closed : ClassClosed world subst ↑S)
    (within : ∀ call ∈ calls, (∀ v ∈ call.1.vars, v ∈ (↑S : Set Var)) ∧ ∀ v ∈ call.2.vars, v ∈ (↑S : Set Var)) :
    ∃ world' results, Returns (fun fuel => unifyEach subst fuel world calls) (world', results) ∧
      ∀ U, ClassClosed world subst U → (∀ call ∈ calls, (∀ v ∈ call.1.vars, v ∈ U) ∧ ∀ v ∈ call.2.vars, v ∈ U) →
        Evolves world world' subst U ∧
        (results.all id = true → ∀ σ, (step world' subst).SolvesOn U σ ↔
          (step world subst).SolvesOn U σ ∧ Unifies σ calls) := by
  induction calls generalizing world with
  | nil => exact ⟨world, [], Returns.const _, fun U closed _ => ⟨.refl inv closed, fun _ σ => by simp [Unifies]⟩⟩
  | cons call calls ih =>
    obtain ⟨within0, within⟩ := forall_mem_cons.mp within
    obtain ⟨world1, unified, returns, spec⟩ := unify_spec inv closed within0.1 within0.2
    have evolves := (spec S closed within0.1 within0.2).1
    obtain ⟨world2, results, returns', spec'⟩ := ih evolves.inv evolves.closed within
    refine ⟨world2, unified :: results, returns.both returns' fun fuel done done' => ?_, fun U closed below => ?_⟩
    · simp only [unifyEach, done, done', bind_eq_bind, bind_some]
    · obtain ⟨below0, below⟩ := forall_mem_cons.mp below
      obtain ⟨evolves, first, _⟩ := spec U closed below0.1 below0.2
      obtain ⟨evolves', rest⟩ := spec' U evolves.closed below
      refine ⟨evolves.trans evolves', fun all σ => ?_⟩
      rw [all_cons, Bool.and_eq_true] at all
      rw [rest all.2, first all.1, unifies_cons, and_assoc]

section

omit [DecidableEq α]

theorem table_new (world : World α) (qcset : Qcset) (v : Var) :
    table (new world qcset).1 (new world qcset).2 v = none := by
  rw [table, new, World.newSubst, World.setSubst]
  dsimp only
  rw [Function.update_self]
  rfl

theorem new_subst (world : World α) (qcset : Qcset) : (new world qcset).1.substs (new world qcset).2 =
    { cloneCnt := 1, shadowAccessCnt := 0, shadowed := none, varToVeqv := [], qcset, isIdem := true } :=
  Function.update_self ..

theorem step_new (world : World α) (qcset : Qcset) (v : Var) :
    step (new world qcset).1 (new world qcset).2 v = .var v := step_of_none (table_new world qcset v)

theorem inv_new (world : World α) (qcset : Qcset) : Inv (new world qcset).1 (new world qcset).2 where
  root := by rw [new_subst]
  isIdem := by rw [new_subst]
  allocated found := absurd ((table_new world qcset _).symm.trans found) nofun
  mem_varLink found := absurd ((table_new world qcset _).symm.trans found) nofun
  nodup found := absurd ((table_new world qcset _).symm.trans found) nofun
  active found := absurd ((table_new world qcset _).symm.trans found) nofun
  value found := absurd ((table_new world qcset _).symm.trans found) nofun
  acyclic := ⟨fun v => ⟨v, fun _ below => absurd (step_new world qcset v) below.1⟩⟩

theorem closed_new (world : World α) (qcset : Qcset) (U : Set Var) :
    ClassClosed (new world qcset).1 (new world qcset).2 U where
  terms v inside w occurs := by
    rw [step_new] at occurs
    obtain rfl := mem_singleton.mp occurs
    exact inside
  mates _ found := absurd ((table_new world qcset _).symm.trans found) nofun

end

/-- The variables of the sides of calls. -/
def callVars (calls : List (Expr α × Expr α)) : Finset Var :=
  (calls.flatMap fun call => call.1.vars ++ call.2.vars).toFinset

omit [DecidableEq α] in
theorem mem_callVars : ∀ call ∈ calls,
    (∀ v ∈ call.1.vars, v ∈ (↑(callVars calls) : Set Var)) ∧ ∀ v ∈ call.2.vars, v ∈ (↑(callVars calls) : Set Var) := by
  intro call mem
  constructor
  · intro v occurs
    exact mem_toFinset.mpr (mem_flatMap.mpr ⟨call, mem, mem_append_left _ occurs⟩)
  · intro v occurs
    exact mem_toFinset.mpr (mem_flatMap.mpr ⟨call, mem, mem_append_right _ occurs⟩)

/-- A class in the value of a class. -/
def DependsOn (world : World α) (subst : Nat) (j i : Nat) : Prop :=
  ∃ v t w, table world subst v = some i ∧ (world.veqvs i).value = some t ∧ w ∈ t.vars ∧ table world subst w = some j

omit [DecidableEq α] in
theorem Inv.dependsOn_wellFounded (inv : Inv world subst) : WellFounded (DependsOn world subst) := by
  have accessible (v : Var) : ∀ i, table world subst v = some i → Acc (DependsOn world subst) i := by
    induction v using inv.acyclic.induction with
    | h v ih =>
      intro i found
      refine ⟨i, fun j ⟨_, t, w, _, value, occurs, found'⟩ => ih w ⟨inv.not_free_of_value found value, ?_⟩ j found'⟩
      rw [step_of_value found value]
      exact occurs
  exact ⟨fun i => ⟨i, fun j ⟨_, _, w, _, _, _, found⟩ => accessible w j found⟩⟩

/-- The classes after any calls, and what applying the substitution does. -/
theorem unifyEach_invariant (world : World α) (qcset : Qcset) (calls : List (Expr α × Expr α)) (o1SubstBlock : Word) :
    ∃ world' results,
      Returns (fun fuel => unifyEach (new world qcset).2 fuel (new world qcset).1 calls) (world', results) ∧
      (∀ v i, table world' (new world qcset).2 v = some i →
        (∀ w, w ∈ (world'.veqvs i).varLink ↔ table world' (new world qcset).2 w = some i) ∧
          (world'.veqvs i).varLink.Nodup) ∧
      WellFounded (DependsOn world' (new world qcset).2) ∧
      ∀ ex, ∃ ex', Returns (fun fuel => apply o1SubstBlock (new world qcset).2 fuel world' ex) (world', ex') ∧
        Returns (fun fuel => apply o1SubstBlock (new world qcset).2 fuel world' ex') (world', ex') := by
  obtain ⟨world', results, returns, spec⟩ := unifyEach_spec (inv_new world qcset)
    (closed_new world qcset ↑(callVars calls)) mem_callVars
  have inv := (spec _ (closed_new world qcset _) mem_callVars).1.inv
  refine ⟨world', results, returns, fun v i found => ⟨inv.mem_varLink found, inv.nodup found⟩,
    inv.dependsOn_wellFounded, fun ex => ⟨_, inv.apply_spec o1SubstBlock ex, ?_⟩⟩
  have again := inv.apply_spec o1SubstBlock (ex.bind (inv.applied o1SubstBlock))
  rwa [inv.applied_applied] at again

omit [DecidableEq α] in
private theorem bind_rename (fixed : ∀ f ∈ ex.symbols, g f = f) :
    (ex.bind fun v => (σ v).rename g) = (ex.bind σ).rename g := by
  rw [Term.rename_bind, Term.rename_eq_self fixed]

omit [DecidableEq α] in
/-- An operator that is in none of the equations is at the top of no value. A solution with another operator in its
place would be one too. -/
theorem not_block_of_solves {θ : Triangular α Word Var} (acyclic : θ.Acyclic)
    (blockFree : ∀ call ∈ calls, o1SubstBlock ∉ call.1.symbols ∧ o1SubstBlock ∉ call.2.symbols)
    (solutions : ∀ σ, θ.SolvesOn Set.univ σ ↔ Unifies σ calls) (v : Var) : isBlock o1SubstBlock (θ v) = false := by
  by_contra blocked
  have solves := Triangular.solvesOn_norm acyclic Set.univ
  have renamed : θ.SolvesOn Set.univ fun v =>
      (θ.norm acyclic v).rename fun f => if f = o1SubstBlock then o1SubstBlock + 1 else f := by
    rw [solutions]
    intro call mem
    have other {ex : Expr α} (free : o1SubstBlock ∉ ex.symbols) :
        ∀ f ∈ ex.symbols, (if f = o1SubstBlock then o1SubstBlock + 1 else f) = f := by
      intro f uses
      exact if_neg fun same : f = o1SubstBlock => free (same ▸ uses)
    rw [bind_rename (other (blockFree call mem).1), bind_rename (other (blockFree call mem).2),
      (solutions _).mp solves call mem]
  cases term : θ v with
  | atom a =>
    rw [term] at blocked
    exact blocked rfl
  | var w =>
    rw [term] at blocked
    exact blocked rfl
  | app f operands =>
    rw [term, isBlock, Bool.not_eq_false, decide_eq_true_iff] at blocked
    have own := renamed v trivial
    have value := solves v trivial
    rw [term, Term.bind_app] at own value
    dsimp only at own
    rw [value, Term.rename_app, if_pos blocked] at own
    injection own with same
    rw [blocked] at same
    exact absurd same (by simp)

/-- Unification finds most general solutions, and fails only where there are none. -/
theorem unify_mostGeneral (world : World α) (qcset : Qcset) (calls : List (Expr α × Expr α)) (o1SubstBlock : Word)
    (blockFree : ∀ call ∈ calls, o1SubstBlock ∉ call.1.symbols ∧ o1SubstBlock ∉ call.2.symbols) :
    ∃ world' results,
      Returns (fun fuel => unifyEach (new world qcset).2 fuel (new world qcset).1 calls) (world', results) ∧
      (results.all id = true →
        (∃ θ : Var → Expr α,
          (∀ ex, Returns (fun fuel => apply o1SubstBlock (new world qcset).2 fuel world' ex) (world', ex.bind θ)) ∧
          Fixes qcset θ ∧ Unifies θ calls ∧
          ∀ σ, Fixes qcset σ → Unifies σ calls → ∀ v, (θ v).bind σ = σ v) ∧
        ∀ ex0 ex1, ∃ world'' unified,
          Returns (fun fuel => unify (new world qcset).2 fuel world' ex0 ex1) (world'', unified) ∧
          (unified = false → ∀ σ, Fixes qcset σ → ¬ Unifies σ (calls ++ [(ex0, ex1)]))) := by
  obtain ⟨world', results, returns, spec⟩ := unifyEach_spec (inv_new world qcset)
    (closed_new world qcset ↑(callVars calls)) mem_callVars
  refine ⟨world', results, returns, fun all => ?_⟩
  obtain ⟨evolves, solutions⟩ := spec Set.univ (closed_new world qcset _) fun _ _ =>
    ⟨fun _ _ => trivial, fun _ _ => trivial⟩
  have inv := evolves.inv
  have passed : (world'.substs (new world qcset).2).qcset = qcset := by
    rw [evolves.qcset, new_subst]
  have start (σ : Var → Expr α) : (step (new world qcset).1 (new world qcset).2).SolvesOn Set.univ σ := by
    intro v _
    rw [step_new, Term.bind_var]
  have exactly (σ : Var → Expr α) : (step world' (new world qcset).2).SolvesOn Set.univ σ ↔ Unifies σ calls := by
    rw [solutions all]
    exact ⟨And.right, fun unifies => ⟨start σ, unifies⟩⟩
  have visible : shown o1SubstBlock world' (new world qcset).2 = step world' (new world qcset).2 :=
    funext fun v => shown_of_not_block (not_block_of_solves inv.acyclic blockFree exactly v)
  have solves : (step world' (new world qcset).2).SolvesOn Set.univ (inv.applied o1SubstBlock) := by
    rw [← visible]
    exact Triangular.solvesOn_norm inv.shown_acyclic Set.univ
  refine ⟨⟨inv.applied o1SubstBlock, inv.apply_spec o1SubstBlock, ?_, (exactly _).mp solves, ?_⟩, ?_⟩
  · intro v passive
    rw [← passed] at passive
    exact Triangular.norm_of_free inv.shown_acyclic
      ((congrFun visible v).trans (step_of_none (inv.table_eq_none_of_not_active passive)))
  · intro σ _ unifies v
    have solves := (exactly σ).mpr unifies
    rw [← visible] at solves
    exact solves.norm_bind inv.shown_acyclic (fun _ _ _ _ => trivial) trivial
  intro ex0 ex1
  obtain ⟨evolves, _⟩ := spec ↑(callVars (calls ++ [(ex0, ex1)])) (closed_new world qcset _)
    fun call member => mem_callVars call (mem_append_left _ member)
  have within := mem_callVars (ex0, ex1) (mem_append_right calls (mem_singleton_self _))
  obtain ⟨world'', unified, returns, spec'⟩ := unify_spec inv evolves.closed within.1 within.2
  refine ⟨world'', unified, returns, fun failed σ fixes unifies => ?_⟩
  obtain ⟨_, _, unsolvable⟩ := spec' Set.univ ⟨fun _ _ _ _ => trivial, fun _ _ _ => trivial⟩ (fun _ _ => trivial)
    fun _ _ => trivial
  refine unsolvable failed σ (by rw [passed]; exact fixes) ?_
    (unifies _ (mem_append_right calls (mem_singleton_self _)))
  exact (exactly σ).mpr fun call member => unifies call (mem_append_left _ member)

/-- A heap without substitutions. -/
def emptyWorld : World Unit where
  substs _ := { cloneCnt := 0, shadowAccessCnt := 0, shadowed := none, varToVeqv := [], qcset := 0, isIdem := false }
  nextSubst := 0
  veqvs _ := { qcode := .u, varLink := [], value := none }
  nextVeqv := 0
  iterOrder := id

/-- A variable and a term with another variable, which is then unified with a constant. -/
def smallCalls : List (Expr Unit × Expr Unit) :=
  [(.var ⟨.u, 0⟩, .app 2 [.var ⟨.u, 1⟩, .var ⟨.u, 2⟩]), (.app 4 [], .var ⟨.u, 1⟩)]

theorem unify_mostGeneral_small : ∃ world results,
    Returns (fun fuel => unifyEach (new emptyWorld 1).2 fuel (new emptyWorld 1).1 smallCalls) (world, results) ∧
      (results.all id = true →
        (∃ θ : Var → Expr Unit,
          (∀ ex, Returns (fun fuel => apply 3 (new emptyWorld 1).2 fuel world ex) (world, ex.bind θ)) ∧
          Fixes 1 θ ∧ Unifies θ smallCalls ∧
          ∀ σ, Fixes 1 σ → Unifies σ smallCalls → ∀ v, (θ v).bind σ = σ v) ∧
        ∀ ex0 ex1, ∃ world' unified,
          Returns (fun fuel => unify (new emptyWorld 1).2 fuel world ex0 ex1) (world', unified) ∧
          (unified = false → ∀ σ, Fixes 1 σ → ¬ Unifies σ (smallCalls ++ [(ex0, ex1)]))) :=
  unify_mostGeneral emptyWorld 1 smallCalls 3 (by decide)

private theorem unifyEach_solves (inv : Inv world subst) (closed : ClassClosed world subst ↑S)
    (within : ∀ call ∈ calls, (∀ v ∈ call.1.vars, v ∈ (↑S : Set Var)) ∧ ∀ v ∈ call.2.vars, v ∈ (↑S : Set Var)) :
    ∃ world' results, Returns (fun fuel => unifyEach subst fuel world calls) (world', results) ∧
      (results.all id = true ↔ ∃ σ, Fixes (world.substs subst).qcset σ ∧ (step world subst).SolvesOn Set.univ σ ∧
        Unifies σ calls) := by
  induction calls generalizing world with
  | nil =>
    refine ⟨world, [], Returns.const _, iff_of_true rfl
      ⟨(step world subst).norm inv.acyclic, fun v passive => ?_, Triangular.solvesOn_norm inv.acyclic _, nofun⟩⟩
    exact Triangular.norm_of_free inv.acyclic (step_of_none (inv.table_eq_none_of_not_active passive))
  | cons call calls ih =>
    obtain ⟨within0, within⟩ := forall_mem_cons.mp within
    obtain ⟨world1, unified, returns, spec⟩ := unify_spec inv closed within0.1 within0.2
    have evolves := (spec S closed within0.1 within0.2).1
    obtain ⟨world2, results, returns', rest⟩ := ih evolves.inv evolves.closed within
    obtain ⟨_, first, fails⟩ := spec Set.univ ⟨fun _ _ _ _ => trivial, fun _ _ _ => trivial⟩ (fun _ _ => trivial)
      fun _ _ => trivial
    refine ⟨world2, unified :: results, returns.both returns' fun fuel done done' => ?_, ?_⟩
    · simp only [unifyEach, done, done', bind_eq_bind, bind_some]
    cases unified with
    | false =>
      refine iff_of_false nofun ?_
      rintro ⟨σ, fixes, solves, unifies⟩
      exact fails rfl σ fixes solves ((unifies_cons call).mp unifies).1
    | true =>
      rw [all_cons, id, Bool.true_and, rest, evolves.qcset]
      exact exists_congr fun σ => and_congr_right fun _ => by rw [first rfl, unifies_cons, and_assoc]

/-- All calls succeed if and only if their equations have a solution, whatever the order of the calls. -/
theorem unifyEach_iff (world : World α) (qcset : Qcset) (calls : List (Expr α × Expr α)) :
    ∃ world' results,
      Returns (fun fuel => unifyEach (new world qcset).2 fuel (new world qcset).1 calls) (world', results) ∧
      (results.all id = true ↔ ∃ σ, Fixes qcset σ ∧ Unifies σ calls) := by
  obtain ⟨world', results, returns, solves⟩ :=
    unifyEach_solves (inv_new world qcset) (closed_new world qcset ↑(callVars calls)) mem_callVars
  refine ⟨world', results, returns, solves.trans (exists_congr fun σ => ?_)⟩
  have start : (step (new world qcset).1 (new world qcset).2).SolvesOn Set.univ σ := by
    intro v _
    rw [step_new, Term.bind_var]
  rw [new_subst, and_iff_right start]

end Calls

end Culibs.Cuex.Subst
