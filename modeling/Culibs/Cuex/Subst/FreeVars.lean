import Culibs.Cuex.Subst.Runs

namespace Culibs.Cuex.Subst

open List Option

variable {α S : Type} {world : World α} {subst i : Nat} {v w : Var} {ex t : Expr α} {o1SubstBlock : Word}

/-- A callback for some operands in sequence, up to the first for which it is false. -/
def conjOperands (conj : World α → S → Expr α → Option (World α × S × Bool)) (world : World α) (state : S) :
    List (Expr α) → Option (World α × S × Bool)
  | [] => some (world, state, true)
  | operand :: operands => do
    let (world, state, more) ← conj world state operand
    if more then conjOperands conj world state operands else some (world, state, false)

/-- `cuex_subst_free_vars_conj` with a callback that has a state. The first operand comes last. -/
def freeVarsConj (o1SubstBlock : Word) (subst : Nat) (cb : S → Var → S × Bool) :
    Nat → World α → S → Expr α → Option (World α × S × Bool)
  | 0, _, _, _ => none
  | fuel + 1, world, state, ex =>
    match ex with
    | .app _ [] => some (world, state, true)
    | .app _ (first :: operands) => do
      let (world, state, more) ← conjOperands (freeVarsConj o1SubstBlock subst cb fuel) world state operands
      if more then freeVarsConj o1SubstBlock subst cb fuel world state first else some (world, state, false)
    | .var var =>
      if (world.substs subst).qcset.contains var.qcode then
        match cref world subst var with
        | (world, some veqv) =>
          match (world.veqvs veqv).value with
          | some value =>
            if isBlock o1SubstBlock value then some (world, cb state (headVar (world.veqvs veqv) var))
            else freeVarsConj o1SubstBlock subst cb fuel world state value
          | none => some (world, cb state (headVar (world.veqvs veqv) var))
        | (world, none) => some (world, cb state var)
      else some (world, state, true)
    | .atom _ => some (world, state, true)

/-- The first variable of the class of a variable. -/
def primary (world : World α) (subst : Nat) (v : Var) : Var :=
  match table world subst v with
  | none => v
  | some i => headVar (world.veqvs i) v

/-- The class of a variable is bound to a block. -/
def Blocked (world : World α) (subst : Nat) (o1SubstBlock : Word) (v : Var) : Prop :=
  ∃ i value, table world subst v = some i ∧ (world.veqvs i).value = some value ∧ isBlock o1SubstBlock value = true

/-- A callback that is always true. -/
def always (next : S → Var → S) (state : S) (v : Var) : S × Bool := (next state v, true)

/-- The variables for which a callback that is always true is called. -/
def Visits (world : World α) (subst : Nat) (o1SubstBlock : Word) (ex : Expr α) (visits : List Var) : Prop :=
  ∀ (S : Type) (next : S → Var → S) (state : S),
    Returns (fun fuel => freeVarsConj o1SubstBlock subst (always next) fuel world state ex)
      (world, visits.foldl next state, true)

/-- The first variables of the classes of those in an expression that may be substituted. -/
def PrimaryIn (world : World α) (subst : Nat) (ex : Expr α) (w : Var) : Prop :=
  ∃ v ∈ ex.vars, (world.substs subst).qcset.contains v.qcode = true ∧ primary world subst v = w

private theorem primaryIn_var : PrimaryIn world subst (.var v) w ↔
    (world.substs subst).qcset.contains v.qcode = true ∧ primary world subst v = w := by
  exact ⟨fun ⟨_, same, rest⟩ => mem_singleton.mp same ▸ rest, fun rest => ⟨v, mem_singleton_self v, rest⟩⟩

private theorem primaryIn_app :
    PrimaryIn world subst ((Term.app f operands).bind σ) w ↔ ∃ t ∈ operands, PrimaryIn world subst (t.bind σ) w := by
  rw [Term.bind_app]
  constructor
  · rintro ⟨v, occurs, rest⟩
    obtain ⟨_, bound, inside⟩ := Term.mem_vars_app.mp occurs
    obtain ⟨t, mem, rfl⟩ := mem_map.mp bound
    exact ⟨t, mem, v, inside, rest⟩
  · rintro ⟨t, mem, v, inside, rest⟩
    exact ⟨v, Term.mem_vars_app.mpr ⟨_, mem_map_of_mem mem, inside⟩, rest⟩

theorem primary_of_none (absent : table world subst v = none) : primary world subst v = v := by
  rw [primary, absent]

theorem primary_of_table (found : table world subst v = some i) :
    primary world subst v = headVar (world.veqvs i) v := by
  rw [primary, found]

namespace Inv

variable (inv : Inv world subst)

/-- The visited variables are those that the application leaves, up to their classes. -/
def Leaves (inv : Inv world subst) (o1SubstBlock : Word) (ex : Expr α) : Prop :=
  ∃ visits, Visits world subst o1SubstBlock ex visits ∧
    ∀ w, w ∈ visits ↔ PrimaryIn world subst (ex.bind (inv.applied o1SubstBlock)) w

include inv

private theorem leaves_operands (each : ∀ t ∈ operands, inv.Leaves o1SubstBlock t) :
    ∃ visits : List Var, (∀ (S : Type) (next : S → Var → S) (state : S),
        Returns (fun fuel => conjOperands (freeVarsConj o1SubstBlock subst (always next) fuel) world state operands)
          (world, visits.foldl next state, true)) ∧
      ∀ w, w ∈ visits ↔ ∃ t ∈ operands, PrimaryIn world subst (t.bind (inv.applied o1SubstBlock)) w := by
  induction operands with
  | nil =>
    refine ⟨[], fun S next state => Returns.const _, fun w => ?_⟩
    simp
  | cons t operands ih =>
    obtain ⟨first, rest⟩ := forall_mem_cons.mp each
    obtain ⟨visits, returns, leaves⟩ := first
    obtain ⟨visits', returns', leaves'⟩ := ih rest
    refine ⟨visits ++ visits', fun S next state => ?_, fun w => ?_⟩
    · refine (returns S next state).both (returns' S next (visits.foldl next state)) fun fuel done done' => ?_
      simp [conjOperands, done, done', foldl_append]
    · rw [mem_append, leaves, leaves', exists_mem_cons_iff]

theorem leaves_of_vars (vars : ∀ v ∈ ex.vars, inv.Leaves o1SubstBlock (.var v)) : inv.Leaves o1SubstBlock ex := by
  induction ex using Term.inductArgs with
  | atom a =>
    refine ⟨[], fun S next state => Returns.step ((Returns.const _).congr fun fuel => rfl), fun w => ?_⟩
    exact iff_of_false not_mem_nil fun ⟨v, occurs, _⟩ => not_mem_nil occurs
  | var v => exact vars v (mem_singleton_self v)
  | app f operands ih =>
    have each : ∀ t ∈ operands, inv.Leaves o1SubstBlock t := fun t mem =>
      ih t mem fun v occurs => vars v (Term.mem_vars_app.mpr ⟨t, mem, occurs⟩)
    cases operands with
    | nil =>
      refine ⟨[], fun S next state => Returns.step ((Returns.const _).congr fun fuel => rfl), fun w => ?_⟩
      rw [primaryIn_app]
      simp
    | cons first operands =>
      obtain ⟨head, rest⟩ := forall_mem_cons.mp each
      obtain ⟨visits, returns, leaves⟩ := inv.leaves_operands rest
      obtain ⟨visits', returns', leaves'⟩ := head
      refine ⟨visits ++ visits', fun S next state => ?_, fun w => ?_⟩
      · refine Returns.step ((returns S next state).both (returns' S next (visits.foldl next state))
          fun fuel done done' => ?_)
        simp [freeVarsConj, done, done', foldl_append]
      · rw [mem_append, leaves, leaves', primaryIn_app, exists_mem_cons_iff, or_comm]

private theorem leaves_once (leaves : ∀ w', PrimaryIn world subst (inv.applied o1SubstBlock v) w' ↔ w' = w)
    (calls : ∀ (S : Type) (cb : S → Var → S × Bool) (state : S) (fuel : Nat),
      freeVarsConj o1SubstBlock subst cb (fuel + 1) world state (.var v) = some (world, cb state w)) :
    inv.Leaves o1SubstBlock (.var v) := by
  refine ⟨[w], fun S next state => Returns.step ((Returns.const _).congr fun fuel => calls S _ state fuel),
    fun w' => ?_⟩
  rw [mem_singleton, Term.bind_var, leaves]

private theorem leaves_var (value : ∀ k t, table world subst v = some k → (world.veqvs k).value = some t →
    inv.Leaves o1SubstBlock t) : inv.Leaves o1SubstBlock (.var v) := by
  have looked := cref_root inv.root v
  by_cases active : (world.substs subst).qcset.contains v.qcode = true
  · cases found : table world subst v with
    | none =>
      refine inv.leaves_once (w := v) (fun w' => ?_) fun S cb state fuel => ?_
      · rw [inv.applied_of_none found, primaryIn_var, primary_of_none found, and_iff_right active, eq_comm]
      · simp only [freeVarsConj, if_pos active, looked, found]
    | some k =>
      cases valued : (world.veqvs k).value with
      | none =>
        obtain ⟨head, first, mate, same⟩ := inv.applied_of_no_value o1SubstBlock found valued
        refine inv.leaves_once (w := head) (fun w' => ?_) fun S cb state fuel => ?_
        · rw [same, primaryIn_var, and_iff_right (inv.active mate), primary_of_table mate, headVar, first,
            getD_some, eq_comm]
        · simp only [freeVarsConj, if_pos active, looked, found, valued, headVar, first, getD_some]
      | some t =>
        by_cases blocked : isBlock o1SubstBlock t = true
        · refine inv.leaves_once (w := headVar (world.veqvs k) v) (fun w' => ?_) fun S cb state fuel => ?_
          · rw [inv.applied_of_block found valued blocked, primaryIn_var, and_iff_right active,
              primary_of_table found, eq_comm]
          · simp only [freeVarsConj, if_pos active, looked, found, valued, if_pos blocked]
        · obtain ⟨visits, returns, leaves⟩ := value k t found valued
          refine ⟨visits, fun S next state => Returns.step ((returns S next state).congr fun fuel => ?_), fun w => ?_⟩
          · simp only [freeVarsConj, if_pos active, looked, found, valued, if_neg blocked]
          · rw [leaves, Term.bind_var, inv.applied_of_value found valued (Bool.eq_false_iff.mpr blocked)]
  · have absent := inv.table_eq_none_of_not_active (Bool.eq_false_iff.mpr active)
    refine ⟨[], fun S next state => Returns.step ((Returns.const _).congr fun fuel => ?_), fun w => ?_⟩
    · simp only [freeVarsConj, if_neg active, foldl_nil]
    · rw [Term.bind_var, inv.applied_of_none absent, primaryIn_var]
      exact iff_of_false not_mem_nil fun both => active both.1

theorem leaves (o1SubstBlock : Word) (ex : Expr α) : inv.Leaves o1SubstBlock ex := by
  have each (v : Var) : inv.Leaves o1SubstBlock (.var v) := by
    induction v using inv.acyclic.induction with
    | h v ih =>
      refine inv.leaves_var fun k t found value => inv.leaves_of_vars fun w occurs => ih w ?_
      refine ⟨inv.not_free_of_value found value, ?_⟩
      rw [step_of_value found value]
      exact occurs
  exact inv.leaves_of_vars fun v _ => each v

/-- What is left is the first variable of its class, except where a block keeps it. -/
theorem primary_of_left (occurs : v ∈ (ex.bind (inv.applied o1SubstBlock)).vars)
    (visible : ¬ Blocked world subst o1SubstBlock v) : primary world subst v = v := by
  obtain ⟨u, _, inside⟩ := Term.mem_vars_bind.mp occurs
  have free : shown o1SubstBlock world subst v = .var v := Triangular.free_of_mem_norm inv.shown_acyclic inside
  cases found : table world subst v with
  | none => exact primary_of_none found
  | some i =>
    cases valued : (world.veqvs i).value with
    | none =>
      obtain ⟨head, first, _, term⟩ := inv.step_of_no_value found valued
      rw [shown, term] at free
      obtain rfl := Term.var.inj free
      rw [primary_of_table found, headVar, first, getD_some]
    | some t =>
      have shows : isBlock o1SubstBlock t = false :=
        Bool.eq_false_iff.mpr fun blocked => visible ⟨i, t, found, valued, blocked⟩
      have term := step_of_value found valued
      rw [shown_of_not_block (by rw [term]; exact shows)] at free
      exact absurd free (inv.not_free_of_value found valued)

end Inv

section Calls

variable [DecidableEq α]

/-- After any calls of `cuex_subst_unify`, the variables visited for an expression are the first ones of the classes
of those that are left in it, and without blocks these variables themselves. -/
theorem freeVarsConj_left (world : World α) (qcset : Qcset) (calls : List (Expr α × Expr α)) (o1SubstBlock : Word) :
    ∃ world' results,
      Returns (fun fuel => unifyEach (new world qcset).2 fuel (new world qcset).1 calls) (world', results) ∧
      ∀ ex, ∃ ex' visits, Returns (fun fuel => apply o1SubstBlock (new world qcset).2 fuel world' ex) (world', ex') ∧
        Visits world' (new world qcset).2 o1SubstBlock ex visits ∧
        (∀ w, w ∈ visits ↔
          ∃ v ∈ ex'.vars, qcset.contains v.qcode = true ∧ primary world' (new world qcset).2 v = w) ∧
        ((∀ v ∈ ex'.vars, ¬ Blocked world' (new world qcset).2 o1SubstBlock v) →
          ∀ w, w ∈ visits ↔ w ∈ ex'.vars ∧ qcset.contains w.qcode = true) := by
  obtain ⟨world', results, returns, spec⟩ := unifyEach_spec (inv_new world qcset)
    (closed_new world qcset ↑(callVars calls)) mem_callVars
  have evolves := (spec _ (closed_new world qcset _) mem_callVars).1
  have passed : (world'.substs (new world qcset).2).qcset = qcset := by
    rw [evolves.qcset, new_subst]
  refine ⟨world', results, returns, fun ex => ?_⟩
  obtain ⟨visits, visited, leaves⟩ := evolves.inv.leaves o1SubstBlock ex
  have left : ∀ w, w ∈ visits ↔ ∃ v ∈ (ex.bind (evolves.inv.applied o1SubstBlock)).vars,
      qcset.contains v.qcode = true ∧ primary world' (new world qcset).2 v = w := by
    intro w
    rw [leaves, PrimaryIn, passed]
  refine ⟨_, visits, evolves.inv.apply_spec o1SubstBlock ex, visited, left, fun visible w => ?_⟩
  rw [left]
  constructor
  · rintro ⟨v, occurs, active, rfl⟩
    rw [evolves.inv.primary_of_left occurs (visible v occurs)]
    exact ⟨occurs, active⟩
  · rintro ⟨occurs, active⟩
    exact ⟨w, occurs, active, evolves.inv.primary_of_left occurs (visible w occurs)⟩

end Calls

/-- The heap after unifying the variables with each other and the first one with a block. -/
def blockedPair : World Unit :=
  ((unifyEach 0 9 (new emptyWorld 1).1 [(.var ⟨.u, 0⟩, .var ⟨.u, 1⟩), (.var ⟨.u, 0⟩, .app 3 [.var ⟨.u, 2⟩])]).map
    Prod.fst).getD emptyWorld

/-- The first variable is left, and the second one is visited. -/
theorem freeVarsConj_blockedPair : ¬ ∃ ex' visited,
    Returns (fun fuel => apply 3 0 fuel blockedPair (.var ⟨.u, 0⟩)) (blockedPair, ex') ∧
    Returns (fun fuel => freeVarsConj 3 0 (always fun seen v => v :: seen) fuel blockedPair [] (.var ⟨.u, 0⟩))
      (blockedPair, visited, true) ∧
    ∀ w, w ∈ visited ↔ w ∈ ex'.vars ∧ Qcset.contains 1 w.qcode = true := by
  rintro ⟨ex', visited, applies, visits, same⟩
  have applied : Returns (fun fuel => apply 3 0 fuel blockedPair (.var ⟨.u, 0⟩)) (blockedPair, .var ⟨.u, 0⟩) :=
    Returns.step ((Returns.const _).congr fun fuel => rfl)
  have calls : Returns
      (fun fuel => freeVarsConj 3 0 (always fun seen v => v :: seen) fuel blockedPair [] (.var ⟨.u, 0⟩))
      (blockedPair, [⟨.u, 1⟩], true) := Returns.step ((Returns.const _).congr fun fuel => rfl)
  have left := applies.unique applied
  have called := visits.unique calls
  simp only [Prod.mk.injEq, true_and, and_true] at left called
  subst left called
  exact absurd (same ⟨.u, 1⟩) (by decide)

end Culibs.Cuex.Subst
