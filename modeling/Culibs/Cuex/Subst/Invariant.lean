import Culibs.Cuex.Subst.Basic
import Culibs.Foundation.Fuel
import Culibs.Foundation.Triangular

namespace Culibs.Cuex.Subst

open Option List

variable {α : Type} {world : World α} {subst veqv i j : Nat} {v w : Var} {U U' : Set Var} {ex t : Expr α}
  {σ : Var → Expr α}

theorem Pmap.find_replace (map : Pmap) (v : Var) (veqv : Nat) (w : Var) :
    (map.replace v veqv).find w = if w = v then some veqv else map.find w := by
  induction map with
  | nil => simp only [replace, find, eq_comm]
  | cons entry rest ih =>
    obtain ⟨key, old⟩ := entry
    rw [replace]
    by_cases here : key = v
    · subst here
      rw [if_pos rfl, find, find]
      by_cases same : w = key
      · rw [if_pos same, if_pos same.symm]
      · rw [if_neg same, if_neg (Ne.symm same), if_neg (Ne.symm same)]
    · rw [if_neg here, find, find, ih]
      by_cases same : key = w
      · subst same
        rw [if_pos rfl, if_neg here, if_pos rfl]
      · rw [if_neg same, if_neg same]

/-- The class of a variable. -/
def table (world : World α) (subst : Nat) (v : Var) : Option Nat := (world.substs subst).varToVeqv.find v

def headVar (veqv : Veqv α) (v : Var) : Var := veqv.varLink.head?.getD v

/-- What replaces a variable: the value of its class, or else the first variable of the class. -/
def step (world : World α) (subst : Nat) : Triangular α Word Var := fun v =>
  match table world subst v with
  | none => .var v
  | some i => (world.veqvs i).value.getD (.var (headVar (world.veqvs i) v))

/-- The classes of a substitution that shadows no other. -/
structure Inv (world : World α) (subst : Nat) : Prop where
  root : (world.substs subst).shadowed = none
  isIdem : (world.substs subst).isIdem = true
  allocated : ∀ {v i}, table world subst v = some i → i < world.nextVeqv
  mem_varLink : ∀ {v i}, table world subst v = some i → ∀ w, w ∈ (world.veqvs i).varLink ↔ table world subst w = some i
  nodup : ∀ {v i}, table world subst v = some i → (world.veqvs i).varLink.Nodup
  active : ∀ {v i}, table world subst v = some i → (world.substs subst).qcset.contains v.qcode = true
  value : ∀ {v i t}, table world subst v = some i → (world.veqvs i).value = some t →
    unifiableVar (world.substs subst).qcset t = none
  acyclic : (step world subst).Acyclic

/-- A set of variables with all that their classes have in common and all in the values. -/
structure ClassClosed (world : World α) (subst : Nat) (U : Set Var) : Prop where
  terms : (step world subst).Closed U
  mates : ∀ {v w i}, v ∈ U → table world subst v = some i → table world subst w = some i → w ∈ U

theorem ClassClosed.inter (closed : ClassClosed world subst U) (closed' : ClassClosed world subst U') :
    ClassClosed world subst (U ∩ U') where
  terms v inside w occurs := ⟨closed.terms v inside.1 w occurs, closed'.terms v inside.2 w occurs⟩
  mates inside found found' := ⟨closed.mates inside.1 found found', closed'.mates inside.2 found found'⟩

theorem ClassClosed.union (closed : ClassClosed world subst U) (closed' : ClassClosed world subst U') :
    ClassClosed world subst (U ∪ U') where
  terms v inside w occurs := inside.imp (closed.terms v · w occurs) (closed'.terms v · w occurs)
  mates inside found found' := inside.imp (closed.mates · found found') (closed'.mates · found found')

theorem cref_root (root : (world.substs subst).shadowed = none) (v : Var) :
    cref world subst v = (world, table world subst v) := by
  rw [cref, crefLoop, table]
  cases (world.substs subst).varToVeqv.find v with
  | none => simp only [root]
  | some i => rfl

theorem step_of_none (absent : table world subst v = none) : step world subst v = .var v := by
  rw [step, absent]

theorem step_of_value (found : table world subst v = some i) (value : (world.veqvs i).value = some t) :
    step world subst v = t := by
  rw [step, found]
  simp only [value, getD_some]

namespace Inv

variable (inv : Inv world subst)

include inv

theorem varLink_eq (found : table world subst v = some i) : ∃ head rest, (world.veqvs i).varLink = head :: rest := by
  have mem := (inv.mem_varLink found v).mpr found
  cases link : (world.veqvs i).varLink with
  | nil =>
    rw [link] at mem
    cases mem
  | cons head rest => exact ⟨head, rest, rfl⟩

theorem step_of_no_value (found : table world subst v = some i) (value : (world.veqvs i).value = none) :
    ∃ head, (world.veqvs i).varLink.head? = some head ∧ table world subst head = some i ∧
      step world subst v = .var head := by
  obtain ⟨head, rest, link⟩ := inv.varLink_eq found
  have mem : head ∈ (world.veqvs i).varLink := by
    rw [link]
    exact .head _
  refine ⟨head, by rw [link]; rfl, (inv.mem_varLink found head).mp mem, ?_⟩
  rw [step, found]
  simp only [value, getD_none, headVar, link, head?_cons, getD_some]

theorem step_mate (found : table world subst v = some i) (found' : table world subst w = some i) :
    step world subst w = step world subst v := by
  obtain ⟨head, rest, link⟩ := inv.varLink_eq found
  rw [step, step, found, found']
  simp only [headVar, link, head?_cons, getD_some]

end Inv

/-- Nothing of a class is reached from an expression. -/
def Apart (world : World α) (subst i : Nat) (ex : Expr α) : Prop :=
  ∃ U, ClassClosed world subst U ∧ (∀ v ∈ ex.vars, v ∈ U) ∧ ∀ v ∈ U, table world subst v ≠ some i

/-- A class is reached from an expression, so that its variables stand for a part of it in every solution. -/
def Inside (world : World α) (subst i : Nat) (ex : Expr α) : Prop :=
  ∀ U σ, ClassClosed world subst U → (∀ v ∈ ex.vars, v ∈ U) → (step world subst).SolvesOn U σ →
    ∀ v, table world subst v = some i → v ∈ U ∧ (σ v).size ≤ (ex.bind σ).size ∧
      (unifiableVar (world.substs subst).qcset ex = none → (σ v).size < (ex.bind σ).size)

/-- The test whether an expression contains a class returns, and without change. -/
def ContainsSpec (world : World α) (subst i : Nat) (ex : Expr α) : Prop :=
  ∃ b, Returns (fun fuel => exContainsVeqv subst i fuel world ex) (world, b) ∧
    if b then Inside world subst i ex else Apart world subst i ex

private theorem apart_none (absent : table world subst v = none) : Apart world subst j (.var v) := by
  refine ⟨{v}, ⟨?_, ?_⟩, ?_, ?_⟩
  · rintro _ rfl w occurs
    rw [step_of_none absent] at occurs
    exact mem_singleton.mp occurs
  · rintro _ w i rfl found
    rw [absent] at found
    cases found
  · intro w occurs
    exact mem_singleton.mp occurs
  · rintro _ rfl
    rw [absent]
    exact nofun

variable {operands : List (Expr α)}

private theorem apart_operands (each : ∀ t ∈ operands, Apart world subst i t) :
    ∃ U, ClassClosed world subst U ∧ (∀ t ∈ operands, ∀ v ∈ t.vars, v ∈ U) ∧ ∀ v ∈ U, table world subst v ≠ some i := by
  induction operands with
  | nil => exact ⟨∅, ⟨nofun, nofun⟩, nofun, nofun⟩
  | cons t operands ih =>
    obtain ⟨U, closed, within, apart⟩ := each t mem_cons_self
    obtain ⟨U', closed', within', apart'⟩ := ih fun s mem => each s (mem_cons_of_mem t mem)
    refine ⟨U ∪ U', closed.union closed', ?_, ?_⟩
    · intro s mem v occurs
      rcases mem_cons.mp mem with rfl | later
      · exact .inl (within v occurs)
      · exact .inr (within' s later v occurs)
    · intro v inside
      exact inside.elim (apart v) (apart' v)

private theorem apart_app (f : Word) (each : ∀ t ∈ operands, Apart world subst i t) :
    Apart world subst i (.app f operands) := by
  obtain ⟨U, closed, within, apart⟩ := apart_operands each
  refine ⟨U, closed, fun v occurs => ?_, apart⟩
  obtain ⟨t, mem, inside⟩ := Term.mem_vars_app.mp occurs
  exact within t mem v inside

private theorem inside_app (f : Word) (mem : t ∈ operands) (inside : Inside world subst i t) :
    Inside world subst i (.app f operands) := by
  intro U σ closed within solves w found
  have part : ∀ v ∈ t.vars, v ∈ U := fun v occurs => within v (Term.mem_vars_app.mpr ⟨t, mem, occurs⟩)
  obtain ⟨mate, bound, _⟩ := inside U σ closed part solves w found
  have smaller : (σ w).size < ((Term.app f operands).bind σ).size := by
    rw [Term.bind_app]
    exact lt_of_le_of_lt bound (Term.size_lt_app (mem_map_of_mem mem))
  exact ⟨mate, le_of_lt smaller, fun _ => smaller⟩

private theorem anyOperand_spec (each : ∀ t ∈ operands, ContainsSpec world subst i t) :
    ∃ b, Returns (fun fuel => anyOperand (exContainsVeqv subst i fuel) world operands) (world, b) ∧
      if b then ∃ t ∈ operands, Inside world subst i t else ∀ t ∈ operands, Apart world subst i t := by
  induction operands with
  | nil => exact ⟨false, Returns.const _, nofun⟩
  | cons t operands ih =>
    obtain ⟨b, returns, spec⟩ := each t mem_cons_self
    cases b with
    | true =>
      refine ⟨true, returns.andThen (Returns.const _) fun fuel done => ?_, t, .head _, spec⟩
      simp [anyOperand, done]
    | false =>
      obtain ⟨b', returns', spec'⟩ := ih fun s mem => each s (mem_cons_of_mem t mem)
      refine ⟨b', returns.andThen returns' fun fuel done => ?_, ?_⟩
      · simp [anyOperand, done]
      · cases b' with
        | true =>
          obtain ⟨s, mem, inside⟩ := spec'
          exact ⟨s, mem_cons_of_mem t mem, inside⟩
        | false => exact forall_mem_cons.mpr ⟨spec, spec'⟩

private theorem contains_of_vars (vars : ∀ v ∈ ex.vars, ContainsSpec world subst i (.var v)) : ContainsSpec world
    subst i ex := by
  induction ex using Term.inductArgs with
  | atom a =>
    refine ⟨false, Returns.step ((Returns.const _).congr fun fuel => rfl), ∅, ⟨nofun, nofun⟩, nofun, nofun⟩
  | var v => exact vars v (mem_singleton_self v)
  | app f operands ih =>
    have each : ∀ t ∈ operands, ContainsSpec world subst i t := fun t mem =>
      ih t mem fun v occurs => vars v (Term.mem_vars_app.mpr ⟨t, mem, occurs⟩)
    obtain ⟨b, returns, spec⟩ := anyOperand_spec each
    refine ⟨b, Returns.step (returns.congr fun fuel => rfl), ?_⟩
    cases b with
    | true =>
      obtain ⟨t, mem, inside⟩ := spec
      exact inside_app f mem inside
    | false => exact apart_app f spec

namespace Inv

variable (inv : Inv world subst)

include inv

theorem not_free_of_value (found : table world subst v = some i) (value : (world.veqvs i).value = some t) :
    ¬ (step world subst).Free v := by
  intro free
  rw [Triangular.Free, step_of_value found value] at free
  have other := inv.value found value
  rw [free, unifiableVar, if_pos (inv.active found)] at other
  cases other

theorem table_eq_none_of_not_active (passive : (world.substs subst).qcset.contains v.qcode = false) :
    table world subst v = none := by
  cases found : table world subst v with
  | none => rfl
  | some i =>
    rw [inv.active found] at passive
    cases passive

private theorem closed_withClass (closed : ClassClosed world subst U)
    (within : ∀ t, (world.veqvs i).value = some t → ∀ v ∈ t.vars, v ∈ U) :
    ClassClosed world subst (U ∪ {w | table world subst w = some i}) where
  terms := by
    intro v inside w occurs
    rcases inside with old | found
    · exact .inl (closed.terms v old w occurs)
    cases value : (world.veqvs i).value with
    | none =>
      obtain ⟨head, _, own, term⟩ := inv.step_of_no_value found value
      rw [term] at occurs
      obtain rfl := mem_singleton.mp occurs
      exact .inr own
    | some t =>
      rw [step_of_value found value] at occurs
      exact .inl (within t value w occurs)
  mates := by
    intro v w k inside found found'
    rcases inside with old | own
    · exact .inl (closed.mates old found found')
    · exact .inr (found'.trans (found.symm.trans own))

private theorem apart_class (found : table world subst v = some i) (other : i ≠ j)
    (value : ∀ t, (world.veqvs i).value = some t → Apart world subst j t) : Apart world subst j (.var v) := by
  obtain ⟨U, closed, within, apart⟩ : ∃ U, ClassClosed world subst U ∧
      (∀ t, (world.veqvs i).value = some t → ∀ v ∈ t.vars, v ∈ U) ∧ ∀ v ∈ U, table world subst v ≠ some j := by
    cases valued : (world.veqvs i).value with
    | none => exact ⟨∅, ⟨nofun, nofun⟩, nofun, nofun⟩
    | some t =>
      obtain ⟨U, closed, within, apart⟩ := value t valued
      refine ⟨U, closed, ?_, apart⟩
      intro t' same
      cases same
      exact within
  refine ⟨_, inv.closed_withClass closed within, ?_, ?_⟩
  · intro w occurs
    obtain rfl := mem_singleton.mp occurs
    exact .inr found
  · intro w inside
    rcases inside with old | own
    · exact apart w old
    · rw [own]
      exact fun same => other (some.inj same)

private theorem inside_own (found : table world subst v = some i) : Inside world subst i (.var v) := by
  intro U σ closed within solves w found'
  have mem := within v (mem_singleton_self v)
  have mate := closed.mates mem found found'
  refine ⟨mate, ?_, ?_⟩
  · rw [Term.bind_var, solves v mem, solves w mate, inv.step_mate found found']
  · rw [unifiableVar, if_pos (inv.active found)]
    exact nofun

private theorem inside_value (found : table world subst v = some i) (value : (world.veqvs i).value = some t)
    (inside : Inside world subst j t) : Inside world subst j (.var v) := by
  intro U σ closed within solves w found'
  have mem := within v (mem_singleton_self v)
  have term := step_of_value found value
  have below : ∀ u ∈ t.vars, u ∈ U := by
    rw [← term]
    exact closed.terms v mem
  obtain ⟨mate, bound, _⟩ := inside U σ closed below solves w found'
  refine ⟨mate, ?_, ?_⟩
  · rw [Term.bind_var, solves v mem, term]
    exact bound
  · rw [unifiableVar, if_pos (inv.active found)]
    exact nofun

private theorem contains_var (value : ∀ k t, table world subst v = some k → (world.veqvs k).value = some t →
    ContainsSpec world subst i t) : ContainsSpec world subst i (.var v) := by
  have looked := cref_root inv.root v
  cases found : table world subst v with
  | none =>
    refine ⟨false, Returns.step ((Returns.const _).congr fun fuel => ?_), apart_none found⟩
    simp only [exContainsVeqv, looked, found]
  | some k =>
    by_cases same : k = i
    · subst same
      refine ⟨true, Returns.step ((Returns.const _).congr fun fuel => ?_), inv.inside_own found⟩
      simp [exContainsVeqv, looked, found]
    cases valued : (world.veqvs k).value with
    | none =>
      refine ⟨false, Returns.step ((Returns.const _).congr fun fuel => ?_), inv.apart_class found same ?_⟩
      · simp only [exContainsVeqv, looked, found, if_neg same, valued]
      · rw [valued]
        exact nofun
    | some t =>
      obtain ⟨b, returns, spec⟩ := value k t found valued
      refine ⟨b, Returns.step (returns.congr fun fuel => ?_), ?_⟩
      · simp only [exContainsVeqv, looked, found, if_neg same, valued]
      · cases b with
        | false =>
          refine inv.apart_class found same fun t' equal => ?_
          rw [valued] at equal
          cases equal
          exact spec
        | true => exact inv.inside_value found valued spec

theorem contains (i : Nat) (ex : Expr α) : ContainsSpec world subst i ex := by
  have each (v : Var) : ContainsSpec world subst i (.var v) := by
    induction v using inv.acyclic.induction with
    | h v ih =>
      refine inv.contains_var fun k t found value => contains_of_vars fun w occurs => ih w ?_
      refine ⟨inv.not_free_of_value found value, ?_⟩
      rw [step_of_value found value]
      exact occurs
  exact contains_of_vars fun v _ => each v

theorem apart_own (found : table world subst v = some i) (value : (world.veqvs i).value = some t) :
    Apart world subst i t := by
  obtain ⟨b, _, spec⟩ := inv.contains i t
  cases b with
  | false => exact spec
  | true =>
    have solves := Triangular.solvesOn_norm inv.acyclic Set.univ
    have all : ClassClosed world subst Set.univ := ⟨fun _ _ _ _ => trivial, fun _ _ _ => trivial⟩
    obtain ⟨_, _, smaller⟩ := spec Set.univ _ all (fun _ _ => trivial) solves v found
    have same := solves v trivial
    rw [step_of_value found value] at same
    exact absurd (smaller (inv.value found value)) (by rw [same]; exact lt_irrefl _)

end Inv

end Culibs.Cuex.Subst
