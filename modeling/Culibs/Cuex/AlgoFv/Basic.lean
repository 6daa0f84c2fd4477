import Culibs.Cuex.Subst.Basic
import Mathlib.Data.Finset.Basic
import Mathlib.Data.Finset.Lattice.Lemmas

/-! Free variables of expressions with scoping operators, from `cuex/algo_fv.c`. -/

namespace Culibs.Cuex.AlgoFv

open List Finset

/-- A variable, or any other label of a labelling. -/
inductive Name (α : Type) where
  | var (v : Var)
  | other (object : α)
deriving DecidableEq

/-- Expressions. An operator of `opn` is not in the group of scoping operators. The first operand of a scoping operator
is a variable for `scoping` and a labelling for `scopingLabels`. Labels and values, and the elements of any other
compound, are in the order of the iteration. An `object` is nothing of all these. -/
inductive Scoped (α : Type) where
  | var (v : Var)
  | object (object : α)
  | opn (opr : Word) (operands : List (Scoped α))
  | scoping (opr : Word) (var : Var) (operands : List (Scoped α))
  | scopingLabels (opr : Word) (labels : List (Name α)) (values operands : List (Scoped α))
  | labelling (labels : List (Name α)) (values : List (Scoped α))
  | compound (type : Word) (elements : List (Scoped α))

@[elab_as_elim] theorem Scoped.inductArgs {α : Type} {P : Scoped α → Prop} (var : ∀ v, P (.var v))
    (object : ∀ a, P (.object a)) (opn : ∀ opr operands, (∀ e ∈ operands, P e) → P (.opn opr operands))
    (scoping : ∀ opr v operands, (∀ e ∈ operands, P e) → P (.scoping opr v operands))
    (scopingLabels : ∀ opr labels values operands, (∀ e ∈ values, P e) → (∀ e ∈ operands, P e) →
      P (.scopingLabels opr labels values operands))
    (labelling : ∀ labels values, (∀ e ∈ values, P e) → P (.labelling labels values))
    (compound : ∀ type elements, (∀ e ∈ elements, P e) → P (.compound type elements)) (e : Scoped α) : P e :=
  @Scoped.rec α P (fun args => ∀ e ∈ args, P e) var object opn scoping scopingLabels labelling compound
    (fun _ mem => nomatch mem) (fun _ _ first rest => forall_mem_cons.mpr ⟨first, rest⟩) e

variable {α S : Type} [DecidableEq α]

/-- A callback that has a state. -/
abbrev Callback (α S : Type) := S → Var → Finset (Name α) → S × Bool

/-- The loop that inserts the labels, with those that were inserted last first. -/
def insertLabels (labels : List (Name α)) (excl : Finset (Name α)) (unshadowedVars : List (Name α)) :
    Finset (Name α) × List (Name α) :=
  match labels with
  | [] => (excl, unshadowedVars)
  | v :: labels =>
    if v ∈ excl then insertLabels labels excl unshadowedVars
    else insertLabels labels (insert v excl) (v :: unshadowedVars)

/-- The loop that erases what has been inserted. -/
def eraseLabels (unshadowedVars : List (Name α)) (excl : Finset (Name α)) : Finset (Name α) :=
  unshadowedVars.foldl erase excl

mutual

/-- `_free_vars_conj`, as the result with the state and the set after the call. -/
def freeVarsConjCore (qcset : Qcset) (f : Callback α S) (e : Scoped α) (state : S)
    (excl : Finset (Name α)) : Bool × S × Finset (Name α) :=
  match e with
  | .scopingLabels _ labels values operands =>
    let (excl, unshadowedVars) := insertLabels labels excl []
    let (all, state, excl) := freeVarsConjEach qcset f values state excl
    let (all, state, excl) :=
      if all then freeVarsConjEach qcset f operands state excl else (false, state, excl)
    (all, state, eraseLabels unshadowedVars excl)
  | .scoping _ var operands =>
    let notShadowed := decide (.var var ∉ excl)
    let (all, state, excl) := freeVarsConjEach qcset f operands state (insert (.var var) excl)
    (all, state, if notShadowed then excl.erase (.var var) else excl)
  | .opn _ operands => freeVarsConjEach qcset f operands state excl
  | .labelling _ values => freeVarsConjEach qcset f values state excl
  | .compound _ elements => freeVarsConjEach qcset f elements state excl
  | .var v =>
    if qcset.contains v.qcode ∧ .var v ∉ excl then
      let (state, more) := f state v excl
      (more, state, excl)
    else (true, state, excl)
  | .object _ => (true, state, excl)

/-- The loops over operands, values and elements, up to the first for which the result is false. -/
def freeVarsConjEach (qcset : Qcset) (f : Callback α S) (operands : List (Scoped α))
    (state : S) (excl : Finset (Name α)) : Bool × S × Finset (Name α) :=
  match operands with
  | [] => (true, state, excl)
  | e :: operands =>
    let (all, state, excl) := freeVarsConjCore qcset f e state excl
    if all then freeVarsConjEach qcset f operands state excl else (false, state, excl)

end

/-- `cuex_free_vars_conj`. Without a set, an empty one is made, which is no more seen afterwards. -/
def freeVarsConj (qcset : Qcset) (f : Callback α S) (e : Scoped α) (state : S)
    (excl : Option (Finset (Name α))) : Bool × S × Option (Finset (Name α)) :=
  let (all, state, after) := freeVarsConjCore qcset f e state (excl.getD ∅)
  (all, state, excl.map fun _ => after)

mutual

/-- The occurrences of variables that are neither excluded nor bound, from left to right, with what is excluded or bound
there. -/
def occurrences (qcset : Qcset) (e : Scoped α) (bound : Finset (Name α)) : List (Var × Finset (Name α)) :=
  match e with
  | .scopingLabels _ labels values operands =>
    occurrencesEach qcset values (bound ∪ labels.toFinset) ++ occurrencesEach qcset operands (bound ∪ labels.toFinset)
  | .scoping _ var operands => occurrencesEach qcset operands (insert (.var var) bound)
  | .opn _ operands => occurrencesEach qcset operands bound
  | .labelling _ values => occurrencesEach qcset values bound
  | .compound _ elements => occurrencesEach qcset elements bound
  | .var v => if qcset.contains v.qcode ∧ .var v ∉ bound then [(v, bound)] else []
  | .object _ => []

def occurrencesEach (qcset : Qcset) (operands : List (Scoped α)) (bound : Finset (Name α)) :
    List (Var × Finset (Name α)) :=
  match operands with
  | [] => []
  | e :: operands => occurrences qcset e bound ++ occurrencesEach qcset operands bound

end

/-- Calls up to the first for which the result is false. -/
def callEach (f : Callback α S) (state : S) : List (Var × Finset (Name α)) → Bool × S
  | [] => (true, state)
  | (v, bound) :: calls =>
    let (state, more) := f state v bound
    if more then callEach f state calls else (false, state)

omit [DecidableEq α] in
theorem callEach_append (f : Callback α S) (state : S)
    (calls calls' : List (Var × Finset (Name α))) : callEach f state (calls ++ calls') =
      if (callEach f state calls).1 then callEach f (callEach f state calls).2 calls'
      else (false, (callEach f state calls).2) := by
  induction calls generalizing state with
  | nil => rfl
  | cons call calls ih =>
    obtain ⟨v, bound⟩ := call
    rw [cons_append, callEach, callEach]
    cases result : f state v bound with
    | mk state' more =>
      cases more with
      | true => exact ih state'
      | false => rfl

theorem insertLabels_spec (labels : List (Name α)) (excl : Finset (Name α)) (unshadowedVars : List (Name α)) :
    (insertLabels labels excl unshadowedVars).1 = excl ∪ labels.toFinset ∧
      (insertLabels labels excl unshadowedVars).2.toFinset = (labels.toFinset \ excl) ∪ unshadowedVars.toFinset := by
  induction labels generalizing excl unshadowedVars with
  | nil => simp [insertLabels]
  | cons v labels ih =>
    rw [insertLabels]
    by_cases shadowed : v ∈ excl
    · rw [if_pos shadowed, (ih _ _).1, (ih _ _).2, toFinset_cons, union_insert, insert_eq_of_mem
        (mem_union_left _ shadowed), insert_sdiff_of_mem _ shadowed]
      exact ⟨rfl, rfl⟩
    · rw [if_neg shadowed, (ih _ _).1, (ih _ _).2]
      refine ⟨by rw [toFinset_cons, union_insert, insert_union], ?_⟩
      ext w
      by_cases same : w = v
      · simp [same, shadowed]
      · simp [same]

private theorem eraseLabels_eq (unshadowedVars : List (Name α)) (excl : Finset (Name α)) :
    eraseLabels unshadowedVars excl = excl \ unshadowedVars.toFinset := by
  induction unshadowedVars generalizing excl with
  | nil => simp [eraseLabels]
  | cons v unshadowedVars ih =>
    rw [eraseLabels, foldl_cons, ← eraseLabels, ih, toFinset_cons, sdiff_insert, erase_sdiff_comm]

/-- Erasing undoes the insertion of labels, also of those that were there or come twice. -/
theorem eraseLabels_insertLabels (labels : List (Name α)) (excl : Finset (Name α)) :
    eraseLabels (insertLabels labels excl []).2 (insertLabels labels excl []).1 = excl := by
  rw [eraseLabels_eq, (insertLabels_spec labels excl []).1, (insertLabels_spec labels excl []).2]
  ext w
  simp
  tauto

/-- The result, the state and the set after a traversal that makes some calls. -/
def Makes (f : Callback α S) (state : S) (excl : Finset (Name α))
    (calls : List (Var × Finset (Name α))) (result : Bool × S × Finset (Name α)) : Prop :=
  result = ((callEach f state calls).1, (callEach f state calls).2, excl)

theorem freeVarsConjEach_makes {qcset : Qcset} {f : Callback α S} {operands : List (Scoped α)}
    {excl : Finset (Name α)} (each : ∀ e ∈ operands, ∀ state,
      Makes f state excl (occurrences qcset e excl) (freeVarsConjCore qcset f e state excl)) (state : S) :
    Makes f state excl (occurrencesEach qcset operands excl) (freeVarsConjEach qcset f operands state excl) := by
  induction operands generalizing state with
  | nil => rfl
  | cons e operands ih =>
    obtain ⟨own, others⟩ := forall_mem_cons.mp each
    rw [Makes, freeVarsConjEach, occurrencesEach, own state, callEach_append]
    cases more : (callEach f state (occurrences qcset e excl)).1 with
    | true =>
      exact ih others _
    | false => rfl

theorem freeVarsConjCore_makes (qcset : Qcset) (f : Callback α S) (e : Scoped α) (state : S)
    (excl : Finset (Name α)) :
    Makes f state excl (occurrences qcset e excl) (freeVarsConjCore qcset f e state excl) := by
  induction e using Scoped.inductArgs generalizing state excl with
  | var v =>
    rw [Makes, freeVarsConjCore, occurrences]
    by_cases called : qcset.contains v.qcode ∧ .var v ∉ excl
    · rw [if_pos called, if_pos called, callEach]
      cases result : f state v excl with
      | mk state' more => cases more <;> rfl
    · rw [if_neg called, if_neg called]
      rfl
  | object a => rfl
  | opn opr operands ih =>
    exact freeVarsConjEach_makes (fun e mem state => ih e mem state excl) state
  | scoping opr v operands ih =>
    rw [Makes, freeVarsConjCore, occurrences, freeVarsConjEach_makes fun e mem state => ih e mem state _]
    by_cases shadowed : .var v ∈ excl
    · simp [shadowed, insert_eq_of_mem]
    · simp [shadowed]
  | scopingLabels opr labels values operands ihv iho =>
    have restored := eraseLabels_insertLabels labels excl
    rw [Makes, freeVarsConjCore, occurrences, callEach_append]
    cases inserted : insertLabels labels excl [] with
    | mk within unshadowedVars =>
      have first := (insertLabels_spec labels excl []).1
      rw [inserted] at first restored
      dsimp only at first restored ⊢
      subst first
      rw [freeVarsConjEach_makes fun e mem state => ihv e mem state _]
      cases more : (callEach f state (occurrencesEach qcset values (excl ∪ labels.toFinset))).1 with
      | true =>
        simp only [if_true]
        rw [freeVarsConjEach_makes fun e mem state => iho e mem state _, restored]
      | false => simp [restored]
  | labelling labels values ih =>
    exact freeVarsConjEach_makes (fun e mem state => ih e mem state excl) state
  | compound type elements ih =>
    exact freeVarsConjEach_makes (fun e mem state => ih e mem state excl) state

/-- The callback is called for the free occurrences in order, and the set is as before on every exit. -/
theorem freeVarsConj_calls (qcset : Qcset) (f : Callback α S) (e : Scoped α) (state : S)
    (excl : Option (Finset (Name α))) : freeVarsConj qcset f e state excl =
      ((callEach f state (occurrences qcset e (excl.getD ∅))).1,
        (callEach f state (occurrences qcset e (excl.getD ∅))).2, excl) := by
  rw [freeVarsConj, freeVarsConjCore_makes]
  cases excl <;> rfl

end Culibs.Cuex.AlgoFv
