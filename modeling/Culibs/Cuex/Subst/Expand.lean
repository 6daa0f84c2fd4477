import Culibs.Cuex.Subst.Runs

namespace Culibs.Cuex.Subst

open List Option

variable {α : Type} {V : Set Var} {world world' : World α} {subst fuel : Nat} {look : Var → Option (Veqv α)}
  {v w : Var} {ex r t : Expr α} {veqv : Veqv α} {o1SubstBlock : Word}

/-- `cuexP_subst_expand`, which is `cuex_subst_expand`. -/
def expand (o1SubstBlock : Word) (subst fuel : Nat) (world : World α) (ex : Expr α) : Option (World α × Expr α) :=
  match ex with
  | .var var =>
    match cref world subst var with
    | (world, none) => some (world, ex)
    | (world, some vq) =>
      match (world.veqvs vq).value with
      | some value => if isBlock o1SubstBlock value then some (world, ex) else some (world, value)
      | none => some (world, ((world.veqvs vq).varLink.head?.map .var).getD ex)
  | .app opr operands => do
    let (world, operands) ← tranOperands (apply o1SubstBlock subst fuel) world operands
    some (world, .app opr operands)
  | .atom _ => some (world, ex)

/-- The class that a lookup shows. -/
def classAt (world : World α) (subst : Nat) (v : Var) : Option (Veqv α) :=
  (cref world subst v).2.map (cref world subst v).1.veqvs

/-- The variables in the value of a variable, where it has one that is no block. -/
def valueVars (o1SubstBlock : Word) (look : Var → Option (Veqv α)) (v : Var) : List Var :=
  match look v with
  | none => []
  | some veqv =>
    match veqv.value with
    | none => []
    | some value => if isBlock o1SubstBlock value then [] else value.vars

/-- The heap after a lookup. In a clone it counts, and it may merge. -/
def lookedUp (subst : Nat) (world : World α) (v : Var) : World α := (cref world subst v).1

/-- The heaps after lookups of some variables. -/
inductive Looked (subst : Nat) (V : Set Var) (world : World α) : World α → Prop where
  | refl : Looked subst V world world
  | look {world' : World α} {v : Var} (before : Looked subst V world world') (mem : v ∈ V) :
    Looked subst V world (lookedUp subst world' v)

/-- Whatever is looked up of the variables, and of those in their values, the lookups show the same classes. Each
variable of a class has this class. -/
structure Steady (o1SubstBlock : Word) (world : World α) (subst : Nat) (V : Set Var) (look : Var → Option (Veqv α)) :
    Prop where
  same : ∀ world', Looked subst V world world' → ∀ v ∈ V, classAt world' subst v = look v
  values : ∀ v ∈ V, ∀ w ∈ valueVars o1SubstBlock look v, w ∈ V
  mates : ∀ v ∈ V, ∀ veqv, look v = some veqv → ∀ w ∈ veqv.varLink, look w = some veqv

/-- Lookups of these variables, one after another, show these classes. -/
def Stays (subst : Nat) (look : Var → Option (Veqv α)) : World α → List Var → Prop
  | _, [] => True
  | world, v :: vars => classAt world subst v = look v ∧ Stays subst look (lookedUp subst world v) vars

private theorem classAt_root (root : (world.substs subst).shadowed = none) (v : Var) :
    classAt world subst v = (table world subst v).map world.veqvs := by
  rw [classAt, cref_root root v]

/-- A substitution that shadows no other shows the classes of its table. -/
theorem steady_root (root : (world.substs subst).shadowed = none)
    (mates : ∀ v i, table world subst v = some i → ∀ w ∈ (world.veqvs i).varLink, table world subst w = some i) :
    Steady o1SubstBlock world subst Set.univ (classAt world subst) where
  same world' looked v _ := by
    have stays : world' = world := by
      induction looked with
      | refl => rfl
      | look _ _ ih => rw [ih, lookedUp, cref_root root]
    rw [stays]
  values _ _ w _ := Set.mem_univ w
  mates v _ veqv shows w mem := by
    rw [classAt_root root] at shows ⊢
    obtain ⟨i, found, rfl⟩ := map_eq_some_iff.mp shows
    rw [mates v i found w mem, map_some]

/-- What a single expansion puts in place of a variable. -/
def once (o1SubstBlock : Word) (look : Var → Option (Veqv α)) (v : Var) : Expr α :=
  match look v with
  | none => .var v
  | some veqv =>
    match veqv.value with
    | some value => if isBlock o1SubstBlock value then .var v else value
    | none => .var (headVar veqv v)

/-- An unbound variable, a blocked one, or the first one of a class without value. -/
def Settled (o1SubstBlock : Word) (look : Var → Option (Veqv α)) (v : Var) : Prop :=
  ∀ veqv, look v = some veqv →
    match veqv.value with
    | some value => isBlock o1SubstBlock value = true
    | none => headVar veqv v = v

/-- The values of these variables have no variables that stand for anything else. -/
def ValuesSettled (o1SubstBlock : Word) (look : Var → Option (Veqv α)) (vars : List Var) : Prop :=
  ∀ v ∈ vars, ∀ w ∈ valueVars o1SubstBlock look v, Settled o1SubstBlock look w

/-- For an operation, the lookups of the variables and of those in their values show what they show at the time of the
call, and the values need no further replacement. -/
def ExpandsOnce (o1SubstBlock : Word) (world : World α) (subst : Nat) : Expr α → Prop
  | .app opr operands =>
    let look := classAt world subst
    let vars := (Term.app opr operands : Expr α).vars
    Stays subst look world (vars.flatMap fun v => v :: valueVars o1SubstBlock look v) ∧ ValuesSettled o1SubstBlock look vars
  | _ => True

/-- The variables that a lookup resolves, to themselves or to the first one of a class. -/
def Resting (o1SubstBlock : Word) (look : Var → Option (Veqv α)) (v : Var) : Prop :=
  ∀ veqv value, look v = some veqv → veqv.value = some value → isBlock o1SubstBlock value = true

/-- What the application gives, with the classes instead of lookups. -/
def resolved (o1SubstBlock : Word) (look : Var → Option (Veqv α)) : Nat → Expr α → Option (Expr α)
  | 0, _ => none
  | fuel + 1, ex =>
    match ex with
    | .var v =>
      match look v with
      | none => some (.var v)
      | some veqv =>
        match veqv.value with
        | some value => if isBlock o1SubstBlock value then some (.var v) else resolved o1SubstBlock look fuel value
        | none => some (.var (headVar veqv v))
    | .app f operands => (operands.mapM (resolved o1SubstBlock look fuel)).map (.app f)
    | .atom a => some (.atom a)

def Resolves (o1SubstBlock : Word) (look : Var → Option (Veqv α)) (ex r : Expr α) : Prop :=
  ∃ fuel, resolved o1SubstBlock look fuel ex = some r

variable {operands rs : List (Expr α)}

theorem mapM_eq_some :
    operands.mapM f = some rs ↔ List.Forall₂ (fun t r => f t = some r) operands rs := by
  induction operands generalizing rs with
  | nil => simp [eq_comm]
  | cons t operands ih =>
    rw [mapM_cons, bind_eq_bind, bind_eq_some_iff, forall₂_cons_left_iff]
    refine exists_congr fun r => ?_
    simp only [bind_eq_bind, bind_eq_some_iff, ih, Option.pure_def, Option.some.injEq]
    tauto

theorem resolved_mono (le : fuel ≤ fuel') (done : resolved o1SubstBlock look fuel ex = some r) :
    resolved o1SubstBlock look fuel' ex = some r := by
  induction fuel generalizing fuel' ex r with
  | zero => cases done
  | succ fuel ih =>
    obtain ⟨fuel', rfl⟩ := Nat.exists_eq_add_of_le' (Nat.le_of_add_left_le le)
    have le := le_of_add_le_add_right le
    cases ex with
    | atom a => exact done
    | app f operands =>
      rw [resolved, map_eq_some_iff] at done ⊢
      obtain ⟨rs, each, same⟩ := done
      exact ⟨rs, mapM_eq_some.mpr ((mapM_eq_some.mp each).imp fun t r => ih le), same⟩
    | var v =>
      rw [resolved] at done ⊢
      split at done
      · exact done
      · split at done
        · split at done
          · next blocked => rwa [if_pos blocked]
          · next visible =>
            rw [if_neg visible]
            exact ih le done
        · exact done

theorem resolves_operands :
    (∃ fuel, operands.mapM (resolved o1SubstBlock look fuel) = some rs) ↔
      Forall₂ (Resolves o1SubstBlock look) operands rs := by
  simp only [mapM_eq_some]
  constructor
  · exact fun ⟨fuel, each⟩ => each.imp fun t r done => ⟨fuel, done⟩
  intro each
  induction each with
  | nil => exact ⟨0, .nil⟩
  | cons first _ ih =>
    obtain ⟨fuel, done⟩ := first
    obtain ⟨fuel', rest⟩ := ih
    exact ⟨max fuel fuel', .cons (resolved_mono (le_max_left ..) done)
      (rest.imp fun t r => resolved_mono (le_max_right ..))⟩

private theorem resolves_app :
    Resolves o1SubstBlock look (.app f operands) r ↔
      ∃ rs, Forall₂ (Resolves o1SubstBlock look) operands rs ∧ .app f rs = r := by
  simp only [← resolves_operands]
  constructor
  · rintro ⟨_ | fuel, done⟩
    · cases done
    · obtain ⟨rs, each, same⟩ := map_eq_some_iff.mp done
      exact ⟨rs, ⟨fuel, each⟩, same⟩
  · exact fun ⟨rs, ⟨fuel, each⟩, same⟩ => ⟨fuel + 1, map_eq_some_iff.mpr ⟨rs, each, same⟩⟩

variable {value : Expr α}

theorem resolved_value (shows : look v = some veqv) (valued : veqv.value = some value)
    (visible : isBlock o1SubstBlock value = false) (fuel : Nat) :
    resolved o1SubstBlock look (fuel + 1) (.var v) = resolved o1SubstBlock look fuel value := by
  simp [resolved, shows, valued, visible]

theorem resolved_resting (resting : Resting o1SubstBlock look v) (fuel : Nat) :
    resolved o1SubstBlock look (fuel + 1) (.var v) = some (once o1SubstBlock look v) := by
  rw [resolved, once]
  cases shows : look v with
  | none => rfl
  | some veqv =>
    cases valued : veqv.value with
    | none => simp only [valued]
    | some value => simp only [valued, if_pos (resting veqv value shows valued)]

/-- A variable resolves like the value of its class, or else is replaced once. -/
theorem resolves_of_value (shows : look v = some veqv) (valued : veqv.value = some value)
    (visible : isBlock o1SubstBlock value = false) :
    Resolves o1SubstBlock look (.var v) r ↔ Resolves o1SubstBlock look value r := by
  have unfolded := resolved_value shows valued visible
  constructor
  · rintro ⟨_ | fuel, done⟩
    · cases done
    · exact ⟨fuel, (unfolded fuel).symm.trans done⟩
  · exact fun ⟨fuel, done⟩ => ⟨fuel + 1, (unfolded fuel).trans done⟩

theorem resolves_of_resting (resting : Resting o1SubstBlock look v) :
    Resolves o1SubstBlock look (.var v) r ↔ r = once o1SubstBlock look v := by
  constructor
  · rintro ⟨_ | fuel, done⟩
    · cases done
    · exact some.inj (done.symm.trans (resolved_resting resting fuel))
  · rintro rfl
    exact ⟨1, resolved_resting resting 0⟩

theorem exists_value (moving : ¬ Resting o1SubstBlock look v) : ∃ veqv value, look v = some veqv ∧
    veqv.value = some value ∧ isBlock o1SubstBlock value = false := by
  simpa only [Resting, not_forall, exists_prop, Bool.not_eq_true] using moving

theorem once_of_value (shows : look v = some veqv) (valued : veqv.value = some value)
    (visible : isBlock o1SubstBlock value = false) : once o1SubstBlock look v = value := by
  rw [once]
  simp [shows, valued, visible]

theorem valueVars_of_value (shows : look v = some veqv) (valued : veqv.value = some value)
    (visible : isBlock o1SubstBlock value = false) : valueVars o1SubstBlock look v = value.vars := by
  simp [valueVars, shows, valued, visible]

theorem valueVars_of_resting (resting : Resting o1SubstBlock look v) : valueVars o1SubstBlock look v = [] := by
  rw [valueVars]
  cases shows : look v with
  | none => rfl
  | some veqv =>
    cases valued : veqv.value with
    | none => simp only [valued]
    | some value => simp only [valued, if_pos (resting veqv value shows valued)]

/-- An expression resolves to itself with its variables replaced exactly if each of these does. -/
theorem resolves_bind : Resolves o1SubstBlock look ex (ex.bind σ) ↔
    ∀ v ∈ ex.vars, Resolves o1SubstBlock look (.var v) (σ v) := by
  induction ex using Term.inductArgs with
  | atom a => exact iff_of_true ⟨1, rfl⟩ fun _ occurs => absurd occurs not_mem_nil
  | var v => rw [Term.bind_var, Term.vars_var, forall_mem_singleton]
  | app f operands ih =>
    rw [resolves_app, Term.bind_app]
    simp only [Term.app.injEq, true_and, exists_eq_right, forall₂_map_right_iff, forall₂_same, Term.mem_vars_app]
    constructor
    · rintro each v ⟨t, mem, occurs⟩
      exact (ih t mem).mp (each t mem) v occurs
    · exact fun each t mem => (ih t mem).mpr fun v occurs => each v ⟨t, mem, occurs⟩

theorem settled_iff : Settled o1SubstBlock look v ↔
    Resting o1SubstBlock look v ∧ once o1SubstBlock look v = .var v := by
  constructor
  · intro settled
    have resting : Resting o1SubstBlock look v := by
      intro veqv value shows valued
      have rests := settled veqv shows
      rwa [valued] at rests
    refine ⟨resting, ?_⟩
    rw [once]
    cases shows : look v with
    | none => rfl
    | some veqv =>
      have rests := settled veqv shows
      cases valued : veqv.value with
      | none =>
        simp only [valued] at rests ⊢
        rw [rests]
      | some value => simp only [valued, if_pos (resting veqv value shows valued)]
  · rintro ⟨resting, same⟩ veqv shows
    rw [once, shows] at same
    cases valued : veqv.value with
    | some value => exact resting veqv value shows valued
    | none =>
      simp only [valued] at same
      exact Term.var.inj same

section Apply

variable {vars vars' : List Var} (shows : classAt world subst v = look v)

include shows

theorem apply_resting (resting : Resting o1SubstBlock look v) (fuel : Nat) :
    apply o1SubstBlock subst (fuel + 1) world (.var v) = some (lookedUp subst world v, once o1SubstBlock look v) := by
  rw [Resting, ← shows, classAt] at resting
  rw [apply, once, ← shows, classAt, lookedUp]
  cases found : cref world subst v with
  | mk after vq? =>
    rw [found] at resting
    cases vq? with
    | none => rfl
    | some vq =>
      simp only [map_some]
      cases valued : (after.veqvs vq).value with
      | some value => simp only [if_pos (resting _ value rfl valued)]
      | none =>
        rw [headVar]
        cases (after.veqvs vq).varLink.head? <;> rfl

theorem apply_value (found : look v = some veqv) (valued : veqv.value = some value)
    (visible : isBlock o1SubstBlock value = false) (fuel : Nat) :
    apply o1SubstBlock subst (fuel + 1) world (.var v) = apply o1SubstBlock subst fuel (lookedUp subst world v) value := by
  rw [← shows, classAt, map_eq_some_iff] at found
  obtain ⟨vq, isClass, same⟩ := found
  rw [← same] at valued
  rw [apply, lookedUp]
  cases looked : cref world subst v with
  | mk after vq? =>
    rw [looked] at isClass valued
    cases isClass
    dsimp only at valued ⊢
    rw [valued]
    exact if_neg (Bool.eq_false_iff.mp visible)

end Apply

section Once

variable {vars vars' : List Var}

private theorem stays_append : Stays subst look world (vars ++ vars') ↔
    Stays subst look world vars ∧ Stays subst look (vars.foldl (lookedUp subst) world) vars' := by
  induction vars generalizing world with
  | nil => exact (and_iff_right trivial).symm
  | cons v vars ih => exact (and_congr_right fun _ => ih).trans and_assoc.symm

private theorem gives_settled (stays : Stays subst look world vars) (settled : ∀ w ∈ vars, Settled o1SubstBlock look w) :
    Gives o1SubstBlock subst (lookedUp subst) .var world vars := by
  induction vars generalizing world with
  | nil => trivial
  | cons w vars ih =>
    obtain ⟨resting, same⟩ := settled_iff.mp (settled w (.head _))
    refine ⟨Returns.step ((Returns.const _).congr fun fuel => ?_), ih stays.2 fun w mem => settled w (.tail _ mem)⟩
    rw [apply_resting stays.1 resting, same]

/-- Where the lookups stay and the values are settled, each variable is replaced once. -/
theorem gives_once (stays : Stays subst look world (vars.flatMap fun v => v :: valueVars o1SubstBlock look v))
    (settled : ValuesSettled o1SubstBlock look vars) :
    Gives o1SubstBlock subst (fun world v => (v :: valueVars o1SubstBlock look v).foldl (lookedUp subst) world)
      (once o1SubstBlock look) world vars := by
  induction vars generalizing world with
  | nil => trivial
  | cons v vars ih =>
    rw [flatMap_cons, stays_append] at stays
    refine ⟨Returns.step ?_, ih stays.2 fun v mem => settled v (.tail _ mem)⟩
    have shows := stays.1.1
    dsimp only
    by_cases resting : Resting o1SubstBlock look v
    · rw [valueVars_of_resting resting]
      exact (Returns.const _).congr fun fuel => apply_resting shows resting fuel
    · obtain ⟨veqv, value, found, valued, visible⟩ := exists_value resting
      have inside := stays.1.2
      have values := settled v (.head _)
      rw [valueVars_of_value found valued visible] at inside values ⊢
      have given := apply_of_vars (gives_settled inside values)
      rw [Term.bind_eq_self fun _ _ => rfl] at given
      rw [once_of_value found valued visible]
      exact given.congr fun fuel => apply_value shows found valued visible fuel

end Once

section Steady

variable (steady : Steady o1SubstBlock world subst V look)

include steady

theorem Steady.within (v : Var) (inside : v ∈ V) (veqv : Veqv α) (value : Expr α) (shows : look v = some veqv)
    (valued : veqv.value = some value) (visible : isBlock o1SubstBlock value = false) : ∀ w ∈ value.vars, w ∈ V :=
  valueVars_of_value shows valued visible ▸ steady.values v inside

theorem Steady.resting_of_resolves (within : ∀ v ∈ ex.vars, v ∈ V)
    (resolves : Resolves o1SubstBlock look ex (.var w)) :
    Resting o1SubstBlock look w := by
  obtain ⟨fuel, done⟩ := resolves
  induction fuel generalizing ex with
  | zero => cases done
  | succ fuel ih =>
    cases ex with
    | atom a => cases done
    | app f operands =>
      obtain ⟨_, _, same⟩ := map_eq_some_iff.mp done
      cases same
    | var v =>
      have inside := within v (mem_singleton_self v)
      by_cases resting : Resting o1SubstBlock look v
      · have same := (resolves_of_resting resting).mp ⟨_, done⟩
        rw [once] at same
        cases shows : look v with
        | none =>
          rw [shows] at same
          cases same
          exact resting
        | some veqv =>
          cases valued : veqv.value with
          | some value =>
            simp only [shows, valued, if_pos (resting veqv value shows valued)] at same
            cases same
            exact resting
          | none =>
            simp only [shows, valued] at same
            cases same
            have mate : look (headVar veqv v) = some veqv := by
              rw [headVar]
              cases first : veqv.varLink.head? with
              | none => exact shows
              | some head => exact steady.mates v inside veqv shows head (mem_of_head? first)
            intro veqv' value found has
            obtain rfl := some.inj (mate.symm.trans found)
            rw [valued] at has
            cases has
      · obtain ⟨veqv, value, shows, valued, visible⟩ := exists_value resting
        simp only [resolved, shows, valued, visible, Bool.false_eq_true, if_false] at done
        exact ih (steady.within v inside veqv value shows valued visible) done

theorem Steady.resolves_self (inside : v ∈ V) : Resolves o1SubstBlock look (.var v) (.var v) ↔
    Settled o1SubstBlock look v := by
  rw [settled_iff]
  constructor
  · intro resolves
    have within : ∀ w ∈ (Term.var v : Expr α).vars, w ∈ V := forall_mem_singleton.mpr inside
    have resting := steady.resting_of_resolves within resolves
    exact ⟨resting, ((resolves_of_resting resting).mp resolves).symm⟩
  · rintro ⟨resting, same⟩
    exact (resolves_of_resting resting).mpr same.symm

/-- A variable resolves to what replaces it once exactly if its value has settled variables. -/
theorem Steady.resolves_once (inside : v ∈ V) : Resolves o1SubstBlock look (.var v) (once o1SubstBlock look v) ↔
    ∀ w ∈ valueVars o1SubstBlock look v, Settled o1SubstBlock look w := by
  by_cases resting : Resting o1SubstBlock look v
  · rw [valueVars_of_resting resting]
    exact iff_of_true ((resolves_of_resting resting).mpr rfl) nofun
  obtain ⟨veqv, value, shows, valued, visible⟩ := exists_value resting
  have itself : value.bind .var = value := Term.bind_eq_self fun _ _ => rfl
  have bound : Resolves o1SubstBlock look value (value.bind .var) ↔ _ := resolves_bind
  have within := steady.within v inside veqv value shows valued visible
  rw [itself] at bound
  rw [once_of_value shows valued visible, resolves_of_value shows valued visible, bound,
    valueVars_of_value shows valued visible]
  exact forall₂_congr fun w occurs => steady.resolves_self (within w occurs)

/-- The lookups may change the heap, but the application gives what it gives with the classes. -/
theorem Steady.apply_eq (looked : Looked subst V world world') (fuel : Nat) (within : ∀ v ∈ ex.vars, v ∈ V) :
    ∃ after, Looked subst V world after ∧
      apply o1SubstBlock subst fuel world' ex = (resolved o1SubstBlock look fuel ex).map (after, ·) := by
  induction fuel generalizing world' ex with
  | zero => exact ⟨world', looked, rfl⟩
  | succ fuel ih =>
    cases ex with
    | atom a => exact ⟨world', looked, rfl⟩
    | app f operands =>
      have parts (t : Expr α) (mem : t ∈ operands) (v : Var) (occurs : v ∈ t.vars) : v ∈ V :=
        within v (Term.mem_vars_app.mpr ⟨t, mem, occurs⟩)
      clear within
      have each : ∃ after, Looked subst V world after ∧ tranOperands (apply o1SubstBlock subst fuel) world' operands =
          (operands.mapM (resolved o1SubstBlock look fuel)).map (after, ·) := by
        induction operands generalizing world' with
        | nil => exact ⟨world', looked, rfl⟩
        | cons t operands ihOperands =>
          obtain ⟨world1, looked1, first⟩ := ih looked (parts t (.head _))
          obtain ⟨world2, looked2, rest⟩ := ihOperands looked1 fun t mem => parts t (.tail _ mem)
          refine ⟨world2, looked2, ?_⟩
          rw [tranOperands, first, mapM_cons]
          cases resolved o1SubstBlock look fuel t with
          | none => rfl
          | some r =>
            simp only [map_some, bind_eq_bind, bind_some, rest]
            cases operands.mapM (resolved o1SubstBlock look fuel) <;> rfl
      obtain ⟨after, looked', done⟩ := each
      refine ⟨after, looked', ?_⟩
      rw [apply, resolved, done]
      cases operands.mapM (resolved o1SubstBlock look fuel) <;> rfl
    | var v =>
      have inside := within v (mem_singleton_self v)
      have shows := steady.same world' looked v inside
      by_cases resting : Resting o1SubstBlock look v
      · rw [apply_resting shows resting, resolved_resting resting]
        exact ⟨_, looked.look inside, rfl⟩
      · obtain ⟨veqv, value, found, valued, visible⟩ := exists_value resting
        rw [apply_value shows found valued visible, resolved_value found valued visible]
        exact ih (looked.look inside) (steady.within v inside veqv value found valued visible)

theorem Steady.delivers_iff (within : ∀ v ∈ ex.vars, v ∈ V) (r : Expr α) :
    Delivers (fun fuel => apply o1SubstBlock subst (fuel + 1) world ex) (fun result => result.2 = r) ↔
      Resolves o1SubstBlock look ex r := by
  constructor
  · rintro ⟨fuel, delivers⟩
    obtain ⟨result, done, same⟩ := delivers fuel (le_refl fuel)
    obtain ⟨after, _, given⟩ := steady.apply_eq .refl (fuel + 1) within
    obtain ⟨_, resolves, rfl⟩ := map_eq_some_iff.mp (given.symm.trans done)
    exact ⟨fuel + 1, same ▸ resolves⟩
  · rintro ⟨bound, done⟩
    refine ⟨bound, fun fuel enough => ?_⟩
    obtain ⟨after, _, given⟩ := steady.apply_eq .refl (fuel + 1) within
    rw [resolved_mono (Nat.le_add_right_of_le enough) done] at given
    exact ⟨_, given, rfl⟩

theorem Steady.expand_iff (f : Word) (operands : List (Expr α))
    (within : ∀ v ∈ (Term.app f operands : Expr α).vars, v ∈ V) :
    Delivers (fun fuel => expand o1SubstBlock subst fuel world (.app f operands))
        (fun result => result.2 = (Term.app f operands).bind (once o1SubstBlock look)) ↔
      ValuesSettled o1SubstBlock look (Term.app f operands : Expr α).vars := by
  have same := steady.delivers_iff within ((Term.app f operands).bind (once o1SubstBlock look))
  rw [resolves_bind] at same
  exact same.trans (forall₂_congr fun v occurs => steady.resolves_once (within v occurs))

end Steady

private theorem expand_var (world : World α) (fuel : Nat) (v : Var) : ∃ world',
    expand o1SubstBlock subst fuel world (.var v) = some (world', once o1SubstBlock (classAt world subst) v) := by
  refine ⟨(cref world subst v).1, ?_⟩
  rw [expand, once, classAt]
  cases looked : cref world subst v with
  | mk world' found =>
    cases found with
    | none => rfl
    | some vq =>
      simp only [map_some]
      cases (world'.veqvs vq).value with
      | some value =>
        dsimp only
        split <;> rfl
      | none =>
        rw [headVar]
        cases (world'.veqvs vq).varLink.head? <;> rfl

theorem Steady.stays (steady : Steady o1SubstBlock world subst V look) (within : ∀ v ∈ vars, v ∈ V)
    (looked : Looked subst V world world') : Stays subst look world' vars := by
  induction vars generalizing world' with
  | nil => trivial
  | cons v vars ih =>
    have inside := within v (.head _)
    exact ⟨steady.same world' looked v inside, ih (fun w mem => within w (.tail _ mem)) (looked.look inside)⟩

/-- A single expansion returns the expression with its variables replaced once if the lookups inside of an operation
stay and the values there need no further replacement. It does so in no other case with steady lookups, as in a
substitution that shadows no other. -/
theorem expand_once_iff (o1SubstBlock : Word) (world : World α) (subst : Nat) (ex : Expr α) :
    let Right := Delivers (fun fuel => expand o1SubstBlock subst fuel world ex)
      (fun result => result.2 = ex.bind (once o1SubstBlock (classAt world subst)))
    (ExpandsOnce o1SubstBlock world subst ex → Right) ∧
    (∀ V, Steady o1SubstBlock world subst V (classAt world subst) → (∀ v ∈ ex.vars, v ∈ V) → Right →
      ExpandsOnce o1SubstBlock world subst ex) ∧
    ((world.substs subst).shadowed = none →
      (∀ v i, table world subst v = some i → ∀ w ∈ (world.veqvs i).varLink, table world subst w = some i) →
      (Right ↔ ExpandsOnce o1SubstBlock world subst ex)) := by
  intro Right
  have once : ExpandsOnce o1SubstBlock world subst ex → Right := by
    cases ex with
    | atom a => exact fun _ => ⟨0, fun fuel _ => ⟨_, rfl, rfl⟩⟩
    | var v =>
      refine fun _ => ⟨0, fun fuel _ => ?_⟩
      obtain ⟨world', done⟩ := expand_var world fuel v
      exact ⟨_, done, rfl⟩
    | app f operands =>
      rintro ⟨stays, settled⟩
      obtain ⟨bound, done⟩ := apply_of_vars (gives_once stays settled)
      exact ⟨bound, fun fuel enough => ⟨_, done (fuel + 1) (Nat.le_add_right_of_le enough), rfl⟩⟩
  have only (V : Set Var) (steady : Steady o1SubstBlock world subst V (classAt world subst))
      (within : ∀ v ∈ ex.vars, v ∈ V) (right : Right) : ExpandsOnce o1SubstBlock world subst ex := by
    cases ex with
    | atom | var => trivial
    | app f operands =>
      refine ⟨steady.stays (fun w mem => ?_) .refl, (steady.expand_iff f operands within).mp right⟩
      obtain ⟨v, occurs, mem⟩ := mem_flatMap.mp mem
      rcases mem_cons.mp mem with rfl | inside
      · exact within w occurs
      · exact steady.values v (within v occurs) w inside
  exact ⟨once, only, fun root mates =>
    ⟨only Set.univ (steady_root root mates) fun v _ => Set.mem_univ v, once⟩⟩

/-- The heap after unifying the variables with their values. -/
def chained : World Unit :=
  ((unifyEach 0 9 (new emptyWorld 1).1 [(.var ⟨.u, 0⟩, .app 2 [.var ⟨.u, 1⟩]), (.var ⟨.u, 1⟩, .atom ())]).map
    Prod.fst).getD emptyWorld

/-- The operand gets the value of the variable in its value too. -/
theorem expand_chained : ¬ Delivers (fun fuel => expand 3 0 fuel chained (.app 4 [.var ⟨.u, 0⟩])) (fun result =>
    result.2 = (Term.app 4 [.var ⟨.u, 0⟩] : Expr Unit).bind (once 3 (classAt chained 0))) := by
  rintro ⟨fuel, delivers⟩
  obtain ⟨result, done, same⟩ := delivers (fuel + 5) (Nat.le_add_right ..)
  dsimp only at done same
  have computed : (expand 3 0 (fuel + 5) chained (.app 4 [.var ⟨.u, 0⟩])).map Prod.snd =
      some (.app 4 [.app 2 [.atom ()]]) := rfl
  rw [done, map_some, same] at computed
  exact absurd computed (by decide)

/-- `cuex_subst_new_clone` of a substitution whose table is not empty. -/
def newClone (world : World α) (src : Nat) (qcset : Qcset) : World α × Nat :=
  let world := world.setSubst src { world.substs src with cloneCnt := (world.substs src).cloneCnt + 1 }
  world.newSubst {
    cloneCnt := 1, shadowAccessCnt := 0, shadowed := some src, varToVeqv := [], qcset
    isIdem := (world.substs src).isIdem }

/-- The ninth lookup in the clone merges. -/
theorem expand_once_cloned : Delivers (fun fuel => expand 3 1 fuel (newClone chained 0 1).1
      (.app 4 (replicate 10 (.var ⟨.u, 1⟩))))
    (fun result => result.2 = (Term.app 4 (replicate 10 (.var ⟨.u, 1⟩)) : Expr Unit).bind
      (once 3 (classAt (newClone chained 0 1).1 1))) := by
  refine (expand_once_iff 3 (newClone chained 0 1).1 1 (.app 4 (replicate 10 (.var ⟨.u, 1⟩)))).1 ⟨?_, ?_⟩
  · exact ⟨rfl, rfl, rfl, rfl, rfl, rfl, rfl, rfl, rfl, rfl, trivial⟩
  · intro v occurs w inside
    obtain ⟨t, mem, occurs⟩ := Term.mem_vars_app.mp occurs
    cases eq_of_mem_replicate mem
    cases mem_singleton.mp occurs
    cases inside

end Culibs.Cuex.Subst
