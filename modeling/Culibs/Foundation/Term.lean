/-! First-order terms, and the simultaneous replacement of variables. -/

namespace Culibs

open List

/-- Terms over constants `A`, variables `V` and function symbols `F`. -/
inductive Term (A F V : Type) where
  | atom (a : A)
  | var (v : V)
  | app (f : F) (args : List (Term A F V))

namespace Term

variable {A F V : Type}

/-- Induction where the arguments of a symbol are reached through their list. -/
@[elab_as_elim] theorem inductArgs {motive : Term A F V → Prop} (atom : ∀ a, motive (.atom a))
    (var : ∀ v, motive (.var v)) (app : ∀ f args, (∀ t ∈ args, motive t) → motive (.app f args)) (t : Term A F V) :
    motive t :=
  @Term.rec A F V motive (fun args => ∀ t ∈ args, motive t) atom var app (fun _ mem => nomatch mem)
    (fun _ _ first rest => forall_mem_cons.mpr ⟨first, rest⟩) t

section DecidableEq

variable [DecidableEq A] [DecidableEq F] [DecidableEq V]

mutual

def decEq : (s t : Term A F V) → Decidable (s = t)
  | atom a, atom b => decidable_of_iff (a = b) (by simp)
  | var v, var w => decidable_of_iff (v = w) (by simp)
  | app f ss, app g ts =>
    have := decEqArgs ss ts
    decidable_of_iff (f = g ∧ ss = ts) (by simp)
  | atom _, var _ | atom _, app .. | var _, atom _ | var _, app .. | app .., atom _ | app .., var _ => isFalse nofun
termination_by structural x => x

def decEqArgs : (ss ts : List (Term A F V)) → Decidable (ss = ts)
  | [], [] => isTrue rfl
  | s :: ss, t :: ts =>
    have := decEq s t
    have := decEqArgs ss ts
    decidable_of_iff (s = t ∧ ss = ts) (by simp)
  | [], _ :: _ | _ :: _, [] => isFalse nofun
termination_by structural x => x

end

instance : DecidableEq (Term A F V) := decEq

end DecidableEq

mutual

def bind (σ : V → Term A F V) : Term A F V → Term A F V
  | atom a => atom a
  | var v => σ v
  | app f args => app f (bindArgs σ args)

def bindArgs (σ : V → Term A F V) : List (Term A F V) → List (Term A F V)
  | [] => []
  | t :: args => bind σ t :: bindArgs σ args

end

mutual

/-- The variables of a term, with repetitions. -/
def vars : Term A F V → List V
  | atom _ => []
  | var v => [v]
  | app _ args => varsArgs args

def varsArgs : List (Term A F V) → List V
  | [] => []
  | t :: args => vars t ++ varsArgs args

end

mutual

def size : Term A F V → Nat
  | atom _ => 1
  | var _ => 1
  | app _ args => sizeArgs args + 1

def sizeArgs : List (Term A F V) → Nat
  | [] => 0
  | t :: args => size t + sizeArgs args

end

mutual

/-- The function symbols of a term, with repetitions. -/
def symbols : Term A F V → List F
  | atom _ => []
  | var _ => []
  | app f args => f :: symbolsArgs args

def symbolsArgs : List (Term A F V) → List F
  | [] => []
  | t :: args => symbols t ++ symbolsArgs args

end

mutual

/-- The term with other function symbols. -/
def rename (g : F → F) : Term A F V → Term A F V
  | atom a => atom a
  | var v => var v
  | app f args => app (g f) (renameArgs g args)

def renameArgs (g : F → F) : List (Term A F V) → List (Term A F V)
  | [] => []
  | t :: args => rename g t :: renameArgs g args

end

variable {σ τ : V → Term A F V} {v w : V} {f : F} {t : Term A F V} {args : List (Term A F V)}

@[simp] theorem bind_atom (a : A) : (atom a : Term A F V).bind σ = atom a := rfl

@[simp] theorem bind_var : (var v).bind σ = σ v := rfl

theorem bindArgs_eq (args : List (Term A F V)) : bindArgs σ args = args.map (bind σ) := by
  induction args with
  | nil => rfl
  | cons t args ih => rw [bindArgs, ih, map_cons]

@[simp] theorem bind_app : (app f args).bind σ = app f (args.map (bind σ)) := by
  rw [bind, bindArgs_eq]

@[simp] theorem vars_atom (a : A) : (atom a : Term A F V).vars = [] := rfl

@[simp] theorem vars_var : (var v : Term A F V).vars = [v] := rfl

theorem mem_varsArgs : v ∈ varsArgs args ↔ ∃ t ∈ args, v ∈ t.vars := by
  induction args with
  | nil => simp [varsArgs]
  | cons t args ih => simp [varsArgs, ih]

@[simp] theorem mem_vars_app : v ∈ (app f args).vars ↔ ∃ t ∈ args, v ∈ t.vars := mem_varsArgs

theorem size_le_sizeArgs (mem : t ∈ args) : t.size ≤ sizeArgs args := by
  induction args with
  | nil => cases mem
  | cons s args ih =>
    rcases mem_cons.mp mem with rfl | later
    · exact Nat.le_add_right _ _
    · exact Nat.le_trans (ih later) (Nat.le_add_left _ _)

theorem size_lt_app (mem : t ∈ args) : t.size < (app f args).size :=
  Nat.lt_succ_of_le (size_le_sizeArgs mem)

theorem bind_congr (same : ∀ v ∈ t.vars, σ v = τ v) : t.bind σ = t.bind τ := by
  induction t using inductArgs with
  | atom a => rfl
  | var v => exact same v (mem_singleton_self v)
  | app f args ih =>
    rw [bind_app, bind_app]
    refine congrArg (app f) (map_congr_left fun t mem => ih t mem fun v occurs => ?_)
    exact same v (mem_vars_app.mpr ⟨t, mem, occurs⟩)

theorem bind_eq_self (fixed : ∀ v ∈ t.vars, σ v = var v) : t.bind σ = t := by
  induction t using inductArgs with
  | atom a => rfl
  | var v => exact fixed v (mem_singleton_self v)
  | app f args ih =>
    rw [bind_app]
    refine congrArg (app f) ((map_congr_left fun t mem => ?_).trans (map_id args))
    exact ih t mem fun v occurs => fixed v (mem_vars_app.mpr ⟨t, mem, occurs⟩)

theorem bind_bind (t : Term A F V) : (t.bind σ).bind τ = t.bind fun v => (σ v).bind τ := by
  induction t using inductArgs with
  | atom a => rfl
  | var v => rfl
  | app f args ih =>
    rw [bind_app, bind_app, bind_app, map_map]
    exact congrArg (app f) (map_congr_left ih)

theorem mem_vars_bind : w ∈ (t.bind σ).vars ↔ ∃ v ∈ t.vars, w ∈ (σ v).vars := by
  induction t using inductArgs with
  | atom a => simp
  | var v => simp
  | app f args ih =>
    rw [bind_app, mem_vars_app]
    constructor
    · rintro ⟨_, image, occurs⟩
      obtain ⟨t, mem, rfl⟩ := mem_map.mp image
      obtain ⟨v, inside, last⟩ := (ih t mem).mp occurs
      exact ⟨v, mem_vars_app.mpr ⟨t, mem, inside⟩, last⟩
    · rintro ⟨v, inside, last⟩
      obtain ⟨t, mem, inside⟩ := mem_vars_app.mp inside
      exact ⟨t.bind σ, mem_map_of_mem mem, (ih t mem).mpr ⟨v, inside, last⟩⟩

theorem mem_symbolsArgs : f ∈ symbolsArgs args ↔ ∃ t ∈ args, f ∈ t.symbols := by
  induction args with
  | nil => simp [symbolsArgs]
  | cons t args ih => simp [symbolsArgs, ih]

theorem mem_symbols_app : g ∈ (app f args).symbols ↔ g = f ∨ ∃ t ∈ args, g ∈ t.symbols := by
  rw [symbols, mem_cons, mem_symbolsArgs]

@[simp] theorem rename_app (g : F → F) : (app f args).rename g = app (g f) (args.map (rename g)) := by
  rw [rename]
  congr 1
  induction args with
  | nil => rfl
  | cons t args ih => rw [renameArgs, ih, map_cons]

theorem rename_eq_self {g : F → F} (fixed : ∀ f ∈ t.symbols, g f = f) : t.rename g = t := by
  induction t using inductArgs with
  | atom a => rfl
  | var v => rfl
  | app f args ih =>
    rw [rename_app, fixed f (mem_symbols_app.mpr (.inl rfl))]
    refine congrArg (app f) ((map_congr_left fun t mem => ?_).trans (map_id args))
    exact ih t mem fun h uses => fixed h (mem_symbols_app.mpr (.inr ⟨t, mem, uses⟩))

theorem rename_bind (g : F → F) (t : Term A F V) :
    (t.bind σ).rename g = (t.rename g).bind fun v => (σ v).rename g := by
  induction t using inductArgs with
  | atom a => rfl
  | var v => rfl
  | app f args ih =>
    rw [bind_app, rename_app, rename_app, bind_app, map_map, map_map]
    exact congrArg (app (g f)) (map_congr_left ih)

end Term

end Culibs
