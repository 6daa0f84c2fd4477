import Culibs.Cuex.Subst.Basic
import Mathlib.Data.List.Forall2

/-! Matching of a pattern, from `cuex/algo.c`. -/

namespace Culibs.Cuex.Algo

open List Term Function

variable {α : Type}

/-- A `cucon_pmap` from variables to expressions. -/
abbrev VarMap (α : Type) := Var → Option (Expr α)

section

variable [DecidableEq α]

mutual

/-- `cuex_match_pmap`, as the result and the map after the call. -/
def matchPmap (patn ex : Expr α) (vm : VarMap α) : Bool × VarMap α :=
  match patn with
  | .app _ operands =>
    match ex with
    | .app _ operands' =>
      if operands.length ≠ operands'.length then (false, vm) else matchOperands operands operands' vm
    | _ => (false, vm)
  | .var v =>
    match vm v with
    | none => (true, update vm v (some ex))
    | some slot => (decide (slot = ex), vm)
  | .atom a => (decide (.atom a = ex), vm)

/-- The loop over the operands. -/
def matchOperands (operands operands' : List (Expr α)) (vm : VarMap α) : Bool × VarMap α :=
  match operands, operands' with
  | patn :: operands, ex :: operands' =>
    let (matched, vm) := matchPmap patn ex vm
    if matched then matchOperands operands operands' vm else (false, vm)
  | _, _ => (true, vm)

end

/-- The result is true iff there is a substitution that gives the expression, and then the map is that substitution on
the variables of the pattern. -/
def MatchRight (patn ex : Expr α) : Prop :=
  ((matchPmap patn ex fun _ => none).1 = true ↔ ∃ σ, patn.bind σ = ex) ∧
    ∀ vm, matchPmap patn ex (fun _ => none) = (true, vm) →
      ∃ σ, patn.bind σ = ex ∧ ∀ v, vm v = if v ∈ patn.vars then some (σ v) else none

end

/-- Expressions that are equal except for operators, which only have the same number of operands. -/
inductive Alike : Expr α → Expr α → Prop where
  | atom (a : α) : Alike (.atom a) (.atom a)
  | var (v : Var) : Alike (.var v) (.var v)
  | app (opr opr' : Word) {operands operands' : List (Expr α)} (each : Forall₂ Alike operands operands') :
    Alike (.app opr operands) (.app opr' operands')

theorem Alike.refl (e : Expr α) : Alike e e := by
  induction e using inductArgs with
  | atom a => exact .atom a
  | var v => exact .var v
  | app opr operands ih => exact .app opr opr (forall₂_same.mpr ih)

variable {operands operands' : List (Expr α)}

private theorem forall₂_eq_of_map
    (each : Forall₂ Alike operands operands') (same : operands.map σ = operands'.map τ)
    (eq : ∀ e ∈ operands, ∀ e', Alike e e' → σ e = τ e' → e' = e) : operands' = operands := by
  induction each with
  | nil => rfl
  | cons alike each ih =>
    obtain ⟨first, rest⟩ := cons.inj same
    obtain ⟨own, others⟩ := forall_mem_cons.mp eq
    rw [own _ alike first, ih rest others]

/-- The operators of a pattern show in its instances. -/
theorem Alike.eq_of_bind (alike : Alike p q) (same : p.bind σ = q.bind τ) :
    q = p := by
  induction p using inductArgs generalizing q with
  | atom a =>
    cases alike
    rfl
  | var v =>
    cases alike
    rfl
  | app opr operands ih =>
    cases alike with
    | app _ opr' each =>
      rw [bind_app, bind_app] at same
      obtain ⟨rfl, operands⟩ := app.inj same
      rw [forall₂_eq_of_map each operands fun e mem e' => ih e mem]

section

variable {vm vm' vm'' : VarMap α} {vars vars' : List Var} {σ : Var → Expr α} {patn ex : Expr α}

/-- The values that a map has are those of a substitution. -/
def Agrees (vm : VarMap α) (σ : Var → Expr α) : Prop := ∀ v t, vm v = some t → σ v = t

/-- A map with further variables. -/
structure Extends (vm vm' : VarMap α) (vars : List Var) : Prop where
  kept : ∀ v t, vm v = some t → vm' v = some t
  bound : ∀ v, (vm' v).isSome ↔ (vm v).isSome ∨ v ∈ vars

theorem Extends.refl : Extends vm vm [] := ⟨fun _ _ found => found, fun v => by simp⟩

theorem Extends.trans (first : Extends vm vm' vars) (next : Extends vm' vm'' vars') :
    Extends vm vm'' (vars ++ vars') where
  kept v t found := next.kept v t (first.kept v t found)
  bound v := by rw [next.bound, first.bound, mem_append, or_assoc]

/-- What a match shows: an instance of a pattern that is alike, for each substitution that the map agrees with. -/
def Shows (patn ex : Expr α) (vm : VarMap α) : Prop :=
  ∃ q, Alike patn q ∧ ∀ σ, Agrees vm σ → q.bind σ = ex

variable [DecidableEq α]

private theorem matchOperands_sound (length : operands.length = operands'.length)
    (each : ∀ p ∈ operands, ∀ e vm vm', matchPmap p e vm = (true, vm') → Extends vm vm' p.vars ∧ Shows p e vm')
    (matched : matchOperands operands operands' vm = (true, vm')) :
    Extends vm vm' (varsArgs operands) ∧
      ∃ qs, Forall₂ Alike operands qs ∧ ∀ σ, Agrees vm' σ → qs.map (bind σ) = operands' := by
  induction operands generalizing operands' vm with
  | nil =>
    obtain rfl := length_eq_zero_iff.mp length.symm
    obtain rfl : vm = vm' := congrArg Prod.snd matched
    exact ⟨.refl, [], .nil, fun _ _ => rfl⟩
  | cons p operands ih =>
    cases operands' with
    | nil => cases length
    | cons e operands' =>
      obtain ⟨own, others⟩ := forall_mem_cons.mp each
      rw [matchOperands] at matched
      cases first : matchPmap p e vm with
      | mk found vm1 =>
        rw [first] at matched
        cases found with
        | false => cases matched
        | true =>
          obtain ⟨more, q, alike, shows_⟩ := own e vm vm1 first
          obtain ⟨more', qs, alikes, shows'⟩ := ih (Nat.succ.inj length) others matched
          refine ⟨more.trans more', q :: qs, .cons alike alikes, fun σ agrees => ?_⟩
          rw [map_cons, shows_ σ (fun v t found => agrees v t (more'.kept v t found)), shows' σ agrees]

theorem matchPmap_sound (matched : matchPmap patn ex vm = (true, vm')) : Extends vm vm' patn.vars ∧ Shows patn ex vm' := by
  induction patn using inductArgs generalizing ex vm vm' with
  | atom a =>
    obtain ⟨same, rfl⟩ := Prod.mk.inj matched
    exact ⟨.refl, _, .refl _, fun _ _ => of_decide_eq_true same⟩
  | var v =>
    rw [matchPmap] at matched
    cases found : vm v with
    | none =>
      rw [found] at matched
      obtain ⟨-, rfl⟩ := Prod.mk.inj matched
      refine ⟨⟨fun w t here => ?_, fun w => ?_⟩, _, .refl _, fun σ agrees => ?_⟩
      · rwa [update_of_ne]
        rintro rfl
        rw [found] at here
        cases here
      · by_cases same : w = v
        · subst same
          simp
        · simp [same]
      · exact agrees v ex (update_self ..)
    | some slot =>
      rw [found] at matched
      obtain ⟨same, rfl⟩ := Prod.mk.inj matched
      obtain rfl := of_decide_eq_true same
      refine ⟨⟨fun _ _ here => here, fun w => ?_⟩, _, .refl _, fun σ agrees => agrees v slot found⟩
      rw [vars_var, mem_singleton, iff_self_or]
      rintro rfl
      rw [found]
      rfl
  | app opr operands ih =>
    cases ex with
    | app opr' operands' =>
      rw [matchPmap] at matched
      by_cases length : operands.length = operands'.length
      · simp only [ne_eq, length, not_true_eq_false, if_false] at matched
        obtain ⟨more, qs, alikes, shows_⟩ := matchOperands_sound length (fun p mem e vm vm' => ih p mem) matched
        refine ⟨more, _, .app opr opr' alikes, fun σ agrees => ?_⟩
        rw [bind_app, shows_ σ agrees]
      · simp only [ne_eq, length, not_false_eq_true, if_true] at matched
        cases matched
    | atom a => cases matched
    | var v => cases matched

private theorem matchOperands_complete (alikes : Forall₂ Alike operands qs)
    (same : qs.map (bind σ) = operands') (agrees : Agrees vm σ)
    (each : ∀ p ∈ operands, ∀ q vm, Alike p q → Agrees vm σ →
      ∃ vm', matchPmap p (q.bind σ) vm = (true, vm') ∧ Agrees vm' σ) :
    ∃ vm', matchOperands operands operands' vm = (true, vm') ∧ Agrees vm' σ := by
  subst same
  induction alikes generalizing vm with
  | nil => exact ⟨vm, rfl, agrees⟩
  | cons alike alikes ih =>
    obtain ⟨own, others⟩ := forall_mem_cons.mp each
    obtain ⟨vm1, first, agrees1⟩ := own _ vm alike agrees
    obtain ⟨vm2, rest, agrees2⟩ := ih agrees1 others
    refine ⟨vm2, ?_, agrees2⟩
    rw [map_cons, matchOperands, first]
    exact rest

/-- Instances of patterns that are alike match. -/
theorem matchPmap_complete (alike : Alike patn q) (agrees : Agrees vm σ) :
    ∃ vm', matchPmap patn (q.bind σ) vm = (true, vm') ∧ Agrees vm' σ := by
  induction patn using inductArgs generalizing q vm with
  | atom a =>
    cases alike
    exact ⟨vm, Prod.ext (decide_eq_true rfl) rfl, agrees⟩
  | var v =>
    cases alike
    rw [matchPmap]
    cases found : vm v with
    | none =>
      refine ⟨_, rfl, fun w t here => ?_⟩
      by_cases same : w = v
      · subst same
        rw [update_self] at here
        exact Option.some.inj here
      · rw [update_of_ne same] at here
        exact agrees w t here
    | some slot => exact ⟨vm, Prod.ext (decide_eq_true (agrees v slot found).symm) rfl, agrees⟩
  | app opr operands ih =>
    cases alike with
    | app _ opr' alikes =>
      rw [bind_app, matchPmap]
      simp only [length_map, alikes.length_eq, ne_eq, not_true_eq_false, if_false]
      exact matchOperands_complete alikes rfl agrees fun p mem q vm => ih p mem

end

/-- The match is right except on instances of other patterns that are alike. -/
theorem matchPmap_right_iff [DecidableEq α] (patn ex : Expr α) :
    MatchRight patn ex ↔ ∀ q σ, Alike patn q → q.bind σ = ex → q = patn := by
  have none_agrees (σ : Var → Expr α) : Agrees (fun _ => none) σ := fun _ _ found => nomatch found
  constructor
  · rintro ⟨right, _⟩ q σ alike rfl
    obtain ⟨vm', matched, _⟩ := matchPmap_complete alike (none_agrees σ)
    obtain ⟨τ, same⟩ := right.mp (congrArg Prod.fst matched)
    exact alike.eq_of_bind same
  · intro only
    have shows_ (vm : VarMap α) (matched : matchPmap patn ex (fun _ => none) = (true, vm)) :
        ∃ σ, patn.bind σ = ex ∧ ∀ v, vm v = if v ∈ patn.vars then some (σ v) else none := by
      obtain ⟨⟨_, bound⟩, q, alike, instance_⟩ := matchPmap_sound matched
      have agrees : Agrees vm fun v => (vm v).getD (.var v) := fun v t here => by simp only [here, Option.getD_some]
      have same := instance_ _ agrees
      rw [only q _ alike same] at same
      refine ⟨_, same, fun v => ?_⟩
      have here := bound v
      simp only [Option.isSome_none, Bool.false_eq_true, false_or] at here
      by_cases occurs : v ∈ patn.vars
      · obtain ⟨t, value⟩ := Option.isSome_iff_exists.mp (here.mpr occurs)
        rw [if_pos occurs, value, Option.getD_some]
      · rw [if_neg occurs]
        exact Option.not_isSome_iff_eq_none.mp (mt here.mp occurs)
    refine ⟨⟨fun found => ?_, ?_⟩, shows_⟩
    · obtain ⟨σ, same, _⟩ := shows_ _ (Prod.ext found rfl)
      exact ⟨σ, same⟩
    · rintro ⟨σ, rfl⟩
      obtain ⟨vm', matched, _⟩ := matchPmap_complete (.refl patn) (none_agrees σ)
      exact congrArg Prod.fst matched

/-- Operations of different operators match. -/
theorem matchPmap_other_operator : ¬ MatchRight (.app 1 [.var ⟨.u, 0⟩] : Expr Unit) (.app 2 [.atom ()]) := by
  rintro ⟨right, _⟩
  obtain ⟨σ, same⟩ := right.mp rfl
  exact absurd (app.inj same).1 (by decide)

end Culibs.Cuex.Algo
