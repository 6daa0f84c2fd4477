import Culibs.Foundation.Term
import Mathlib.Data.Finset.Card
import Mathlib.Order.WellFounded

/-! Triangular substitutions. A variable has a term, the variables of which have
terms in turn. If this comes to an end, replacing variables until none is left
that has a term is the most general solution of the equations between variables
and their terms. -/

namespace Culibs

open Finset

/-- The term of each variable, where a variable is free if it is its own term. -/
abbrev Triangular (A F V : Type) := V → Term A F V

namespace Triangular

variable {A F V : Type} {θ θ' : Triangular A F V} {σ : V → Term A F V} {U C : Set V} {v w h : V} {s t : Term A F V}

def Free (θ : Triangular A F V) (v : V) : Prop := θ v = .var v

/-- A variable in the term of a variable. -/
def Below (θ : Triangular A F V) (w v : V) : Prop := ¬ θ.Free v ∧ w ∈ (θ v).vars

abbrev Acyclic (θ : Triangular A F V) : Prop := WellFounded θ.Below

/-- The variables of terms of variables of the set are in the set. -/
def Closed (θ : Triangular A F V) (U : Set V) : Prop := ∀ v ∈ U, ∀ w ∈ (θ v).vars, w ∈ U

/-- The equations of a set of variables. -/
def SolvesOn (θ : Triangular A F V) (U : Set V) (σ : V → Term A F V) : Prop := ∀ v ∈ U, σ v = (θ v).bind σ

open Classical in
/-- Replace variables by their terms until all that are left are free. -/
noncomputable def norm (θ : Triangular A F V) (acyclic : θ.Acyclic) : V → Term A F V :=
  acyclic.fix fun v smaller =>
    if free : θ.Free v then .var v
    else (θ v).bind fun w => if occurs : w ∈ (θ v).vars then smaller w ⟨free, occurs⟩ else .var w

section

variable (acyclic : θ.Acyclic)

include acyclic

theorem norm_eq (v : V) : θ.norm acyclic v = (θ v).bind (θ.norm acyclic) := by
  by_cases free : θ.Free v
  · have own : θ.norm acyclic v = .var v := by
      rw [norm, WellFounded.fix_eq, dif_pos free]
    rw [own, free, Term.bind_var, own]
  · conv_lhs => rw [norm, WellFounded.fix_eq, dif_neg free]
    exact Term.bind_congr fun w occurs => dif_pos occurs

theorem norm_of_free (free : θ.Free v) : θ.norm acyclic v = .var v := by
  rw [norm, WellFounded.fix_eq, dif_pos free]

theorem solvesOn_norm (U : Set V) : θ.SolvesOn U (θ.norm acyclic) :=
  fun v _ => norm_eq acyclic v

theorem SolvesOn.norm_bind (closed : θ.Closed U) (solves : θ.SolvesOn U σ) (inside : v ∈ U) :
    (θ.norm acyclic v).bind σ = σ v := by
  induction v using acyclic.induction with
  | h v ih =>
    by_cases free : θ.Free v
    · rw [norm_of_free acyclic free, Term.bind_var]
    · rw [norm_eq acyclic, Term.bind_bind, solves v inside]
      exact Term.bind_congr fun w occurs => ih w ⟨free, occurs⟩ (closed v inside w occurs)

theorem free_of_mem_norm (occurs : w ∈ (θ.norm acyclic v).vars) : θ.Free w := by
  induction v using acyclic.induction with
  | h v ih =>
    by_cases free : θ.Free v
    · rw [norm_of_free acyclic free] at occurs
      obtain rfl := List.mem_singleton.mp occurs
      exact free
    · rw [norm_eq acyclic] at occurs
      obtain ⟨u, inside, last⟩ := Term.mem_vars_bind.mp occurs
      exact ih u ⟨free, inside⟩ last

theorem mem_of_mem_norm (closed : θ.Closed U) (inside : v ∈ U) (occurs : w ∈ (θ.norm acyclic v).vars) : w ∈ U := by
  induction v using acyclic.induction with
  | h v ih =>
    by_cases free : θ.Free v
    · rw [norm_of_free acyclic free] at occurs
      obtain rfl := List.mem_singleton.mp occurs
      exact inside
    · rw [norm_eq acyclic] at occurs
      obtain ⟨u, below, last⟩ := Term.mem_vars_bind.mp occurs
      exact ih u ⟨free, below⟩ (closed v inside u below) last

theorem norm_norm (t : Term A F V) :
    (t.bind (θ.norm acyclic)).bind (θ.norm acyclic) = t.bind (θ.norm acyclic) := by
  apply Term.bind_eq_self
  intro w occurs
  obtain ⟨v, _, last⟩ := Term.mem_vars_bind.mp occurs
  exact norm_of_free acyclic (free_of_mem_norm acyclic last)

end

section Change

variable (acyclic : θ.Acyclic) (outside : ∀ v, v ∉ C → θ' v = θ v)

include acyclic outside

/-- Only the variables with new terms matter for whether there are new cycles. -/
theorem Acyclic.change (inside : ∀ v ∈ C, Acc θ'.Below v) : θ'.Acyclic := by
  refine ⟨fun v => ?_⟩
  induction v using acyclic.induction with
  | h v ih =>
    by_cases changed : v ∈ C
    · exact inside v changed
    · refine ⟨_, fun w below => ih w ?_⟩
      rw [Below, Free, outside v changed] at below
      exact below

theorem Acyclic.replace (closed : θ.Closed U) (apart : ∀ v ∈ U, v ∉ C) (inside : ∀ v ∈ C, θ' v = s)
    (within : ∀ v ∈ s.vars, v ∈ U) : θ'.Acyclic := by
  have accessible (v : V) (mem : v ∈ U) : Acc θ'.Below v := by
    induction v using acyclic.induction with
    | h v ih =>
      refine ⟨_, fun w below => ?_⟩
      rw [Below, Free, outside v (apart v mem)] at below
      exact ih w below (closed v mem w below.2)
  refine acyclic.change outside fun v changed => ⟨_, fun w below => accessible w (within w ?_)⟩
  rw [← inside v changed]
  exact below.2

theorem Acyclic.merge (own : h ∈ C) (inside : ∀ v ∈ C, θ' v = .var h) : θ'.Acyclic := by
  have top : Acc θ'.Below h := ⟨_, fun w below => absurd (inside h own) below.1⟩
  refine acyclic.change outside fun v changed => ⟨_, fun w below => ?_⟩
  have same := below.2
  rw [inside v changed] at same
  obtain rfl := List.mem_singleton.mp same
  exact top

end Change

section Count

open Classical in
noncomputable def freeCount (θ : Triangular A F V) (U : Finset V) : Nat := (U.filter θ.Free).card

variable {U : Finset V} (shrinks : ∀ v ∈ U, θ'.Free v → θ.Free v)

include shrinks

open Classical in
theorem freeCount_le : θ'.freeCount U ≤ θ.freeCount U := by
  refine card_le_card fun v mem => ?_
  rw [mem_filter] at mem ⊢
  exact ⟨mem.1, shrinks v mem.1 mem.2⟩

open Classical in
theorem freeCount_lt (inside : v ∈ U) (before : θ.Free v) (after : ¬ θ'.Free v) :
    θ'.freeCount U < θ.freeCount U := by
  refine card_lt_card ⟨fun v mem => ?_, fun back => after ?_⟩
  · rw [mem_filter] at mem ⊢
    exact ⟨mem.1, shrinks v mem.1 mem.2⟩
  · exact (mem_filter.mp (back (mem_filter.mpr ⟨inside, before⟩))).2

/-- As long as no variable is bound that was free, the terms of variables stay the same. -/
theorem norm_eq_of_freeCount (acyclic : θ.Acyclic) (acyclic' : θ'.Acyclic) (closed : θ.Closed ↑U)
    (refines : ∀ σ, θ'.SolvesOn ↑U σ → θ.SolvesOn ↑U σ) (same : θ'.freeCount U = θ.freeCount U) (inside : v ∈ U) :
    θ'.norm acyclic' v = θ.norm acyclic v := by
  have solves := refines _ (solvesOn_norm acyclic' ↑U)
  rw [← solves.norm_bind acyclic closed inside]
  apply Term.bind_eq_self
  intro w occurs
  have mem : w ∈ U := mem_of_mem_norm acyclic closed inside occurs
  apply norm_of_free acyclic'
  by_contra bound
  exact absurd same (ne_of_lt (freeCount_lt shrinks mem (free_of_mem_norm acyclic occurs) bound))

end Count

end Triangular

end Culibs
