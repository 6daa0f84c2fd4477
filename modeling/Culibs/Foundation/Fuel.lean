import Mathlib.Data.Nat.Notation

/-! Functions with a bound on the depth of their recursion, and the result they have from some bound on. -/

namespace Culibs

variable {β γ : Type*}

/-- All bounds that are large enough give this result. -/
def Returns (run : Nat → Option β) (result : β) : Prop :=
  ∃ bound, ∀ fuel, bound ≤ fuel → run fuel = some result

/-- With a bound that is large enough, there is a result, and it is right. -/
def Delivers (run : Nat → Option β) (right : β → Prop) : Prop :=
  ∃ bound, ∀ fuel, bound ≤ fuel → ∃ result, run fuel = some result ∧ right result

theorem delivers_iff (bound : Nat)
    (same : ∀ fuel, bound ≤ fuel → ((∃ result, run fuel = some result ∧ right result) ↔ condition)) :
    Delivers run right ↔ condition := by
  constructor
  · rintro ⟨bound', done⟩
    exact (same (max bound bound') (Nat.le_max_left ..)).mp (done _ (Nat.le_max_right ..))
  · exact fun holds => ⟨bound, fun fuel enough => (same fuel enough).mpr holds⟩

namespace Returns

variable {run : Nat → Option β} {result : β}

theorem const (result : β) : Returns (fun _ => some result) result :=
  ⟨0, fun _ _ => rfl⟩

theorem congr (returns : Returns run result) (same : ∀ fuel, run' fuel = run fuel) :
    Returns run' result := by
  obtain ⟨bound, done⟩ := returns
  exact ⟨bound, fun fuel enough => (same fuel).trans (done fuel enough)⟩

theorem step (returns : Returns (fun fuel => run (fuel + 1)) result) : Returns run result := by
  obtain ⟨bound, done⟩ := returns
  refine ⟨bound + 1, fun fuel enough => ?_⟩
  cases fuel with
  | zero => exact absurd enough (Nat.not_succ_le_zero bound)
  | succ fuel => exact done fuel (Nat.le_of_succ_le_succ enough)

theorem andThen (first : Returns run result) (second : Returns run' result')
    (same : ∀ fuel, run fuel = some result → whole fuel = run' fuel) : Returns whole result' := by
  obtain ⟨bound, done⟩ := first
  obtain ⟨bound', done'⟩ := second
  refine ⟨max bound bound', fun fuel enough => ?_⟩
  rw [same fuel (done fuel (Nat.le_trans (Nat.le_max_left ..) enough))]
  exact done' fuel (Nat.le_trans (Nat.le_max_right ..) enough)

theorem both
    (first : Returns run result) (second : Returns run' result')
    (same : ∀ fuel, run fuel = some result → run' fuel = some result' → whole fuel = some result'') :
    Returns whole result'' := by
  obtain ⟨bound, done⟩ := first
  obtain ⟨bound', done'⟩ := second
  exact ⟨max bound bound', fun fuel enough => same fuel (done fuel (Nat.le_trans (Nat.le_max_left ..) enough))
    (done' fuel (Nat.le_trans (Nat.le_max_right ..) enough))⟩

theorem map (f : β → γ) (returns : Returns run result) : Returns (fun fuel => (run fuel).map f) (f result) := by
  obtain ⟨bound, done⟩ := returns
  refine ⟨bound, fun fuel enough => ?_⟩
  simp only [done fuel enough, Option.map_some]

theorem unique (returns : Returns run result) (returns' : Returns run result') : result = result' := by
  obtain ⟨bound, done⟩ := returns
  obtain ⟨bound', done'⟩ := returns'
  exact Option.some.inj ((done (max bound bound') (Nat.le_max_left ..)).symm.trans
    (done' (max bound bound') (Nat.le_max_right ..)))

end Returns

end Culibs
