import Mathlib.Tactic.Basic

/-! Comparison functions whose result is negative, zero or positive, and their
lexicographic combination. -/

namespace Culibs.Comparison

variable {α : Type*} {same : α → α → Prop} {cmp : α → α → Int}

/-- A comparison function orders its arguments up to a relation. -/
structure TotalOrder (same : α → α → Prop) (cmp : α → α → Int) : Prop where
  swap : ∀ a b, (cmp b a).sign = -(cmp a b).sign
  trans : ∀ a b c, cmp a b ≤ 0 → cmp b c ≤ 0 → cmp a c ≤ 0
  eq_zero : ∀ a b, cmp a b = 0 ↔ same a b

/-- Exchanging the arguments negates the result. -/
def Antisymmetric (cmp : α → α → Int) : Prop := ∀ a b, cmp b a = -cmp a b

/-- The first result, unless it is zero. -/
def andThen (c d : Int) : Int := if c ≠ 0 then c else d

theorem andThen_eq_zero : andThen c d = 0 ↔ c = 0 ∧ d = 0 := by
  rw [andThen]
  split <;> omega

theorem neg_andThen (c d : Int) : andThen (-c) (-d) = -andThen c d := by
  rw [andThen, andThen]
  split <;> split <;> omega

theorem sign_andThen (c d : Int) : (andThen c d).sign = andThen c.sign d.sign := by
  rw [andThen, andThen]
  have := @Int.sign_eq_zero_iff_zero c
  split <;> split <;> first | rfl | omega

/-- The results for two neighbours and the ends of three values: the ends are in
order when the neighbours are, and equal only when all three are. -/
structure Chained (first second ends : Int) : Prop where
  le : first ≤ 0 → second ≤ 0 → ends ≤ 0
  eq : first ≤ 0 → second ≤ 0 → ends = 0 → first = 0 ∧ second = 0

theorem Chained.andThen (outer : Chained first second ends)
    (inner : first = 0 → second = 0 → ends = 0 → Chained first' second' ends') :
    Chained (andThen first first') (andThen second second') (andThen ends ends') := by
  obtain ⟨le, eq⟩ := outer
  by_cases equal : first = 0 ∧ second = 0 ∧ ends = 0
  · obtain ⟨rfl, rfl, rfl⟩ := equal
    exact inner rfl rfl rfl
  · simp only [Comparison.andThen]
    constructor
    · intro first_le second_le
      split at first_le <;> split at second_le <;> split <;> omega
    · intro first_le second_le ends_eq
      split at first_le <;> split at second_le <;> split at ends_eq <;> omega

theorem TotalOrder.chained (order : TotalOrder Eq cmp) (a b c : α) : Chained (cmp a b) (cmp b c) (cmp a c) := by
  refine ⟨order.trans a b c, fun first second ends => ?_⟩
  obtain rfl := (order.eq_zero a c).mp ends
  have swap := order.swap a b
  have nonneg : 0 ≤ cmp b a := by
    rw [← Int.sign_nonneg_iff, swap]
    have := Int.sign_nonpos_iff.mpr first
    omega
  have zero : cmp b a = 0 := by omega
  refine ⟨?_, zero⟩
  rw [zero, Int.sign_zero] at swap
  exact Int.sign_eq_zero_iff_zero.mp (by omega)

def lexList (cmp : α → α → Int) : List α → List α → Int
  | [], [] => 0
  | [], _ :: _ => -1
  | _ :: _, [] => 1
  | a :: as, b :: bs => andThen (cmp a b) (lexList cmp as bs)

theorem lexList_eq_zero (eq_zero : ∀ a b, cmp a b = 0 ↔ a = b) (as bs : List α) : lexList cmp as bs = 0 ↔ as = bs := by
  induction as generalizing bs with
  | nil => cases bs <;> simp [lexList]
  | cons a as ih =>
    cases bs with
    | nil => simp [lexList]
    | cons b bs => rw [lexList, andThen_eq_zero, eq_zero, ih, List.cons.injEq]

theorem lexList_append (self : ∀ a, cmp a a = 0) (common as bs : List α) :
    lexList cmp (common ++ as) (common ++ bs) = lexList cmp as bs := by
  induction common with
  | nil => rfl
  | cons a common ih => rw [List.cons_append, List.cons_append, lexList, andThen, self, if_neg (not_not_intro rfl), ih]

theorem lexList_chained (order : TotalOrder Eq cmp) (as bs cs : List α) :
    Chained (lexList cmp as bs) (lexList cmp bs cs) (lexList cmp as cs) := by
  induction as generalizing bs cs with
  | nil => cases bs <;> cases cs <;> constructor <;> simp [lexList]
  | cons a as ih =>
    cases bs with
    | nil => constructor <;> simp [lexList]
    | cons b bs =>
      cases cs with
      | nil => constructor <;> simp [lexList]
      | cons c cs => exact (order.chained a b c).andThen fun _ _ _ => ih bs cs

theorem lexList_totalOrder (order : TotalOrder Eq cmp) : TotalOrder Eq (lexList cmp) where
  swap as bs := by
    induction as generalizing bs with
    | nil => cases bs <;> rfl
    | cons a as ih =>
      cases bs with
      | nil => rfl
      | cons b bs => rw [lexList, lexList, sign_andThen, sign_andThen, order.swap a b, ih bs, neg_andThen]
  trans as bs cs := (lexList_chained order as bs cs).le
  eq_zero := lexList_eq_zero order.eq_zero

end Culibs.Comparison
