import Mathlib.Data.Nat.Prime.Basic
import Mathlib.Tactic.Ring

/-! Dyadic intervals below `2 ^ w`. A number `k` is the centre of the block
`[lo w k, hi w k)` whose radius is the largest power of two dividing it, and
two blocks are disjoint or one lies in one half of the other. -/

namespace Culibs.DyadicBlock

/-- Half the size of the block centred at `k`. Zero is divisible by every power
of two, so its block reaches from zero to `2 ^ w`. -/
def rad (w k : Nat) : Nat := Nat.gcd k (2 ^ w)

/-- First number of the block centred at `k`. -/
def lo (w k : Nat) : Nat := k - rad w k

/-- One past the last number of the block centred at `k`. -/
def hi (w k : Nat) : Nat := k + rad w k

theorem rad_pos (w k : Nat) : 0 < rad w k :=
  Nat.gcd_pos_of_pos_right _ (Nat.two_pow_pos w)

theorem rad_dvd (w k : Nat) : rad w k ∣ k := Nat.gcd_dvd_left _ _

theorem rad_eq_two_pow (w k : Nat) : ∃ t ≤ w, rad w k = 2 ^ t :=
  (Nat.dvd_prime_pow Nat.prime_two).mp (Nat.gcd_dvd_right _ _)

@[simp] theorem rad_zero (w : Nat) : rad w 0 = 2 ^ w := by simp [rad]

variable {w : Nat}

theorem rad_two_pow_mul_odd (below : t ≤ w) :
    rad w (2 ^ t * (2 * m + 1)) = 2 ^ t := by
  have split : 2 ^ w = 2 ^ t * 2 ^ (w - t) := by rw [← Nat.pow_add]; congr 1; omega
  have coprime : Nat.gcd (2 * m + 1) (2 ^ (w - t)) = 1 := by
    apply Nat.Coprime.pow_right
    simp [Nat.coprime_comm]
  rw [rad, split, Nat.gcd_mul_left, coprime, Nat.mul_one]

variable {k : Nat}

/-- Every nonzero number below `2 ^ w` is an odd multiple of its radius. -/
theorem odd_multiple (pos : 0 < k) (below : k < 2 ^ w) :
    ∃ t m, t < w ∧ k = 2 ^ t * (2 * m + 1) ∧ rad w k = 2 ^ t := by
  obtain ⟨t, atMost, radius⟩ := rad_eq_two_pow w k
  obtain ⟨c, multiple⟩ := radius ▸ rad_dvd w k
  have strict : t < w := by
    rcases lt_or_eq_of_le atMost with strict | same
    · exact strict
    · subst same
      rcases eq_zero_or_pos c with zero | positive
      · simp [zero] at multiple; omega
      · have := Nat.le_mul_of_pos_right (2 ^ t) positive
        omega
  rcases Nat.even_or_odd' c with ⟨m, even | odd⟩
  · -- An even cofactor would make the gcd twice as large.
    have twice : 2 ^ (t + 1) ∣ rad w k :=
      Nat.dvd_gcd ⟨m, by rw [multiple, even]; ring⟩ (pow_dvd_pow 2 strict)
    rw [radius] at twice
    have := Nat.le_of_dvd (Nat.two_pow_pos t) twice
    omega
  · exact ⟨t, m, strict, by rw [multiple, odd], radius⟩

theorem lo_le (w k : Nat) : lo w k ≤ k := Nat.sub_le _ _

theorem lt_hi (w k : Nat) : k < hi w k := Nat.lt_add_of_pos_right (rad_pos w k)

theorem lo_lt (pos : 0 < k) : lo w k < k := Nat.sub_lt pos (rad_pos w k)

@[simp] theorem lo_zero (w : Nat) : lo w 0 = 0 := by simp [lo]

@[simp] theorem hi_zero (w : Nat) : hi w 0 = 2 ^ w := by simp [hi]

theorem lo_add_rad (pos : 0 < k) : lo w k + rad w k = k :=
  Nat.sub_add_cancel (Nat.le_of_dvd pos (rad_dvd w k))

theorem bounds_dvd (pos : 0 < k) (below : k < 2 ^ w) :
    2 * rad w k ∣ lo w k ∧ 2 * rad w k ∣ hi w k := by
  obtain ⟨t, m, _, multiple, radius⟩ := odd_multiple pos below
  rw [lo, hi, radius]
  constructor
  · refine ⟨m, ?_⟩
    have : k = 2 * 2 ^ t * m + 2 ^ t := by rw [multiple]; ring
    omega
  · exact ⟨m + 1, by rw [multiple]; ring⟩

theorem hi_le (below : k < 2 ^ w) : hi w k ≤ 2 ^ w := by
  rcases eq_zero_or_pos k with zero | pos
  · simp [zero]
  obtain ⟨t, m, strict, multiple, radius⟩ := odd_multiple pos below
  have step : 2 ^ w = 2 ^ t * 2 ^ (w - t) := by rw [← pow_add]; congr 1; omega
  rw [hi, radius, multiple]
  rw [multiple, step] at below
  have bound := lt_of_mul_lt_mul_left below
  calc 2 ^ t * (2 * m + 1) + 2 ^ t = 2 ^ t * (2 * m + 2) := by ring
    _ ≤ 2 ^ t * 2 ^ (w - t) := Nat.mul_le_mul_left _ (by omega)
    _ = 2 ^ w := step.symm

theorem aligned_outside {d p l : Nat} (point : d ∣ p) (start : d ∣ l) : p ≤ l ∨ l + d ≤ p := by
  obtain ⟨a, rfl⟩ := point
  obtain ⟨b, rfl⟩ := start
  rcases lt_or_ge b a with less | more
  · right
    calc d * b + d = d * (b + 1) := by ring
      _ ≤ d * a := Nat.mul_le_mul_left d less
  · exact .inl (Nat.mul_le_mul_left d more)

private theorem laminar_of_smaller {w k0 k1 : Nat} (below1 : k1 < 2 ^ w)
    (pos1 : 0 < k1) (smaller : rad w k1 < rad w k0) :
    hi w k1 ≤ lo w k0 ∨ hi w k0 ≤ lo w k1 ∨
      (lo w k0 ≤ lo w k1 ∧ hi w k1 ≤ k0) ∨ (k0 ≤ lo w k1 ∧ hi w k1 ≤ hi w k0) := by
  obtain ⟨t0, _, radius0⟩ := rad_eq_two_pow w k0
  obtain ⟨t1, _, radius1⟩ := rad_eq_two_pow w k1
  have order : t1 < t0 := by
    rw [radius0, radius1] at smaller
    exact (Nat.pow_lt_pow_iff_right (by omega)).mp smaller
  have double : 2 * rad w k1 ∣ rad w k0 := by
    rw [radius0, radius1, ← pow_succ']
    exact pow_dvd_pow 2 order
  have start := (bounds_dvd pos1 below1).1
  have size : hi w k1 = lo w k1 + 2 * rad w k1 := by
    have := lo_add_rad (w := w) pos1
    rw [hi]; omega
  -- All three marks of the larger block are multiples of the smaller block's size.
  have centre := aligned_outside (double.trans (rad_dvd w k0)) start
  have upper := aligned_outside
    (p := hi w k0) (Nat.dvd_add (double.trans (rad_dvd w k0)) double) start
  have lower := aligned_outside
    (p := lo w k0) (Nat.dvd_sub (double.trans (rad_dvd w k0)) double) start
  omega

variable {k0 k1 : Nat}

/-- Blocks of distinct centres are disjoint, or one lies in a half of the other. -/
theorem laminar (below0 : k0 < 2 ^ w) (below1 : k1 < 2 ^ w)
    (ne : k0 ≠ k1) :
    hi w k1 ≤ lo w k0 ∨ hi w k0 ≤ lo w k1 ∨
      (lo w k0 ≤ lo w k1 ∧ hi w k1 ≤ k0) ∨ (k0 ≤ lo w k1 ∧ hi w k1 ≤ hi w k0) ∨
      (lo w k1 ≤ lo w k0 ∧ hi w k0 ≤ k1) ∨ (k1 ≤ lo w k0 ∧ hi w k0 ≤ hi w k1) := by
  rcases eq_zero_or_pos k0 with zero0 | pos0
  · subst zero0
    simp [hi_le below1]
  rcases eq_zero_or_pos k1 with zero1 | pos1
  · subst zero1
    simp [hi_le below0]
  rcases lt_trichotomy (rad w k1) (rad w k0) with smaller | same | larger
  · have := laminar_of_smaller below1 pos1 smaller
    omega
  · have start0 := (bounds_dvd pos0 below0).1
    have start1 := (bounds_dvd pos1 below1).1
    rw [same] at start1
    have inside := aligned_outside start0 start1
    have outside := aligned_outside start1 start0
    have := lo_add_rad (w := w) pos0
    have := lo_add_rad (w := w) pos1
    simp only [hi]
    omega
  · have := laminar_of_smaller below0 pos0 larger
    omega

/-- `k0` covers `k1` when `k1` is inside the block of `k0` but not its first number. -/
def Covers (w k0 k1 : Nat) : Prop := lo w k0 < k1 ∧ k1 < hi w k0

theorem Covers.left (covers : Covers w k0 k1) (below0 : k0 < 2 ^ w)
    (below1 : k1 < 2 ^ w) (less : k1 < k0) : lo w k0 ≤ lo w k1 ∧ hi w k1 ≤ k0 := by
  have cases := laminar below0 below1 (by omega)
  have := lo_le w k1
  have := lt_hi w k1
  simp only [Covers] at covers
  omega

theorem Covers.right (covers : Covers w k0 k1) (below0 : k0 < 2 ^ w)
    (below1 : k1 < 2 ^ w) (more : k0 < k1) : k0 ≤ lo w k1 ∧ hi w k1 ≤ hi w k0 := by
  have cases := laminar below0 below1 (by omega)
  have := lo_le w k1
  have := lt_hi w k1
  simp only [Covers] at covers
  omega

theorem disjoint_of_not_covers (below0 : k0 < 2 ^ w) (below1 : k1 < 2 ^ w)
    (less : k0 < k1) (apart0 : ¬ Covers w k0 k1) (apart1 : ¬ Covers w k1 k0) :
    hi w k0 ≤ lo w k1 := by
  rcases eq_zero_or_pos k0 with zero | pos
  · subst zero
    exact absurd ⟨by simpa using less, by simpa using below1⟩ apart0
  have cases := laminar below0 below1 (by omega)
  have := lt_hi w k1
  have := lo_lt (w := w) pos
  simp only [Covers] at apart0 apart1
  omega

/-- A block that ends before the larger of two numbers, the smaller one being
its member, lies in the left half of a block that has them in its two halves. -/
theorem join_left_half (below : c < 2 ^ w) (belowJ : j < 2 ^ w)
    (inside : lo w c ≤ k0 ∧ k0 < hi w c) (beyond : hi w c ≤ k1) (start : lo w j ≤ k0) (left : k0 < j)
    (stop : k1 < hi w j) : lo w j ≤ lo w c ∧ hi w c ≤ j := by
  have := lt_hi w c
  have ne : j ≠ c := by
    intro same
    subst same
    omega
  have cases := laminar belowJ below ne
  omega

/-- Two numbers in disjoint blocks that the halves of a third block separate
take their whole blocks along into the halves. -/
theorem join_halves (below0 : c0 < 2 ^ w) (below1 : c1 < 2 ^ w)
    (belowJ : j < 2 ^ w) (inside0 : lo w c0 ≤ k0 ∧ k0 < hi w c0)
    (inside1 : lo w c1 ≤ k1 ∧ k1 < hi w c1) (apart : hi w c0 ≤ lo w c1) (start : lo w j ≤ k0)
    (left : k0 < j) (right : j ≤ k1) (stop : k1 < hi w j) :
    lo w j ≤ lo w c0 ∧ hi w c0 ≤ j ∧ j ≤ lo w c1 ∧ hi w c1 ≤ hi w j := by
  have left_half := join_left_half below0 belowJ inside0 (by omega) start left stop
  have different1 : j ≠ c1 := by
    intro same
    subst same
    omega
  have := lo_le w c1
  have cases1 := laminar belowJ below1 different1
  omega

theorem block_of_first_bits (bit : n < w) :
    lo w (2 ^ n * (2 * q + 1)) = 2 ^ (n + 1) * q ∧
      hi w (2 ^ n * (2 * q + 1)) = 2 ^ (n + 1) * (q + 1) := by
  rw [lo, hi, rad_two_pow_mul_odd (le_of_lt bit)]
  constructor
  · have : 2 ^ n * (2 * q + 1) = 2 ^ (n + 1) * q + 2 ^ n := by ring
    omega
  · ring

end Culibs.DyadicBlock
