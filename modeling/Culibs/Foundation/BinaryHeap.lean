import Mathlib.Data.Multiset.Range

/-! Binary heaps over a strict weak order, as numberings of the elements: the
element `i` is not prior to the element `parent i`. A sift moves one element that
may be out of order. -/

namespace Culibs

open Function Bool

/-- A strict weak order that is decided by a function. -/
structure StrictWeakOrder (α : Type) where
  prior : α → α → Bool
  irrefl : ∀ a, prior a a = false
  trans : ∀ {a b c}, prior a b = true → prior b c = true → prior a c = true
  incomparableTrans : ∀ {a b c}, prior a b = false → prior b a = false → prior b c = false →
    prior c b = false → prior a c = false ∧ prior c a = false

namespace StrictWeakOrder

variable {α : Type} (order : StrictWeakOrder α) {a b c : α}

theorem asymm (before : order.prior a b = true) : order.prior b a = false := by
  rw [eq_false_iff]
  intro after
  have cycle := order.trans before after
  rw [order.irrefl] at cycle
  cases cycle

theorem notPrior_trans (first : order.prior a b = false) (second : order.prior b c = false) :
    order.prior a c = false := by
  rw [eq_false_iff]
  intro before
  have above : order.prior b a = false := eq_false_iff.mpr fun h => by
    rw [order.trans h before] at second
    cases second
  have below : order.prior c b = false := eq_false_iff.mpr fun h => by
    rw [order.trans before h] at first
    cases first
  rw [(order.incomparableTrans first above second below).1] at before
  cases before

end StrictWeakOrder

namespace BinaryHeap

variable {α : Type} {order : StrictWeakOrder α} {f : Nat → α} {n i j k : Nat}

def parent (i : Nat) : Nat := (i - 1) / 2

theorem parent_lt (pos : 0 < i) : parent i < i := by
  unfold parent
  omega

theorem parent_eq_iff (pos : 0 < i) : parent i = k ↔ i = 2 * k + 1 ∨ i = 2 * k + 2 := by
  unfold parent
  omega

/-- The first `n` elements form a heap. -/
def Ordered (order : StrictWeakOrder α) (n : Nat) (f : Nat → α) : Prop :=
  ∀ i, 0 < i → i < n → order.prior (f i) (f (parent i)) = false

theorem Ordered.front (ordered : Ordered order n f) (bound : i < n) : order.prior (f i) (f 0) = false := by
  induction i using Nat.strongRecOn with
  | ind i ih =>
    rcases Nat.eq_zero_or_pos i with rfl | pos
    · exact order.irrefl _
    · have smaller := parent_lt pos
      exact order.notPrior_trans (ordered i pos bound) (ih _ smaller (by omega))

/-- Two elements exchanged. -/
def swap (f : Nat → α) (i j : Nat) : Nat → α := f ∘ Equiv.swap i j

theorem swap_left (f : Nat → α) (i j : Nat) : swap f i j i = f j := by
  simp [swap]

theorem swap_right (f : Nat → α) (i j : Nat) : swap f i j j = f i := by
  simp [swap]

theorem swap_other (f : Nat → α) (notLeft : k ≠ i) (notRight : k ≠ j) : swap f i j k = f k := by
  simp [swap, Equiv.swap_apply_of_ne_of_ne notLeft notRight]

/-- The first `n` elements. -/
def elements (n : Nat) (f : Nat → α) : Multiset α := (Multiset.range n).map f

theorem elements_succ (n : Nat) (f : Nat → α) : elements (n + 1) f = f n ::ₘ elements n f := by
  rw [elements, Multiset.range_succ, Multiset.map_cons, elements]

theorem elements_congr (same : ∀ i < n, f i = g i) : elements n f = elements n g :=
  Multiset.map_congr rfl fun i mem => same i (Multiset.mem_range.mp mem)

theorem mem_elements : x ∈ elements n f ↔ ∃ i < n, f i = x := by
  simp [elements]

theorem elements_swap (boundLeft : i < n) (boundRight : j < n) : elements n (swap f i j) = elements n f := by
  have moved : (Multiset.range n).map (Equiv.swap i j) = Multiset.range n := by
    refine (Multiset.Nodup.ext ?_ (Multiset.nodup_range n)).mpr fun x => ?_
    · exact (Multiset.nodup_range n).map (Equiv.swap i j).injective
    simp only [Multiset.mem_map, Multiset.mem_range]
    constructor
    · rintro ⟨y, bound, rfl⟩
      rw [Equiv.swap_apply_def]
      split
      · exact boundRight
      split <;> assumption
    · intro bound
      refine ⟨Equiv.swap i j x, ?_, Equiv.swap_apply_self i j x⟩
      rw [Equiv.swap_apply_def]
      split
      · exact boundRight
      split <;> assumption
  rw [elements, swap, ← Multiset.map_map, moved, elements]

section Up

/-- In order but for the element `k`, which may be prior to its parent. -/
structure UpOrdered (order : StrictWeakOrder α) (n k : Nat) (f : Nat → α) : Prop where
  others : ∀ i, 0 < i → i < n → i ≠ k → order.prior (f i) (f (parent i)) = false
  grand : ∀ i, 0 < i → i < n → parent i = k → 0 < k → order.prior (f i) (f (parent k)) = false

theorem UpOrdered.finish (up : UpOrdered order n k f)
    (inOrder : 0 < k → order.prior (f k) (f (parent k)) = false) : Ordered order n f := by
  intro i pos bound
  by_cases same : i = k
  · subst same
    exact inOrder pos
  · exact up.others i pos bound same

/-- An element that its parent is not prior to takes the place of the parent. -/
theorem UpOrdered.move (up : UpOrdered order n k f) (pos : 0 < k) (bound : k < n)
    (outOfOrder : order.prior (f (parent k)) (f k) = false) :
    UpOrdered order n (parent k) (swap f k (parent k)) := by
  have smaller := parent_lt pos
  constructor
  · intro i positiveI boundI notParent
    by_cases same : i = k
    · subst same
      rwa [swap_left, swap_right]
    have fixed : swap f k (parent k) i = f i := swap_other f same notParent
    rw [fixed]
    have inOrder := up.others i positiveI boundI same
    by_cases child : parent i = k
    · rw [child, swap_left]
      exact up.grand i positiveI boundI child pos
    by_cases sibling : parent i = parent k
    · rw [sibling] at inOrder ⊢
      rw [swap_right]
      exact order.notPrior_trans inOrder outOfOrder
    · rwa [swap_other f child sibling]
  · intro i positiveI boundI child positiveParent
    have above : parent (parent k) < parent k := parent_lt positiveParent
    have fixed : swap f k (parent k) (parent (parent k)) = f (parent (parent k)) :=
      swap_other f (by omega) (by omega)
    have inOrder : order.prior (f (parent k)) (f (parent (parent k))) = false :=
      up.others (parent k) positiveParent (by omega) (by omega)
    rw [fixed]
    by_cases same : i = k
    · subst same
      rwa [swap_left]
    · have notParent : i ≠ parent k := by
        have := parent_lt positiveI
        omega
      rw [swap_other f same notParent]
      have below := up.others i positiveI boundI same
      rw [child] at below
      exact order.notPrior_trans below inOrder

end Up

section Down

/-- In order but for the element `k`, to which its children may be prior. -/
structure DownOrdered (order : StrictWeakOrder α) (n k : Nat) (f : Nat → α) : Prop where
  others : ∀ i, 0 < i → i < n → parent i ≠ k → order.prior (f i) (f (parent i)) = false
  grand : ∀ i, 0 < i → i < n → parent i = k → 0 < k → order.prior (f i) (f (parent k)) = false

theorem DownOrdered.finish (down : DownOrdered order n k f)
    (inOrder : ∀ i, 0 < i → i < n → parent i = k → order.prior (f i) (f k) = false) :
    Ordered order n f := by
  intro i pos bound
  by_cases child : parent i = k
  · rw [child]
    exact inOrder i pos bound child
  · exact down.others i pos bound child

/-- The element takes the place of the child that no other child is prior to. -/
theorem DownOrdered.move (down : DownOrdered order n k f) (child : parent j = k) (pos : 0 < j)
    (bound : j < n) (outOfOrder : order.prior (f k) (f j) = false)
    (first : ∀ i, 0 < i → i < n → parent i = k → order.prior (f i) (f j) = false) :
    DownOrdered order n j (swap f k j) := by
  have smaller : k < j := by
    have := parent_lt pos
    omega
  constructor
  · intro i positiveI boundI notChild
    by_cases same : i = j
    · subst same
      rwa [child, swap_left, swap_right]
    by_cases sibling : parent i = k
    · have notTop : i ≠ k := by
        have := parent_lt positiveI
        omega
      rw [sibling, swap_left, swap_other f notTop same]
      exact first i positiveI boundI sibling
    have fixed : swap f k j (parent i) = f (parent i) := swap_other f sibling notChild
    rw [fixed]
    by_cases top : i = k
    · subst top
      rw [swap_left]
      exact down.grand j pos bound child positiveI
    · rw [swap_other f top same]
      exact down.others i positiveI boundI sibling
  · intro i positiveI boundI below _
    have larger := parent_lt positiveI
    rw [child, swap_left, swap_other f (by omega) (by omega)]
    have inOrder := down.others i positiveI boundI (by omega)
    rwa [below] at inOrder

end Down

theorem Ordered.replaceFront (ordered : Ordered order (n + 1) f) :
    DownOrdered order n 0 (update f 0 (f n)) := by
  refine ⟨fun i pos bound notChild => ?_, fun i _ _ _ pos => absurd pos (lt_irrefl 0)⟩
  rw [update_of_ne (by omega), update_of_ne notChild]
  exact ordered i pos (by omega)

theorem elements_replaceFront (n : Nat) (f : Nat → α) :
    elements (n + 1) f = f 0 ::ₘ elements n (update f 0 (f n)) := by
  have agree : ∀ i < n, swap f 0 n i = update f 0 (f n) i := by
    intro i bound
    rcases Nat.eq_zero_or_pos i with rfl | pos
    · rw [swap_left, update_self]
    · rw [swap_other f (by omega) (by omega), update_of_ne (by omega)]
  rw [← elements_swap (i := 0) (j := n) (by omega) (by omega), elements_succ, swap_right, elements_congr agree]

end BinaryHeap

end Culibs
