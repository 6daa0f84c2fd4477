import Mathlib.Tactic.Ring

/-! Memory as a total function from addresses, read and written in ranges. -/

namespace Culibs.Foundation.ByteMemory

open List

variable {α : Type} {mem mem' : Nat → α} {a b m n : Nat} {xs : List α}

def read (mem : Nat → α) (a n : Nat) : List α := (range n).map fun i => mem (a + i)

def write (mem : Nat → α) (a : Nat) (xs : List α) : Nat → α :=
  fun p => if a ≤ p then xs.getD (p - a) (mem p) else mem p

/-- `memcpy`. -/
def copy (mem : Nat → α) (target source n : Nat) : Nat → α := write mem target (read mem source n)

@[simp] theorem length_read : (read mem a n).length = n := by simp [read]

@[simp] theorem read_zero : read mem a 0 = [] := rfl

theorem getElem?_read : (read mem a n)[m]? = if m < n then some (mem (a + m)) else none := by
  rw [read, getElem?_map]
  by_cases below : m < n
  · rw [getElem?_range below, if_pos below]
    rfl
  · rw [if_neg below, getElem?_eq_none (by simpa using below)]
    rfl

theorem read_congr (same : ∀ p, a ≤ p → p < a + n → mem p = mem' p) : read mem a n = read mem' a n := by
  apply map_congr_left
  intro i mem
  have below := mem_range.mp mem
  exact same _ (Nat.le_add_right _ _) (Nat.add_lt_add_left below _)

theorem read_add : read mem a (m + n) = read mem a m ++ read mem (a + m) n := by
  simp only [read, range_add, map_append, map_map]
  congr 1
  apply map_congr_left
  intro i _
  simp only [Function.comp, add_assoc]

theorem write_outside (outside : b < a ∨ a + xs.length ≤ b) : write mem a xs b = mem b := by
  rw [write]
  split
  · next low =>
    rw [getD_eq_getElem?_getD, getElem?_eq_none (by omega)]
    rfl
  · rfl

theorem read_write : read (write mem a xs) a xs.length = xs := by
  apply ext_getElem?
  intro i
  rw [getElem?_read]
  split
  · next below =>
    rw [write, if_pos (Nat.le_add_right _ _), Nat.add_sub_cancel_left, getD_eq_getElem?_getD,
      getElem?_eq_getElem below]
    rfl
  · next beyond => exact (getElem?_eq_none (Nat.le_of_not_lt beyond)).symm

theorem read_write_apart (apart : b + n ≤ a ∨ a + xs.length ≤ b) : read (write mem a xs) b n = read mem b n := by
  refine read_congr fun p low high => write_outside ?_
  omega

theorem write_nil : write mem a [] = mem := by
  funext p
  exact write_outside (by simp; omega)

end Culibs.Foundation.ByteMemory
