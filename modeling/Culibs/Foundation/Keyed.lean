import Mathlib.Data.Finset.Basic

/-! A finite map, represented by a set of nodes with different keys. -/

namespace Culibs

open Function Finset

variable {α κ : Type} {key key' : α → κ} {nodes : Finset α} {contents : κ → Option α} {node : α} {k : κ}

/-- The keys of the nodes are mapped to the nodes. -/
def Keyed (key : α → κ) (nodes : Finset α) (contents : κ → Option α) : Prop :=
  ∀ k a, contents k = some a ↔ a ∈ nodes ∧ key a = k

theorem keyed_empty (key : α → κ) : Keyed key ∅ fun _ => none := by
  intro k a
  simp

section

variable (keyed : Keyed key nodes contents)

include keyed

theorem Keyed.congr (same : ∀ a ∈ nodes, key' a = key a) : Keyed key' nodes contents := by
  intro k a
  rw [keyed k a]
  exact and_congr_right fun mem => by rw [same a mem]

theorem Keyed.absent (absent : contents k = none) : ∀ a ∈ nodes, key a ≠ k := by
  intro a mem same
  have present := (keyed k a).mpr ⟨mem, same⟩
  rw [absent] at present
  cases present

theorem Keyed.unique (memberA : a ∈ nodes) (memberB : b ∈ nodes) (same : key a = key b) : a = b := by
  have storedA := (keyed (key b) a).mpr ⟨memberA, same⟩
  have storedB := (keyed (key b) b).mpr ⟨memberB, rfl⟩
  exact Option.some.inj (storedA.symm.trans storedB)

theorem Keyed.filter (f : α → Bool) :
    Keyed key (nodes.filter fun a => f a = true) fun k => (contents k).filter f := by
  intro k a
  rw [Option.filter_eq_some_iff, keyed k a, mem_filter]
  exact and_right_comm

end

variable [DecidableEq α] [DecidableEq κ]

theorem Keyed.add (keyed : Keyed key nodes contents) (absent : contents k = none) (fresh : node ∉ nodes)
    (isKey : key' node = k) (same : ∀ a, a ≠ node → key' a = key a) :
    Keyed key' (nodes ∪ {node}) (update contents k (some node)) := by
  intro k' a
  rw [update_apply, mem_union, mem_singleton]
  by_cases isNew : a = node
  · subst isNew
    rw [isKey]
    split
    · next same => simp [same]
    · next ne => exact ⟨fun old => absurd ((keyed k' a).mp old).1 fresh, fun both => absurd both.2.symm ne⟩
  · rw [or_iff_left isNew, same a isNew]
    split
    · next same =>
      subst same
      refine ⟨fun back => absurd (Option.some.inj back).symm isNew, fun both => ?_⟩
      exact absurd both.2 (keyed.absent absent a both.1)
    · exact keyed k' a

theorem Keyed.remove (keyed : Keyed key nodes contents) (present : contents k = some node) :
    Keyed key (nodes.erase node) (update contents k none) := by
  intro k' a
  rw [update_apply, mem_erase]
  split
  · next same =>
    subst same
    refine ⟨fun none => (by cases none), fun both => absurd ?_ both.1.1⟩
    have stored := (keyed k' a).mpr ⟨both.1.2, both.2⟩
    exact Option.some.inj (stored.symm.trans present)
  · next ne =>
    rw [keyed k' a, and_assoc]
    refine ⟨fun both => ⟨?_, both⟩, fun both => both.2⟩
    rintro rfl
    exact ne (both.2.symm.trans ((keyed k a).mp present).2)

end Culibs
