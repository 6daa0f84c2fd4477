import Culibs.Cucon.Pritree.Basic
import Culibs.Foundation.BinaryHeap

namespace Culibs.Cucon

open BinaryHeap Pritree Function Option

namespace Pritree

/-- The place of a child in the numbering of a binary heap. -/
def Branch.index (side : Branch) (i : Nat) : Nat :=
  match side with
  | left => 2 * i + 1
  | right => 2 * i + 2

variable (side : Branch)
variable (i : Nat)

theorem Branch.index_cases :
    side.index i = 2 * i + 1 ∧ side.other.index i = 2 * i + 2 ∨
      side.index i = 2 * i + 2 ∧ side.other.index i = 2 * i + 1 := by
  cases side
  · exact .inl ⟨rfl, rfl⟩
  · exact .inr ⟨rfl, rfl⟩

@[simp] theorem Branch.parent_index : parent (side.index i) = i := by
  cases side <;> simp only [index, parent] <;> omega

theorem Branch.lt_index : i < side.index i := by
  cases side <;> simp only [index] <;> omega

theorem Branch.other_ne : side.other ≠ side := by
  cases side <;> decide

theorem Branch.index_inj {side s : Branch} {i j : Nat} : side.index i = s.index j ↔ side = s ∧ i = j := by
  cases side <;> cases s <;> simp only [index, true_and, reduceCtorEq, false_and, iff_false] <;> omega

theorem Branch.forall {property : Branch → Prop} : (∀ s, property s) ↔ property .left ∧ property .right :=
  ⟨fun all => ⟨all .left, all .right⟩, fun both s => by cases s <;> [exact both.1; exact both.2]⟩

theorem Branch.eq_iff_eq {a b c : Branch} : (a = b ↔ b = c) ↔ a = c := by
  cases a <;> cases b <;> cases c <;> decide

theorem Branch.either_index {i k : Nat} :
    side.index i = k ∨ side.other.index i = k ↔ 0 < k ∧ parent k = i := by
  constructor
  · rintro (rfl | rfl)
    · exact ⟨Nat.zero_lt_of_lt (side.lt_index i), side.parent_index i⟩
    · exact ⟨Nat.zero_lt_of_lt (side.other.lt_index i), side.other.parent_index i⟩
  · rintro ⟨pos, above⟩
    have either := (parent_eq_iff pos).mp above
    rcases side.index_cases i with ⟨left, right⟩ | ⟨right, left⟩ <;> omega

theorem exists_side {i : Nat} (pos : 0 < i) : ∃ side : Branch, i = side.index (parent i) :=
  ((parent_eq_iff pos).mp rfl).elim (fun left => ⟨.left, left⟩) fun right => ⟨.right, right⟩

end Pritree

namespace Prinodes

variable {α : Type} {nodes nodes' : Prinodes α} {place : Nat → Nat} {n i : Nat} {side : Branch} {t tc : Nat}

/-- The first `n` places have the nodes of a complete binary tree. -/
structure Linked (nodes : Prinodes α) (place : Nat → Nat) (n : Nat) : Prop where
  distinct : ∀ {i j}, i < n → j < n → place i = place j → i = j
  child : ∀ {i}, i < n → ∀ side, nodes.child side (place i) =
    if side.index i < n then some (place (side.index i)) else none
  prior : ∀ {i}, i < n → nodes.prior (place i) = if i = 0 then none else some (place (parent i))

@[simp] theorem setPriority_priority (t : Nat) (priority : α) :
    (nodes.setPriority t priority).priority = update nodes.priority t priority := rfl

@[simp] theorem setPrior_prior (t : Nat) (prior : Option Nat) :
    (nodes.setPrior t prior).prior = update nodes.prior t prior := rfl

@[simp] theorem setPrior_child (t : Nat) (prior : Option Nat) : (nodes.setPrior t prior).child = nodes.child := rfl

@[simp] theorem setPrior_priority (t : Nat) (prior : Option Nat) :
    (nodes.setPrior t prior).priority = nodes.priority := rfl

@[simp] theorem setChild_prior (side : Branch) (t : Nat) (child : Option Nat) :
    (nodes.setChild side t child).prior = nodes.prior := rfl

@[simp] theorem setChild_priority (side : Branch) (t : Nat) (child : Option Nat) :
    (nodes.setChild side t child).priority = nodes.priority := rfl

theorem setChild_child (side s : Branch) (t x : Nat) (child : Option Nat) :
    (nodes.setChild side t child).child s x = if s = side ∧ x = t then child else nodes.child s x := by
  by_cases same : s = side
  · subst same
    simp [setChild, update_apply]
  · simp [setChild, same]

variable (tx : Option Nat)

private theorem adopt_prior (t x : Nat) :
    (nodes.adopt tx t).prior x = if tx = some x then some t else nodes.prior x := by
  cases tx with
  | none => rfl
  | some tx => simp [adopt, update_apply, eq_comm]

@[simp] theorem adopt_child (t : Nat) : (nodes.adopt tx t).child = nodes.child := by
  cases tx <;> rfl

@[simp] theorem adopt_priority (t : Nat) : (nodes.adopt tx t).priority = nodes.priority := by
  cases tx <;> rfl

private theorem swapChild_spec (isChild : nodes.child side t = some tc) (apart : t ≠ tc) (above : nodes.prior t ≠ some t) :
    ∃ nodes', nodes.swapChild side t = some nodes' ∧ nodes'.priority = nodes.priority ∧
      (∀ s x, nodes'.child s x =
        if x = t then nodes.child s tc
        else if x = tc then if s = side then some t else nodes.child s t
        else if nodes.prior t = some x ∧ (s = side ↔ nodes.child side x = some t) then some tc
        else nodes.child s x) ∧
      ∀ x, nodes'.prior x =
        if nodes.child side tc = some x ∨ nodes.child side.other tc = some x then some t
        else if x = t then some tc
        else if nodes.child side.other t = some x then some tc
        else if x = tc then nodes.prior t
        else nodes.prior x := by
  have notSame := side.other_ne
  refine ⟨_, by rw [swapChild, isChild]; exact rfl, ?_, fun s x => ?_, fun x => ?_⟩
  · cases nodes.prior t with
    | none => simp
    | some tp => by_cases onSide : nodes.child side tp = some t <;> simp [onSide]
  · have onOther : s = side.other ↔ s ≠ side := ⟨fun same => same ▸ notSame, (fun ne => by cases side <;> cases s
      <;> first | rfl | exact absurd rfl ne)⟩
    cases up : nodes.prior t with
    | none =>
      simp only [adopt_child, setPrior_child, setChild_child, elim_none]
      grind
    | some tp =>
      by_cases onSide : nodes.child side tp = some t
      · simp only [adopt_child, setPrior_child, setChild_child, elim_some, onSide, if_true]
        grind
      · simp only [adopt_child, setPrior_child, setChild_child, elim_some, onSide, if_false]
        grind
  · have sibling : tc ≠ t := apart.symm
    cases up : nodes.prior t with
    | none =>
      simp only [adopt_prior, setChild_prior, setPrior_prior, setPrior_child, setChild_child, elim_none, update_apply]
      grind
    | some tp =>
      by_cases onSide : nodes.child side tp = some t
      · simp only [adopt_prior, setChild_prior, setPrior_prior, setPrior_child, setChild_child, elim_some, onSide,
          if_true, update_apply]
        grind
      · simp only [adopt_prior, setChild_prior, setPrior_prior, setPrior_child, setChild_child, elim_some, onSide,
          if_false, update_apply]
        grind

section

variable (linked : Linked nodes place n) (inside : i < n)

include linked inside

theorem Linked.prior_ne : nodes.prior (place i) ≠ some (place i) := by
  rw [linked.prior inside]
  split
  · exact nofun
  · next pos =>
    have smaller := parent_lt (pos_of_ne_zero pos)
    intro same
    have := linked.distinct (by omega) inside (some.inj same)
    omega

theorem Linked.place_inj {j : Nat} (inside' : j < n) :
    place i = place j ↔ i = j := ⟨linked.distinct inside inside', congrArg place⟩

theorem Linked.child_iff {j : Nat} (inside' : j < n) :
    nodes.child side (place i) = some (place j) ↔ side.index i = j := by
  rw [linked.child inside]
  split
  · next below => rw [some.injEq, linked.place_inj below inside']
  · next outside =>
    refine ⟨nofun, fun same => ?_⟩
    exact absurd (same ▸ inside') outside

theorem Linked.prior_iff {j : Nat} (inside' : j < n) :
    nodes.prior (place i) = some (place j) ↔ ∃ side : Branch, side.index j = i := by
  rw [linked.prior inside]
  split
  · next root =>
    refine ⟨nofun, fun ⟨side, same⟩ => ?_⟩
    have := side.lt_index j
    omega
  · next below =>
    have pos := pos_of_ne_zero below
    have smaller := parent_lt pos
    rw [some.injEq, linked.place_inj (by omega) inside']
    constructor
    · rintro rfl
      obtain ⟨side, same⟩ := exists_side pos
      exact ⟨side, same.symm⟩
    · rintro ⟨side, rfl⟩
      exact side.parent_index j

end

theorem swap_lt {c j : Nat} (inside : i < n) (inside' : c < n) (bound : j < n) : Equiv.swap i c j < n := by
  rw [Equiv.swap_apply_def]
  split
  · exact inside'
  · split
    · exact inside
    · exact bound

theorem Linked.swapChild (linked : Linked nodes place n) (inside : side.index i < n) :
    ∃ nodes', nodes.swapChild side (place i) = some nodes' ∧ nodes'.priority = nodes.priority ∧
      Linked nodes' (swap place i (side.index i)) n := by
  have below := side.lt_index i
  have top : i < n := by omega
  have isChild := (linked.child top side).trans (if_pos inside)
  have apart : place i ≠ place (side.index i) := fun same => by
    have := linked.distinct top inside same
    omega
  obtain ⟨nodes', swapped, same, child, prior⟩ := swapChild_spec isChild apart (linked.prior_ne top)
  refine ⟨nodes', swapped, same, fun insideJ insideK equal => ?_, fun {j} insideJ s => ?_, fun {j} insideJ => ?_⟩
  · exact (Equiv.swap i (side.index i)).injective
      (linked.distinct (swap_lt top inside insideJ) (swap_lt top inside insideK) equal)
  · rw [child]
    by_cases atTop : j = i
    · subst atTop
      rw [swap_left, if_neg apart.symm, if_pos rfl]
      by_cases onSide : s = side
      · subst onSide
        rw [if_pos rfl, if_pos inside, swap_right]
      · have away : s.index j ≠ j := (s.lt_index j).ne'
        have away' : s.index j ≠ side.index j := fun same => onSide (Branch.index_inj.mp same).1
        rw [if_neg onSide, linked.child top, swap_other place away away']
    · by_cases atChild : j = side.index i
      · subst atChild
        have further := s.lt_index (side.index i)
        rw [swap_right, if_pos rfl, linked.child inside, swap_other place (by omega) (by omega)]
      have onPath : (nodes.prior (place i) = some (place j) ∧
          (s = side ↔ nodes.child side (place j) = some (place i))) ↔ s.index j = i := by
        rw [linked.prior_iff top insideJ, linked.child_iff insideJ top]
        constructor
        · rintro ⟨⟨s', rfl⟩, either⟩
          simp only [Branch.index_inj, and_true] at either ⊢
          exact Branch.eq_iff_eq.mp either
        · rintro rfl
          simp only [Branch.index_inj, and_true]
          exact ⟨⟨s, rfl⟩, eq_comm⟩
      rw [swap_other place atTop atChild, if_neg (mt (linked.distinct insideJ top) atTop),
        if_neg (mt (linked.distinct insideJ inside) atChild)]
      by_cases up : s.index j = i
      · rw [if_pos (onPath.mpr up), up, if_pos top, swap_left]
      · have away : s.index j ≠ side.index i := fun same => atTop (Branch.index_inj.mp same).2
        rw [if_neg (mt onPath.mp up), linked.child insideJ, swap_other place up away]
  · have grand (k : Nat) (insideK : k < n) : (nodes.child side (place (side.index i)) = some (place k) ∨
        nodes.child side.other (place (side.index i)) = some (place k)) ↔ 0 < k ∧ parent k = side.index i := by
      rw [linked.child_iff inside insideK, linked.child_iff inside insideK, Branch.either_index]
    rw [prior]
    by_cases atTop : j = i
    · subst atTop
      rw [swap_left, if_neg (by rw [grand _ inside, Branch.parent_index]; omega), if_neg apart.symm,
        if_neg (by rw [linked.child_iff top inside, Branch.index_inj]; exact fun same => side.other_ne same.1),
        if_pos rfl, linked.prior top]
      split
      · rfl
      · next pos =>
        have smaller := parent_lt (pos_of_ne_zero pos)
        rw [swap_other place (by omega) (by omega)]
    · by_cases atChild : j = side.index i
      · subst atChild
        have away : ¬(0 < i ∧ parent i = side.index i) := fun ⟨pos, same⟩ => by
          have := parent_lt pos
          omega
        rw [swap_right, if_neg (by rwa [grand _ top]), if_pos rfl, if_neg (by omega), Branch.parent_index, swap_left]
      have apartTop := mt (linked.distinct insideJ top) atTop
      have apartChild := mt (linked.distinct insideJ inside) atChild
      have isSibling : nodes.child side.other (place i) = some (place j) ↔ side.other.index i = j :=
        linked.child_iff top insideJ
      rw [swap_other place atTop atChild, if_neg apartTop, if_neg apartChild]
      by_cases up : 0 < j ∧ parent j = side.index i
      · rw [if_pos ((grand j insideJ).mpr up), if_neg up.1.ne', up.2, swap_right]
      rw [if_neg (mt (grand j insideJ).mp up)]
      by_cases sibling : side.other.index i = j
      · subst sibling
        have further := side.other.lt_index i
        rw [if_pos (isSibling.mpr rfl), if_neg (by omega), Branch.parent_index, swap_left]
      rw [if_neg (mt isSibling.mp sibling), linked.prior insideJ]
      split
      · rfl
      · next pos =>
        have pos := pos_of_ne_zero pos
        have away : parent j ≠ i := fun under =>
          ((side.either_index).mpr ⟨pos, under⟩).elim (fun same => atChild same.symm) sibling
        rw [swap_other place away fun under => up ⟨pos, under⟩]

end Prinodes

end Culibs.Cucon
