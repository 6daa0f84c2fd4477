import Culibs.Cucon.Pritree.Linked

namespace Culibs.Cucon

open BinaryHeap Pritree Option

/-- Higher priorities come first. -/
def higher (α : Type) [LinearOrder α] : StrictWeakOrder α where
  prior a b := decide (b < a)
  irrefl a := decide_eq_false (lt_irrefl a)
  trans first second := by
    rw [decide_eq_true_iff] at first second ⊢
    exact second.trans first
  incomparableTrans := by
    simp only [decide_eq_false_iff_not, not_lt]
    intro a b c first first' second second'
    exact ⟨first.trans second, second'.trans first'⟩

theorem higher_eq_false [LinearOrder α] : (higher α).prior a b = false ↔ a ≤ b := by
  rw [higher, decide_eq_false_iff_not, not_lt]

namespace Prinodes

variable {α : Type} {nodes nodes' nodes'' : Prinodes α} {place place' place'' : Nat → Nat} {n i k c : Nat}
  {side : Branch}

/-- The priority of the node in a place. -/
def ranked (nodes : Prinodes α) (place : Nat → Nat) (i : Nat) : α := nodes.priority (place i)

def Occupies (place : Nat → Nat) (n x : Nat) : Prop := ∃ i < n, place i = x

/-- The same nodes are in other places. -/
structure Rearranges (nodes nodes' : Prinodes α) (place place' : Nat → Nat) (n : Nat) : Prop where
  linked : Linked nodes' place' n
  priority : nodes'.priority = nodes.priority
  occupies : ∀ x, Occupies place' n x ↔ Occupies place n x

theorem Rearranges.refl (linked : Linked nodes place n) : Rearranges nodes nodes place place n :=
  ⟨linked, rfl, fun _ => Iff.rfl⟩

theorem Rearranges.trans (first : Rearranges nodes nodes' place place' n)
    (second : Rearranges nodes' nodes'' place' place'' n) : Rearranges nodes nodes'' place place'' n :=
  ⟨second.linked, second.priority.trans first.priority, fun x => (second.occupies x).trans (first.occupies x)⟩

private theorem occupies_swap (inside : i < n) (inside' : k < n) (x : Nat) :
    Occupies (swap place i k) n x ↔ Occupies place n x := by
  constructor
  · rintro ⟨j, bound, same⟩
    exact ⟨Equiv.swap i k j, swap_lt inside inside' bound, same⟩
  · rintro ⟨j, bound, same⟩
    refine ⟨Equiv.swap i k j, swap_lt inside inside' bound, ?_⟩
    rw [swap, Function.comp_apply, Equiv.swap_apply_self]
    exact same

section

variable (linked : Linked nodes place n)

include linked

theorem Linked.setPriority (t : Nat) (priority : α) :
    Linked (nodes.setPriority t priority) place n := ⟨linked.distinct, linked.child, linked.prior⟩

theorem Linked.ranked_setPriority (inside : k < n) (bound : i < n) (priority : α) :
    (nodes.setPriority (place k) priority).ranked place i = if i = k then priority else nodes.ranked place i := by
  simp only [ranked, setPriority_priority, Function.update_apply, linked.place_inj bound inside]

theorem Linked.exchange (inside : side.index i < n) :
    ∃ nodes', nodes.swapChild side (place i) = some nodes' ∧
      Rearranges nodes nodes' place (swap place i (side.index i)) n ∧
      nodes'.ranked (swap place i (side.index i)) = swap (nodes.ranked place) i (side.index i) := by
  have below := side.lt_index i
  obtain ⟨nodes', swapped, priority, linked'⟩ := linked.swapChild inside
  refine ⟨nodes', swapped, ⟨linked', priority, occupies_swap (by omega) inside⟩, ?_⟩
  funext j
  rw [ranked, priority]
  rfl

theorem Linked.rise (pos : 0 < k) (bound : k < n) :
    ∃ nodes', (if nodes.child .left (place (parent k)) = some (place k) then nodes.swapLeft (place (parent k))
        else nodes.swapRight (place (parent k))) = some nodes' ∧
      Rearranges nodes nodes' place (swap place k (parent k)) n ∧
      nodes'.ranked (swap place k (parent k)) = swap (nodes.ranked place) k (parent k) := by
  have smaller := parent_lt pos
  have onLeft : nodes.child .left (place (parent k)) = some (place k) ↔ Branch.left.index (parent k) = k :=
    linked.child_iff (by omega) bound
  have commute {β : Type} (g : Nat → β) : swap g (parent k) k = swap g k (parent k) := by
    rw [swap, swap, Equiv.swap_comm]
  obtain ⟨side, isChild⟩ := exists_side pos
  obtain ⟨nodes', swapped, moved, ranks⟩ := linked.exchange (by omega : side.index (parent k) < n)
  rw [← isChild, commute] at moved ranks
  rw [commute] at ranks
  refine ⟨nodes', ?_, moved, ranks⟩
  cases side with
  | left =>
    rw [if_pos (onLeft.mpr isChild.symm)]
    exact swapped
  | right =>
    rw [if_neg (mt onLeft.mp fun same => by cases (Branch.index_inj.mp (same.trans isChild)).1)]
    exact swapped

end

section Decrease

variable [LinearOrder α] {priority : α} {f : Nat → α} {t : Nat}

/-- The child that a node with a priority changes places with. -/
def sinks (nodes : Prinodes α) (t : Nat) (priority : α) : Option Branch :=
  match nodes.child .left t, nodes.child .right t with
  | none, _ => none
  | some tl, none => if nodes.priority tl ≤ priority then none else some .left
  | some tl, some tr =>
    if nodes.priority tl ≥ nodes.priority tr then
      if nodes.priority tl ≤ priority then none else some .left
    else if nodes.priority tr ≤ priority then none
    else some .right

/-- The chosen child has a higher priority, and the other child does not have a higher one than it. -/
theorem Linked.sinks_spec (linked : Linked nodes place n) (inside : k < n) (priority : α) :
    (nodes.sinks (place k) priority = none →
      ∀ s : Branch, s.index k < n → nodes.ranked place (s.index k) ≤ priority) ∧
    ∀ side, nodes.sinks (place k) priority = some side → side.index k < n ∧
      priority < nodes.ranked place (side.index k) ∧
      ∀ s : Branch, s.index k < n → nodes.ranked place (s.index k) ≤ nodes.ranked place (side.index k) := by
  rw [sinks, linked.child inside, linked.child inside]
  simp only [Branch.forall]
  by_cases left : Branch.left.index k < n
  · by_cases right : Branch.right.index k < n
    · simp only [if_pos left, if_pos right, ranked]
      grind
    · simp only [if_pos left, if_neg right, ranked]
      grind
  · have right : ¬Branch.right.index k < n := by
      simp only [Branch.index] at left ⊢
      omega
    grind

theorem decreaseLoop_stop (stops : nodes.sinks t priority = none) (rounds : Nat) :
    decreaseLoop (rounds + 1) nodes t priority = some nodes := by
  rw [sinks] at stops
  rw [decreaseLoop]
  cases left : nodes.child .left t with
  | none => rfl
  | some tl =>
    cases right : nodes.child .right t with
    | none =>
      simp only [left, right] at stops ⊢
      split at stops
      · next low => exact if_pos low
      · cases stops
    | some tr =>
      grind

theorem Linked.decreaseLoop_turn (linked : Linked nodes place n) (inside : k < n)
    (sinks : nodes.sinks (place k) priority = some side) (rounds : Nat) :
    decreaseLoop (rounds + 2) nodes (place k) priority =
      (nodes.swapChild side (place k)).bind fun nodes => decreaseLoop (rounds + 1) nodes (place k) priority := by
  have leftChild := linked.child inside .left
  have rightChild := linked.child inside .right
  rw [Prinodes.sinks] at sinks
  rw [decreaseLoop]
  by_cases left : Branch.left.index k < n
  · by_cases right : Branch.right.index k < n
    · rw [if_pos left] at leftChild
      simp only [swapLeft, swapRight]
      grind
    rw [if_pos left] at leftChild
    rw [if_neg right] at rightChild
    simp only [leftChild, rightChild] at sinks ⊢
    split at sinks
    · cases sinks
    · next high =>
      cases sinks
      obtain ⟨nodes', swapped, ⟨linked', _, _⟩, _⟩ := linked.exchange left
      have isLeaf := linked'.child left .left
      rw [swap_right, if_neg (by simp only [Branch.index] at right ⊢; omega)] at isLeaf
      rw [if_neg high, swapLeft, swapped, bind_some, decreaseLoop]
      simp only [isLeaf]
  · rw [if_neg left] at leftChild
    simp only [leftChild] at sinks
    cases sinks

/-- A heap but for the node in a place, and for one other node, which has the lowest priority of all and stands for one
with another priority. -/
structure Sinking (nodes : Prinodes α) (place : Nat → Nat) (n k c : Nat) (f : Nat → α) : Prop where
  linked : Linked nodes place n
  inside : k < n
  apart : k ≠ c
  same : ∀ i < n, i ≠ c → f i = nodes.ranked place i
  lowest : c < n → ∀ i < n, i ≠ c → nodes.ranked place c < nodes.ranked place i
  below : c < n → parent c ≤ k ∧ (parent c = k → f c ≤ f k)
  down : DownOrdered (higher α) n k f

theorem Sinking.turn (sinking : Sinking nodes place n k c f) (bound : side.index k < n)
    (first : f k < nodes.ranked place (side.index k))
    (highest : ∀ s : Branch, s.index k < n → nodes.ranked place (s.index k) ≤ nodes.ranked place (side.index k)) :
    ∃ nodes', nodes.swapChild side (place k) = some nodes' ∧
      Rearranges nodes nodes' place (swap place k (side.index k)) n ∧
      Sinking nodes' (swap place k (side.index k)) n (side.index k) c (swap f k (side.index k)) := by
  obtain ⟨linked, inside, apart, same, lowest, below, down⟩ := sinking
  have further := side.lt_index k
  have notExempt : side.index k ≠ c := by
    rintro rfl
    have low := lowest bound k inside apart
    rw [← same k inside apart] at low
    exact lt_asymm low first
  have value := same _ bound notExempt
  have away {i : Nat} (exempt : i ≠ c) : Equiv.swap k (side.index k) i ≠ c := by
    intro there
    apply exempt
    rw [← Equiv.swap_apply_self k (side.index k) i, there, Equiv.swap_apply_of_ne_of_ne apart.symm notExempt.symm]
  obtain ⟨nodes', swapped, moved, ranks⟩ := linked.exchange bound
  refine ⟨nodes', swapped, moved, moved.linked, bound, notExempt, fun i inI exempt => ?_, fun inC i inI exempt => ?_,
    fun inC => ⟨?_, fun child => ?_⟩, ?_⟩
  · rw [ranks]
    exact same _ (swap_lt inside bound inI) (away exempt)
  · rw [ranks, swap_other _ apart.symm notExempt.symm]
    exact lowest inC _ (swap_lt inside bound inI) (away exempt)
  · have := (below inC).1
    omega
  · have := (below inC).1
    omega
  apply down.move (side.parent_index k) (by omega) bound
  · rw [higher_eq_false, value]
    exact first.le
  intro i pos inI child
  rw [higher_eq_false, value]
  by_cases exempt : i = c
  · subst exempt
    exact ((below inI).2 child).trans first.le
  · obtain ⟨s, isChild⟩ := exists_side pos
    rw [child] at isChild
    rw [same i inI exempt, isChild]
    exact highest s (isChild ▸ inI)

/-- The node has sunk to a place where the heap is in order. -/
structure Sunk (nodes nodes' : Prinodes α) (place place' : Nat → Nat) (n k c : Nat) (f f' : Nat → α) : Prop where
  rearranges : Rearranges nodes nodes' place place' n
  ordered : Ordered (higher α) n f'
  same : ∀ i < n, i ≠ c → f' i = nodes'.ranked place' i
  value : f' c = f c
  exempt : place' c = place c
  above : ∀ i < k, place' i = place i

theorem Sinking.decreaseLoop_spec (sinking : Sinking nodes place n k c f) (rounds : Nat) (enough : n ≤ rounds + k) :
    ∃ nodes' place' f', decreaseLoop rounds nodes (place k) (f k) = some nodes' ∧
      Sunk nodes nodes' place place' n k c f f' ∧
      place' k = place (((nodes.sinks (place k) (f k)).map fun side => side.index k).getD k) := by
  induction distance : n - k using Nat.strongRecOn generalizing k nodes place f rounds with
  | ind distance ih =>
    obtain ⟨linked, inside, apart, same, lowest, below, down⟩ := sinking
    obtain ⟨stops, moves⟩ := linked.sinks_spec inside (f k)
    cases sinks : nodes.sinks (place k) (f k) with
    | none =>
      obtain ⟨rounds, rfl⟩ : ∃ more, rounds = more + 1 := ⟨rounds - 1, by omega⟩
      refine ⟨nodes, place, f, decreaseLoop_stop sinks rounds,
        ⟨.refl linked, down.finish fun i pos bound child => ?_, same, rfl, rfl, fun _ _ => rfl⟩, rfl⟩
      rw [higher_eq_false]
      by_cases exempt : i = c
      · subst exempt
        exact (below bound).2 child
      · obtain ⟨side, isChild⟩ := exists_side pos
        rw [child] at isChild
        rw [same i bound exempt, isChild]
        exact stops sinks side (isChild ▸ bound)
    | some side =>
      obtain ⟨bound, first, highest⟩ := moves side sinks
      obtain ⟨rounds, rfl⟩ : ∃ more, rounds = more + 2 := ⟨rounds - 2, by have := side.lt_index k; omega⟩
      obtain ⟨nodes1, swapped, moved, next⟩ :=
        Sinking.turn ⟨linked, inside, apart, same, lowest, below, down⟩ bound first highest
      have further := side.lt_index k
      have notExempt := next.apart
      obtain ⟨nodes', place', f', done, sunk, _⟩ := ih (n - side.index k) (by omega) next (rounds + 1) (by omega) rfl
      rw [swap_right, swap_right] at done
      refine ⟨nodes', place', f', ?_,
        ⟨moved.trans sunk.rearranges, sunk.ordered, sunk.same, ?_, ?_, fun i above => ?_⟩, ?_⟩
      · rw [linked.decreaseLoop_turn inside sinks, swapped, bind_some, done]
      · rw [sunk.value, swap_other f apart.symm notExempt.symm]
      · rw [sunk.exempt, swap_other place apart.symm notExempt.symm]
      · rw [sunk.above i (by omega), swap_other place (by omega) (by omega)]
      · rw [sunk.above k further, swap_left]
        rfl

theorem Linked.decreaseFront_spec (linked : Linked nodes place n) (inside : k < n) (priority : α) (front : Option Nat) :
    (k ≠ 0 → decreaseFront nodes (place k) front priority = some front) ∧
    (k = 0 → ∀ side, nodes.sinks (place k) priority = some side →
      decreaseFront nodes (place k) front priority = some (some (place (side.index k)))) ∧
    (k = 0 → nodes.sinks (place k) priority = none →
      decreaseFront nodes (place k) front priority = none ∨
      decreaseFront nodes (place k) front priority = some front) := by
  rw [sinks, decreaseFront, linked.child inside, linked.child inside, linked.prior inside]
  by_cases root : k = 0
  · by_cases left : Branch.left.index k < n
    · by_cases right : Branch.right.index k < n
      · simp only [if_pos left, if_pos right, if_pos root]
        grind
      · simp only [if_pos left, if_neg right, if_pos root]
        grind
    · simp only [if_neg left, if_pos root]
      grind
  · simp only [if_neg root]
    grind

end Decrease

end Prinodes

namespace Pritree

open Prinodes

variable {α : Type} [LinearOrder α] {tree : Pritree α} {place : Nat → Nat} {n k c : Nat} {f : Nat → α}
  {priority : α}

variable (tree priority) in
theorem decreasePriorityTo_spec (sinking : Sinking (tree.nodes.setPriority (place k) priority) place n k c f)
    (enough : n ≤ tree.size.toNat + 1 + k) :
    ∃ tree' place' f', decreasePriorityTo tree (place k) priority = some tree' ∧ tree'.size = tree.size ∧
      Sunk (tree.nodes.setPriority (place k) priority) tree'.nodes place place' n k c f f' ∧
      (tree.front = some (place 0) → tree'.front = some (place' 0)) := by
  have value : f k = priority := by
    rw [sinking.same k sinking.inside sinking.apart, ranked, setPriority_priority, Function.update_self]
  obtain ⟨nodes', place', f', done, sunk, top⟩ := sinking.decreaseLoop_spec (tree.size.toNat + 1) enough
  obtain ⟨inner, moves, stays⟩ := sinking.linked.decreaseFront_spec sinking.inside priority tree.front
  rw [value] at done top
  rw [decreasePriorityTo]
  by_cases root : k = 0
  · cases sinks : (tree.nodes.setPriority (place k) priority).sinks (place k) priority with
    | none =>
      rw [sinks, root] at top
      rcases stays root sinks with returns | continues
      · rw [decreaseLoop_stop sinks] at done
        cases done
        simp only [returns]
        exact ⟨_, place', f', rfl, rfl, sunk, fun isFront => isFront.trans (congrArg some top.symm)⟩
      · simp only [continues, done, map_some]
        exact ⟨_, place', f', rfl, rfl, sunk, fun isFront => isFront.trans (congrArg some top.symm)⟩
    | some side =>
      rw [sinks, map_some, getD_some] at top
      simp only [moves root side sinks, done, map_some]
      refine ⟨_, place', f', rfl, rfl, sunk, fun _ => ?_⟩
      rw [← top, root]
  · simp only [inner root, done, map_some]
    refine ⟨_, place', f', rfl, rfl, sunk, fun isFront => isFront.trans ?_⟩
    rw [sunk.above 0 (pos_of_ne_zero root)]

variable (tree) in
theorem increaseLoop_spec (linked : Linked tree.nodes place n) (bound : k < n) (pos : 0 < k)
    (front : tree.front = some (place 0)) (up : UpOrdered (higher α) n k (tree.nodes.ranked place)) (rounds : Nat)
    (enough : k ≤ rounds) :
    ∃ tree' place', increaseLoop rounds tree (place k) (place (parent k)) (tree.nodes.ranked place k) = some tree' ∧
      Rearranges tree.nodes tree'.nodes place place' n ∧ tree'.size = tree.size ∧ tree'.front = some (place' 0) ∧
      Ordered (higher α) n (tree'.nodes.ranked place') ∧
      ∃ k' ≤ k, place' k' = place k ∧
        (0 < k' → tree.nodes.ranked place k ≤ tree'.nodes.ranked place' (parent k')) := by
  induction k using Nat.strongRecOn generalizing tree place rounds with
  | ind k ih =>
    obtain ⟨rounds, rfl⟩ : ∃ more, rounds = more + 1 := ⟨rounds - 1, by omega⟩
    have smaller := parent_lt pos
    rw [increaseLoop]
    by_cases higherThan : tree.nodes.ranked place (parent k) < tree.nodes.ranked place k
    · rw [if_pos (show tree.nodes.priority (place (parent k)) < _ from higherThan)]
      obtain ⟨nodes', swapped, moved, ranks⟩ := linked.rise pos bound
      have up' : UpOrdered (higher α) n (parent k) (nodes'.ranked (swap place k (parent k))) := by
        rw [ranks]
        exact up.move pos bound (higher_eq_false.mpr higherThan.le)
      have own : nodes'.ranked (swap place k (parent k)) (parent k) = tree.nodes.ranked place k := by
        rw [ranks, swap_right]
      have above := moved.linked.prior (show parent k < n by omega)
      rw [swap_right] at above
      rw [swapped, bind_some]
      by_cases root : parent k = 0
      · rw [if_pos root] at above
        simp only [above]
        refine ⟨_, _, rfl, moved, rfl, ?_, up'.finish fun inner => absurd root inner.ne', parent k, smaller.le, ?_, ?_⟩
        · rw [← root, swap_right]
        · exact swap_right ..
        · exact fun inner => absurd root inner.ne'
      · rw [if_neg root] at above
        simp only [above]
        have inner := pos_of_ne_zero root
        obtain ⟨tree', place', done, rearranges, size, front', ordered, k', le, isPlace, stops⟩ :=
          ih (parent k) smaller { tree with nodes := nodes' } moved.linked (by omega) inner
            (front.trans (congrArg some (swap_other place (by omega) (by omega)).symm)) up' rounds (by omega)
        rw [swap_right, own] at done
        rw [swap_right] at isPlace
        rw [own] at stops
        exact ⟨tree', place', done, moved.trans rearranges, size, front', ordered, k', by omega, isPlace, stops⟩
    · rw [if_neg (show ¬ tree.nodes.priority (place (parent k)) < _ from higherThan)]
      refine ⟨tree, place, rfl, .refl linked, rfl, front, up.finish fun _ => ?_, k, le_refl k, rfl, fun _ => ?_⟩
      · rw [higher_eq_false]
        exact not_lt.mp higherThan
      · exact not_lt.mp higherThan

end Pritree

end Culibs.Cucon
