import Culibs.Cucon.Pritree.Sift

namespace Culibs.Cucon

open Function BitVec Option

section Path

namespace Pritree

variable {l : Nat}

theorem intBit_eq (bound : l < 31) : intBit l = BitVec.twoPow 64 l := by
  revert l
  decide

theorem twoPow_ushiftRight (bound : l + 1 < 64) : BitVec.twoPow 64 (l + 1) >>> 1 = BitVec.twoPow 64 l := by
  apply eq_of_toNat_eq
  rw [toNat_ushiftRight, toNat_twoPow_of_lt bound, toNat_twoPow_of_lt (by omega),
    Nat.shiftRight_eq_div_pow, Nat.pow_succ, Nat.pow_one, Nat.mul_div_cancel _ (by decide)]

theorem twoPow_gt_iff (bound : l < 64) (x : Word) : BitVec.twoPow 64 l > x ↔ x.toNat < 2 ^ l := by
  rw [gt_iff_lt, lt_def, toNat_twoPow_of_lt bound]

theorem pathSide_index (n : Word) (above : 2 ^ (j + 1) ≤ n.toNat) (bound : j < 64) :
    (pathSide n (BitVec.twoPow 64 j)).index (n.toNat / 2 ^ (j + 1) - 1) = n.toNat / 2 ^ j - 1 := by
  have pos : 0 < n.toNat / 2 ^ (j + 1) := Nat.div_pos above (Nat.two_pow_pos _)
  have halved : n.toNat / 2 ^ (j + 1) = n.toNat / 2 ^ j / 2 := by rw [Nat.pow_succ, Nat.div_div_eq_div_mul]
  have bit : n.getLsbD j = decide (n.toNat / 2 ^ j % 2 = 1) := by
    rw [BitVec.getLsbD, Nat.testBit_eq_decide_div_mod_eq]
  rw [pathSide, and_twoPow, bit]
  by_cases set : n.toNat / 2 ^ j % 2 = 1
  · have nonzero : twoPow 64 j ≠ 0 := by
      intro zero
      have value := congrArg BitVec.toNat zero
      rw [toNat_twoPow_of_lt bound] at value
      exact (Nat.two_pow_pos j).ne' value
    simp only [set, decide_true, if_true, if_neg nonzero, Branch.index]
    omega
  · have clear : (if decide (n.toNat / 2 ^ j % 2 = 1) = true then twoPow 64 j else 0#64) = 0 :=
      if_neg (by simpa using set)
    rw [if_pos clear]
    simp only [Branch.index]
    omega

end Pritree

end Path

section Update

open BinaryHeap Prinodes

namespace Pritree

variable {α : Type} [LinearOrder α] {tree : Pritree α} {place : Nat → Nat} {n k x : Nat} {priority : α}

/-- A tree is a heap of `n` nodes. -/
structure Stores (tree : Pritree α) (place : Nat → Nat) (n : Nat) : Prop where
  linked : Linked tree.nodes place n
  size : tree.size.toNat = n
  front : tree.front = if n = 0 then none else some (place 0)
  ordered : Ordered (higher α) n (tree.nodes.ranked place)

variable {nodes : Prinodes α}

omit [LinearOrder α] in
private theorem linked_append (linked : Linked nodes place n) (fresh : ¬ Occupies place n x)
    (pos : 0 < n) (free : side.index (parent n) = n) :
    Linked ((((nodes.setChild side (place (parent n)) (some x)).setPrior x (some (place (parent n)))).setChild .left x
      none).setChild .right x none) (update place n x) (n + 1) := by
  have smaller := parent_lt pos
  have old {i : Nat} (bound : i < n) : update place n x i = place i := update_of_ne (by omega) ..
  have apart {i : Nat} (bound : i < n) : place i ≠ x := fun same => fresh ⟨i, bound, same⟩
  refine ⟨fun {i j} boundI boundJ same => ?_, fun {i} bound s => ?_, fun {i} bound => ?_⟩
  · rcases Nat.lt_succ_iff_lt_or_eq.mp boundI with oldI | rfl
    · rcases Nat.lt_succ_iff_lt_or_eq.mp boundJ with oldJ | rfl
      · rw [old oldI, old oldJ] at same
        exact linked.distinct oldI oldJ same
      · rw [old oldI, update_self] at same
        exact absurd same (apart oldI)
    · rcases Nat.lt_succ_iff_lt_or_eq.mp boundJ with oldJ | rfl
      · rw [old oldJ, update_self] at same
        exact absurd same.symm (apart oldJ)
      · rfl
  · simp only [setChild_child, setPrior_child]
    rcases Nat.lt_succ_iff_lt_or_eq.mp bound with oldI | rfl
    · rw [old oldI]
      simp only [apart oldI, and_false, if_false]
      by_cases last : s.index i = n
      · obtain ⟨rfl, rfl⟩ := Branch.index_inj.mp (last.trans free.symm)
        rw [if_pos ⟨rfl, rfl⟩, last, if_pos (Nat.lt_succ_self n), update_self]
      · have other : ¬(s = side ∧ place i = place (parent n)) := fun ⟨onSide, below⟩ =>
          last (by rw [onSide, linked.distinct oldI (by omega) below, free])
        rw [if_neg other, linked.child oldI, update_of_ne last]
        exact if_congr (by omega) rfl rfl
    · have further := s.lt_index i
      rw [update_self, if_neg (show ¬ s.index i < i + 1 by omega)]
      cases s <;> simp
  · simp only [setChild_prior, setPrior_prior, update_apply place]
    rcases Nat.lt_succ_iff_lt_or_eq.mp bound with oldI | rfl
    · rw [if_neg (ne_of_lt oldI), update_of_ne (apart oldI), linked.prior oldI]
      have above : i ≠ 0 → parent i ≠ n := fun inner => by
        have := parent_lt (pos_of_ne_zero inner)
        omega
      split
      · rfl
      · next inner => rw [if_neg (above inner)]
    · rw [if_pos rfl, update_self, if_neg pos.ne', if_neg smaller.ne]

omit [LinearOrder α] in
private theorem insertLoop_spec (linked : Linked nodes place n)
    (isNext : number.toNat = n + 1) (above : 2 ^ (j + 1) ≤ number.toNat) (bound : j + 1 < 64) (enough : j < rounds) :
    insertLoop nodes number rounds (some (place (number.toNat / 2 ^ (j + 1) - 1))) (BitVec.twoPow 64 (j + 1)) =
      some (some (place (parent n)), 1) := by
  induction j generalizing rounds with
  | zero =>
    obtain ⟨rounds, rfl⟩ : ∃ more, rounds = more + 1 := ⟨rounds - 1, by omega⟩
    have last : number.toNat / 2 ^ (0 + 1) - 1 = parent n := by
      rw [isNext, parent]
      omega
    rw [insertLoop, twoPow_ushiftRight bound, if_neg (by decide), last]
    rfl
  | succ j ih =>
    obtain ⟨rounds, rfl⟩ : ∃ more, rounds = more + 1 := ⟨rounds - 1, by omega⟩
    have large : 1 < 2 ^ (j + 1) := Nat.one_lt_two_pow (by omega)
    have half : number.toNat / 2 ^ (j + 1) ≤ number.toNat / 2 := Nat.div_le_div_left (by omega) (by decide)
    have inside : number.toNat / 2 ^ (j + 1 + 1) - 1 < n := by
      have quotient : number.toNat / 2 ^ (j + 1 + 1) ≤ number.toNat / 2 := Nat.div_le_div_left (by omega) (by decide)
      omega
    rw [insertLoop, twoPow_ushiftRight bound, if_pos ((twoPow_gt_iff (by omega) 1).mpr large), bind_some,
      linked.child inside, pathSide_index number above (by omega), if_pos (by omega)]
    exact ih (by omega) (by omega) (by omega)

variable (tree priority) in
theorem increasePriorityTo_spec (linked : Linked tree.nodes place n) (bound : k < n)
    (front : tree.front = some (place 0)) (enough : n ≤ tree.size.toNat)
    (up : UpOrdered (higher α) n k ((tree.nodes.setPriority (place k) priority).ranked place)) :
    ∃ tree' place', increasePriorityTo tree (place k) priority = some tree' ∧ tree'.size = tree.size ∧
      Rearranges (tree.nodes.setPriority (place k) priority) tree'.nodes place place' n ∧
      tree'.front = some (place' 0) ∧ Ordered (higher α) n (tree'.nodes.ranked place') ∧
      ∃ k' ≤ k, place' k' = place k ∧ (0 < k' → priority ≤ tree'.nodes.ranked place' (parent k')) := by
  have value : (tree.nodes.setPriority (place k) priority).ranked place k = priority := by
    rw [ranked, setPriority_priority, update_self]
  have above := (linked.setPriority (place k) priority).prior bound
  rw [increasePriorityTo]
  by_cases root : k = 0
  · rw [if_pos root] at above
    simp only [above]
    refine ⟨_, place, rfl, rfl, .refl (linked.setPriority (place k) priority), front, up.finish fun inner => ?_, k,
      le_refl k, rfl, fun inner => ?_⟩
    · exact absurd root inner.ne'
    · exact absurd root inner.ne'
  · rw [if_neg root] at above
    simp only [above]
    obtain ⟨tree', place', done, moved, size, front', ordered, k', le, isPlace, stops⟩ := increaseLoop_spec
      { tree with nodes := tree.nodes.setPriority (place k) priority } (linked.setPriority (place k) priority)
      bound (pos_of_ne_zero root) front up (tree.size.toNat + 1) (by omega)
    rw [value] at done stops
    exact ⟨tree', place', done, size, moved, front', ordered, k', le, isPlace, stops⟩

/-- The stored nodes with their priorities. -/
def Contains (tree : Pritree α) (place : Nat → Nat) (n : Nat) (stored : Nat → Option α) : Prop :=
  ∀ x p, stored x = some p ↔ Occupies place n x ∧ tree.nodes.priority x = p

section

omit [LinearOrder α]

variable {stored : Nat → Option α}

theorem Contains.fresh (contains : Contains tree place n stored) (absent : stored x = none) :
    ¬ Occupies place n x := fun occupied => by
  rw [(contains x _).mpr ⟨occupied, rfl⟩] at absent
  cases absent

/-- A tree with other nodes in other places where only one node has another priority. -/
theorem Contains.update
    (contains : Contains tree place n stored)
    (occupies : ∀ y, Occupies place' n' y ↔ y = x ∨ Occupies place n y)
    (priorities : tree'.nodes.priority = update tree.nodes.priority x priority) :
    Contains tree' place' n' (update stored x (some priority)) := by
  intro y p
  rw [occupies, priorities]
  by_cases same : y = x
  · subst same
    simp
  · rw [update_of_ne same, update_of_ne same, contains]
    simp [same]

theorem occupies_append (place : Nat → Nat) (n x y : Nat) :
    Occupies (update place n x) (n + 1) y ↔ y = x ∨ Occupies place n y := by
  constructor
  · rintro ⟨i, bound, rfl⟩
    by_cases last : i = n
    · rw [last, update_self]
      exact .inl rfl
    · rw [update_of_ne last]
      exact .inr ⟨i, by omega, rfl⟩
  · rintro (rfl | ⟨i, bound, rfl⟩)
    · exact ⟨n, Nat.lt_succ_self n, update_self ..⟩
    · exact ⟨i, by omega, update_of_ne (by omega) ..⟩

end

private theorem upOrdered_append {nodes' : Prinodes α} (fresh : ¬ Occupies place n x)
    (priorities : nodes'.priority = update nodes.priority x priority)
    (ordered : Ordered (higher α) n (nodes.ranked place)) :
    UpOrdered (higher α) (n + 1) n (nodes'.ranked (update place n x)) := by
  have old {i : Nat} (bound : i < n) : nodes'.ranked (update place n x) i = nodes.ranked place i := by
    rw [ranked, update_of_ne (by omega), priorities, update_of_ne fun same => fresh ⟨i, bound, same⟩, ranked]
  refine ⟨fun i pos bound notLast => ?_, fun i pos bound child _ => ?_⟩
  · have smaller := parent_lt pos
    rw [old (by omega), old (by omega)]
    exact ordered i pos (by omega)
  · have smaller := parent_lt pos
    omega

variable (priority) in
theorem insertInit_spec (stores : Stores tree place n)
    (contains : Contains tree place n stored) (absent : stored x = none) (small : n + 1 < 2 ^ 31) :
    ∃ tree' place', insertInit tree x priority = some tree' ∧ Stores tree' place' (n + 1) ∧
      Contains tree' place' (n + 1) (update stored x (some priority)) := by
  obtain ⟨linked, size, front, ordered⟩ := stores
  have fresh := contains.fresh absent
  have number : (tree.size + 1).toNat = n + 1 := by
    rw [toNat_add, size, show (1 : Word).toNat = 1 from rfl, Nat.mod_eq_of_lt (by omega)]
  have occupies := occupies_append place n x
  rw [insertInit]
  rcases eq_zero_or_pos n with rfl | pos
  · have first : tree.size + 1 = 1 := eq_of_toNat_eq number
    simp only [if_pos first]
    refine ⟨_, update place 0 x, rfl, ⟨⟨?_, ?_, ?_⟩, number, ?_, ?_⟩, contains.update occupies rfl⟩
    · exact fun boundI boundJ _ => (Nat.lt_one_iff.mp boundI).trans (Nat.lt_one_iff.mp boundJ).symm
    · intro i bound s
      obtain rfl := Nat.lt_one_iff.mp bound
      have further := s.lt_index 0
      rw [if_neg (by omega)]
      cases s <;> simp [setChild_child]
    · intro i bound
      obtain rfl := Nat.lt_one_iff.mp bound
      simp
    · rw [if_neg (by decide), update_self]
    · intro i inner bound
      omega
  · have notFirst : tree.size + 1 ≠ 1 := fun same => by
      rw [same] at number
      exact pos.ne' (Nat.succ.inj number).symm
    obtain ⟨l, isLog⟩ : ∃ l, (n + 1).log2 = l + 1 := ⟨(n + 1).log2 - 1, by
      have := (Nat.le_log2 (by omega : n + 1 ≠ 0)).mpr (by omega : 2 ^ 1 ≤ n + 1)
      omega⟩
    have bounds := (Nat.log2_eq_iff (by omega : n + 1 ≠ 0)).mp isLog
    have short : l + 1 < 31 := (Nat.pow_lt_pow_iff_right (by decide : 1 < 2)).mp (lt_of_le_of_lt bounds.1 small)
    have root : (tree.size + 1).toNat / 2 ^ (l + 1) - 1 = 0 := by
      have : (n + 1) / 2 ^ (l + 1) < 2 := Nat.div_lt_of_lt_mul (by rw [pow_succ] at bounds; omega)
      rw [number]
      omega
    have path := insertLoop_spec linked number (j := l) (by rw [number]; exact bounds.1) (by omega) (by omega : l < 64)
    rw [root, ← intBit_eq short] at path
    have isParent : (tree.size + 1).toNat / 2 ^ (0 + 1) - 1 = parent n := by
      rw [parent]
      omega
    have free := pathSide_index (tree.size + 1) (j := 0) (by rw [number]; omega) (by decide)
    rw [isParent, number, Nat.pow_zero, Nat.div_one] at free
    rw [if_neg pos.ne'] at front
    have old {i : Nat} (bound : i < n) : update place n x i = place i := update_of_ne (by omega) ..
    simp only [if_neg notFirst, front, Cu.ulongFloorLog2_eq, number, isLog, path, bind_eq_bind, bind_some]
    have linked' := linked_append linked fresh pos free
    obtain ⟨tree', place', done, size', moved, front', ordered', _⟩ := increasePriorityTo_spec
      { nodes := _, front := some (place 0), size := tree.size + 1 } priority linked'
      (Nat.lt_succ_self n) (congrArg some (old pos).symm) number.ge (by
        rw [update_self]
        exact upOrdered_append fresh rfl ordered)
    rw [update_self] at done moved
    refine ⟨tree', place', done, ⟨moved.linked, (congrArg BitVec.toNat size').trans number, front', ordered'⟩, ?_⟩
    refine contains.update (fun y => (moved.occupies y).trans (occupies y)) ?_
    rw [moved.priority]
    rfl

section Change

variable {nodes : Prinodes α}

section

variable (linked : Linked nodes place n) (bound : k < n) (ordered : Ordered (higher α) n (nodes.ranked place))

include linked bound ordered

/-- The parent of a node that gets another priority stays above the children of the node. -/
theorem ordered_around (pos : 0 < i) (boundI : i < n) (child : parent i = k) (inner : 0 < k) :
    (higher α).prior ((nodes.setPriority (place k) priority).ranked place i)
      ((nodes.setPriority (place k) priority).ranked place (parent k)) = false := by
  have smaller := parent_lt pos
  have above := parent_lt inner
  rw [higher_eq_false, linked.ranked_setPriority bound boundI, linked.ranked_setPriority bound (by omega),
    if_neg (by omega), if_neg (by omega)]
  have outer := ordered i pos boundI
  rw [child] at outer
  exact (higher_eq_false.mp outer).trans (higher_eq_false.mp (ordered k inner bound))

theorem upOrdered_raise (raised : nodes.ranked place k ≤ priority) :
    UpOrdered (higher α) n k ((nodes.setPriority (place k) priority).ranked place) := by
  refine ⟨fun i pos boundI notTop => ?_, fun i pos boundI child inner => ?_⟩
  · have smaller := parent_lt pos
    rw [higher_eq_false, linked.ranked_setPriority bound boundI, linked.ranked_setPriority bound (by omega),
      if_neg notTop]
    split
    · next below =>
      rw [← below] at raised
      exact (higher_eq_false.mp (ordered i pos boundI)).trans raised
    · exact higher_eq_false.mp (ordered i pos boundI)
  · exact ordered_around linked bound ordered pos boundI child inner

theorem downOrdered_lower (lowered : priority ≤ nodes.ranked place k) :
    DownOrdered (higher α) n k ((nodes.setPriority (place k) priority).ranked place) := by
  refine ⟨fun i pos boundI notChild => ?_, fun i pos boundI child inner => ?_⟩
  · have smaller := parent_lt pos
    rw [higher_eq_false, linked.ranked_setPriority bound boundI, linked.ranked_setPriority bound (by omega)]
    split
    · next top =>
      subst top
      exact lowered.trans (higher_eq_false.mp (ordered i pos boundI))
    · exact higher_eq_false.mp (ordered i pos boundI)
  · exact ordered_around linked bound ordered pos boundI child inner

end

end Change

omit [LinearOrder α] in
theorem Contains.change
    (contains : Contains tree place n stored) (occupied : Occupies place n x)
    (moved : Rearranges (tree.nodes.setPriority x priority) tree'.nodes place place' n) :
    Contains tree' place' n (Function.update stored x (some priority)) := by
  refine contains.update (fun y => (moved.occupies y).trans ?_) moved.priority
  constructor
  · exact .inr
  · rintro (rfl | already)
    · exact occupied
    · exact already

variable (priority) in
theorem changePriority_spec (stores : Stores tree place n)
    (contains : Contains tree place n stored) (present : stored x ≠ none) :
    ∃ tree' place', changePriority tree x priority = some tree' ∧ Stores tree' place' n ∧
      Contains tree' place' n (update stored x (some priority)) := by
  obtain ⟨old, isOld⟩ := ne_none_iff_exists'.mp present
  obtain ⟨occupied, hasOld⟩ := (contains x old).mp isOld
  obtain ⟨linked, size, front, ordered⟩ := stores
  obtain ⟨k, bound, rfl⟩ := occupied
  rw [if_neg (by omega)] at front
  have value : tree.nodes.ranked place k = old := hasOld
  rw [changePriority, hasOld]
  split
  · next raised =>
    obtain ⟨tree', place', done, size', moved, front', ordered', _⟩ := increasePriorityTo_spec tree priority linked
      bound front size.ge (upOrdered_raise linked bound ordered (value.trans_le raised.le))
    refine ⟨tree', place', done, ⟨moved.linked, (congrArg BitVec.toNat size').trans size, ?_, ordered'⟩,
      contains.change ⟨k, bound, rfl⟩ moved⟩
    rw [if_neg (by omega)]
    exact front'
  · split
    · next lowered =>
      have down := downOrdered_lower linked bound ordered (lowered.le.trans_eq value.symm)
      have none {p : Prop} (outside : n < n) : p := absurd outside (lt_irrefl n)
      have sinking : Sinking (tree.nodes.setPriority (place k) priority) place n k n _ :=
        ⟨linked.setPriority (place k) priority, bound, ne_of_lt bound, fun _ _ _ => rfl, none, none, down⟩
      obtain ⟨tree', place', f', done, size', sunk, front'⟩ := decreasePriorityTo_spec tree priority sinking (by omega)
      refine ⟨tree', place', done, ⟨sunk.rearranges.linked, (congrArg BitVec.toNat size').trans size, ?_, ?_⟩,
        contains.change ⟨k, bound, rfl⟩ sunk.rearranges⟩
      · rw [if_neg (by omega)]
        exact front' front
      · intro i pos boundI
        have smaller := parent_lt pos
        rw [← sunk.same i boundI (ne_of_lt boundI), ← sunk.same (parent i) (by omega) (by omega)]
        exact sunk.ordered i pos boundI
    · next notRaised notLowered =>
      obtain rfl : priority = old := le_antisymm (not_lt.mp notRaised) (not_lt.mp notLowered)
      refine ⟨tree, place, rfl, ⟨linked, size, ?_, ordered⟩, ?_⟩
      · rw [if_neg (by omega)]
        exact front
      · rw [update_eq_self_iff.mpr isOld.symm]
        exact contains

end Pritree

end Update

end Culibs.Cucon
