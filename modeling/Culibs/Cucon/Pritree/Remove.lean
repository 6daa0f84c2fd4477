import Culibs.Cucon.Pritree.Update

namespace Culibs.Cucon

open BinaryHeap Prinodes Function BitVec Option Nat

namespace Pritree

variable {α : Type} [LinearOrder α] [BoundedOrder α] {tree tree' : Pritree α} {place place' : Nat → Nat}
  {n k x r : Nat} {stored : Nat → Option α} {side : Branch}

/-- The removed node `r` is at the place `k`. -/
structure Removing (tree : Pritree α) (place : Nat → Nat) (n k r : Nat) : Prop where
  linked : Linked tree.nodes place n
  inside : k < n
  isPlace : place k = r
  lowest : tree.nodes.priority r = ⊥
  others : ∀ y, Occupies place n y → y ≠ r → ⊥ < tree.nodes.priority y
  down : DownOrdered (higher α) n k (tree.nodes.ranked place)
  room : n ≤ tree.size.toNat + 1

theorem Removing.bot_lt (removing : Removing tree place n k r) (bound : i < n) (other : i ≠ k) :
    ⊥ < tree.nodes.ranked place i := by
  apply removing.others (place i) ⟨i, bound, rfl⟩
  intro same
  exact other (removing.linked.distinct bound removing.inside (same.trans removing.isPlace.symm))

variable {nodes : Prinodes α}

omit [LinearOrder α] [BoundedOrder α] in
private theorem setPriority_self (t : Nat) : nodes.setPriority t (nodes.priority t) = nodes := by
  rw [Prinodes.setPriority, update_eq_self]

/-- After the exchange with a child, the child sinks on the other side. The removed node stands for one with the priority
of the child. -/
theorem Removing.sinking (removing : Removing tree place n k r) (bound : side.index k < n)
    (moved : Rearranges tree.nodes nodes place (swap place k (side.index k)) n) :
    Sinking nodes (swap place k (side.index k)) n k (side.index k)
      (update (nodes.ranked (swap place k (side.index k))) (side.index k)
        (tree.nodes.ranked place (side.index k))) := by
  have further := side.lt_index k
  have isChild := side.parent_index k
  have ranks : nodes.ranked (swap place k (side.index k)) = swap (tree.nodes.ranked place) k (side.index k) := by
    funext j
    rw [ranked, moved.priority]
    rfl
  have low : tree.nodes.ranked place k = ⊥ := (congrArg _ removing.isPlace).trans removing.lowest
  rw [ranks]
  have bot {i : Nat} := removing.bot_lt (i := i)
  have down := removing.down
  have inside := removing.inside
  generalize tree.nodes.ranked place = f at low bot down ranks ⊢
  have atTop : update (swap f k (side.index k)) (side.index k) (f (side.index k)) k = f (side.index k) := by
    rw [update_of_ne further.ne, swap_left]
  have atChild : update (swap f k (side.index k)) (side.index k) (f (side.index k)) (side.index k) =
      f (side.index k) := update_self ..
  have elsewhere {i : Nat} (notTop : i ≠ k) (notChild : i ≠ side.index k) :
      update (swap f k (side.index k)) (side.index k) (f (side.index k)) i = f i := by
    rw [update_of_ne notChild, swap_other f notTop notChild]
  refine ⟨moved.linked, inside, further.ne, fun i _ notChild => ?_, fun _ i boundI notChild => ?_,
    fun _ => ⟨isChild.le, fun _ => ?_⟩,
    ⟨fun i pos boundI notUnder => ?_, fun i pos boundI under inner => ?_⟩⟩
  · rw [ranks, update_of_ne notChild]
  · rw [ranks, swap_right, low]
    by_cases top : i = k
    · rw [top, swap_left]
      exact bot bound further.ne'
    · rw [swap_other f top notChild]
      exact bot boundI top
  · rw [atTop, atChild]
  · have smaller := parent_lt pos
    rw [higher_eq_false]
    by_cases top : i = k
    · subst top
      rw [atTop, elsewhere (by omega) (by omega)]
      exact higher_eq_false.mp (down.grand _ (by omega) bound isChild pos)
    have notChild : i ≠ side.index k := by
      rintro rfl
      exact notUnder isChild
    have inOrder := higher_eq_false.mp (down.others i pos boundI notUnder)
    rw [elsewhere top notChild]
    by_cases below : parent i = side.index k
    · rw [below, atChild, ← below]
      exact inOrder
    · rw [elsewhere notUnder below]
      exact inOrder
  · have above := parent_lt inner
    rw [higher_eq_false, elsewhere (i := parent k) (by omega) (by omega)]
    have inOrder := higher_eq_false.mp (down.grand i pos boundI under inner)
    by_cases child : i = side.index k
    · rw [child, atChild, ← child]
      exact inOrder
    · have smaller := parent_lt pos
      rw [elsewhere (by omega) child]
      exact inOrder

theorem popStep_spec (number m : Word) (removing : Removing tree place n k r) (side : Branch)
    (isSide : pathSide number m = side) (bound : side.index k < n) :
    ∃ tree' place', popStep tree r number m = some tree' ∧ Removing tree' place' n (side.index k) r ∧
      tree'.size = tree.size ∧ Rearranges tree.nodes tree'.nodes place place' n ∧
      (0 < k → tree.front = some (place 0) → tree'.front = some (place' 0)) := by
  obtain ⟨nodes, swapped, moved, _⟩ := removing.linked.exchange bound
  obtain ⟨f, sinking⟩ : ∃ f, Sinking nodes (swap place k (side.index k)) n k (side.index k) f :=
    ⟨_, removing.sinking bound moved⟩
  have isChild := (removing.linked.child removing.inside side).trans (if_pos bound)
  rw [removing.isPlace] at swapped isChild
  have place0 : swap place k (side.index k) k = place (side.index k) := swap_left ..
  have sinking' : Sinking (nodes.setPriority (swap place k (side.index k) k) (nodes.priority (place (side.index k))))
      (swap place k (side.index k)) n k (side.index k) f := by
    rw [place0, setPriority_self]
    exact sinking
  obtain ⟨tree', place', f', done, size, sunk, front⟩ := decreasePriorityTo_spec { tree with nodes }
    (nodes.priority (place (side.index k))) sinking' (by have := removing.room; simp only; omega)
  rw [place0] at done sunk
  simp only [setPriority_self] at sunk
  rw [popStep, isSide]
  simp only [isChild, swapped, bind_some]
  have further := side.lt_index k
  have isParent := side.parent_index k
  have rearranges := moved.trans sunk.rearranges
  refine ⟨tree', place', done, ⟨rearranges.linked, bound, ?_, ?_, fun y occupied other => ?_, ⟨?_, ?_⟩, ?_⟩, size,
    rearranges, fun inner isFront => front ?_⟩
  · rw [sunk.exempt, swap_right, removing.isPlace]
  · rw [rearranges.priority, removing.lowest]
  · rw [rearranges.priority]
    exact removing.others y ((rearranges.occupies y).mp occupied) other
  · intro i pos boundI notUnder
    have smaller := parent_lt pos
    rw [higher_eq_false]
    by_cases child : i = side.index k
    · rw [child, ranked, sunk.exempt, swap_right, removing.isPlace, rearranges.priority, removing.lowest]
      exact bot_le
    · rw [← sunk.same i boundI child, ← sunk.same (parent i) (by omega) notUnder]
      exact higher_eq_false.mp (sunk.ordered i pos boundI)
  · intro i pos boundI under inner
    have smaller := parent_lt pos
    rw [higher_eq_false, isParent, ← sunk.same i boundI (by omega), ← sunk.same k (by omega) (by omega)]
    have first := higher_eq_false.mp (sunk.ordered i pos boundI)
    have second := higher_eq_false.mp (sunk.ordered _ inner bound)
    rw [under] at first
    rw [isParent] at second
    exact first.trans second
  · rw [size]
    exact removing.room
  · rw [swap_other place inner.ne (by omega)]
    exact isFront

variable (tree) in
private theorem popLoop_spec (isNumber : number.toNat = n) (bound : j < 64) (above : 2 ^ (j + 1) ≤ n)
    (removing : Removing tree place n (n / 2 ^ j - 1) r) (front : tree.front = some (place 0))
    (enough : j < rounds) :
    ∃ tree' place', popLoop rounds tree r number (twoPow 64 j) = some tree' ∧
      Removing tree' place' n (n - 1) r ∧ tree'.size = tree.size ∧
      Rearranges tree.nodes tree'.nodes place place' n ∧ tree'.front = some (place' 0) := by
  induction j generalizing tree place rounds with
  | zero =>
    obtain ⟨rounds, rfl⟩ : ∃ more, rounds = more + 1 := ⟨rounds - 1, by omega⟩
    rw [Nat.pow_zero, Nat.div_one] at removing
    exact ⟨tree, place, rfl, removing, rfl, .refl removing.linked, front⟩
  | succ j ih =>
    obtain ⟨rounds, rfl⟩ : ∃ more, rounds = more + 1 := ⟨rounds - 1, by omega⟩
    have next := pathSide_index number (j := j) (by omega) (by omega)
    rw [isNumber] at next
    have inner : 0 < n / 2 ^ (j + 1) - 1 := by
      have := (Nat.le_div_iff_mul_le (Nat.two_pow_pos (j + 1)) (x := 2) (y := n)).mpr (by omega)
      omega
    have last : n / 2 ^ j ≤ n := div_le_self ..
    obtain ⟨tree1, place1, done, removing1, size1, moved1, front1⟩ := popStep_spec number
      (BitVec.twoPow 64 j) removing _ rfl (by have := Nat.two_pow_pos (j + 1); omega)
    rw [next] at removing1
    obtain ⟨tree', place', done', removing', size', moved', front'⟩ := ih tree1 (by omega) (by omega) removing1
      (front1 inner front) (by omega : j < rounds)
    refine ⟨tree', place', ?_, removing', size'.trans size1, moved1.trans moved', front'⟩
    rw [popLoop, twoPow_ushiftRight bound, if_pos ((twoPow_gt_iff (by omega) 0).mpr (Nat.two_pow_pos j)), done,
      bind_some, done']

theorem Removing.unlink (removing : Removing tree place n (n - 1) r) (more : 1 < n) :
    ∃ nodes, unlink tree.nodes r = some nodes ∧ Linked nodes place (n - 1) ∧
      nodes.priority = tree.nodes.priority := by
  have linked := removing.linked
  have inside := removing.inside
  have smaller := parent_lt (i := n - 1) (by omega)
  have above := linked.prior inside
  rw [if_neg (by omega), removing.isPlace] at above
  obtain ⟨side, isChild⟩ := exists_side (i := n - 1) (by omega)
  have onLeft : tree.nodes.child .left (place (parent (n - 1))) = some (place (n - 1)) ↔
      Branch.left.index (parent (n - 1)) = n - 1 := linked.child_iff (by omega) inside
  rw [removing.isPlace] at onLeft
  refine ⟨tree.nodes.setChild side (place (parent (n - 1))) none, ?_,
    ⟨?_, fun {i} bound s => ?_, fun {i} bound => ?_⟩, rfl⟩
  · rw [Pritree.unlink, above, map_some]
    cases side with
    | left => rw [if_pos (onLeft.mpr isChild.symm)]
    | right => rw [if_neg (mt onLeft.mp fun same => by cases (Branch.index_inj.mp (same.trans isChild)).1)]
  · exact fun boundI boundJ => linked.distinct (by omega) (by omega)
  · rw [setChild_child, linked.child (by omega : i < n)]
    by_cases last : s.index i = n - 1
    · obtain ⟨rfl, rfl⟩ := Branch.index_inj.mp (last.trans isChild)
      rw [if_pos ⟨rfl, rfl⟩, if_neg (by omega)]
    · have other : ¬(s = side ∧ place i = place (parent (n - 1))) := fun ⟨onSide, below⟩ =>
        last (by rw [onSide, linked.distinct (by omega) (by omega) below, ← isChild])
      rw [if_neg other]
      exact if_congr (by omega) rfl rfl
  · rw [setChild_prior, linked.prior (by omega : i < n)]

omit [LinearOrder α] [BoundedOrder α] in
private theorem occupies_init (linked : Linked nodes place n) (pos : 0 < n) (y : Nat) :
    Occupies place (n - 1) y ↔ Occupies place n y ∧ y ≠ place (n - 1) := by
  constructor
  · rintro ⟨i, bound, rfl⟩
    refine ⟨⟨i, by omega, rfl⟩, fun same => ?_⟩
    have := linked.distinct (by omega) (by omega) same
    omega
  · rintro ⟨⟨i, bound, rfl⟩, other⟩
    refine ⟨i, ?_, rfl⟩
    have : i ≠ n - 1 := fun same => other (congrArg place same)
    omega

omit [LinearOrder α] [BoundedOrder α] in
theorem Contains.remove (contains : Contains tree place n stored)
    (occupies : ∀ y, Occupies place' n' y ↔ Occupies place n y ∧ y ≠ x)
    (priorities : ∀ y, y ≠ x → tree'.nodes.priority y = tree.nodes.priority y) :
    Contains tree' place' n' (Function.update stored x none) := by
  intro y p
  rw [occupies]
  by_cases same : y = x
  · subst same
    simp
  · rw [update_of_ne same, priorities y same, contains]
    simp [same]

theorem pop_spec (stores : Stores tree place n) (contains : Contains tree place n stored) (pos : 0 < n)
    (small : n < 2 ^ 31) (bounded : ∀ y p, stored y = some p → ⊥ < p) :
    ∃ tree' place', pop tree = some tree' ∧ Stores tree' place' (n - 1) ∧
      Contains tree' place' (n - 1) (update stored (place 0) none) := by
  obtain ⟨linked, size, front, ordered⟩ := stores
  have size' : (tree.size - 1).toNat = n - 1 := by
    rw [toNat_sub_of_le (by rw [le_def, size]; exact pos), size]
    rfl
  rw [if_neg pos.ne'] at front
  rw [pop]
  by_cases last : n = 1
  · subst last
    have single : tree.size = 1 := eq_of_toNat_eq size
    simp only [if_pos single]
    refine ⟨_, place, rfl, ⟨⟨?_, ?_, ?_⟩, size', rfl, ?_⟩, ?_⟩
    · exact fun bound => absurd bound (not_lt_zero _)
    · exact fun bound => absurd bound (not_lt_zero _)
    · exact fun bound => absurd bound (not_lt_zero _)
    · exact fun i _ bound => absurd bound (not_lt_zero i)
    · exact contains.remove (fun y => occupies_init linked pos y) fun _ _ => rfl
  · have several : tree.size ≠ 1 := fun same => by
      rw [same] at size
      exact last size.symm
    obtain ⟨j, isLog⟩ : ∃ j, n.log2 = j + 1 := ⟨n.log2 - 1, by
      have := (le_log2 pos.ne').mpr (by omega : 2 ^ 1 ≤ n)
      omega⟩
    have bounds := (log2_eq_iff pos.ne').mp isLog
    have short : j + 1 < 31 := (Nat.pow_lt_pow_iff_right (by decide : 1 < 2)).mp (lt_of_le_of_lt bounds.1 small)
    have root : n / 2 ^ (j + 1) - 1 = 0 := by
      have : n / 2 ^ (j + 1) < 2 := Nat.div_lt_of_lt_mul (by rw [pow_succ] at bounds; omega)
      omega
    have first := pathSide_index tree.size (j := j) (by rw [size]; exact bounds.1) (by omega)
    rw [size, root] at first
    have inside : n / 2 ^ j - 1 < n := by
      have := div_le_self n (2 ^ j)
      omega
    have removing : Removing { tree with size := tree.size - 1, nodes := tree.nodes.setPriority (place 0) ⊥ } place n 0
        (place 0) := by
      refine ⟨linked.setPriority _ _, pos, rfl, update_self .., fun y occupied other => ?_,
        downOrdered_lower linked pos ordered bot_le, by simp only [size']; omega⟩
      rw [setPriority_priority, update_of_ne other]
      exact bounded y _ ((contains y _).mpr ⟨occupied, rfl⟩)
    obtain ⟨tree1, place1, done1, removing1, size1, moved1, _⟩ := popStep_spec tree.size
      (twoPow 64 j) removing _ rfl (by rw [first]; exact inside)
    have above := removing1.linked.prior removing1.inside
    rw [removing1.isPlace, if_neg (by have := (pathSide tree.size (twoPow 64 j)).lt_index 0; omega),
      Branch.parent_index] at above
    rw [first] at removing1
    obtain ⟨tree2, place2, done2, removing2, size2, moved2, front2⟩ := popLoop_spec
      { tree1 with front := tree1.nodes.prior (place 0) } size (by omega : j < 64) bounds.1
      ⟨removing1.linked, removing1.inside, removing1.isPlace, removing1.lowest, removing1.others,
        removing1.down, removing1.room⟩ above (by omega : j < 64)
    obtain ⟨nodes, unlinked, linked', priorities⟩ := removing2.unlink (by omega)
    have priorities2 := priorities.trans (moved2.priority.trans moved1.priority)
    refine ⟨{ tree2 with nodes }, place2, ?_, ⟨linked', ?_, ?_, ?_⟩, contains.remove (fun y => ?_) fun y other => ?_⟩
    · rw [front] at done1
      simp only [if_neg several, front, Cu.ulongFloorLog2_eq, size, isLog, Nat.add_sub_cancel,
        intBit_eq (by omega : j < 31), bind_eq_bind, bind_some, done1, done2, unlinked]
    · exact (congrArg BitVec.toNat (size2.trans size1)).trans size'
    · rw [if_neg (by omega)]
      exact front2
    · intro i inner bound
      have ranks : nodes.ranked place2 = tree2.nodes.ranked place2 := by
        funext i
        rw [ranked, priorities, ranked]
      rw [ranks]
      exact removing2.down.others i inner (by omega) (by have := parent_lt inner; omega)
    · rw [occupies_init removing2.linked pos, moved2.occupies, moved1.occupies, removing2.isPlace]
    · rw [priorities2, setPriority_priority, update_of_ne other]

theorem erase_spec (stores : Stores tree place n) (contains : Contains tree place n stored) (present : stored x ≠ none)
    (small : n < 2 ^ 31) (bounded : ∀ y p, stored y = some p → ⊥ < p ∧ p < ⊤) :
    ∃ tree' place', erase tree x = some tree' ∧ Stores tree' place' (n - 1) ∧
      Contains tree' place' (n - 1) (update stored x none) := by
  obtain ⟨old, isOld⟩ := ne_none_iff_exists'.mp present
  obtain ⟨occupied, _⟩ := (contains x old).mp isOld
  obtain ⟨k, bound, rfl⟩ := occupied
  have front := stores.front
  rw [if_neg (by omega)] at front
  obtain ⟨tree1, place1, done1, size1, moved, front1, ordered1, k', le, isPlace, stops⟩ :=
    increasePriorityTo_spec tree ⊤ stores.linked bound front stores.size.ge
      (upOrdered_raise stores.linked bound stores.ordered le_top)
  have contains1 := contains.change ⟨k, bound, rfl⟩ moved
  have root : k' = 0 := by
    by_contra inner
    have pos := pos_of_ne_zero inner
    have smaller := parent_lt pos
    have top := top_le_iff.mp (stops pos)
    obtain ⟨p, isStored⟩ : ∃ p, update stored (place k) (some ⊤) (place1 (parent k')) = some p :=
      ⟨_, (contains1 _ _).mpr ⟨⟨_, by omega, rfl⟩, rfl⟩⟩
    have other : place1 (parent k') ≠ place k := fun same => by
      have := moved.linked.distinct (by omega : parent k' < n) (by omega : k' < n) (same.trans isPlace.symm)
      omega
    have value := ((contains1 _ _).mp isStored).2
    rw [update_of_ne other] at isStored
    exact (bounded _ _ isStored).2.ne (value.symm.trans top)
  rw [root] at isPlace
  have bounded1 : ∀ y p, update stored (place k) (some ⊤) y = some p → ⊥ < p := by
    intro y p isStored
    by_cases same : y = place k
    · rw [same, update_self] at isStored
      rw [← some.inj isStored]
      exact (bounded _ _ isOld).1.trans_le le_top
    · rw [update_of_ne same] at isStored
      exact (bounded y p isStored).1
  have front1' : tree1.front = if n = 0 then none else some (place1 0) := by
    rw [if_neg (by omega)]
    exact front1
  obtain ⟨tree', place', done', stores', contains'⟩ := pop_spec
    ⟨moved.linked, (congrArg BitVec.toNat size1).trans stores.size, front1', ordered1⟩ contains1 (by omega) small
    bounded1
  rw [isPlace, update_idem] at contains'
  refine ⟨tree', place', ?_, stores', contains'⟩
  rw [erase, done1, bind_some, done']

end Pritree

end Culibs.Cucon
