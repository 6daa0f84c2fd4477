import Culibs.Cucon.Pritree.Remove
import Mathlib.Order.Fin.Basic

namespace Culibs.Cucon.Pritree

open BinaryHeap Prinodes Function List BitVec Option

variable {α : Type} [LinearOrder α] [BoundedOrder α]

/-- One call on a priority tree. -/
inductive Command (α : Type) where
  | insertInit (newprinode : Nat) (priority : α)
  | changePriority (prinode : Nat) (priority : α)
  | erase (prinode : Nat)
  | pop

/-- A tree, and the nodes that are to be stored in it. -/
structure State (α : Type) where
  tree : Pritree α
  stored : Nat → Option α

/-- What may be called, where the priorities are between `-DBL_MAX` and `DBL_MAX`. -/
def Command.Permitted (stored : Nat → Option α) : Command α → Prop
  | insertInit newprinode priority => stored newprinode = none ∧ ⊥ < priority ∧ priority < ⊤
  | changePriority prinode priority => stored prinode ≠ none ∧ ⊥ < priority ∧ priority < ⊤
  | erase prinode => stored prinode ≠ none
  | pop => ∃ prinode, stored prinode ≠ none

def exec (tree : Pritree α) : Command α → Option (Pritree α)
  | .insertInit newprinode priority => Pritree.insertInit tree newprinode priority
  | .changePriority prinode priority => Pritree.changePriority tree prinode priority
  | .erase prinode => Pritree.erase tree prinode
  | .pop => Pritree.pop tree

omit [LinearOrder α] [BoundedOrder α] in
/-- What is to be stored after a call. -/
def Command.result (front : Option Nat) (stored : Nat → Option α) : Command α → Nat → Option α
  | insertInit newprinode priority => update stored newprinode (some priority)
  | changePriority prinode priority => update stored prinode (some priority)
  | erase prinode => update stored prinode none
  | pop => front.elim stored fun front => update stored front none

def State.step (state : State α) (command : Command α) : Option (State α) :=
  (exec state.tree command).map fun tree => { tree, stored := command.result state.tree.front state.stored }

/-- Calls on a tree. -/
def State.run (state : State α) (commands : List (Command α)) : Option (State α) := commands.foldlM State.step state

omit [LinearOrder α] [BoundedOrder α] in
/-- A new tree. -/
def State.init (nodes : Prinodes α) : State α := { tree := Pritree.init nodes, stored := fun _ => none }

/-- Every call has a property in the state where it is made. -/
def State.Each (property : State α → Command α → Prop) : State α → List (Command α) → Prop
  | _, [] => True
  | state, command :: commands =>
    property state command ∧ ∀ state', state.step command = some state' → State.Each property state' commands

def Allowed (state : State α) (command : Command α) : Prop := command.Permitted state.stored

omit [BoundedOrder α] [LinearOrder α] in
/-- An insertion does not give the tree `2 ^ 31` nodes. -/
def Fits (state : State α) (command : Command α) : Prop :=
  ∀ newprinode priority, command = .insertInit newprinode priority → state.tree.size.toNat + 1 < 2 ^ 31

omit [LinearOrder α] [BoundedOrder α] in
/-- The node to which the bits of a number below its top bit lead. -/
def numbered (tree : Pritree α) (n : Nat) : Option Nat :=
  if n ≤ 1 then tree.front
  else (numbered tree (n / 2)).bind (tree.nodes.child (if n % 2 = 0 then .left else .right))
termination_by n

/-- The tree is a complete binary tree and a heap of the stored nodes. -/
structure IsQueue (tree : Pritree α) (stored : Nat → Option α) : Prop where
  complete : ∀ {n}, 0 < n → (numbered tree n ≠ none ↔ n ≤ tree.size.toNat)
  distinct : ∀ {m n t}, 0 < m → 0 < n → numbered tree m = some t → numbered tree n = some t → m = n
  children : ∀ {n t}, 0 < n → numbered tree n = some t →
    tree.nodes.child .left t = numbered tree (2 * n) ∧ tree.nodes.child .right t = numbered tree (2 * n + 1)
  prior : ∀ {n t}, 0 < n → numbered tree n = some t →
    tree.nodes.prior t = if n = 1 then none else numbered tree (n / 2)
  ordered : ∀ {t tp}, stored t ≠ none → tree.nodes.prior t = some tp →
    tree.nodes.priority t ≤ tree.nodes.priority tp
  front : ∀ {x}, stored x ≠ none → ∃ t, tree.front = some t ∧ stored t ≠ none ∧
    tree.nodes.priority x ≤ tree.nodes.priority t
  stored : ∀ x p, stored x = some p ↔ (∃ n, 0 < n ∧ numbered tree n = some x) ∧ tree.nodes.priority x = p

section Stores

variable {tree : Pritree α} {place : Nat → Nat} {n : Nat} {stored : Nat → Option α}

section

omit [BoundedOrder α]

theorem Stores.numbered_eq (stores : Stores tree place n) (pos : 0 < m) :
    numbered tree m = if m ≤ n then some (place (m - 1)) else none := by
  induction m using Nat.strongRecOn with
  | ind m ih =>
    rw [numbered]
    by_cases first : m ≤ 1
    · obtain rfl : m = 1 := by omega
      rw [if_pos first, stores.front]
      split
      · next empty => rw [if_neg (by omega)]
      · next nonempty => rw [if_pos (by omega)]
    · rw [if_neg first, ih (m / 2) (by omega) (by omega)]
      have isChild : (if m % 2 = 0 then Branch.left else Branch.right).index (m / 2 - 1) = m - 1 := by
        split <;> simp only [Branch.index] <;> omega
      by_cases above : m / 2 ≤ n
      · rw [if_pos above, bind_some, stores.linked.child (by omega), isChild]
        exact if_congr (by omega) rfl rfl
      · rw [if_neg above, bind_none, if_neg (by omega)]

theorem Stores.numbered_iff (stores : Stores tree place n) (pos : 0 < m) :
    numbered tree m = some t ↔ m ≤ n ∧ place (m - 1) = t := by
  rw [stores.numbered_eq pos]
  split
  · next inside => rw [some.injEq, and_iff_right inside]
  · next outside => exact ⟨nofun, fun ⟨inside, _⟩ => absurd inside outside⟩

theorem Stores.occupies_iff (stores : Stores tree place n) (x : Nat) :
    Occupies place n x ↔ ∃ m, 0 < m ∧ numbered tree m = some x := by
  constructor
  · rintro ⟨i, bound, same⟩
    exact ⟨i + 1, Nat.succ_pos i, (stores.numbered_iff (Nat.succ_pos i)).mpr ⟨bound, same⟩⟩
  · rintro ⟨m, pos, isNode⟩
    obtain ⟨inside, same⟩ := (stores.numbered_iff pos).mp isNode
    exact ⟨m - 1, by omega, same⟩

end

omit [LinearOrder α] [BoundedOrder α] in
theorem Contains.present_iff (contains : Contains tree place n stored) (x : Nat) :
    stored x ≠ none ↔ Occupies place n x := by
  rw [ne_none_iff_exists']
  constructor
  · rintro ⟨p, isStored⟩
    exact ((contains x p).mp isStored).1
  · exact fun occupied => ⟨_, (contains x _).mpr ⟨occupied, rfl⟩⟩

omit [BoundedOrder α] in
theorem Stores.isQueue (stores : Stores tree place n) (contains : Contains tree place n stored) :
    IsQueue tree stored := by
  have linked := stores.linked
  have node {m t : Nat} := stores.numbered_iff (m := m) (t := t)
  refine ⟨fun {m} pos => ?_, fun pos positive' isNode isNode' => ?_, fun {m t} pos isNode => ?_,
    fun {m t} pos isNode => ?_, fun {t tp} present above => ?_, fun {x} present => ?_, fun x p => ?_⟩
  · rw [stores.numbered_eq pos, stores.size]
    split
    · next inside => exact ⟨fun _ => inside, fun _ => some_ne_none _⟩
    · next outside => exact ⟨fun absurd => (absurd rfl).elim, fun inside => absurd inside outside⟩
  · obtain ⟨inside, rfl⟩ := (node pos).mp isNode
    obtain ⟨inside', same⟩ := (node positive').mp isNode'
    have := linked.distinct (by omega) (by omega) same
    omega
  · obtain ⟨inside, rfl⟩ := (node pos).mp isNode
    have left : Branch.left.index (m - 1) = 2 * m - 1 := by
      rw [Branch.index]
      omega
    have right : Branch.right.index (m - 1) = 2 * m + 1 - 1 := by
      rw [Branch.index]
      omega
    rw [linked.child (by omega), linked.child (by omega), left, right, stores.numbered_eq (by omega),
      stores.numbered_eq (by omega)]
    exact ⟨if_congr (by omega) rfl rfl, if_congr (by omega) rfl rfl⟩
  · obtain ⟨inside, rfl⟩ := (node pos).mp isNode
    rw [linked.prior (by omega)]
    by_cases root : m = 1
    · rw [if_pos (by omega), if_pos root]
    · rw [if_neg (by omega), if_neg root, stores.numbered_eq (by omega), if_pos (by omega), parent]
      congr 2
      omega
  · obtain ⟨i, bound, rfl⟩ := (contains.present_iff t).mp present
    rw [linked.prior bound] at above
    split at above
    · cases above
    · next inner =>
      cases above
      exact higher_eq_false.mp (stores.ordered i (pos_of_ne_zero inner) bound)
  · obtain ⟨i, bound, rfl⟩ := (contains.present_iff x).mp present
    have nonempty : 0 < n := by omega
    refine ⟨place 0, ?_, (contains.present_iff _).mpr ⟨0, nonempty, rfl⟩,
      higher_eq_false.mp (stores.ordered.front bound)⟩
    rw [stores.front, if_neg nonempty.ne']
  · rw [contains, stores.occupies_iff]

end Stores

/-- A state in a run. -/
def State.Sound (state : State α) : Prop :=
  (∃ place n, Stores state.tree place n ∧ n < 2 ^ 31 ∧ Contains state.tree place n state.stored) ∧
    ∀ x p, state.stored x = some p → ⊥ < p ∧ p < ⊤

theorem State.Sound.init (nodes : Prinodes α) : (State.init nodes).Sound := by
  refine ⟨⟨fun i => i, 0, ⟨⟨?_, ?_, ?_⟩, rfl, rfl, fun i _ bound => absurd bound (Nat.not_lt_zero i)⟩, by decide, ?_⟩,
    nofun⟩
  · exact fun bound => absurd bound (Nat.not_lt_zero _)
  · exact fun bound => absurd bound (Nat.not_lt_zero _)
  · exact fun bound => absurd bound (Nat.not_lt_zero _)
  · exact fun x p => ⟨nofun, fun ⟨⟨i, bound, _⟩, _⟩ => absurd bound (Nat.not_lt_zero i)⟩

theorem bounded_update (bounded : ∀ x p, stored x = some p → ⊥ < p ∧ p < ⊤) (within : ∀ p, value = some p → ⊥ < p ∧
    p < ⊤) (y : Nat) (p : α)
    (isStored : update stored x value y = some p) : ⊥ < p ∧ p < ⊤ := by
  by_cases same : y = x
  · rw [same, update_self] at isStored
    exact within p isStored
  · rw [update_of_ne same] at isStored
    exact bounded y p isStored

theorem State.Sound.step (sound : state.Sound) {command : Command α} (allowed : Allowed state command)
    (fits : Fits state command) : ∃ state', state.step command = some state' ∧ state'.Sound := by
  obtain ⟨⟨place, n, stores, small, contains⟩, bounded⟩ := sound
  have given {priority : α} (low : ⊥ < priority) (high : priority < ⊤) (p : α) (same : some priority = some p) :
      ⊥ < p ∧ p < ⊤ := some.inj same ▸ ⟨low, high⟩
  cases command with
  | insertInit newprinode priority =>
    obtain ⟨absent, low, high⟩ := allowed
    have room := fits newprinode priority rfl
    rw [stores.size] at room
    obtain ⟨tree', place', done, stores', contains'⟩ := insertInit_spec priority stores contains absent room
    refine ⟨⟨tree', _⟩, ?_, ⟨place', n + 1, stores', room, contains'⟩, bounded_update bounded (given low high)⟩
    rw [State.step, exec, done]
    rfl
  | changePriority prinode priority =>
    obtain ⟨present, low, high⟩ := allowed
    obtain ⟨tree', place', done, stores', contains'⟩ := changePriority_spec priority stores contains present
    refine ⟨⟨tree', _⟩, ?_, ⟨place', n, stores', small, contains'⟩, bounded_update bounded (given low high)⟩
    rw [State.step, exec, done]
    rfl
  | erase prinode =>
    obtain ⟨tree', place', done, stores', contains'⟩ := erase_spec stores contains allowed small bounded
    refine ⟨⟨tree', _⟩, ?_, ⟨place', n - 1, stores', by omega, contains'⟩, bounded_update bounded nofun⟩
    rw [State.step, exec, done]
    rfl
  | pop =>
    obtain ⟨prinode, present⟩ := allowed
    obtain ⟨i, bound, _⟩ := (contains.present_iff prinode).mp present
    have pos : 0 < n := by omega
    obtain ⟨tree', place', done, stores', contains'⟩ := pop_spec stores contains pos small
      fun y p isStored => (bounded y p isStored).1
    refine ⟨⟨tree', _⟩, ?_, ⟨place', n - 1, stores', by omega, contains'⟩, bounded_update bounded nofun⟩
    rw [State.step, exec, done, stores.front, if_neg pos.ne']
    rfl

theorem State.Sound.run (sound : state.Sound) {commands : List (Command α)}
    (each : State.Each (fun state command => Allowed state command ∧ Fits state command) state commands) :
    ∃ state', state.run commands = some state' ∧ state'.Sound := by
  induction commands generalizing state with
  | nil => exact ⟨state, rfl, sound⟩
  | cons command commands ih =>
    obtain ⟨⟨allowed, fits⟩, later⟩ := each
    obtain ⟨state1, done, sound1⟩ := sound.step allowed fits
    obtain ⟨state', done', sound'⟩ := ih sound1 (later state1 done)
    refine ⟨state', ?_, sound'⟩
    rw [State.run, foldlM_cons, done]
    exact done'

/-- Any calls on a new tree that never has `2 ^ 31` nodes leave a complete binary tree and a heap of the stored
nodes. -/
theorem run_isQueue (nodes : Prinodes α) (commands : List (Command α))
    (each : State.Each (fun state command => Allowed state command ∧ Fits state command) (State.init nodes) commands) :
    ∃ state, (State.init nodes).run commands = some state ∧ IsQueue state.tree state.stored := by
  obtain ⟨state, done, ⟨place, n, stores, _, contains⟩, _⟩ := (State.Sound.init nodes).run each
  exact ⟨state, done, stores.isQueue contains⟩

section Overflow

variable {tree : Pritree α} {place : Nat → Nat} {x : Nat} {priority : α}

private theorem path_overflow : ∀ i : Nat, i < 32 →
    (1 : Word) < intBit 31 >>> i >>> 1 ∧ pathSide 0x80000000 (intBit 31 >>> i >>> 1) = .right := by
  decide

omit [LinearOrder α] [BoundedOrder α] in
/-- The path to the last of `2 ^ 31` places goes on to the right of the last node. -/
theorem insertLoop_overflow {nodes : Prinodes α} (linked : Linked nodes place (2 ^ 31 - 1)) (d : Nat) (few : d ≤ 30)
    (rounds : Nat) : insertLoop nodes 0x80000000 (rounds + d + 2) (some (place (2 ^ (31 - d) - 2)))
      (intBit 31 >>> (30 - d)) = none := by
  induction d with
  | zero =>
    obtain ⟨more, right⟩ := path_overflow (30 - 0) (by decide)
    obtain ⟨more', _⟩ := path_overflow (30 - 0 + 1) (by decide)
    have outside : ¬ Branch.right.index (2 ^ (31 - 0) - 2) < 2 ^ 31 - 1 := by decide
    rw [insertLoop, if_pos more, bind_some, linked.child (by decide), insertLoop]
    exact if_pos more'
  | succ d ih =>
    obtain ⟨more, right⟩ := path_overflow (30 - (d + 1)) (by omega)
    obtain ⟨e, isExponent⟩ : ∃ e, 30 - d = e + 1 := ⟨29 - d, by omega⟩
    have shorter : 31 - (d + 1) = e + 1 := by omega
    have longer : 31 - d = e + 2 := by omega
    have shift : 30 - (d + 1) + 1 = 30 - d := by omega
    have power : 2 ^ (e + 2) = 2 ^ (e + 1) * 2 := Nat.pow_succ ..
    have two : 2 ≤ 2 ^ (e + 1) := Nat.le_self_pow (by omega) 2
    have most : 2 ^ (e + 2) ≤ 2 ^ 31 := Nat.pow_le_pow_right (by decide) (by omega)
    have next : Branch.right.index (2 ^ (e + 1) - 2) = 2 ^ (e + 2) - 2 := by
      rw [Branch.index]
      omega
    rw [longer, ← shift] at ih
    rw [insertLoop, if_pos more, bind_some, right, shorter, linked.child (by omega), next, if_pos (by omega)]
    exact ih (by omega)

omit [BoundedOrder α] in
theorem insertInit_overflow (stores : Stores tree place (2 ^ 31 - 1)) : insertInit tree x priority = none := by
  have number : tree.size + 1 = 0x80000000 := by
    apply eq_of_toNat_eq
    rw [toNat_add, stores.size]
    rfl
  have path := insertLoop_overflow stores.linked 30 (le_refl 30) 32
  have front : tree.front = some (place (2 ^ (31 - 30) - 2)) := stores.front
  have isLog : Cu.ulongFloorLog2 0x80000000 = 31 := by
    decide
  have mask : intBit 31 >>> (30 - 30) = intBit 31 := by decide
  rw [mask, ← front] at path
  simp only [insertInit, number, isLog, if_neg (by decide : ¬(0x80000000 : Word) = 1), bind_eq_bind]
  rw [path]
  rfl

end Overflow

section Insertions

/-- The insertion of `count` nodes with addresses from `first` on. -/
def insertions (first count : Nat) : List (Command (Fin 5)) :=
  (range' first count).map fun node => .insertInit node 1

/-- The nodes below an address have been inserted. -/
structure Filled (state : State (Fin 5)) (next : Nat) : Prop where
  stores : ∃ place, Stores state.tree place next ∧ Contains state.tree place next state.stored
  free : ∀ node, next ≤ node → state.stored node = none

/-- The insertions up to the one of the last of `2 ^ 31` nodes are allowed, and the last one leaves the tree. -/
theorem insertions_overflow {state : State (Fin 5)} {next : Nat} (filled : Filled state next) (count : Nat)
    (total : next + (count + 1) = 2 ^ 31) :
    State.Each Allowed state (insertions next (count + 1)) ∧ state.run (insertions next (count + 1)) = none := by
  induction count generalizing state next with
  | zero =>
    obtain ⟨⟨place, stores, _⟩, free⟩ := filled
    obtain rfl : next = 2 ^ 31 - 1 := by omega
    have fails : state.step (.insertInit (2 ^ 31 - 1) 1) = none := by
      rw [State.step, exec, insertInit_overflow stores]
      rfl
    refine ⟨⟨⟨free _ (le_rfl), by decide, by decide⟩, fun state' done => ?_⟩, ?_⟩
    · rw [fails] at done
      cases done
    · rw [insertions, range'_succ, map_cons, State.run, foldlM_cons, fails]
      rfl
  | succ count ih =>
    obtain ⟨⟨place, stores, contains⟩, free⟩ := filled
    obtain ⟨tree', place', done, stores', contains'⟩ := insertInit_spec 1 stores contains
      (free next (le_refl next)) (by omega)
    have steps : state.step (.insertInit next 1) = some ⟨tree', update state.stored next (some 1)⟩ := by
      rw [State.step, exec, done]
      rfl
    have filled' : Filled ⟨tree', update state.stored next (some 1)⟩ (next + 1) := by
      refine ⟨⟨place', stores', contains'⟩, fun node above => ?_⟩
      exact (update_of_ne (by omega) ..).trans (free node (by omega))
    obtain ⟨each, runs⟩ := ih filled' (by omega)
    refine ⟨⟨⟨free next (le_refl next), by decide, by decide⟩, fun state' done' => ?_⟩, ?_⟩
    · rw [steps] at done'
      cases done'
      exact each
    · rw [insertions, range'_succ, map_cons, State.run, foldlM_cons, steps]
      exact runs

def emptyNodes : Prinodes (Fin 5) := { priority := fun _ => 0, prior := fun _ => none, child := fun _ _ => none }

theorem run_overflow : ¬ (State.Each Allowed (State.init emptyNodes) (insertions 0 (2 ^ 31)) →
    ∃ state, (State.init emptyNodes).run (insertions 0 (2 ^ 31)) = some state ∧ IsQueue state.tree state.stored) := by
  intro works
  have empty : Filled (State.init emptyNodes) 0 := by
    obtain ⟨⟨place, n, stores, _, contains⟩, _⟩ := State.Sound.init emptyNodes
    obtain rfl : n = 0 := stores.size.symm
    exact ⟨⟨place, stores, contains⟩, fun _ _ => rfl⟩
  have overflow := insertions_overflow empty (2 ^ 31 - 1) (by decide)
  rw [show 2 ^ 31 - 1 + 1 = 2 ^ 31 by decide] at overflow
  obtain ⟨each, fails⟩ := overflow
  obtain ⟨state, done, _⟩ := works each
  rw [fails] at done
  cases done

end Insertions

/-- Three nodes, of which the last in order comes first before it is popped. -/
theorem run_isQueue_three : ∃ state, (State.init emptyNodes).run [.insertInit 5 1, .insertInit 6 2, .insertInit 7 2,
    .changePriority 5 3, .pop, .erase 7] = some state ∧ IsQueue state.tree state.stored := by
  refine run_isQueue emptyNodes _ ⟨⟨⟨rfl, by decide, by decide⟩, fun _ _ _ => by decide⟩, ?_⟩
  rintro _ ⟨⟩
  refine ⟨⟨⟨rfl, by decide, by decide⟩, fun _ _ _ => by decide⟩, ?_⟩
  rintro _ ⟨⟩
  refine ⟨⟨⟨rfl, by decide, by decide⟩, fun _ _ _ => by decide⟩, ?_⟩
  rintro _ ⟨⟩
  refine ⟨⟨⟨by decide, by decide, by decide⟩, nofun⟩, ?_⟩
  rintro _ ⟨⟩
  refine ⟨⟨⟨6, by decide⟩, nofun⟩, ?_⟩
  rintro _ ⟨⟩
  exact ⟨⟨show _ ≠ none by decide, nofun⟩, fun _ _ => trivial⟩

end Culibs.Cucon.Pritree
