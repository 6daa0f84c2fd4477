import Culibs.Cuex.Atree.Canonical

namespace Culibs.Cuex.Atree

open List Option Nat

variable {α : Type} (getKey : α → Word)

/-- The loop of `atree_depth`. -/
def depthLoop (maxDepth depth : Nat) : Atree α → Nat
  | leaf _ => maxDepth
  | anode _ left right => depthLoop (max maxDepth (depth + 1 + depthLoop 0 0 left)) (depth + 1) right

/-- The loop of `atree_card`. -/
def cardLoop (card : Nat) : Atree α → Nat
  | leaf _ => card
  | anode _ left right => cardLoop (card + cardLoop 1 left) right

def depth : Option (Atree α) → Nat
  | none => 0
  | some tree => depthLoop 0 0 tree

def card : Option (Atree α) → Nat
  | none => 0
  | some tree => cardLoop 1 tree

/-- The loop of `cuex_atree_find_index`. -/
def findIndexLoop (key : Word) (index : Nat) : Atree α → Option Nat
  | leaf value => if getKey value ≠ key then none else some index
  | anode centre left right =>
    if key < centre then
      if key < centreToMin centre then none else findIndexLoop key index left
    else
      if centreToMax centre < key then none else findIndexLoop key (index + cardLoop 1 left) right

/-- `cuex_atree_find_index`, which returns `none` for -1. -/
def findIndex (tree : Option (Atree α)) (key : Word) : Option Nat :=
  match tree with
  | none => none
  | some tree => findIndexLoop getKey key 0 tree

/-- The number of stack entries in the `cuex_atree_itr_size` bytes of an iterator. The lowest is `NULL`. -/
def itrSize (tree : Option (Atree α)) : Nat := 1 + (depth tree + 1)

/-- `cuex_atree_itr_init`. The list is the stack down from `sp` to the entry above the lowest. -/
def itrInit : Option (Atree α) → List (Atree α)
  | none => []
  | some tree => [tree]

/-- The loop of `cuex_atree_itr_get`, undefined where it stores beyond the stack. -/
def itrLoop (size : Nat) (stack : List (Atree α)) : Atree α → Option (α × List (Atree α))
  | leaf value => some (value, stack)
  | anode _ left right => if stack.length + 1 < size then itrLoop size (right :: stack) left else none

def itrGet (size : Nat) (stack : List (Atree α)) : Option (Option α × List (Atree α)) :=
  match stack with
  | [] => some (none, [])
  | tree :: stack => (itrLoop size stack tree).map fun (value, stack) => (some value, stack)

/-- The results of `n` calls of `cuex_atree_itr_get`. -/
def itrCalls (size n : Nat) (stack : List (Atree α)) : Option (List (Option α)) :=
  match n with
  | 0 => some []
  | n + 1 => do
    let (value, stack) ← itrGet size stack
    let values ← itrCalls size n stack
    some (value :: values)

variable {getKey} {low high m n d D index : Nat} {t : Atree α} {tree : Option (Atree α)} {stack : List (Atree α)} {key : Word}

def height : Atree α → Nat
  | leaf _ => 0
  | anode _ left right => 1 + max left.height right.height

private theorem depthLoop_eq (least : d ≤ m) : depthLoop m d t = max m (d + t.height) := by
  induction t generalizing m d with
  | leaf value => rw [depthLoop, height, add_zero, max_eq_left least]
  | anode centre left right ihLeft ihRight =>
    rw [depthLoop, ihLeft le_rfl, ihRight (by omega), height]
    omega

theorem cardLoop_eq : cardLoop n t + 1 = n + t.toList.length := by
  induction t generalizing n with
  | leaf value => rfl
  | anode centre left right ihLeft ihRight =>
    have left := ihLeft (n := 1)
    rw [cardLoop, ihRight, toList, length_append]
    omega

/-- The subtrees of the stack have room above the entries below them. -/
def Bounded (D : Nat) : List (Atree α) → Prop
  | [] => True
  | t :: stack => stack.length + t.height ≤ D ∧ Bounded D stack

/-- A call returns the next element, and no store is out of bounds. -/
theorem itrLoop_spec (room : stack.length + t.height ≤ D) (bounded : Bounded D stack) :
    ∃ value stack', itrLoop (1 + (D + 1)) stack t = some (value, stack') ∧ Bounded D stack' ∧
      t.toList ++ stack.flatMap toList = value :: stack'.flatMap toList := by
  induction t generalizing stack with
  | leaf value => exact ⟨value, stack, rfl, bounded, rfl⟩
  | anode centre left right ihLeft _ =>
    rw [height] at room
    rw [itrLoop, if_pos (by omega), toList, List.append_assoc]
    exact ihLeft (by rw [length_cons]; omega) ⟨by omega, bounded⟩

theorem itrCalls_eq (bounded : Bounded D stack) :
    itrCalls (1 + (D + 1)) n stack = some ((range n).map fun i => (stack.flatMap toList)[i]?) := by
  induction n generalizing stack with
  | zero => rfl
  | succ n ih =>
    rw [range_succ_eq_map, map_cons, List.map_map]
    cases stack with
    | nil =>
      simp only [itrCalls, itrGet, bind_eq_bind, bind_some, ih bounded]
      rfl
    | cons t stack =>
      obtain ⟨value, stack', got, bounded', rest⟩ := itrLoop_spec bounded.1 bounded.2
      simp only [itrCalls, itrGet, got, map_some, bind_eq_bind, bind_some, ih bounded', flatMap_cons, rest]
      rfl

theorem Wf.key_bounds (wf : Wf getKey t low high) (mem : value ∈ t.toList) :
    low ≤ (getKey value).toNat ∧ (getKey value).toNat < high :=
  wf.findLoop_bounds (wf.mem_toList_iff.mp mem)

theorem Wf.increasing (wf : Wf getKey t low high) : t.toList.Pairwise fun e0 e1 => getKey e0 < getKey e1 := by
  induction t generalizing low high with
  | leaf value => exact pairwise_singleton _ _
  | anode centre left right ihLeft ihRight =>
    obtain ⟨_, _, _, wfLeft, wfRight⟩ := wf
    refine pairwise_append.mpr ⟨ihLeft wfLeft, ihRight wfRight, fun e0 inLeft e1 inRight => ?_⟩
    exact BitVec.lt_def.mpr (lt_of_lt_of_le (wfLeft.key_bounds inLeft).2 (wfRight.key_bounds inRight).1)

theorem Wf.absent (wf : Wf getKey t low high) (outside : key.toNat < low ∨ high ≤ key.toNat) :
    t.toList.findIdx? (getKey · = key) = none := by
  rw [findIdx?_eq_none_iff]
  intro value mem
  have := wf.key_bounds mem
  refine decide_eq_false ?_
  rintro rfl
  omega

theorem Wf.findIndexLoop_eq (wf : Wf getKey t low high) :
    findIndexLoop getKey key index t = (t.toList.findIdx? (getKey · = key)).map (· + index) := by
  induction t generalizing low high index with
  | leaf value =>
    rw [findIndexLoop, toList]
    by_cases own : getKey value = key <;> simp [own]
  | anode centre left right ihLeft ihRight =>
    obtain ⟨nonzero, _, _, wfLeft, wfRight⟩ := wf
    have count : cardLoop 1 left = left.toList.length := by
      have := cardLoop_eq (n := 1) (t := left)
      omega
    rw [findIndexLoop, ihLeft wfLeft, ihRight wfRight, toList, findIdx?_append, count]
    split
    · next less =>
      rw [wfRight.absent (.inl less)]
      split
      · next outside =>
        rw [wfLeft.absent (.inl (toNat_centreToMin nonzero ▸ BitVec.lt_def.mp outside))]
        rfl
      · simp
    · next more =>
      rw [wfLeft.absent (.inr (not_lt.mp more))]
      split
      · next outside =>
        have := toNat_centreToMax centre ▸ BitVec.lt_def.mp outside
        rw [wfRight.absent (.inr (by omega))]
        rfl
      · simp [Function.comp_def, add_assoc, add_comm index]

/-- The traversals of a tree follow its elements in the order of their keys. -/
structure Traverses (getKey : α → Word) (tree : Option (Atree α)) : Prop where
  calls : ∀ n, itrCalls (itrSize tree) n (itrInit tree) = some ((range n).map fun i => (elements tree)[i]?)
  increasing : (elements tree).Pairwise fun e0 e1 => getKey e0 < getKey e1
  member : ∀ value, value ∈ elements tree ↔ find getKey tree (getKey value) = some value
  card : card tree = (elements tree).length
  findIndex : ∀ key, findIndex getKey tree key = (elements tree).findIdx? (getKey · = key)

theorem WfTree.traverses (wf : WfTree getKey tree low high) : Traverses getKey tree := by
  cases tree with
  | none => exact ⟨fun n => itrCalls_eq trivial, .nil, fun value => by simp [elements], rfl, fun key => rfl⟩
  | some t =>
    have wf := wf t rfl
    refine ⟨fun n => ?_, wf.increasing, fun value => wf.mem_toList_iff, ?_, fun key => ?_⟩
    · have bounded : Bounded (depth (some t)) [t] := by
        rw [depth, depthLoop_eq le_rfl]
        exact ⟨by simp, trivial⟩
      have calls := itrCalls_eq (n := n) bounded
      rwa [flatMap_singleton] at calls
    · have := cardLoop_eq (n := 1) (t := t)
      exact add_right_cancel (this.trans (add_comm _ _))
    · rw [findIndex, wf.findIndexLoop_eq]
      simp [elements]

/-- Trees of a run with keys of one side of the top bit, or of any operations below it. -/
def Reached (getKey : α → Word) (tree : Option (Atree α)) : Prop :=
  Built getKey tree ∨ ∃ commands, Throughout (Command.Legal getKey) getKey (fun _ => none) commands ∧
    Throughout (Command.Sound getKey) getKey (fun _ => none) commands ∧ tree = runAll getKey empty commands

theorem reached_traverses (reached : Reached getKey tree) : Traverses getKey tree := by
  rcases reached with built | ⟨commands, legal, sound, rfl⟩
  · exact built.wf.traverses
  · obtain ⟨_, ⟨_, wf⟩, _⟩ := (run_represents (empty_represents getKey) legal sound).2
    exact wf.traverses

theorem reached_traverses_three : Traverses id (insert id (insert id (insert id empty 3) 1) (2 : Word)) :=
  reached_traverses (.inl (.insert (.insert (.insert .empty 3 rfl) 1 rfl) 2 rfl))

/-- Keys that differ in the top bit: the smaller one has no index. -/
theorem top_bit_not_traverses : ¬ Traverses id (runAll id empty [.insert 1, .insert ((1 : Word) <<< 63)]) := by
  intro traverses
  have index := traverses.findIndex 1
  revert index
  decide

end Culibs.Cuex.Atree
