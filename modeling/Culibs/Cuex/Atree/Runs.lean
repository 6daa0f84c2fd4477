import Culibs.Cuex.Atree.Union

/-! The trees as maps keyed by words. A tree follows the finite map of its
operations, and is determined by its elements, as long as its keys agree in the
top bit; the centre of two keys that differ there is zero. -/

namespace Culibs.Cuex.Atree

open Function

variable {α : Type} {getKey : α → Word} {mergeValues : α → α → Option α} {tree : Option (Atree α)}
  {contents : Word → Option α}

/-- The bounds of the half of the words with a given top bit. -/
def sideLow (top : Bool) : Nat := if top then 2 ^ 63 else 0

def sideHigh (top : Bool) : Nat := if top then 2 ^ 64 else 2 ^ 63

theorem Half.side (top : Bool) : Half (sideLow top) (sideHigh top) := by
  cases top
  · exact Half.lower
  · exact Half.upper

theorem side_iff (key : Word) (top : Bool) :
    sideLow top ≤ key.toNat ∧ key.toNat < sideHigh top ↔ key.msb = top := by
  rw [BitVec.msb_eq_decide, sideLow, sideHigh]
  cases top
  · simp
  · simp
    omega

/-- The operations that build trees. -/
inductive Command (α : Type) where
  | insert (value : α)
  | replace (value : α)
  | deepInsert (mergeValues : α → α → Option α) (value : α)
  | erase (key : Word)
  | findErase (key : Word)

namespace Command

def run (getKey : α → Word) (tree : Option (Atree α)) : Command α → Option (Atree α)
  | insert value => Atree.insert getKey tree value
  | replace value => Atree.replace getKey tree value
  | deepInsert mergeValues value => Atree.deepInsert getKey mergeValues tree value
  | erase key => Atree.erase getKey tree key
  | findErase key => (Atree.findErase getKey tree key).1

/-- The map after an element is stored. A merge that fails leaves no tree. -/
def store (getKey : α → Word) (mergeValues : α → α → Option α) (value : α) (contents : Word → Option α) :
    Word → Option α :=
  match contents (getKey value) with
  | none => update contents (getKey value) (some value)
  | some old =>
    match mergeValues old value with
    | none => fun _ => none
    | some new => update contents (getKey value) (some new)

/-- The map after an operation. -/
def effect (getKey : α → Word) (contents : Word → Option α) : Command α → Word → Option α
  | insert value => store getKey (fun old _ => some old) value contents
  | replace value => store getKey (fun _ new => some new) value contents
  | deepInsert mergeValues value => store getKey mergeValues value contents
  | erase key => update contents key none
  | findErase key => update contents key none

/-- Merged elements keep their key. -/
def Legal (getKey : α → Word) (contents : Word → Option α) : Command α → Prop
  | deepInsert mergeValues value =>
    ∀ old new, contents (getKey value) = some old → mergeValues old value = some new → getKey new = getKey value
  | _ => True

/-- The key of a new element agrees in the top bit with the stored keys. -/
def Sound (getKey : α → Word) (contents : Word → Option α) : Command α → Prop
  | insert value | replace value | deepInsert _ value =>
    ∀ key, contents key ≠ none → key.msb = (getKey value).msb
  | _ => True

end Command

/-- A condition on every operation of a run and the map before it. -/
def Throughout (P : (Word → Option α) → Command α → Prop) (getKey : α → Word) (contents : Word → Option α) :
    List (Command α) → Prop
  | [] => True
  | command :: rest => P contents command ∧ Throughout P getKey (command.effect getKey contents) rest

def runAll (getKey : α → Word) (tree : Option (Atree α)) (commands : List (Command α)) : Option (Atree α) :=
  commands.foldl (fun tree command => command.run getKey tree) tree

/-- A tree answers like a map, also for the element a removal hands over. -/
def Answers (getKey : α → Word) (tree : Option (Atree α)) (contents : Word → Option α) : Prop :=
  ∀ key, find getKey tree key = contents key ∧ (findErase getKey tree key).2 = contents key

/-- Every tree of a run answers like its map. -/
def Follows (getKey : α → Word) (tree : Option (Atree α)) (contents : Word → Option α) : List (Command α) → Prop
  | [] => Answers getKey tree contents
  | command :: rest => Answers getKey tree contents ∧
      Follows getKey (command.run getKey tree) (command.effect getKey contents) rest

/-- The elements of a tree that may be empty. -/
def elements (tree : Option (Atree α)) : List α :=
  match tree with
  | none => []
  | some t => t.toList

theorem WfTree.mem_elements_iff (wf : WfTree getKey tree low high) (value : α) :
    value ∈ elements tree ↔ find getKey tree (getKey value) = some value := by
  cases tree with
  | none => simp [elements]
  | some t => exact (wf t rfl).mem_toList_iff

theorem key_of_find (found : find getKey tree key = some value) : getKey value = key := by
  cases tree with
  | none => cases found
  | some t => exact key_of_findLoop found

theorem WfTree.eq_of_elements
    (wf : WfTree getKey tree low high) (wf' : WfTree getKey tree' low' high')
    (same : ∀ value, value ∈ elements tree ↔ value ∈ elements tree') : tree = tree' := by
  apply wf.unique wf'
  intro key
  apply Option.ext
  intro value
  have both := same value
  rw [wf.mem_elements_iff, wf'.mem_elements_iff] at both
  constructor
  · intro found
    obtain rfl := key_of_find found
    exact both.mp found
  · intro found
    obtain rfl := key_of_find found
    exact both.mpr found

/-- A tree with its keys on one side of the top bit stands for a map. -/
structure Represents (getKey : α → Word) (tree : Option (Atree α)) (contents : Word → Option α) : Prop where
  side : ∃ top, WfTree getKey tree (sideLow top) (sideHigh top)
  find_eq : ∀ key, find getKey tree key = contents key

theorem empty_represents (getKey : α → Word) : Represents getKey (empty : Option (Atree α)) fun _ => none :=
  ⟨⟨false, nofun⟩, fun _ => rfl⟩

section

variable (rep : Represents getKey tree contents)

include rep

theorem Represents.answers : Answers getKey tree contents := by
  obtain ⟨⟨top, wf⟩, same⟩ := rep
  intro key
  exact ⟨same key, (findErase_erased wf key).taken.trans (same key)⟩

/-- The side of the stored keys is the side of a new key that agrees with them. -/
theorem Represents.wf_side {key : Word} (agree : ∀ other, contents other ≠ none → other.msb = key.msb) :
    WfTree getKey tree (sideLow key.msb) (sideHigh key.msb) := by
  obtain ⟨⟨top, wf⟩, same⟩ := rep
  cases tree with
  | none => nofun
  | some t =>
    obtain ⟨other, value, found⟩ := (wf t rfl).exists_find
    have stored : contents other ≠ none := by
      rw [← same, find_some, found]
      exact Option.some_ne_none value
    have inside := (wf t rfl).findLoop_bounds found
    rw [side_iff] at inside
    rw [← agree other stored, inside]
    exact wf

theorem Represents.deepInsert (agree : ∀ key, contents key ≠ none → key.msb = (getKey value).msb)
    (keeps : ∀ old new, contents (getKey value) = some old → mergeValues old value = some new →
      getKey new = getKey value) :
    Represents getKey (Atree.deepInsert getKey mergeValues tree value)
      (Command.store getKey mergeValues value contents) := by
  have wf := rep.wf_side agree
  have same := rep.find_eq
  have inside := (side_iff (getKey value) _).mpr rfl
  have combines : Combines getKey mergeValues (Atree.deepInsert getKey mergeValues tree value) _ _ _ _ :=
    deepInsert_combines (Half.side _) wf inside (by
      intro key old value' new found0 found1 merged
      rw [findLoop_leaf] at found1
      split at found1
      · next own =>
        cases found1
        rw [← own, same] at found0
        exact (keeps old new found0 merged).trans own
      · cases found1)
  refine ⟨⟨_, combines.wfTree⟩, fun key => ?_⟩
  cases inserted : Atree.deepInsert getKey mergeValues tree value with
  | none =>
    rw [inserted] at combines
    obtain ⟨clash, failed⟩ := combines
    rw [findLoop_leaf, same] at failed
    split at failed
    · next own =>
      subst own
      cases stored : contents (getKey value) with
      | none => simp [stored] at failed
      | some old =>
        have merged : mergeValues old value = none := by simpa [stored, combine] using failed
        simp [Command.store, stored, merged]
    · simp at failed
  | some t =>
    rw [inserted] at combines
    have found (other : Word) := combines.2 other
    simp only [findLoop_leaf, same] at found
    rw [find_some]
    cases stored : contents (getKey value) with
    | none =>
      have here := found key
      simp only [Command.store, stored, update_apply]
      split at here
      · next own =>
        rw [← own, stored] at here
        rw [← own, if_pos rfl, ← Option.some.inj here]
      · next other =>
        rw [combine_none_right] at here
        rw [if_neg (Ne.symm other), ← Option.some.inj here]
    | some old =>
      cases merged : mergeValues old value with
      | none =>
        have here := found (getKey value)
        simp [stored, combine, merged] at here
      | some new =>
        have here := found key
        simp only [Command.store, stored, merged, update_apply]
        split at here
        · next own =>
          rw [← own, stored, combine, merged] at here
          rw [← own, if_pos rfl, ← Option.some.inj here]
        · next other =>
          rw [combine_none_right] at here
          rw [if_neg (Ne.symm other), ← Option.some.inj here]

theorem Represents.findErase (key : Word) :
    Represents getKey (Atree.findErase getKey tree key).1 (update contents key none) := by
  obtain ⟨⟨top, wf⟩, same⟩ := rep
  have erased := findErase_erased wf key
  refine ⟨⟨top, erased.wf⟩, fun other => ?_⟩
  rw [erased.rest, update_apply, same]

theorem step_represents {command : Command α} (legal : command.Legal getKey contents)
    (sound : command.Sound getKey contents) :
    Represents getKey (command.run getKey tree) (command.effect getKey contents) := by
  cases command with
  | insert value =>
    apply rep.deepInsert sound
    intro old new stored merged
    cases merged
    rw [← rep.find_eq] at stored
    exact key_of_find stored
  | replace value =>
    apply rep.deepInsert sound
    intro old new stored merged
    cases merged
    rfl
  | deepInsert mergeValues value => exact rep.deepInsert sound legal
  | erase key =>
    rw [Command.run, erase_eq]
    exact rep.findErase key
  | findErase key => exact rep.findErase key

theorem run_represents
    (legal : Throughout (Command.Legal getKey) getKey contents commands)
    (sound : Throughout (Command.Sound getKey) getKey contents commands) :
    Follows getKey tree contents commands ∧ ∃ contents', Represents getKey (runAll getKey tree commands) contents' := by
  induction commands generalizing tree contents with
  | nil => exact ⟨rep.answers, contents, rep⟩
  | cons command rest ih =>
    have next := ih (step_represents rep legal.1 sound.1) legal.2 sound.2
    exact ⟨⟨rep.answers, next.1⟩, next.2⟩

end

/-- From the empty tree, operations on keys of one side of the top bit follow the
finite map, and the elements of a tree determine it. -/
theorem one_side_run_follows (getKey : α → Word) (commands : List (Command α))
    (legal : Throughout (Command.Legal getKey) getKey (fun _ => none) commands)
    (sound : Throughout (Command.Sound getKey) getKey (fun _ => none) commands) :
    Follows getKey empty (fun _ => none) commands ∧
      ∀ others, Throughout (Command.Legal getKey) getKey (fun _ => none) others →
        Throughout (Command.Sound getKey) getKey (fun _ => none) others →
        (∀ value, value ∈ elements (runAll getKey empty commands) ↔ value ∈ elements (runAll getKey empty others)) →
        runAll getKey empty commands = runAll getKey empty others := by
  have first := run_represents (empty_represents getKey) legal sound
  refine ⟨first.1, fun others legal' sound' same => ?_⟩
  obtain ⟨_, ⟨_, wf⟩, _⟩ := first.2
  obtain ⟨_, ⟨_, wf'⟩, _⟩ := (run_represents (empty_represents getKey) legal' sound').2
  exact wf.eq_of_elements wf' same

/-- Keys below the top bit: the tree built is the map of its operations. -/
theorem one_side_run_follows_small :
    Follows (fun key : Word => key) empty (fun _ => none) [.insert 1, .insert 6, .erase 1] := by
  refine (one_side_run_follows (fun key : Word => key) [.insert 1, .insert 6, .erase 1] ⟨trivial, trivial, trivial, trivial⟩
    ⟨?_, ?_, trivial, trivial⟩).1
  · intro key stored
    exact absurd rfl stored
  · intro key stored
    by_cases same : key = 1
    · rw [same]
      decide
    · simp only [Command.effect, Command.store, update_apply, if_neg same, ne_eq, not_true_eq_false] at stored

/-- Keys that differ in the top bit: the smaller one is not found again. -/
theorem top_bit_not_follows :
    Throughout (Command.Legal fun key : Word => key) (fun key => key) (fun _ => none) [.insert 1, .insert (1 <<< 63)] ∧
      ¬ Follows (fun key : Word => key) empty (fun _ => none) [.insert 1, .insert (1 <<< 63)] := by
  refine ⟨⟨trivial, trivial, trivial⟩, fun follows => ?_⟩
  have found := (follows.2.2 1).1
  revert found
  decide

end Culibs.Cuex.Atree
