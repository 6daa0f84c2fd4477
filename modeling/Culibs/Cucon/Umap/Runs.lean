import Culibs.Cucon.Umap.Update

namespace Culibs.Cucon.Umap

open Buckets Function Option

/-- The operations. An insertion may get a node at the address `fresh`, with some memory in its
slot, and `random` is the result of `lrand48`. -/
inductive Command where
  | insertMem (key : Word) (fresh : Addr) (memory : Nat → Word)
  | insertPtr (key ptr : Word) (fresh : Addr) (memory : Nat → Word)
  | insertInt (key : Word) (val : CInt) (fresh : Addr) (memory : Nat → Word)
  /-- The caller stores a value in the slot of a node of the map. -/
  | store (node : Addr) (value : Nat → Word)
  | replacePtr (key ptr : Word) (fresh : Addr) (memory : Nat → Word)
  | replaceInt (key : Word) (val : CInt) (fresh : Addr) (memory : Nat → Word)
  | eraseKeepCap (key : Word)
  | erase (key : Word)
  | erasePtr (key : Word)
  | eraseInt (key : Word)
  | popAnyNode (random : Nat)
  | updateCap

inductive Reply where
  | done
  | flag (changed : Bool)
  | mem (inserted : Bool) (value : Addr)
  | ptr (old : Word)
  | int (old : CInt)
  | node (node : Addr)

namespace Command

def run (optSpeed : Bool) (fuel : Nat) (map : Umap) : Command → Option (Reply × Umap)
  | insertMem key fresh memory =>
    (map.insertMem optSpeed fuel key fresh memory).map fun result => (.mem result.1.1 result.1.2, result.2)
  | insertPtr key ptr fresh memory =>
    (map.insertPtr optSpeed fuel key ptr fresh memory).map fun result => (.flag result.1, result.2)
  | insertInt key val fresh memory =>
    (map.insertInt optSpeed fuel key val fresh memory).map fun result => (.flag result.1, result.2)
  | store node value => some (.done, map.setSlot node value)
  | replacePtr key ptr fresh memory =>
    (map.replacePtr optSpeed fuel key ptr fresh memory).map fun result => (.ptr result.1, result.2)
  | replaceInt key val fresh memory =>
    (map.replaceInt optSpeed fuel key val fresh memory).map fun result => (.int result.1, result.2)
  | eraseKeepCap key => (map.eraseKeepCap fuel key).map fun result => (.flag result.1, result.2)
  | erase key => (map.erase optSpeed fuel key).map fun result => (.flag result.1, result.2)
  | erasePtr key => (map.erasePtr optSpeed fuel key).map fun result => (.ptr result.1, result.2)
  | eraseInt key => (map.eraseInt optSpeed fuel key).map fun result => (.int result.1, result.2)
  | popAnyNode random => (map.popAnyNode optSpeed fuel random).map fun result => (.node result.1, result.2)
  | updateCap => (map.updateCap optSpeed fuel).map (.done, ·)

/-- What the value of a key is, as a pointer or as an integer. -/
def ptrOf (contents : Contents) (key : Word) : Word := (contents key).elim 0 fun binding => ptrSlot binding.value

def intOf (contents : Contents) (key : Word) : CInt := (contents key).elim intMin fun binding => intSlot binding.value

/-- What an operation returns and what the contents are afterwards. -/
def Effect (contents : Contents) : Command → Reply → Contents → Prop
  | insertMem key fresh memory, reply, contents' =>
    reply = .mem (contents key).isNone ((contents.nodeOf key).getD fresh) ∧ contents' = contents.insert key ⟨fresh, memory⟩
  | insertPtr key ptr fresh memory, reply, contents' =>
    reply = .flag (contents key).isNone ∧ contents' = contents.insert key ⟨fresh, putPtr memory ptr⟩
  | insertInt key val fresh memory, reply, contents' =>
    reply = .flag (contents key).isNone ∧ contents' = contents.insert key ⟨fresh, putInt memory val⟩
  | store node value, reply, contents' =>
    reply = .done ∧ ∀ key, contents' key = (contents key).map fun binding =>
      if binding.node = node then { binding with value } else binding
  | replacePtr key ptr fresh memory, reply, contents' =>
    reply = .ptr (ptrOf contents key) ∧ contents' =
      if ptr = 0 then update contents key none else contents.replace key (putPtr · ptr) ⟨fresh, memory⟩
  | replaceInt key val fresh memory, reply, contents' =>
    reply = .int (intOf contents key) ∧ contents' =
      if val = intMin then update contents key none else contents.replace key (putInt · val) ⟨fresh, memory⟩
  | eraseKeepCap key, reply, contents' =>
    reply = .flag (contents key).isSome ∧ contents' = update contents key none
  | erase key, reply, contents' =>
    reply = .flag (contents key).isSome ∧ contents' = update contents key none
  | erasePtr key, reply, contents' =>
    reply = .ptr (ptrOf contents key) ∧ contents' = update contents key none
  | eraseInt key, reply, contents' =>
    reply = .int (intOf contents key) ∧ contents' = update contents key none
  | popAnyNode _, reply, contents' => ∃ key binding, contents key = some binding ∧ reply = .node binding.node ∧
    contents' = update contents key none
  | updateCap, reply, contents' => reply = .done ∧ contents' = contents

/-- New memory is in no bucket, a slot that is written to belongs to the map, and a map that a node
is popped from has one. -/
def Legal (contents : Contents) : Command → Prop
  | insertMem _ fresh _ | insertPtr _ _ fresh _ | insertInt _ _ fresh _ | replacePtr _ _ fresh _
  | replaceInt _ _ fresh _ => fresh ≠ 0 ∧ ∀ key, contents.nodeOf key ≠ some fresh
  | store node _ => ∃ key, contents.nodeOf key = some node
  | popAnyNode _ => ∃ key, contents key ≠ none
  | _ => True

end Command

/-- A table with these bindings: every node is once in the chain of its key, the size is their
number, and the searches return the binding of a key. -/
structure Refines (fuel : Nat) (map : Umap) (contents : Contents) : Prop where
  capacity : ∃ expt, map.mask + 1 = 2 ^ expt
  sentinel : map.buckets.heads.length = map.mask + 2 ∧ map.buckets.heads[map.mask + 1]? = some sentinel
  nodes : ∃ nodes, Keyed map.key nodes contents.nodeOf ∧ map.size = nodes.card ∧
    Chained map.buckets 0 (map.mask + 1) (fun node => map.index (map.key node)) nodes
  value : ∀ key binding, contents key = some binding → map.slot binding.node = binding.value
  findMem : ∀ key, map.findMem fuel key = some ((contents.nodeOf key).getD 0)
  findPtr : ∀ key, map.findPtr fuel key = some (Command.ptrOf contents key)
  findInt : ∀ key, map.findInt fuel key = some (Command.intOf contents key)

/-- Each legal operation returns what it should, and all tables have the contents they should have. -/
def Follows (optSpeed : Bool) (fuel : Nat) : Umap → Contents → List Command → Prop
  | map, contents, [] => Refines fuel map contents
  | map, contents, command :: rest => Refines fuel map contents ∧ (command.Legal contents → ∃ reply map' contents',
      command.run optSpeed fuel map = some (reply, map') ∧ command.Effect contents reply contents' ∧
        Follows optSpeed fuel map' contents' rest)

variable {map : Umap} {nodes : Finset Addr} {contents : Contents} {fuel count : Nat} {optSpeed : Bool}

theorem Represents.refines (rep : Represents map nodes contents) (enough : nodes.card < fuel) :
    Refines fuel map contents :=
  ⟨rep.capacity, rep.sentinel, ⟨nodes, rep.keyed, rep.size, rep.chained⟩,
    rep.value, fun key => findNode_spec rep key enough, fun key => find_slot_spec rep key 0 ptrSlot enough,
    fun key => find_slot_spec rep key intMin intSlot enough⟩

theorem init_represents (next : Addr → Addr) (key : Addr → Word) (slot : Addr → Nat → Word) :
    Represents (init next key slot) ∅ fun _ => none :=
  ⟨⟨3, rfl⟩, ⟨rfl, rfl⟩, chained_empty (newArr_empty minSize), rfl, keyed_empty key, by simp⟩

private theorem store_represents (rep : Represents map nodes contents) (legal : ∃ key, contents.nodeOf key = some node)
    (value : Nat → Word) : Represents (map.setSlot node value) nodes fun key => (contents key).map fun binding =>
      if binding.node = node then { binding with value } else binding := by
  obtain ⟨key, isNode⟩ := legal
  obtain ⟨binding, stored, rfl⟩ := map_eq_some_iff.mp isNode
  have updated := setSlot_represents rep stored value
  have same : update contents key (some { binding with value }) = fun key => (contents key).map fun binding' =>
      if binding'.node = binding.node then { binding' with value } else binding' := by
    funext key'
    rw [update_apply]
    split
    · next isKey =>
      rw [isKey, stored, map_some, if_pos rfl]
    · next ne =>
      cases stored' : contents key' with
      | none => rfl
      | some binding' =>
        have other : binding'.node ≠ binding.node := fun same => ne <| by
          rw [← ((rep.keyed key' binding'.node).mp (nodeOf_some stored')).2, same,
            ((rep.keyed key binding.node).mp (nodeOf_some stored)).2]
        rw [map_some, if_neg other]
  rwa [same] at updated

theorem step_represents (rep : Represents map nodes contents) (within : Within map count) (few : nodes.card ≤ count)
    (enough : 2 * count + minSize < fuel) {command : Command} (legal : command.Legal contents) :
    ∃ reply map' contents', command.run optSpeed fuel map = some (reply, map') ∧ command.Effect contents reply contents' ∧
      Edits map' nodes contents' count := by
  have room : nodes.card + 1 < fuel := by
    have eight : minSize = 8 := rfl
    omega
  have fresh {node : Addr} (unused : ∀ key, contents.nodeOf key ≠ some node) : node ∉ nodes := fun mem =>
    unused (map.key node) ((rep.keyed _ node).mpr ⟨mem, rfl⟩)
  cases command with
  | insertMem key node memory =>
    obtain ⟨present, absent⟩ := insertMem_spec optSpeed rep within few room key memory legal.1 (fresh legal.2)
    cases stored : contents key with
    | none =>
      obtain ⟨map', done, edits⟩ := absent stored
      refine ⟨_, map', _, by rw [Command.run, done]; rfl, ⟨?_, rfl⟩, ?_⟩
      · rw [stored, nodeOf_none stored]
        rfl
      · rwa [Contents.insert, if_pos stored]
    | some binding =>
      refine ⟨_, map, _, by rw [Command.run, present binding stored]; rfl, ⟨?_, rfl⟩, ?_⟩
      · rw [stored, nodeOf_some stored]
        rfl
      · rw [Contents.insert, if_neg (by rw [stored]; exact some_ne_none binding)]
        exact rep.edits within
  | insertPtr key ptr node memory =>
    obtain ⟨map', done, edits⟩ := insertWith_spec optSpeed rep within few room (putPtr · ptr) key memory
      legal.1 (fresh legal.2)
    exact ⟨_, map', _, by rw [Command.run, insertPtr, done]; rfl, ⟨rfl, rfl⟩, edits⟩
  | insertInt key val node memory =>
    obtain ⟨map', done, edits⟩ := insertWith_spec optSpeed rep within few room (putInt · val) key memory
      legal.1 (fresh legal.2)
    exact ⟨_, map', _, by rw [Command.run, insertInt, done]; rfl, ⟨rfl, rfl⟩, edits⟩
  | store node value =>
    exact ⟨_, _, _, rfl, ⟨rfl, fun _ => rfl⟩, (store_represents rep legal value).edits within⟩
  | replacePtr key ptr node memory =>
    by_cases null : ptr = 0
    · obtain ⟨map', done, edits⟩ := eraseWith_spec optSpeed rep within few room ptrSlot 0 key
      refine ⟨_, map', _, ?_, ⟨rfl, (if_pos null).symm⟩, edits⟩
      rw [Command.run, replacePtr, if_pos null, erasePtr, done]
      rfl
    · obtain ⟨map', done, edits⟩ := replaceWith_spec optSpeed rep within few room ptrSlot 0 (putPtr · ptr)
        key memory legal.1 (fresh legal.2)
      refine ⟨_, map', _, ?_, ⟨rfl, (if_neg null).symm⟩, edits⟩
      rw [Command.run, replacePtr, if_neg null, done]
      rfl
  | replaceInt key val node memory =>
    by_cases least : val = intMin
    · obtain ⟨map', done, edits⟩ := eraseWith_spec optSpeed rep within few room intSlot intMin key
      refine ⟨_, map', _, ?_, ⟨rfl, (if_pos least).symm⟩, edits⟩
      rw [Command.run, replaceInt, if_pos least, eraseInt, done]
      rfl
    · obtain ⟨map', done, edits⟩ := replaceWith_spec optSpeed rep within few room intSlot intMin
        (putInt · val) key memory legal.1 (fresh legal.2)
      refine ⟨_, map', _, ?_, ⟨rfl, (if_neg least).symm⟩, edits⟩
      rw [Command.run, replaceInt, if_neg least, done]
      rfl
  | eraseKeepCap key =>
    obtain ⟨map', done, edits⟩ := eraseKeepCap_spec rep within room key
    exact ⟨_, map', _, by rw [Command.run, done]; rfl, ⟨rfl, rfl⟩, edits⟩
  | erase key =>
    obtain ⟨map', done, edits⟩ := eraseWith_spec optSpeed rep within few room (fun _ => true) false key
    refine ⟨_, map', _, by rw [Command.run, erase, done]; rfl, ⟨?_, rfl⟩, edits⟩
    cases contents key <;> rfl
  | erasePtr key =>
    obtain ⟨map', done, edits⟩ := eraseWith_spec optSpeed rep within few room ptrSlot 0 key
    exact ⟨_, map', _, by rw [Command.run, erasePtr, done]; rfl, ⟨rfl, rfl⟩, edits⟩
  | eraseInt key =>
    obtain ⟨map', done, edits⟩ := eraseWith_spec optSpeed rep within few room intSlot intMin key
    exact ⟨_, map', _, by rw [Command.run, eraseInt, done]; rfl, ⟨rfl, rfl⟩, edits⟩
  | popAnyNode random =>
    obtain ⟨key, bound⟩ := legal
    obtain ⟨binding, stored⟩ := ne_none_iff_exists'.mp bound
    obtain ⟨key', binding', map', stored', done, edits⟩ := popAnyNode_spec optSpeed rep within few
      ⟨_, (rep.nonnull stored).1⟩ enough random
    exact ⟨_, map', _, by rw [Command.run, done]; rfl, ⟨key', binding', stored', rfl, rfl⟩, edits⟩
  | updateCap =>
    obtain ⟨map', done, represents', _, within'⟩ := updateCap_adjusts optSpeed rep within few
      (Nat.lt_of_succ_lt room)
    exact ⟨_, map', _, by rw [Command.run, done]; rfl, ⟨rfl, rfl⟩, represents'.edits within'⟩

theorem run_represents (rep : Represents map nodes contents) (within : Within map count) (few : nodes.card ≤ count)
    {commands : List Command} (enough : 2 * (count + commands.length) + minSize < fuel) :
    Follows optSpeed fuel map contents commands := by
  induction commands generalizing map contents nodes count with
  | nil =>
    exact rep.refines (by omega)
  | cons command rest ih =>
    rw [List.length_cons] at enough
    refine ⟨rep.refines (by omega), fun legal => ?_⟩
    have room : 2 * count + minSize < fuel := by omega
    obtain ⟨reply, map', contents', done, effect, nodes', represents', one, within'⟩ :=
      step_represents rep within few room legal
    have few' : nodes'.card ≤ count + 1 := one.trans (Nat.succ_le_succ few)
    exact ⟨reply, map', contents', done, effect, ih represents' within' few' (by omega)⟩

/-- From a fresh table, all runs follow the finite map. -/
theorem fresh_run_follows (optSpeed : Bool) (next : Addr → Addr) (key : Addr → Word) (slot : Addr → Nat → Word)
    (commands : List Command) (extra : Nat) :
    Follows optSpeed (2 * commands.length + minSize + 1 + extra) (init next key slot) (fun _ => none) commands := by
  have within : Within (init next key slot) 0 := le_refl minSize
  have few : (∅ : Finset Addr).card ≤ 0 := le_refl 0
  exact run_represents (init_represents next key slot) within few (by omega)

end Culibs.Cucon.Umap
