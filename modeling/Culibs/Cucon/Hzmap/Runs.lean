import Culibs.Cucon.Hzmap.Update

namespace Culibs.Cucon.Hzmap

open Buckets Function

inductive Command where
  /-- The caller fills in the key and the link of a node which is in no bucket. -/
  | write (node : Addr) (key : List Word) (next : Addr)
  | prepareInsert (count : Word)
  | insertNode (node : Addr)
  | insert (key : List Word) (fresh : Addr)
  | insertVoid (key : List Word) (fresh : Addr)
  | erase (key : List Word)
  | stepErase (key : List Word)
  | finishErase
  | filter (f : Addr → Bool)

/-- The result of an operation, and `*node_out`. -/
inductive Reply where
  | done
  | flag (changed : Bool)
  | node (changed : Bool) (node : Addr)
deriving DecidableEq

def write (map : Hzmap) (node : Addr) (key : List Word) (next : Addr) : Hzmap :=
  { map with
    buckets := { map.buckets with next := update map.buckets.next node next }
    key := update map.key node key }

namespace Command

def run (optSpeed : Bool) (fuel : Nat) (map : Hzmap) : Command → Option (Reply × Hzmap)
  | write node key next => some (.done, map.write node key next)
  | prepareInsert count => (map.prepareInsert optSpeed fuel count).map (.done, ·)
  | insertNode node => (map.insertNode optSpeed fuel node).map fun result => (.flag result.1, result.2)
  | insert key fresh =>
    (map.insert optSpeed fuel key fresh).map fun result => (.node result.1.1 result.1.2, result.2)
  | insertVoid key fresh => (map.insertVoid optSpeed fuel key fresh).map fun result => (.flag result.1, result.2)
  | erase key => (map.erase optSpeed fuel key).map fun result => (.flag result.1, result.2)
  | stepErase key => (map.stepErase fuel key).map fun result => (.flag result.1, result.2)
  | finishErase => (map.finishErase optSpeed fuel).map (.done, ·)
  | filter f => (map.filter optSpeed fuel f).map (.done, ·)

/-- What an operation does to the contents. -/
def effect (map : Hzmap) (contents : Contents) : Command → Contents
  | write _ _ _ => contents
  | prepareInsert _ => contents
  | insertNode node => contents.add (map.key node) node
  | insert key fresh => contents.add key fresh
  | insertVoid key fresh => contents.add key fresh
  | erase key => update contents key none
  | stepErase key => update contents key none
  | finishErase => contents
  | filter f => fun key => (contents key).filter f

def reply (map : Hzmap) (contents : Contents) : Command → Reply
  | write _ _ _ => .done
  | prepareInsert _ => .done
  | insertNode node => .flag (contents (map.key node)).isNone
  | insert key fresh => .node (contents key).isNone ((contents key).getD fresh)
  | insertVoid key _ => .flag (contents key).isNone
  | erase key => .flag (contents key).isSome
  | stepErase key => .flag (contents key).isSome
  | finishErase => .done
  | filter _ => .done

/-- Keys have the width of the map, and new memory is in no bucket. -/
def Legal (map : Hzmap) (contents : Contents) : Command → Prop
  | write node _ _ => ∀ key, contents key ≠ some node
  | insertNode node => node ≠ 0 ∧ (map.key node).length = map.keySizeW
  | insert key fresh => key.length = map.keySizeW ∧ fresh ≠ 0 ∧ ∀ key, contents key ≠ some fresh
  | insertVoid key fresh => key.length = map.keySizeW ∧ fresh ≠ 0 ∧ ∀ key, contents key ≠ some fresh
  | _ => True

/-- What an operation needs for its code to be right: the link of a node that is inserted is null,
and no array of pointers has more than `SIZE_MAX` bytes. -/
def Sound (optSpeed : Bool) (map : Hzmap) (contents : Contents) : Command → Prop
  | prepareInsert count => (map.size + count.toNat) * minfillDenom optSpeed ≤ 2 ^ 60
  | insertNode node => map.size < 2 ^ 60 ∧ (contents (map.key node) = none → map.buckets.next node = 0)
  | insert _ _ => map.size < 2 ^ 60
  | insertVoid _ _ => map.size < 2 ^ 60
  | _ => True

end Command

/-- A property of every operation of a run, in the state where it is called. -/
def Throughout (P : Hzmap → Contents → Command → Prop) (optSpeed : Bool) (fuel : Nat) :
    Hzmap → Contents → List Command → Prop
  | _, _, [] => True
  | map, contents, command :: rest => P map contents command ∧ ∀ reply map',
      command.run optSpeed fuel map = some (reply, map') →
        Throughout P optSpeed fuel map' (command.effect map contents) rest

/-- A table with these contents: every node is once in the chain of its key, the size is their
number, and the searches return the node of a key or `NULL`. -/
structure Refines (fuel : Nat) (map : Hzmap) (contents : Contents) : Prop where
  nodes : ∃ nodes, Keyed map.key nodes contents ∧ map.size = nodes.card ∧
    Chained map.buckets 0 map.mapCap (fun node => map.bucket (map.key node)) nodes
  find : ∀ key, map.find fuel key = some ((contents key).getD 0)
  oneWordFind : map.keySizeW = 1 → ∀ key, key.length = 1 → map.oneWordFind fuel key = map.find fuel key
  twoWordFind : map.keySizeW = 2 → ∀ key, key.length = 2 → map.twoWordFind fuel key = map.find fuel key

/-- Each operation returns what it should, and all tables have the contents they should have. -/
def Follows (optSpeed : Bool) (fuel : Nat) : Hzmap → Contents → List Command → Prop
  | map, contents, [] => Refines fuel map contents
  | map, contents, command :: rest => Refines fuel map contents ∧ ∃ map',
      command.run optSpeed fuel map = some (command.reply map contents, map') ∧
        Follows optSpeed fuel map' (command.effect map contents) rest

variable {map : Hzmap} {nodes : Finset Addr} {contents : Contents} {fuel : Nat} {optSpeed : Bool}

theorem Represents.refines (rep : Represents map nodes contents) (enough : nodes.card < fuel) :
    Refines fuel map contents := by
  refine ⟨⟨nodes, rep.keyed, rep.size, rep.chained⟩, fun key => rep.find_spec key enough,
    fun one key width => ?_, fun two key width => ?_⟩
  · rw [rep.find_spec key enough]
    exact oneWordFind_spec rep one width enough
  · rw [rep.find_spec key enough]
    exact twoWordFind_spec rep two width enough

theorem init_represents (keySizeW : Nat) (next : Addr → Addr) (key : Addr → List Word) :
    Represents (init keySizeW next key) ∅ fun _ => none := by
  refine ⟨(by decide : initCapExpt ≤ 60), chained_empty fun i bound => ?_, rfl, by simp, keyed_empty key⟩
  exact List.getElem?_replicate_of_lt bound

variable {command : Command}

theorem step_represents (rep : Represents map nodes contents)
    (legal : command.Legal map contents) (sound : command.Sound optSpeed map contents) (enough : nodes.card < fuel) :
    ∃ map', command.run optSpeed fuel map = some (command.reply map contents, map') ∧
      Edits map map' nodes (command.effect map contents) := by
  have fresh {node : Addr} (unused : ∀ key, contents key ≠ some node) : node ∉ nodes := fun mem =>
    unused (map.key node) ((rep.keyed _ node).mpr ⟨mem, rfl⟩)
  cases command with
  | write node key next =>
    have unused := fresh legal
    have sameKey (a : Addr) (mem : a ∈ nodes) : update map.key node key a = map.key a :=
      update_of_ne (ne_of_mem_of_not_mem mem unused) ..
    have sameNext (a : Addr) (mem : a ∈ nodes) : update map.buckets.next node next a = map.buckets.next a :=
      update_of_ne (ne_of_mem_of_not_mem mem unused) ..
    have chained : Chained (map.write node key next).buckets 0 map.mapCap (fun a => map.bucket (map.key a)) nodes :=
      rep.chained.congr (fun _ _ => rfl) sameNext
    refine ⟨map.write node key next, rfl, rfl, nodes, ⟨rep.small, ?_, rep.size, fun a mem => ?_, ?_⟩,
      Nat.le_succ _⟩
    · exact chained.reindex fun a mem => congrArg map.bucket (sameKey a mem)
    · exact (congrArg List.length (sameKey a mem)).trans (rep.width a mem)
    · exact rep.keyed.congr sameKey
  | prepareInsert count =>
    obtain ⟨map', done, represents', resized⟩ := prepareInsert_spec optSpeed rep sound enough
    exact ⟨map', by rw [Command.run, done]; rfl, resized.edits represents'⟩
  | insertNode node =>
    obtain ⟨map', done, edits⟩ := insertNode_spec optSpeed rep sound.1 legal.1 legal.2 sound.2 enough
    exact ⟨map', by rw [Command.run, done]; rfl, edits⟩
  | insert key node =>
    obtain ⟨map', done, edits⟩ := insert_spec optSpeed rep sound legal.2.1 (fresh legal.2.2) legal.1 enough
    exact ⟨map', by rw [Command.run, done]; rfl, edits⟩
  | insertVoid key node =>
    obtain ⟨map', done, edits⟩ := insertVoid_spec optSpeed rep sound legal.2.1 (fresh legal.2.2) legal.1 enough
    exact ⟨map', by rw [Command.run, done]; rfl, edits⟩
  | erase key =>
    obtain ⟨map', done, edits⟩ := erase_spec optSpeed rep key enough
    exact ⟨map', by rw [Command.run, done]; rfl, edits⟩
  | stepErase key =>
    obtain ⟨map', done, edits⟩ := stepErase_spec rep key enough
    exact ⟨map', by rw [Command.run, done]; rfl, edits⟩
  | finishErase =>
    obtain ⟨map', done, represents', resized⟩ := finishErase_spec optSpeed rep enough
    exact ⟨map', by rw [Command.run, done]; rfl, resized.edits represents'⟩
  | filter f =>
    obtain ⟨map', done, edits⟩ := filter_spec optSpeed rep f enough
    exact ⟨map', by rw [Command.run, done]; rfl, edits⟩

theorem run_represents (rep : Represents map nodes contents)
    (legal : Throughout Command.Legal optSpeed fuel map contents commands)
    (sound : Throughout (Command.Sound optSpeed) optSpeed fuel map contents commands)
    (enough : nodes.card + commands.length < fuel) : Follows optSpeed fuel map contents commands := by
  induction commands generalizing map contents nodes with
  | nil => exact rep.refines enough
  | cons command rest ih =>
    rw [List.length_cons] at enough
    have room : nodes.card < fuel := by omega
    obtain ⟨map', done, _, nodes', represents', few⟩ := step_represents rep legal.1 sound.1 room
    have enough' : nodes'.card + rest.length < fuel := by omega
    exact ⟨rep.refines room, map', done, ih represents' (legal.2 _ map' done) (sound.2 _ map' done) enough'⟩

/-- From an empty table, the operations that avoid the defects follow the finite map. -/
theorem sound_run_follows (optSpeed : Bool) (keySizeW : Nat) (next : Addr → Addr) (key : Addr → List Word)
    (commands : List Command) (fuel : Nat) (enough : commands.length < fuel)
    (legal : Throughout Command.Legal optSpeed fuel (init keySizeW next key) (fun _ => none) commands)
    (sound : Throughout (Command.Sound optSpeed) optSpeed fuel (init keySizeW next key) (fun _ => none) commands) :
    Follows optSpeed fuel (init keySizeW next key) (fun _ => none) commands :=
  run_represents (init_represents keySizeW next key) legal sound (by rwa [Finset.card_empty, zero_add])

section Defect

/-- The table after an operation that returns. -/
def Command.result (optSpeed : Bool) (fuel : Nat) (map : Hzmap) (command : Command) : Hzmap :=
  ((command.run optSpeed fuel map).map Prod.snd).getD map

variable {rest : List Command}

theorem Throughout.cons
    (here : P map contents command)
    (later : Throughout P optSpeed fuel (command.result optSpeed fuel map) (command.effect map contents) rest) :
    Throughout P optSpeed fuel map contents (command :: rest) := by
  refine ⟨here, fun reply map' done => ?_⟩
  rw [Command.result, done] at later
  exact later

theorem Follows.tail
    (follows : Follows optSpeed fuel map contents (command :: rest)) :
    Follows optSpeed fuel (command.result optSpeed fuel map) (command.effect map contents) rest := by
  obtain ⟨_, map', done, later⟩ := follows
  rw [Command.result, done]
  exact later

/-- A table for keys of one word in cleared memory. -/
def cleared : Hzmap := init 1 (fun _ => 0) fun _ => []

/-- Two nodes of a bucket are inserted and erased. -/
def eraseBoth : List Command :=
  [.write 8 [0] 0, .write 16 [1] 0, .insertNode 8, .insertNode 16, .erase [0], .erase [1]]

/-- The first of two erased nodes still links to the second one, which comes back when the first is
inserted again. -/
theorem reinsert_not_follows :
    Throughout Command.Legal false 100 cleared (fun _ => none) (eraseBoth ++ [.insertNode 8]) ∧
      ¬ Follows false 100 cleared (fun _ => none) (eraseBoth ++ [.insertNode 8]) := by
  constructor
  · refine .cons (fun key => ?_) (.cons (fun key => ?_) (.cons ?_ (.cons ?_ (.cons trivial (.cons trivial
      (.cons ?_ trivial))))))
    · simp
    · simp [Command.effect]
    · exact ⟨by decide, by decide⟩
    · exact ⟨by decide, by decide⟩
    · exact ⟨by decide, by decide⟩
  · intro follows
    have last := follows.tail.tail.tail.tail.tail.tail.tail
    exact absurd (last.find [1]) (by decide)

/-- Up to there the table follows the finite map. -/
theorem eraseBoth_follows : Follows false 100 cleared (fun _ => none) eraseBoth := by
  refine sound_run_follows false 1 _ _ eraseBoth 100 (by decide) ?_ ?_
  · refine .cons (fun key => ?_) (.cons (fun key => ?_) (.cons ?_ (.cons ?_ (.cons trivial (.cons trivial trivial)))))
    · simp
    · simp [Command.effect]
    · exact ⟨by decide, by decide⟩
    · exact ⟨by decide, by decide⟩
  · refine .cons trivial (.cons trivial (.cons ?_ (.cons ?_ (.cons trivial (.cons trivial trivial)))))
    · exact ⟨by decide, fun _ => by decide⟩
    · exact ⟨by decide, fun _ => by decide⟩

end Defect

end Culibs.Cucon.Hzmap
