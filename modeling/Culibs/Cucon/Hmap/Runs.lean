import Culibs.Cucon.Hmap.Update

/-! Runs of operations on a hash map. The bindings follow a finite map as long as no node is
inserted into a bucket whose first node has another key and nothing is cleared that is not empty.
The size follows as long as no table with nodes is rehashed either. -/

namespace Culibs.Cucon.Hmap

open Buckets Function BitVec Option

variable {Key : Type}

inductive Command (Key : Type) where
  /-- The caller fills in the key and the link of a node which is in no bucket. -/
  | write (node : Addr) (key : Key) (next : Addr)
  | insertMem (key : Key) (fresh : Addr)
  | insertNode (node : Addr)
  | popMem (key : Key)
  | erase (key : Key)
  | isocapPopMem (key : Key)
  | isocapErase (key : Key)
  | setCapacity (cap : Nat)
  | clear

/-- The result of an operation, and `*slot`. -/
inductive Reply where
  | done
  | flag (changed : Bool)
  | slot (node : Addr)
  | flagSlot (changed : Bool) (node : Addr)
deriving DecidableEq

def write (map : Hmap Key) (node : Addr) (key : Key) (next : Addr) : Hmap Key :=
  { map with
    buckets := { map.buckets with next := update map.buckets.next node next }
    key := update map.key node key }

namespace Command

variable (c : Closures Key)

def run (fuel : Nat) (map : Hmap Key) : Command Key → Option (Reply × Hmap Key)
  | write node key next => some (.done, map.write node key next)
  | insertMem key fresh => (map.insertMem c fuel key fresh).map fun result => (.flagSlot result.1.1 result.1.2, result.2)
  | insertNode node => (map.insertNode c fuel node).map fun result => (.flag result.1, result.2)
  | popMem key => (map.popMem c fuel key).map fun result => (.slot result.1, result.2)
  | erase key => (map.erase c fuel key).map fun result => (.flag result.1, result.2)
  | isocapPopMem key => (map.isocapPopMem c fuel key).map fun result => (.slot result.1, result.2)
  | isocapErase key => (map.isocapErase c fuel key).map fun result => (.flag result.1, result.2)
  | setCapacity cap => (map.setCapacity c fuel cap).map (.done, ·)
  | clear => (map.clear fuel).map (.done, ·)

variable {c}

/-- What an operation does to the contents. -/
def effect (map : Hmap Key) (contents : c.Contents) : Command Key → c.Contents
  | write _ _ _ => contents
  | insertMem key fresh => contents.add (c.classOf key) fresh
  | insertNode node => contents.add (c.classOf (map.key node)) node
  | popMem key => update contents (c.classOf key) none
  | erase key => update contents (c.classOf key) none
  | isocapPopMem key => update contents (c.classOf key) none
  | isocapErase key => update contents (c.classOf key) none
  | setCapacity _ => contents
  | clear => fun _ => none

def reply (map : Hmap Key) (contents : c.Contents) : Command Key → Reply
  | write _ _ _ => .done
  | insertMem key fresh => .flagSlot (contents (c.classOf key)).isNone ((contents (c.classOf key)).getD fresh)
  | insertNode node => .flag (contents (c.classOf (map.key node))).isNone
  | popMem key => .slot ((contents (c.classOf key)).getD 0)
  | erase key => .flag (contents (c.classOf key)).isSome
  | isocapPopMem key => .slot ((contents (c.classOf key)).getD 0)
  | isocapErase key => .flag (contents (c.classOf key)).isSome
  | setCapacity _ => .done
  | clear => .done

/-- New memory is in no bucket, and a capacity is a power of two. -/
def Legal (contents : c.Contents) : Command Key → Prop
  | write node _ _ => ∀ k, contents k ≠ some node
  | insertMem _ fresh => fresh ≠ 0 ∧ ∀ k, contents k ≠ some fresh
  | insertNode node => node ≠ 0 ∧ ∀ k, contents k ≠ some node
  | setCapacity cap => ∃ k, cap = 2 ^ k
  | _ => True

/-- What the bindings need: the search of `cucon_hmap_insert_node` decides at the first node of the bucket, there is
nothing to clear, and no array of pointers has more than `SIZE_MAX` bytes. -/
def Safe (map : Hmap Key) (contents : c.Contents) : Command Key → Prop
  | insertMem key _ => contents (c.classOf key) = none → map.overfull = true → 2 * (map.mask + 1) ≤ 2 ^ 60
  | insertNode node => FirstDecides c map (map.key node)
  | setCapacity cap => cap ≤ 2 ^ 60
  | clear => ∀ k, contents k = none
  | _ => True

/-- What the size needs: `cucon_hmap_insert_node` does not insert, `cucon_hmap_set_capacity` is called only for a map that
is empty, by the others as well, and an `int` can count the nodes. -/
def Counts (map : Hmap Key) (contents : c.Contents) : Command Key → Prop
  | insertMem key _ => contents (c.classOf key) = none → map.overfull = false ∧ map.card + 1 < 2 ^ 31
  | insertNode node => contents (c.classOf (map.key node)) ≠ none
  | popMem key => contents (c.classOf key) ≠ none → map.sparse = false ∨ map.card = 1
  | erase key => contents (c.classOf key) ≠ none → map.sparse = false ∨ map.card = 1
  | setCapacity _ => ∀ k, contents k = none
  | _ => True

end Command

section Runs

variable (c : Closures Key) (counted : Prop) (fuel : Nat)

/-- Every operation of a run is legal, and meets what the bindings and, if it counts, what the size needs in the state
where it is called. -/
def Throughout : Hmap Key → c.Contents → List (Command Key) → Prop
  | _, _, [] => True
  | map, contents, command :: rest =>
    (command.Legal contents ∧ command.Safe map contents ∧ (counted → command.Counts map contents)) ∧
      ∀ reply map', command.run c fuel map = some (reply, map') → Throughout map' (command.effect map contents) rest

/-- A table with these contents: every class is bound to one node, which is in the bucket of its key, the searches return
it or `NULL`, and if it counts, the cardinality is the number of nodes. -/
structure Refines (map : Hmap Key) (contents : c.Contents) : Prop where
  nodes : ∃ nodes, Keyed (fun node => c.classOf (map.key node)) nodes contents ∧ (∀ node ∈ nodes, node ≠ 0) ∧
    Chained map.buckets 0 (map.mask + 1) (fun node => map.bucket c (map.key node)) nodes ∧
    (counted → map.card = nodes.card)
  find : ∀ key, map.findMem c fuel key = some ((contents (c.classOf key)).getD 0)

/-- Each operation returns what it should, and all tables have the contents they should have. -/
def Follows : Hmap Key → c.Contents → List (Command Key) → Prop
  | map, contents, [] => Refines c counted fuel map contents
  | map, contents, command :: rest => Refines c counted fuel map contents ∧ ∃ map',
      command.run c fuel map = some (command.reply map contents, map') ∧
        Follows map' (command.effect map contents) rest

end Runs

variable {c : Closures Key} {counted : Prop} {map : Hmap Key} {nodes : Finset Addr} {contents : c.Contents} {fuel : Nat}

theorem init_represents (c : Closures Key) (tail : Addr) (next : Addr → Addr) (key : Addr → Key) :
    Represents c (init tail next key) ∅ fun _ => none := by
  refine ⟨⟨3, by decide, rfl⟩, chained_empty fun i bound => ?_, keyed_empty _⟩
  have bound : i < capacityInit := bound
  rw [init, List.getElem?_append_left (by rwa [List.length_replicate]), List.getElem?_replicate_of_lt bound]

theorem step_represents (rep : Represents c map nodes contents) (count : counted → Counted map nodes)
    {command : Command Key} (legal : command.Legal contents) (safe : command.Safe map contents)
    (counts : counted → command.Counts map contents) (enough : nodes.card + 1 < fuel) :
    ∃ map', command.run c fuel map = some (command.reply map contents, map') ∧
      Edits c counted map' nodes (command.effect map contents) := by
  have fresh {node : Addr} (unused : ∀ k, contents k ≠ some node) : node ∉ nodes := fun mem =>
    unused _ ((rep.keyed _ node).mpr ⟨mem, rfl⟩)
  have nonnull {key : Key} : ((contents (c.classOf key)).getD 0 != 0) = (contents (c.classOf key)).isSome := by
    cases stored : contents (c.classOf key) with
    | none => rfl
    | some node =>
      have := rep.chained.nonnull node ((rep.keyed _ node).mp stored).1
      simp [this]
  cases command with
  | write node key next =>
    have unused := fresh legal
    have sameKey (a : Addr) (mem : a ∈ nodes) : update map.key node key a = map.key a :=
      update_of_ne (ne_of_mem_of_not_mem mem unused) ..
    have sameNext (a : Addr) (mem : a ∈ nodes) : update map.buckets.next node next a = map.buckets.next a :=
      update_of_ne (ne_of_mem_of_not_mem mem unused) ..
    have chained : Chained (map.write node key next).buckets 0 (map.mask + 1) (fun a => map.bucket c (map.key a)) nodes :=
      rep.chained.congr (fun _ _ => rfl) sameNext
    refine ⟨map.write node key next, rfl, nodes, ⟨rep.capacity, ?_, ?_⟩, Nat.le_succ _, fun counting =>
      ⟨(count counting).size, (count counting).few⟩⟩
    · exact chained.reindex fun a mem => congrArg (map.bucket c) (sameKey a mem)
    · exact rep.keyed.congr fun a mem => congrArg c.classOf (sameKey a mem)
  | insertMem key node =>
    obtain ⟨map', done, edits⟩ := insertMem_spec rep count (fresh legal.2) legal.1 enough safe counts
    exact ⟨map', by rw [Command.run, done]; rfl, edits⟩
  | insertNode node =>
    obtain ⟨map', done, edits⟩ := insertNode_spec rep count (fresh legal.2) legal.1 enough safe counts
    exact ⟨map', by rw [Command.run, done]; rfl, edits⟩
  | popMem key =>
    obtain ⟨map', done, edits⟩ := popMem_spec rep count enough counts
    exact ⟨map', by rw [Command.run, done]; rfl, edits⟩
  | erase key =>
    obtain ⟨map', done, edits⟩ := popMem_spec rep count enough counts
    refine ⟨map', ?_, edits⟩
    rw [Command.run, erase, done, Command.reply, ← nonnull]
    rfl
  | isocapPopMem key =>
    obtain ⟨map', done, edits⟩ := isocapPopMem_spec rep count enough
    exact ⟨map', by rw [Command.run, done]; rfl, edits⟩
  | isocapErase key =>
    obtain ⟨map', done, edits⟩ := isocapPopMem_spec rep count enough
    refine ⟨map', ?_, edits⟩
    rw [Command.run, isocapErase, done, Command.reply, ← nonnull]
    rfl
  | setCapacity cap =>
    obtain ⟨k, rfl⟩ := legal
    have small : k ≤ 60 := (Nat.pow_le_pow_iff_right (by omega)).mp safe
    obtain ⟨map', done, edits⟩ := setCapacity_spec rep small enough fun counting => by
      refine Finset.eq_empty_of_forall_notMem fun node mem => ?_
      have stored := (rep.keyed _ node).mpr ⟨mem, rfl⟩
      rw [counts counting] at stored
      cases stored
    exact ⟨map', by rw [Command.run, done]; rfl, edits⟩
  | clear =>
    have cleared : (fun _ => none) = contents := funext fun k => (safe k).symm
    refine ⟨map, by rw [Command.run, clear_spec rep (Nat.lt_of_succ_lt enough)]; rfl, nodes, ?_, Nat.le_succ _, count⟩
    rw [Command.effect, cleared]
    exact rep

theorem run_represents (rep : Represents c map nodes contents) (count : counted → Counted map nodes)
    {commands : List (Command Key)} (throughout : Throughout c counted fuel map contents commands)
    (enough : nodes.card + commands.length < fuel) : Follows c counted fuel map contents commands := by
  induction commands generalizing map contents nodes with
  | nil => exact ⟨⟨nodes, rep.keyed, rep.chained.nonnull, rep.chained, fun counts => (count counts).card_eq⟩,
    fun key => rep.find_spec key enough⟩
  | cons command rest ih =>
    rw [List.length_cons] at enough
    obtain ⟨⟨legal, safe, counts⟩, later⟩ := throughout
    obtain ⟨map', done, nodes', represents', few, count'⟩ := step_represents rep count legal safe counts
      (by omega : nodes.card + 1 < fuel)
    exact ⟨(⟨⟨nodes, rep.keyed, rep.chained.nonnull, rep.chained, fun counts => (count counts).card_eq⟩, fun key =>
      rep.find_spec key (by omega)⟩), map', done, ih represents' count' (later _ map' done) (by omega)⟩

theorem isEmpty_iff (map : Hmap Key) : map.isEmpty = true ↔ map.card ≠ 0 := by
  rw [isEmpty, decide_eq_true_iff, card, not_iff_not]
  constructor
  · intro zero
    rw [zero]
    rfl
  · intro zero
    have extended : map.size.signExtend 64 = 0#64 := eq_of_toNat_eq zero
    have value : map.size.toInt = 0 := by
      rw [← toInt_signExtend_of_le (by omega : 32 ≤ 64), extended]
      rfl
    exact toInt_inj.mp value

/-- `cucon_hmap_is_empty` is wrong for every map. In a run from a fresh map that meets what the bindings need, the
operations follow a finite map on the classes of equal keys, and if it meets what the size needs too, the cardinality is
the number of its bindings. -/
theorem counted_run_follows (c : Closures Key) (counted : Prop) (tail : Addr) (next : Addr → Addr) (key : Addr → Key)
    (commands : List (Command Key)) (fuel : Nat) (enough : commands.length < fuel)
    (throughout : Throughout c counted fuel (init tail next key) (fun _ => none) commands) :
    (∀ map : Hmap Key, ¬ (map.isEmpty = true ↔ map.card = 0)) ∧
      Follows c counted fuel (init tail next key) (fun _ => none) commands := by
  refine ⟨fun map same => ?_, run_represents (init_represents c tail next key) (fun _ => (⟨rfl, by decide⟩))
    throughout (by rwa [Finset.card_empty, zero_add])⟩
  rw [isEmpty_iff] at same
  by_cases zero : map.card = 0
  · exact same.mpr zero zero
  · exact zero (same.mp zero)

section Defects

/-- Numbers as keys, which are their own hash codes. -/
def numbers : Closures Nat where
  eq a b := a == b
  hash := BitVec.ofNat 64
  refl := beq_self_eq_true
  symm _ _ same := beq_iff_eq.mpr (beq_iff_eq.mp same).symm
  trans _ _ _ first second := beq_iff_eq.mpr ((beq_iff_eq.mp first).trans (beq_iff_eq.mp second))
  compatible _ _ same := congrArg _ (beq_iff_eq.mp same)

/-- A fresh map in cleared memory. -/
def cleared : Hmap Nat := init 1000 (fun _ => 0) fun _ => 0

/-- Two keys of one bucket are inserted, and the one that is last in it is erased. -/
def sharedBucket : List (Command Nat) := [.insertMem 5 16, .insertMem 13 17, .isocapErase 5]

private theorem sharedBucket_throughout : Throughout numbers True 10 cleared (fun _ => none) sharedBucket := by
  refine ⟨⟨⟨by decide, nofun⟩, fun _ full => absurd full (by decide), fun _ _ => ⟨by decide, by decide⟩⟩, ?_⟩
  rintro _ _ ⟨⟩
  refine ⟨⟨⟨by decide, fun k => ?_⟩, fun _ full => absurd full (by decide), fun _ _ => ⟨by decide, by decide⟩⟩,
    fun _ _ _ => ⟨⟨trivial, trivial, fun _ => trivial⟩, fun _ _ _ => trivial⟩⟩
  rw [Command.effect, Closures.Contents.add, if_pos rfl, update_apply]
  split <;> simp

theorem sharedBucket_follows : (∀ map : Hmap Nat, ¬ (map.isEmpty = true ↔ map.card = 0)) ∧
    Follows numbers True 10 (init 1000 (fun _ => 0) fun _ => 0) (fun _ => none) sharedBucket :=
  counted_run_follows numbers True 1000 (fun _ => 0) (fun _ => 0) sharedBucket 10 (by decide) sharedBucket_throughout

/-- The map after some keys have been inserted, with nodes at the addresses from 1 on. -/
def inserted (fuel : Nat) : List Nat → Option (Hmap Nat)
  | keys => (keys.zipIdx 1).foldlM (fun map entry => (map.insertMem numbers fuel entry.1 entry.2).map Prod.snd) cleared

/-- The search stays at a node with another key for any number of rounds. -/
theorem insertNodeLoop_stuck {found : Addr → Bool} {node : Addr} (nonnull : node ≠ 0) (other : found node = false)
    (fuel : Nat) : insertNodeLoop found fuel node = none := by
  induction fuel with
  | zero => rfl
  | succ fuel ih => rw [insertNodeLoop, if_neg nonnull, if_neg (by rw [other]; decide), ih]

/-- A fresh map is not said to be empty, the fifth key sets the cardinality to 0, clearing leaves a key, and a node with
another key in the bucket keeps `cucon_hmap_insert_node` from returning. -/
theorem defects :
    (cleared.isEmpty = false ∧ cleared.card = 0) ∧
      (inserted 10 [1, 2, 3, 4, 5]).map (fun map => (map.card, map.findMem numbers 10 3)) = some (0, some 3) ∧
      (((inserted 10 [1]).bind fun map => map.clear 10).map fun map => (map.card, map.findMem numbers 10 1)) =
        some (1, some 1) ∧
      ∀ fuel, ((inserted 10 [1]).bind fun map => (map.setKey 2 9).insertNode numbers fuel 2) = none := by
  refine ⟨by decide, by decide, by decide, fun fuel => ?_⟩
  have first : ((inserted 10 [1]).bind fun map => map.buckets.heads[(map.setKey 2 9).bucket numbers 9]?) = some 1 := by
    decide
  have other : (inserted 10 [1]).map (fun map => numbers.eq ((map.setKey 2 9).key 1) 9) = some false := by decide
  cases held : inserted 10 [1] with
  | none => rfl
  | some map =>
    rw [held] at first other
    have isKey : (map.setKey 2 9).key 2 = 9 := by simp [setKey]
    have stuck := @insertNodeLoop_stuck (fun node => numbers.eq ((map.setKey 2 9).key node) 9) 1 (by decide)
      (Option.some.inj other) fuel
    rw [bind_some, insertNode, isKey]
    have first : (map.setKey 2 9).buckets.heads[(map.setKey 2 9).bucket numbers 9]? = some 1 := first
    simp only [first, bind_eq_bind, bind_some, stuck]
    rfl

end Defects

end Culibs.Cucon.Hmap
