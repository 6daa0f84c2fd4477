import Culibs.Cucon.Hmap.Basic

namespace Culibs.Cucon.Hmap

open Buckets Function Finset BitVec Option Nat

variable {Key : Type}

namespace Closures

variable (c : Closures Key)

/-- Equality of keys. -/
def setoid : Setoid Key where
  r a b := c.eq a b = true
  iseqv := ⟨c.refl, fun {a b} => c.symm a b, fun {x y z} => c.trans x y z⟩

/-- A class of equal keys. -/
def Class : Type := Quotient c.setoid

def classOf (key : Key) : c.Class := Quotient.mk c.setoid key

theorem classOf_eq : c.classOf a = c.classOf b ↔ c.eq a b = true :=
  ⟨fun same => Quotient.exact same, fun related => Quotient.sound related⟩

instance : DecidableEq c.Class :=
  @Quotient.decidableEq Key c.setoid fun a b => inferInstanceAs (Decidable (c.eq a b = true))

/-- The node with a key of each of the classes of a map. -/
abbrev Contents := c.Class → Option Addr

variable {c}

/-- Adds a node unless the class has one. -/
def Contents.add (contents : c.Contents) (k : c.Class) (node : Addr) : c.Contents :=
  if contents k = none then update contents k (some node) else contents

end Closures

variable {c : Closures Key} {map map' : Hmap Key} {nodes : Finset Addr} {contents : c.Contents} {fuel k : Nat}
  {key : Key} {node : Addr}

/-- The nodes of a table are in the buckets of their keys, and they are the contents. -/
structure Represents (c : Closures Key) (map : Hmap Key) (nodes : Finset Addr) (contents : c.Contents) : Prop where
  capacity : ∃ k ≤ 60, map.mask = 2 ^ k - 1
  chained : Chained map.buckets 0 (map.mask + 1) (fun node => map.bucket c (map.key node)) nodes
  keyed : Keyed (fun node => c.classOf (map.key node)) nodes contents

/-- The size is the number of nodes. -/
structure Counted (map : Hmap Key) (nodes : Finset Addr) : Prop where
  size : map.size = BitVec.ofNat 32 nodes.card
  few : nodes.card < 2 ^ 31

theorem Counted.card_eq (counted : Counted map nodes) : map.card = nodes.card := by
  have few := counted.few
  have value : map.size.toNat = nodes.card := by
    rw [counted.size]
    exact mod_eq_of_lt (by omega)
  have pos : map.size.msb = false := by
    rw [msb_eq_decide, decide_eq_false_iff_not]
    omega
  rw [card, signExtend_eq_setWidth_of_msb_false pos, toNat_setWidth, value]
  exact mod_eq_of_lt (by omega)

theorem bucket_congr (map : Hmap Key) (same : c.eq a b = true) : map.bucket c a = map.bucket c b := by
  rw [bucket, bucket, c.compatible a b same]

theorem bucket_lt (c : Closures Key) (map : Hmap Key) (key : Key) :
    map.bucket c key < map.mask + 1 := lt_succ_of_le and_le_right

section

variable (rep : Represents c map nodes contents)

include rep

theorem Represents.withSize (size : BitVec 32) :
    Represents c { map with size } nodes contents := ⟨rep.capacity, rep.chained, rep.keyed⟩

theorem Represents.unique (i : Nat) (key : Key) :
    Unique nodes (fun node => map.bucket c (map.key node)) i fun node => c.eq (map.key node) key := by
  intro a memberA b memberB _ _ foundA foundB
  have classes := (c.classOf_eq.mpr foundA).trans (c.classOf_eq.mpr foundB).symm
  exact rep.keyed.unique memberA memberB classes

theorem Represents.absent (absent : contents (c.classOf key) = none) :
    ∀ a ∈ nodes, c.eq (map.key a) key = false := by
  intro a mem
  rw [← Bool.not_eq_true, ← c.classOf_eq]
  exact rep.keyed.absent absent a mem

theorem Represents.find_spec (key : Key) (enough : nodes.card < fuel) :
    findMem c fuel map key = some ((contents (c.classOf key)).getD 0) := by
  obtain ⟨first, held, search⟩ := rep.chained.findLoop (bucket_lt c map key) (rep.unique _ key)
  obtain ⟨result, found, present, missing⟩ := search fuel enough
  rw [findMem, held]
  refine found.trans (congrArg some ?_)
  cases stored : contents (c.classOf key) with
  | none => exact missing fun node mem _ => rep.absent stored node mem
  | some node =>
    obtain ⟨mem, isKey⟩ := (rep.keyed _ node).mp stored
    have same := c.classOf_eq.mp isKey
    exact present node mem (bucket_congr map same) same

end

private theorem newTable_eq (tail : Addr) (small : k ≤ 60) : newTable tail (2 ^ k) = some (List.replicate (2 ^ k) 0
    ++ [tail]) := by
  have bound : 2 ^ k ≤ 2 ^ 60 := Nat.pow_le_pow_right (by omega) small
  refine if_pos ?_
  omega

section

variable (rep : Represents c map nodes contents)

include rep

theorem Represents.setCapacity (small : k ≤ 60) (enough : nodes.card < fuel) :
    ∃ map', setCapacity c fuel map (2 ^ k) = some map' ∧ Represents c map' nodes contents ∧ map'.size = 0 := by
  have pos := Nat.two_pow_pos k
  have index (node : Addr) : (c.hash (map.key node)).toNat &&& (2 ^ k - 1) < 2 ^ k :=
    lt_of_le_of_lt Nat.and_le_right (by omega)
  obtain ⟨buckets, moved, chained, _⟩ := rep.chained.rehash (List.replicate (2 ^ k) 0 ++ [map.tail]) (2 ^ k)
    (fun node => (c.hash (map.key node)).toNat &&& (2 ^ k - 1)) (fun i less => by
      rw [List.getElem?_append_left (by rwa [List.length_replicate]), List.getElem?_replicate_of_lt less]) index enough
  refine ⟨{ map with buckets, size := 0, mask := 2 ^ k - 1 }, ?_, ⟨⟨k, small, rfl⟩, ?_, rep.keyed⟩, rfl⟩
  · rw [Hmap.setCapacity, newTable_eq map.tail small]
    simp only [moved, map_some]
  · have whole : 2 ^ k - 1 + 1 = 2 ^ k := Nat.sub_add_cancel pos
    simp only [whole]
    exact chained

theorem Represents.multiInsertNode (fresh : node ∉ nodes) (nonnull : node ≠ 0) (key' : Addr → Key)
    (same : ∀ a, a ≠ node → key' a = map.key a) (absent : contents (c.classOf (key' node)) = none) :
    ∃ buckets, multiInsertNode c { map with key := key' } node = some { map with buckets, key := key' } ∧
      Represents c { map with buckets, key := key' } (insert node nodes)
        (update contents (c.classOf (key' node)) (some node)) := by
  have others {a : Addr} (mem : a ∈ nodes) : key' a = map.key a := same a (ne_of_mem_of_not_mem mem fresh)
  have chained : Chained map.buckets 0 (map.mask + 1) (fun a => map.bucket c (key' a)) nodes :=
    rep.chained.reindex fun a mem => by simp only [others mem]
  obtain ⟨buckets, pushed, chained', _⟩ := chained.push fresh nonnull (bucket_lt c { map with key := key' } (key' node))
  refine ⟨buckets, ?_, rep.capacity, chained', ?_⟩
  · rw [Hmap.multiInsertNode]
    exact congrArg (Option.map _) pushed
  · have added : Keyed (fun a => c.classOf (key' a)) (nodes ∪ {node})
        (update contents (c.classOf (key' node)) (some node)) :=
      rep.keyed.add absent fresh rfl fun a ne => by simp only [same a ne]
    rwa [union_comm, ← insert_eq] at added

/-- The search for a key that is bound ends at its node, which can be unlinked. -/
theorem Represents.locate_present (present : contents (c.classOf key) = some node) (enough : nodes.card < fuel) :
    node ≠ 0 ∧ ∃ place map', locate c fuel map key = some (place, node) ∧ unlink map place node = some map' ∧
      map'.size = map.size ∧ map'.mask = map.mask ∧
      Represents c map' (nodes.erase node) (update contents (c.classOf key) none) := by
  obtain ⟨mem, isKey⟩ := (rep.keyed _ node).mp present
  have same := c.classOf_eq.mp isKey
  obtain ⟨place, found, buckets, written, chained, _⟩ := rep.chained.seek_found
    (fun a => c.eq (map.key a) key) mem same (rep.unique _ key)
  rw [bucket_congr map same] at found
  refine ⟨rep.chained.nonnull node mem, place, { map with buckets }, found fuel enough, ?_, rfl, rfl,
    rep.capacity, chained, rep.keyed.remove present⟩
  rw [unlink, written]
  rfl

theorem Represents.locate_absent (absent : contents (c.classOf key) = none) (enough : nodes.card < fuel) :
    ∃ place, locate c fuel map key = some (place, 0) := by
  obtain ⟨place, found, _⟩ := rep.chained.seek_absent (bucket_lt c map key)
    (fun node mem _ => rep.absent absent node mem)
  exact ⟨place, found fuel enough⟩

end

/-- The table after an operation, with at most one node more. The size is right if it was, as far as the operation
counts. -/
def Edits (c : Closures Key) (counted : Prop) (map' : Hmap Key) (nodes : Finset Addr) (contents' : c.Contents) : Prop :=
  ∃ nodes', Represents c map' nodes' contents' ∧ nodes'.card ≤ nodes.card + 1 ∧ (counted → Counted map' nodes')

section Operations

variable {counted : Prop}

theorem insertMem_spec (rep : Represents c map nodes contents) (count : counted → Counted map nodes)
    (fresh : node ∉ nodes) (nonnull : node ≠ 0) (enough : nodes.card + 1 < fuel)
    (room : contents (c.classOf key) = none → map.overfull = true → 2 * (map.mask + 1) ≤ 2 ^ 60)
    (keeps : counted → contents (c.classOf key) = none → map.overfull = false ∧ map.card + 1 < 2 ^ 31) :
    ∃ map', insertMem c fuel map key node =
        some (((contents (c.classOf key)).isNone, (contents (c.classOf key)).getD node), map') ∧
      Edits c counted map' nodes (contents.add (c.classOf key) node) := by
  have found := rep.find_spec key (lt_of_succ_lt enough)
  rw [insertMem, found]
  cases stored : contents (c.classOf key) with
  | some old =>
    have isNode := rep.chained.nonnull old ((rep.keyed _ old).mp stored).1
    refine ⟨map, if_pos isNode, nodes, ?_, le_succ _, count⟩
    rw [Closures.Contents.add, if_neg (by rw [stored]; exact some_ne_none old)]
    exact rep
  | none =>
    have isKey : update map.key node key node = key := update_self ..
    obtain ⟨buckets, inserted, represents'⟩ := rep.multiInsertNode fresh nonnull (update map.key node key)
      (fun a ne => update_of_ne ne ..) (by rw [isKey]; exact stored)
    rw [isKey] at represents'
    have card : (insert node nodes).card = nodes.card + 1 := card_insert_of_notMem fresh
    have added : contents.add (c.classOf key) node = update contents (c.classOf key) (some node) := if_pos stored
    have overfull : ({ map with buckets, key := update map.key node key } : Hmap Key).overfull = map.overfull := rfl
    simp only [getD_none, isNone_none, ne_eq, not_true_eq_false, if_false, setKey, inserted, overfull, added,
      bind_eq_bind, bind_some]
    by_cases full : map.overfull = true
    · obtain ⟨k, _, isMask⟩ := rep.capacity
      have pos := Nat.two_pow_pos k
      have doubled : 2 * (map.mask + 1) = 2 ^ (k + 1) := by
        rw [isMask, Nat.sub_add_cancel pos, pow_succ']
      have small : k + 1 ≤ 60 := (Nat.pow_le_pow_iff_right (by omega)).mp (doubled ▸ room stored full)
      obtain ⟨map', grown, represents'', _⟩ := (represents'.withSize (map.size + 1)).setCapacity small (card ▸ enough)
      refine ⟨map', ?_, _, represents'', le_of_eq card, fun counts => ?_⟩
      · rw [if_pos full, doubled, grown]
        rfl
      · rw [full] at keeps
        exact absurd (keeps counts stored).1 (by decide)
    · refine ⟨_, by rw [if_neg full]; rfl, _, represents'.withSize (map.size + 1), le_of_eq card, fun counts => ?_⟩
      have counted := count counts
      have few := (keeps counts stored).2
      rw [counted.card_eq] at few
      refine ⟨?_, by rwa [card]⟩
      rw [card, ofNat_add, ← counted.size]
      rfl

/-- The bucket of a key is empty, or its first node has an equal key. -/
def FirstDecides (c : Closures Key) (map : Hmap Key) (key : Key) : Prop :=
  ∀ first ∈ map.buckets.heads[map.bucket c key]?, first = 0 ∨ c.eq (map.key first) key = true

theorem insertNode_spec (rep : Represents c map nodes contents) (count : counted → Counted map nodes)
    (fresh : node ∉ nodes) (nonnull : node ≠ 0) (enough : nodes.card + 1 < fuel)
    (decides : FirstDecides c map (map.key node))
    (keeps : counted → contents (c.classOf (map.key node)) ≠ none) :
    ∃ map', insertNode c fuel map node = some ((contents (c.classOf (map.key node))).isNone, map') ∧
      Edits c counted map' nodes (contents.add (c.classOf (map.key node)) node) := by
  obtain ⟨first, held, xs, path, distinct, isPart⟩ := rep.chained.chain _ (bucket_lt c map (map.key node))
  obtain ⟨less, rfl⟩ := exists_eq_add_one_of_ne_zero (ne_zero_of_lt enough)
  rw [insertNode, held]
  by_cases isNull : first = 0
  · -- Nothing is in the bucket.
    obtain rfl : [] = xs := Path.unique isNull path
    have absent : contents (c.classOf (map.key node)) = none := by
      refine eq_none_iff_forall_ne_some.mpr fun a stored => ?_
      obtain ⟨mem, isKey⟩ := (rep.keyed _ a).mp stored
      have inPart : a ∈ nodes.filter fun a => map.bucket c (map.key a) = map.bucket c (map.key node) :=
        Finset.mem_filter.mpr ⟨mem, bucket_congr map (c.classOf_eq.mp isKey)⟩
      rw [← isPart] at inPart
      cases inPart
    obtain ⟨buckets, inserted, represents'⟩ := rep.multiInsertNode fresh nonnull map.key (fun _ _ => rfl) absent
    have card : (insert node nodes).card = nodes.card + 1 := card_insert_of_notMem fresh
    refine ⟨{ map with buckets }, ?_, insert node nodes, ?_, le_of_eq card, fun counts => absurd absent (keeps counts)⟩
    · simp only [bind_eq_bind, bind_some, insertNodeLoop, isNull, if_true, Bool.false_eq_true, if_false,
        inserted, absent]
      rfl
    · rw [Closures.Contents.add, if_pos absent]
      exact represents'
  · have same := (decides first held).resolve_left isNull
    have mem := (rep.chained.pop (bucket_lt c map (map.key node)) held isNull).1
    have stored : contents (c.classOf (map.key node)) = some first :=
      (rep.keyed _ first).mpr ⟨mem, c.classOf_eq.mpr same⟩
    refine ⟨map, ?_, nodes, ?_, le_succ _, count⟩
    · simp only [bind_eq_bind, bind_some, insertNodeLoop, isNull, if_false, same, if_true, stored]
      rfl
    · rw [Closures.Contents.add, if_neg (by rw [stored]; exact some_ne_none first)]
      exact rep

theorem Represents.drop (rep : Represents c map nodes contents) (absent : contents (c.classOf key) = none) :
    Represents c map nodes (update contents (c.classOf key) none) := by
  rwa [← absent, update_eq_self]

theorem Counted.pred (counted : Counted map nodes) (mem : node ∈ nodes) :
    Counted { map' with size := map.size - 1 } (nodes.erase node) := by
  have card := card_erase_add_one mem
  have few := counted.few
  refine ⟨?_, by omega⟩
  have size : map.size = BitVec.ofNat 32 (nodes.erase node).card + 1 := by
    rw [counted.size, ← card, ofNat_add]
    rfl
  simp only [size, BitVec.add_sub_cancel]

section

variable (rep : Represents c map nodes contents)

include rep

theorem isocapPopMem_spec (count : counted → Counted map nodes) (enough : nodes.card + 1 < fuel) :
    ∃ map', isocapPopMem c fuel map key = some ((contents (c.classOf key)).getD 0, map') ∧
      Edits c counted map' nodes (update contents (c.classOf key) none) := by
  have enough := lt_of_succ_lt enough
  rw [isocapPopMem]
  cases stored : contents (c.classOf key) with
  | none =>
    obtain ⟨place, found⟩ := rep.locate_absent stored enough
    exact ⟨map, by rw [found]; rfl, nodes, rep.drop stored, le_succ _, count⟩
  | some node =>
    obtain ⟨nonnull, place, map', found, unlinked, size, mask, represents'⟩ := rep.locate_present stored enough
    have mem := ((rep.keyed _ node).mp stored).1
    refine ⟨{ map' with size := map'.size - 1 }, ?_, nodes.erase node, represents'.withSize _,
      le_succ_of_le (card_le_card (Finset.erase_subset ..)), fun counts => ?_⟩
    · simp only [found, bind_eq_bind, bind_some, nonnull, if_false, unlinked]
      rfl
    · rw [size]
      exact (count counts).pred mem

theorem popMem_spec (count : counted → Counted map nodes) (enough : nodes.card + 1 < fuel)
    (keeps : counted → contents (c.classOf key) ≠ none → map.sparse = false ∨ map.card = 1) :
    ∃ map', popMem c fuel map key = some ((contents (c.classOf key)).getD 0, map') ∧
      Edits c counted map' nodes (update contents (c.classOf key) none) := by
  have enough := lt_of_succ_lt enough
  rw [popMem]
  cases stored : contents (c.classOf key) with
  | none =>
    obtain ⟨place, found⟩ := rep.locate_absent stored enough
    exact ⟨map, by rw [found]; rfl, nodes, rep.drop stored, le_succ _, count⟩
  | some node =>
    obtain ⟨nonnull, place, map', found, unlinked, size, mask, represents'⟩ := rep.locate_present stored enough
    have mem := ((rep.keyed _ node).mp stored).1
    have fewer : (nodes.erase node).card ≤ nodes.card := card_le_card (Finset.erase_subset ..)
    have sparse : map'.sparse = map.sparse := by rw [Hmap.sparse, Hmap.sparse, size, mask]
    simp only [found, bind_eq_bind, bind_some, nonnull, if_false, unlinked, sparse]
    by_cases shrinks : map.sparse = true
    · obtain ⟨k, small, isMask⟩ := rep.capacity
      have large : map.mask > capacityMin := (of_decide_eq_true shrinks).2
      obtain ⟨j, rfl⟩ : ∃ j, k = j + 1 := exists_eq_succ_of_ne_zero fun none => by
        rw [isMask, none] at large
        exact absurd large (by decide)
      have halved : (map'.mask + 1) / 2 = 2 ^ j := by
        rw [mask, isMask, Nat.sub_add_cancel (Nat.two_pow_pos _), Nat.pow_succ, Nat.mul_div_cancel _ (by decide)]
      obtain ⟨map'', shrunk, represents'', zero⟩ := (represents'.withSize (map'.size - 1)).setCapacity
        (by omega : j ≤ 60) (lt_of_le_of_lt fewer enough)
      refine ⟨map'', ?_, nodes.erase node, represents'', le_succ_of_le fewer, fun counts => ?_⟩
      · rw [if_pos shrinks, halved, shrunk]
        rfl
      · -- Only the last node can leave a size of zero behind.
        have last := (keeps counts (by rw [stored]; exact some_ne_none node)).resolve_left (by rw [shrinks]; decide)
        rw [(count counts).card_eq] at last
        have card := card_erase_add_one mem
        have none : (nodes.erase node).card = 0 := by omega
        exact ⟨by rw [zero, none]; rfl, by omega⟩
    · refine ⟨_, by rw [if_neg shrinks]; rfl, nodes.erase node, represents'.withSize _, le_succ_of_le fewer,
        fun counts => ?_⟩
      rw [size]
      exact (count counts).pred mem

theorem setCapacity_spec (small : k ≤ 60) (enough : nodes.card + 1 < fuel) (keeps : counted → nodes = ∅) :
    ∃ map', setCapacity c fuel map (2 ^ k) = some map' ∧ Edits c counted map' nodes contents := by
  obtain ⟨map', done, represents', zero⟩ := rep.setCapacity small (lt_of_succ_lt enough)
  refine ⟨map', done, nodes, represents', le_succ _, fun counts => ?_⟩
  rw [keeps counts]
  exact ⟨zero, by decide⟩

end

theorem forHeads_same (same : ∀ j first, firsts[j]? = some first → step (i + j) t first = some t) :
    forHeads step i firsts t = some t := by
  induction firsts generalizing i with
  | nil => rfl
  | cons first firsts ih =>
    have here : step i t first = some t := same 0 first rfl
    rw [forHeads, here]
    refine ih fun j next held => ?_
    rw [add_right_comm]
    exact same (j + 1) next held

theorem clear_spec (rep : Represents c map nodes contents) (enough : nodes.card < fuel) :
    clear fuel map = some map := by
  have loops : forHeads (fun _ t node => (findLoop 0 (fun _ => false) map.buckets.next fuel node).map fun _ => t) 0
      (map.buckets.heads.take (map.mask + 1)) map.buckets = some map.buckets := by
    refine forHeads_same fun j first held => ?_
    rw [List.getElem?_take] at held
    split at held
    · next bound =>
      have never : Unique nodes (fun node => map.bucket c (map.key node)) j fun _ => false :=
        fun _ _ _ _ _ _ found => absurd found Bool.false_ne_true
      obtain ⟨first', held', search⟩ := rep.chained.findLoop bound never
      obtain rfl := some.inj (held.symm.trans held')
      obtain ⟨result, found, _⟩ := search fuel enough
      rw [found]
      rfl
    · cases held
  rw [clear, loops]
  rfl

end Operations

end Culibs.Cucon.Hmap
