import Culibs.Cucon.Umap.Isecn
import Culibs.Foundation.Walk
import Mathlib.Data.BitVec

namespace Culibs.Cucon.Umap

open Buckets List Finset Option Nat

section Code

variable (fuel : Nat)

/-- `umap->arr[i]`, where only the first `mask + 1` pointers are to nodes. -/
def bucket (map : Umap) (i : Nat) : Option Addr := if i ≤ map.mask then map.buckets.heads[i]? else none

def eqKeys (umap0 umap1 : Umap) : Option Bool :=
  if umap0.size ≠ umap1.size then some false
  else
    let found (node : Addr) : Option Bool := (findMem fuel umap1 (umap0.key node)).map (· != 0)
    conjAll (fun i => (umap0.bucket i).bind (conjLoop 0 umap0.buckets.next found fuel)) (range (umap0.mask + 1))

/-- A byte of a slot. -/
def slotByte (memory : Nat → Word) (i : Nat) : BitVec 8 := (memory (i / 8)).extractLsb' (8 * (i % 8)) 8

/-- `memcmp(slot0, slot1, slot_size) == 0` -/
def sameBytes (memory0 memory1 : Nat → Word) (slotSize : Nat) : Bool :=
  (List.range slotSize).all fun i => slotByte memory0 i == slotByte memory1 i

/-- `while (node != NULL)`, where the node stays the same. -/
def stuckLoop (test : Addr → Option Bool) : Nat → Addr → Option Bool
  | 0, _ => none
  | fuel + 1, node =>
    if node = 0 then some true
    else (test node).bind fun same => if same then stuckLoop test fuel node else some false

def eqMem (umap0 umap1 : Umap) (slotSize : Nat) : Option Bool :=
  if umap0.size ≠ umap1.size then some false
  else
    let same (node : Addr) : Option Bool := (findMem fuel umap1 (umap0.key node)).map fun found =>
      found != 0 && sameBytes (umap0.slot node) (umap1.slot found) slotSize
    conjAll (fun i => (umap0.bucket i).bind (stuckLoop same fuel)) (range (umap0.mask + 1))

def hashSeed : Word := 178841123

/-- The loops of the hash functions, which run to `size`. -/
def hashLoop (map : Umap) (value : Addr → Word) : Option Word :=
  ((List.range (map.size + 1)).foldlM (fun acc i => (map.bucket i).bind fun node =>
    foldLoop 0 map.buckets.next (fun acc node => acc + value node) fuel node acc) hashSeed).map hash

def hashKeys (map : Umap) : Option Word := hashLoop fuel map fun node => hash (map.key node)

/-- The hash of a node with the words of its slot. -/
def subhash (key : Word) (memory : Nat → Word) (slotSize : Nat) : Word :=
  (List.range ((slotSize + 7) / 8)).foldl (fun subhash j => hash (subhash + memory j)) (hash key)

def hashMem (map : Umap) (slotSize : Nat) : Option Word :=
  hashLoop fuel map fun node => subhash (map.key node) (map.slot node) slotSize

end Code

/-- The same keys. -/
def SameKeys (contents0 contents1 : Contents) : Prop := ∀ k, contents0 k = none ↔ contents1 k = none

/-- The same keys, and the first bytes of their slots are equal. -/
def SameMem (contents0 contents1 : Contents) (slotSize : Nat) : Prop := ∀ k,
  Option.Rel (fun binding0 binding1 => sameBytes binding0.value binding1.value slotSize = true)
    (contents0 k) (contents1 k)

variable {map umap0 umap1 : Umap} {nodes nodes0 nodes1 : Finset Addr} {contents contents0 contents1 : Contents}
  {fuel slotSize : Nat}

variable {i : Nat}

theorem bucket_eq (bound : i ≤ map.mask) : map.bucket i = map.buckets.heads[i]? := if_pos bound

theorem bucket_reads : ∀ i < map.mask + 1, map.bucket i = map.buckets.heads[i]? := fun _ bound =>
  bucket_eq (le_of_lt_succ bound)

variable {a : Addr}

theorem Represents.binding (rep : Represents map nodes contents) (mem : a ∈ nodes) :
    ∃ binding, contents (map.key a) = some binding ∧ binding.node = a ∧ binding.value = map.slot a := by
  obtain ⟨binding, stored, isNode⟩ := map_eq_some_iff.mp ((rep.keyed (map.key a) a).mpr ⟨mem, rfl⟩)
  exact ⟨binding, stored, isNode, by rw [← rep.value _ binding stored, isNode]⟩

theorem image_eq (represents0 : Represents umap0 nodes0 contents0) (represents1 : Represents umap1 nodes1 contents1)
    (same : SameKeys contents0 contents1) : nodes0.image umap0.key = nodes1.image umap1.key := by
  ext k
  rw [represents0.mem_keys, represents1.mem_keys, ne_eq, same]

private theorem none_of_empty (rep : Represents map ∅ contents) (k : Word) : contents k = none := by
  have bound := rep.mem_keys k
  exact not_not.mp fun stored => notMem_empty k (bound.mpr stored)

/-- Maps of the same size have the same keys if all keys of one are keys of the other. -/
theorem sameKeys_iff (represents0 : Represents umap0 nodes0 contents0)
    (represents1 : Represents umap1 nodes1 contents1) :
    SameKeys contents0 contents1 ↔
      umap0.size = umap1.size ∧ ∀ a ∈ nodes0, contents1 (umap0.key a) ≠ none := by
  have keys0 := represents0.mem_keys
  have keys1 := represents1.mem_keys
  have card0 := represents0.sound.card_keys
  have card1 := represents1.sound.card_keys
  constructor
  · intro same
    refine ⟨by rw [← card0, ← card1, image_eq represents0 represents1 same], fun a mem absent => ?_⟩
    exact (keys0 (umap0.key a)).mp (mem_image_of_mem _ mem) ((same _).mpr absent)
  rintro ⟨size, all⟩
  have subset : nodes0.image umap0.key ⊆ nodes1.image umap1.key := by
    intro k mem
    obtain ⟨a, inNodes, rfl⟩ := mem_image.mp mem
    exact (keys1 _).mpr (all a inNodes)
  have equal := eq_of_subset_of_card_le subset (by rw [card0, card1, size])
  intro k
  rw [← not_iff_not, ← ne_eq, ← ne_eq, ← keys0, ← keys1, equal]

section Equal

variable (represents0 : Represents umap0 nodes0 contents0) (represents1 : Represents umap1 nodes1 contents1)

include represents0 represents1

private theorem eqKeys_spec (enough0 : nodes0.card < fuel) (enough1 : nodes1.card < fuel) :
    ∃ result, eqKeys fuel umap0 umap1 = some result ∧ (result = true ↔ SameKeys contents0 contents1) := by
  rw [sameKeys_iff represents0 represents1, eqKeys]
  by_cases size : umap0.size = umap1.size
  · rw [if_neg (not_not.mpr size)]
    have found (a : Addr) (_ : a ∈ nodes0) : (findMem fuel umap1 (umap0.key a)).map (· != 0) =
        some (contents1 (umap0.key a)).isSome := by
      rw [findMem, findNode_spec represents1 _ enough1]
      cases stored : contents1 (umap0.key a) with
      | none => rw [nodeOf_none stored]; rfl
      | some binding =>
        rw [nodeOf_some stored]
        exact congrArg some (bne_iff_ne.mpr (represents1.nonnull stored).2)
    obtain ⟨result, done, right⟩ := represents0.chained.conjAll bucket_reads found enough0
    refine ⟨result, done, ?_⟩
    rw [right, and_iff_right size]
    exact forall₂_congr fun a _ => isSome_iff_ne_none
  · rw [if_pos size]
    exact ⟨false, rfl, iff_of_false Bool.false_ne_true fun both => size both.1⟩

end Equal

/-- The first node of the first bucket that is not empty. -/
def FirstNode (map : Umap) (a : Addr) : Prop :=
  ∃ i ≤ map.mask, (∀ j < i, map.bucket j = some 0) ∧ map.bucket i = some a ∧ a ≠ 0

/-- The maps have the same size, and the first node of one has its key in the other, with the same bytes. -/
def Stuck (umap0 umap1 : Umap) (contents1 : Contents) (slotSize : Nat) : Prop :=
  umap0.size = umap1.size ∧ ∃ a, FirstNode umap0 a ∧ ∃ binding, contents1 (umap0.key a) = some binding ∧
    sameBytes (umap0.slot a) binding.value slotSize = true

theorem FirstNode.unique (first : FirstNode map a) (first' : FirstNode map b) : a = b := by
  obtain ⟨i, _, before, held, nonnull⟩ := first
  obtain ⟨j, _, before', held', nonnull'⟩ := first'
  rcases lt_trichotomy i j with less | same | more
  · rw [before' i less] at held
    exact absurd (some.inj held).symm nonnull
  · rw [same, held'] at held
    exact (some.inj held).symm
  · rw [before j more] at held'
    exact absurd (some.inj held').symm nonnull'

variable {test : Addr → Option Bool}

theorem stuckLoop_null (enough : 0 < fuel) : stuckLoop test fuel 0 = some true := by
  obtain ⟨fuel, rfl⟩ := Nat.exists_eq_add_of_lt enough
  exact if_pos rfl

private theorem stuckLoop_true (nonnull : a ≠ 0) (holds : test a = some true)
    (fuel : Nat) :
    stuckLoop test fuel a = none := by
  induction fuel with
  | zero => rfl
  | succ fuel ih => rw [stuckLoop, if_neg nonnull, holds, bind_some, if_pos rfl, ih]

private theorem stuckLoop_false (nonnull : a ≠ 0) (fails : test a = some false)
    (enough : 0 < fuel) : stuckLoop test fuel a = some false := by
  obtain ⟨fuel, rfl⟩ := Nat.exists_eq_add_of_lt enough
  rw [stuckLoop, if_neg nonnull, fails, bind_some, if_neg Bool.false_ne_true]

theorem Represents.bucket (rep : Represents map nodes contents) (bound : i ≤ map.mask) :
    ∃ first xs, map.bucket i = some first ∧ Path map.buckets.next 0 first xs ∧
      ∀ a, a ∈ xs ↔ a ∈ nodes ∧ map.index (map.key a) = i := by
  obtain ⟨first, held, xs, path, _, isPart⟩ := rep.chained.chain i (lt_succ_of_le bound)
  exact ⟨first, xs, (bucket_eq bound).trans held, path, fun a => by rw [← List.mem_toFinset, isPart, Finset.mem_filter]⟩

theorem Represents.bucket_mem (rep : Represents map nodes contents) (bound : i ≤ map.mask)
    (held : map.bucket i = some a) (nonnull : a ≠ 0) : a ∈ nodes := by
  obtain ⟨first, xs, held', path, isPart⟩ := rep.bucket bound
  obtain rfl := some.inj (held.symm.trans held')
  cases xs with
  | nil => exact absurd path nonnull
  | cons x xs =>
    obtain ⟨rfl, _⟩ := path
    exact ((isPart a).mp mem_cons_self).1

theorem Represents.exists_first (rep : Represents map nodes contents) (nonempty : nodes.Nonempty) :
    ∃ a, FirstNode map a := by
  have some_bucket : ∃ i, i ≤ map.mask ∧ map.bucket i ≠ some 0 := by
    obtain ⟨a, mem⟩ := nonempty
    have bound := le_of_lt_succ (rep.chained.inside a mem)
    obtain ⟨first, xs, held, path, isPart⟩ := rep.bucket bound
    refine ⟨map.index (map.key a), bound, fun empty => ?_⟩
    obtain rfl := some.inj (held.symm.trans empty)
    have inPart := (isPart a).mpr ⟨mem, rfl⟩
    cases xs with
    | nil => exact not_mem_nil inPart
    | cons x xs => exact path.2.1 path.1.symm
  classical
  obtain ⟨bound, nonnull⟩ := Nat.find_spec some_bucket
  obtain ⟨a, _, held, _⟩ := rep.bucket bound
  refine ⟨a, _, bound, fun j less => ?_, held, fun null => nonnull (null ▸ held)⟩
  by_contra other
  exact Nat.find_min some_bucket less ⟨le_of_lt (lt_of_lt_of_le less bound), other⟩

theorem Represents.bucket_empty (rep : Represents map ∅ contents) (bound : i ≤ map.mask) :
    map.bucket i = some 0 := by
  obtain ⟨first, xs, held, path, isPart⟩ := rep.bucket bound
  cases xs with
  | nil => rw [held, show first = 0 from path]
  | cons x xs => exact absurd ((isPart x).mp mem_cons_self).1 (notMem_empty x)

theorem sameMem_keys (same : SameMem contents0 contents1 slotSize) : SameKeys contents0 contents1 := by
  intro k
  have related := same k
  revert related
  generalize contents0 k = binding0, contents1 k = binding1
  rintro (related | _)
  · exact iff_of_false (some_ne_none _) (some_ne_none _)
  · exact Iff.rfl

section Memory

variable (represents0 : Represents umap0 nodes0 contents0) (represents1 : Represents umap1 nodes1 contents1)

include represents0 represents1

theorem stuck_of_same (same : SameMem contents0 contents1 slotSize) (nonempty : nodes0.Nonempty) :
    Stuck umap0 umap1 contents1 slotSize := by
  obtain ⟨size, _⟩ := (sameKeys_iff represents0 represents1).mp (sameMem_keys same)
  obtain ⟨a, i, bound, before, held, nonnull⟩ := represents0.exists_first nonempty
  obtain ⟨binding, stored, _, value⟩ := represents0.binding (represents0.bucket_mem bound held nonnull)
  have related := same (umap0.key a)
  rw [stored] at related
  cases stored1 : contents1 (umap0.key a) with
  | none =>
    rw [stored1] at related
    cases related
  | some binding1 =>
    rw [stored1] at related
    cases related with
    | some equal => exact ⟨size, a, ⟨i, bound, before, held, nonnull⟩, binding1, stored1, value ▸ equal⟩

omit represents0 in
theorem eqMem_first (size : umap0.size = umap1.size) (first : FirstNode umap0 a)
    (enough : nodes1.card < fuel) (same : Bool)
    (isSame : same = true ↔ ∃ binding, contents1 (umap0.key a) = some binding ∧
      sameBytes (umap0.slot a) binding.value slotSize = true) :
    eqMem fuel umap0 umap1 slotSize = if same then none else some false := by
  obtain ⟨i, bound, before, held, nonnull⟩ := first
  have pos : 0 < fuel := lt_of_le_of_lt (zero_le _) enough
  have tested : ((findMem fuel umap1 (umap0.key a)).map fun found =>
      found != 0 && sameBytes (umap0.slot a) (umap1.slot found) slotSize) = some same := by
    rw [findMem, findNode_spec represents1 _ enough, map_some]
    cases stored : contents1 (umap0.key a) with
    | none =>
      rw [nodeOf_none stored]
      rw [stored] at isSame
      refine congrArg some (Eq.symm (Bool.eq_false_iff.mpr fun holds => ?_))
      obtain ⟨_, absent, _⟩ := isSame.mp holds
      cases absent
    | some binding =>
      have nonnull1 := (represents1.nonnull stored).2
      rw [nodeOf_some stored, getD_some, bne_iff_ne.mpr nonnull1, represents1.value _ binding stored]
      refine congrArg some (Bool.eq_iff_iff.mpr ?_)
      rw [isSame, stored]
      constructor
      · exact fun equal => ⟨binding, rfl, equal⟩
      · rintro ⟨_, isBinding, equal⟩
        exact some.inj isBinding ▸ equal
  have split : List.range (umap0.mask + 1) = List.range i ++ i :: List.range' (i + 1) (umap0.mask - i) := by
    rw [range_eq_range', range_eq_range', ← range'_succ]
    have := @range'_append_1 0 i (umap0.mask - i + 1)
    rw [zero_add] at this
    rw [this]
    congr 1
    omega
  rw [eqMem, if_neg (not_not.mpr size)]
  dsimp only
  rw [split, conjAll_append fun j mem => ?_]
  · rw [conjAll, held, bind_some]
    cases same with
    | true =>
      rw [stuckLoop_true nonnull tested]
      rfl
    | false =>
      rw [stuckLoop_false nonnull tested pos]
      rfl
  · rw [before j (List.mem_range.mp mem), bind_some, stuckLoop_null pos]

private theorem eqMem_iff : Delivers (fun fuel => eqMem fuel umap0 umap1 slotSize)
      (fun result => result = true ↔ SameMem contents0 contents1 slotSize) ↔
      ¬ Stuck umap0 umap1 contents1 slotSize := by
  refine delivers_iff (nodes0.card + nodes1.card + 1) fun fuel enough => ?_
  have enough1 : nodes1.card < fuel := by omega
  by_cases size : umap0.size = umap1.size
  · rcases nodes0.eq_empty_or_nonempty with rfl | nonempty
    · have empty := represents1.size
      rw [← size, represents0.size] at empty
      obtain rfl := card_eq_zero.mp empty.symm
      have done : eqMem fuel umap0 umap1 slotSize = some true := by
        rw [eqMem, if_neg (not_not.mpr size)]
        dsimp only
        have each (i : Nat) (mem : i ∈ List.range (umap0.mask + 1)) : (umap0.bucket i).bind (stuckLoop (fun node =>
            (findMem fuel umap1 (umap0.key node)).map fun found =>
              found != 0 && sameBytes (umap0.slot node) (umap1.slot found) slotSize) fuel) = some true := by
          rw [represents0.bucket_empty (Nat.le_of_lt_succ (List.mem_range.mp mem)), bind_some,
            stuckLoop_null (by omega)]
        rw [conjAll_eq each, all_eq_true.mpr fun _ _ => rfl]
      refine iff_of_true ⟨true, done, iff_of_true rfl fun k => ?_⟩ ?_
      · rw [none_of_empty represents0, none_of_empty represents1]
        exact .none
      · rintro ⟨_, a, ⟨i, bound, _, held, nonnull⟩, _⟩
        exact absurd (represents0.bucket_mem bound held nonnull) (notMem_empty a)
    · obtain ⟨a, first⟩ := represents0.exists_first nonempty
      by_cases matched : ∃ binding, contents1 (umap0.key a) = some binding ∧
          sameBytes (umap0.slot a) binding.value slotSize = true
      · have done := eqMem_first represents1 size first enough1 true (iff_of_true rfl matched)
        refine iff_of_false ?_ (not_not.mpr ⟨size, a, first, matched⟩)
        rintro ⟨result, returned, _⟩
        rw [done] at returned
        cases returned
      have done := eqMem_first represents1 size first enough1 false
        (iff_of_false Bool.false_ne_true matched)
      have moves : ¬ Stuck umap0 umap1 contents1 slotSize := by
        rintro ⟨_, b, first', matched'⟩
        rw [first.unique first'] at matched
        exact matched matched'
      exact iff_of_true ⟨false, done, iff_of_false Bool.false_ne_true fun same =>
        moves (stuck_of_same represents0 represents1 same nonempty)⟩ moves
  · have done : eqMem fuel umap0 umap1 slotSize = some false := if_pos size
    refine iff_of_true ⟨false, done, iff_of_false Bool.false_ne_true fun same => size ?_⟩ fun stuck => size stuck.1
    exact ((sameKeys_iff represents0 represents1).mp (sameMem_keys same)).1

end Memory

/-- A loop to `size` stays in the buckets as long as the mask is not smaller. -/
theorem hashLoop_inside (rep : Represents map nodes contents) (value : Addr → Word)
    (inside : map.size ≤ map.mask)
    (enough : nodes.card < fuel) : hashLoop fuel map value =
      some (hash (hashSeed + ∑ a ∈ nodes.filter fun a => map.index (map.key a) < map.size + 1, value a)) := by
  have sum := rep.chained.foldM_sum bucket_reads value enough (Nat.succ_le_succ inside) hashSeed
  rw [hashLoop, sum, map_some]

private theorem hashLoop_outside (value : Addr → Word) (outside : map.mask < map.size) (fuel : Nat) :
    hashLoop fuel map value = none := by
  have none_of_mem {l : List Nat} (mem : map.mask + 1 ∈ l) (acc : Word) :
      l.foldlM (fun acc i => (map.bucket i).bind fun node =>
        foldLoop 0 map.buckets.next (fun acc node => acc + value node) fuel node acc) acc = none := by
    induction l generalizing acc with
    | nil => exact absurd mem not_mem_nil
    | cons i l ih =>
      rw [foldlM_cons]
      rcases List.mem_cons.mp mem with rfl | later
      · rw [bucket, if_neg (Nat.not_succ_le_self _)]
        rfl
      · cases (map.bucket i).bind fun node =>
            foldLoop 0 map.buckets.next (fun acc node => acc + value node) fuel node acc with
        | none => rfl
        | some acc => exact ih later acc
  rw [hashLoop, none_of_mem (List.mem_range.mpr (Nat.succ_lt_succ outside)), map_none]

/-- The keys in the buckets after `size`, where the hash functions do not look. -/
def leftOut (map : Umap) (keys : Finset Word) : Finset Word := keys.filter fun k => map.size < map.index k

/-- The hash of the keys that are not left out. -/
def keysHash (map : Umap) (keys : Finset Word) : Word := hash (hashSeed + ∑ k ∈ keys \ leftOut map keys, hash k)

private theorem hashKeys_inside (rep : Represents map nodes contents) (inside : map.size ≤ map.mask)
    (enough : nodes.card < fuel) : hashKeys fuel map = some (keysHash map (nodes.image map.key)) := by
  have distinct : Set.InjOn map.key nodes := rep.sound.distinct
  have counted : ∑ k ∈ nodes.image map.key \ leftOut map (nodes.image map.key), hash k =
      ∑ a ∈ nodes.filter fun a => map.index (map.key a) < map.size + 1, hash (map.key a) := by
    rw [leftOut, ← Finset.filter_not, filter_image, sum_image fun a mem b member' same =>
      distinct (Finset.mem_filter.mp mem).1 (Finset.mem_filter.mp member').1 same]
    exact sum_congr (Finset.filter_congr fun a _ => by omega) fun _ _ => rfl
  rw [hashKeys, hashLoop_inside rep _ inside enough, keysHash, counted]

/-- All four functions terminate, equality is right, and equal maps have the same hash. -/
structure EqHashRight (umap0 umap1 : Umap) (contents0 contents1 : Contents) (slotSize : Nat) : Prop where
  keys : Delivers (fun fuel => eqKeys fuel umap0 umap1) fun result => result = true ↔ SameKeys contents0 contents1
  mem : Delivers (fun fuel => eqMem fuel umap0 umap1 slotSize) fun result =>
    result = true ↔ SameMem contents0 contents1 slotSize
  hashKeys : ∃ h0 h1, Returns (fun fuel => hashKeys fuel umap0) h0 ∧ Returns (fun fuel => Umap.hashKeys fuel umap1) h1 ∧
    (SameKeys contents0 contents1 → h0 = h1)
  hashMem : ∃ h0 h1, Returns (fun fuel => hashMem fuel umap0 slotSize) h0 ∧
    Returns (fun fuel => Umap.hashMem fuel umap1 slotSize) h1 ∧ (SameMem contents0 contents1 slotSize → h0 = h1)

/-- The sizes are not above the masks, the first node of one map is not one that equality finds in the other, and
with the same keys the same keys are left out. -/
structure Comparable (umap0 umap1 : Umap) (keys : Finset Word) (contents0 contents1 : Contents) (slotSize : Nat) :
    Prop where
  inside0 : umap0.size ≤ umap0.mask
  inside1 : umap1.size ≤ umap1.mask
  moves : ¬ Stuck umap0 umap1 contents1 slotSize
  leftOut : SameKeys contents0 contents1 → leftOut umap0 keys = leftOut umap1 keys

/-- Different keys are left out, and the 64 bits of the hash are the same nevertheless. -/
def Coincide (umap0 umap1 : Umap) (keys : Finset Word) : Prop :=
  leftOut umap0 keys ≠ leftOut umap1 keys ∧ keysHash umap0 keys = keysHash umap1 keys

private theorem inside_of_returns (returns : Returns (fun fuel => hashLoop fuel map value) h) :
    map.size ≤ map.mask := by
  obtain ⟨bound, done⟩ := returns
  by_contra outside
  have failed := (hashLoop_outside value (Nat.lt_of_not_le outside) bound).symm.trans (done bound (le_refl bound))
  cases failed

/-- When the functions are right: under the condition, and without it only where the hashes of different keys
coincide. -/
theorem eq_hash_right (represents0 : Represents umap0 nodes0 contents0)
    (represents1 : Represents umap1 nodes1 contents1) (slotSize : Nat) :
    (Comparable umap0 umap1 (nodes0.image umap0.key) contents0 contents1 slotSize →
      EqHashRight umap0 umap1 contents0 contents1 slotSize) ∧
    (EqHashRight umap0 umap1 contents0 contents1 slotSize →
      Comparable umap0 umap1 (nodes0.image umap0.key) contents0 contents1 slotSize ∨
        Coincide umap0 umap1 (nodes0.image umap0.key)) := by
  have sameImage := image_eq represents0 represents1
  have hash0 (inside : umap0.size ≤ umap0.mask) :
      Returns (fun fuel => hashKeys fuel umap0) (keysHash umap0 (nodes0.image umap0.key)) :=
    ⟨_, fun _ enough => hashKeys_inside represents0 inside (Nat.lt_of_succ_le enough)⟩
  have hash1 (inside : umap1.size ≤ umap1.mask) :
      Returns (fun fuel => hashKeys fuel umap1) (keysHash umap1 (nodes1.image umap1.key)) :=
    ⟨_, fun _ enough => hashKeys_inside represents1 inside (Nat.lt_of_succ_le enough)⟩
  constructor
  · rintro ⟨inside0, inside1, moves, leftOut⟩
    refine ⟨?_, (eqMem_iff represents0 represents1).mpr moves, ⟨_, _, hash0 inside0, hash1 inside1, fun same => ?_⟩, ?_⟩
    · exact ⟨nodes0.card + nodes1.card + 1, fun fuel enough =>
        eqKeys_spec represents0 represents1 (by omega) (by omega)⟩
    · rw [← sameImage same, keysHash, keysHash, leftOut same]
    refine ⟨_, _, ⟨_, fun _ enough => hashLoop_inside represents0 _ inside0 (Nat.lt_of_succ_le enough)⟩,
      ⟨_, fun _ enough => hashLoop_inside represents1 _ inside1 (Nat.lt_of_succ_le enough)⟩, fun same => ?_⟩
    -- Only empty maps are equal when the first node is not found.
    have empty0 : nodes0 = ∅ := by
      by_contra nonempty
      exact moves (stuck_of_same represents0 represents1 same (nonempty_iff_ne_empty.mpr nonempty))
    have empty1 : nodes1 = ∅ := by
      have images := sameImage (sameMem_keys same)
      rw [empty0] at images
      exact image_eq_empty.mp images.symm
    rw [empty0, empty1, filter_empty, filter_empty, sum_empty, sum_empty]
  · rintro ⟨_, mem, ⟨h0, h1, returns0, returns1, equal⟩, _⟩
    have inside0 := inside_of_returns returns0
    have inside1 := inside_of_returns returns1
    by_cases differ : SameKeys contents0 contents1 ∧
        leftOut umap0 (nodes0.image umap0.key) ≠ leftOut umap1 (nodes0.image umap0.key)
    · refine .inr ⟨differ.2, ?_⟩
      rw [(hash0 inside0).unique returns0, sameImage differ.1, (hash1 inside1).unique returns1, equal differ.1]
    · exact .inl ⟨inside0, inside1, (eqMem_iff represents0 represents1).mp mem, fun same =>
        not_not.mp (not_and.mp differ same)⟩

/-- A map of the keys 1 and 2, with a slot of eight bytes each. -/
def twoKeys (value : Word) : Option Umap :=
  (insertMem false 3 (init id (fun _ => 0) fun _ _ => 0) 1 8 fun _ => value).bind fun first =>
    (insertMem false 3 first.2 2 24 fun _ => value).map Prod.snd

theorem twoKeys_represents (value : Word)
    (sizes : (twoKeys value).map (fun map => (map.size, map.mask)) = some (2, 7)) : ∃ map nodes, twoKeys value = some map ∧
    map.size = 2 ∧ map.mask = 7 ∧ Represents map nodes
      (Function.update (Function.update (fun _ => none) 1 (some ⟨8, fun _ => value⟩)) 2 (some ⟨24, fun _ => value⟩)) := by
  have within : Within (init id (fun _ => 0) fun _ _ => 0) 0 := le_refl minSize
  obtain ⟨map1, done1, nodes1, represents1, card1, within1⟩ := (insertMem_spec false
    (init_represents id (fun _ => 0) fun _ _ => 0) within (le_refl 0) (by decide : 0 + 1 < 3) 1 (fun _ => value)
    (by decide : (8 : Addr) ≠ 0) (notMem_empty 8)).2 rfl
  have unused : 24 ∉ nodes1 := by
    intro mem
    obtain ⟨binding, stored, isNode, _⟩ := represents1.binding mem
    rw [Function.update_apply] at stored
    split at stored
    · rw [← some.inj stored] at isNode
      simp at isNode
    · cases stored
  rw [card_empty] at card1
  obtain ⟨map, done, nodes, represents, _⟩ := (insertMem_spec false represents1 within1 card1
    (by omega : nodes1.card + 1 < 3) 2 (fun _ => value) (by decide : (24 : Addr) ≠ 0) unused).2 rfl
  have built : twoKeys value = some map := by
    rw [twoKeys, done1, bind_some, done]
    rfl
  rw [built] at sizes
  obtain ⟨size, mask⟩ := Prod.mk.inj (some.inj sizes)
  exact ⟨map, nodes, built, size, mask, represents⟩

/-- Two maps have the same keys, with other bytes in their slots. -/
theorem eq_hash_right_two : ∃ map0 map1 contents0 contents1,
    twoKeys 0 = some map0 ∧ twoKeys 1 = some map1 ∧ SameKeys contents0 contents1 ∧
      EqHashRight map0 map1 contents0 contents1 8 := by
  obtain ⟨map0, nodes0, built0, size0, mask0, represents0⟩ := twoKeys_represents 0 (by decide)
  obtain ⟨map1, nodes1, built1, size1, mask1, represents1⟩ := twoKeys_represents 1 (by decide)
  refine ⟨map0, map1, _, _, built0, built1, fun k => ?_, (eq_hash_right represents0 represents1 8).1
    ⟨by omega, by omega, ?_, fun _ => ?_⟩⟩
  · simp only [Function.update_apply]
    split
    · simp
    · split <;> simp
  · rintro ⟨_, a, ⟨i, bound, _, held, nonnull⟩, binding, stored, equal⟩
    obtain ⟨binding0, stored0, _, value0⟩ := represents0.binding (represents0.bucket_mem bound held nonnull)
    rw [← value0] at equal
    simp only [Function.update_apply] at stored stored0
    split at stored
    · next two =>
      rw [if_pos two] at stored0
      cases stored
      cases stored0
      exact absurd equal (by decide)
    · next other =>
      rw [if_neg other] at stored0
      split at stored
      · next one =>
        rw [if_pos one] at stored0
        cases stored
        cases stored0
        exact absurd equal (by decide)
      · cases stored
  · refine Finset.filter_congr fun k _ => ?_
    rw [size0, size1, index, index, mask0, mask1]

/-- A map with one node is compared with itself. -/
theorem eqMem_stuck : ∃ map,
    insertMem false 2 (init id (fun _ => 0) fun _ _ => 0) 1 8 (fun _ => 0) = some ((true, 8), map) ∧
    ¬ ∃ result, Returns (fun fuel => eqMem fuel map map 8) result := by
  have within : Within (init id (fun _ => 0) fun _ _ => 0) 0 := le_refl minSize
  obtain ⟨map, done, nodes, represents, _⟩ := (insertMem_spec false (init_represents id (fun _ => 0) fun _ _ => 0)
    within (le_refl 0) (lt_succ_self 1) 1 (fun _ => 0) (by decide : (8 : Addr) ≠ 0)
    (notMem_empty 8)).2 rfl
  refine ⟨map, done, ?_⟩
  rintro ⟨result, bound, returned⟩
  have member := (represents.nonnull (Function.update_self ..)).1
  obtain ⟨a, i, inside, before, held, nonnull⟩ := represents.exists_first ⟨_, member⟩
  obtain ⟨binding, stored, _, value⟩ := represents.binding (represents.bucket_mem inside held nonnull)
  have equal : sameBytes (map.slot a) binding.value 8 = true := by
    rw [value]
    exact List.all_eq_true.mpr fun i _ => beq_self_eq_true _
  have loops := eqMem_first represents rfl ⟨i, inside, before, held, nonnull⟩
    (lt_of_succ_le (le_max_right bound (nodes.card + 1))) true (iff_of_true rfl ⟨binding, stored, equal⟩)
  have returned' := loops.symm.trans (returned _ (le_max_left bound (nodes.card + 1)))
  cases returned'

end Culibs.Cucon.Umap
