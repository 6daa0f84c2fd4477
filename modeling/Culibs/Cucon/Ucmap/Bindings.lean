import Culibs.Cucon.Ucmap.Canonical

namespace Culibs.Cucon

open List

/-- A trie over all words with its invariant. -/
structure UcmapTrie where
  tree : Ucmap
  wf : Ucmap.Wf tree 0 (2 ^ 64)

namespace Ucmap

/-- The bindings of a tree from left to right. -/
def bindings : Ucmap → List Element
  | null => []
  | node key hasValue value left right =>
    left.bindings ++ (if hasValue then [(key, value)] else []) ++ right.bindings

/-- Elements in strictly ascending key order. -/
def Ascending (elements : List Element) : Prop := elements.Pairwise fun first second => first.1 < second.1

/-- Insertion of elements one by one. -/
def insertAll (map : Ucmap) (elements : List Element) : Ucmap :=
  elements.foldl (fun map element => map.insert element.1 element.2) map

variable {t : Ucmap} {low high : Nat} {x v : Word} {elements : List Element}

theorem mem_bindings_iff (wf : Wf t low high) : (x, v) ∈ bindings t ↔ lookup t x = some v := by
  induction t generalizing low high with
  | null => simp [bindings, lookup]
  | node key hasValue value left right ihLeft ihRight =>
    have inLeft := wf.lookup_left_eq_none (x := x)
    have inRight := wf.lookup_right_eq_none (x := x)
    have stored : (x, v) ∈ (if hasValue then [(key, value)] else []) ↔ hasValue = true ∧ x = key ∧ v = value := by
      cases hasValue <;> simp
    rw [bindings, mem_append, mem_append, ihLeft wf.2.2.1, ihRight wf.2.2.2.1]
    rcases lt_trichotomy x.toNat key.toNat with less | same | more
    · have apart : x ≠ key := fun equal => by rw [equal] at less; omega
      rw [lookup_of_lt less, inRight (by omega)]
      simp [apart]
    · obtain rfl := BitVec.eq_of_toNat_eq same
      rw [lookup_root, inLeft (.inr (le_rfl)), inRight (.inl (le_rfl))]
      cases hasValue <;> simp [eq_comm]
    · have apart : x ≠ key := fun equal => by rw [equal] at more; omega
      rw [lookup_of_gt more, inLeft (by omega)]
      simp [apart]

section Node

variable {key value : Word} {hasValue : Bool} {left right : Ucmap}

theorem Wf.bindings_left_lt (wf : Wf (node key hasValue value left right) low high)
    (mem : b ∈ bindings left) : b.1 < key :=
  (wf.hasKey_left (hasKey_of_lookup ((mem_bindings_iff wf.2.2.1).mp mem))).2

theorem Wf.lt_bindings_right (wf : Wf (node key hasValue value left right) low high)
    (mem : b ∈ bindings right) : key < b.1 :=
  (wf.hasKey_right (hasKey_of_lookup ((mem_bindings_iff wf.2.2.2.1).mp mem))).1

end Node

theorem bindings_ascending (wf : Wf t low high) : Ascending (bindings t) := by
  induction t generalizing low high with
  | null => exact Pairwise.nil
  | node key hasValue value left right ihLeft ihRight =>
    have here (b : Element) (mem : b ∈ (if hasValue then [(key, value)] else [])) : b.1 = key := by
      cases hasValue with
      | false => simp at mem
      | true => exact congrArg Prod.fst (mem_singleton.mp mem)
    rw [bindings, append_assoc]
    refine pairwise_append.mpr ⟨ihLeft wf.2.2.1, pairwise_append.mpr ⟨?_, ihRight wf.2.2.2.1, ?_⟩, ?_⟩
    · cases hasValue <;> simp
    · intro a memberA b memberB
      rw [here a memberA]
      exact wf.lt_bindings_right memberB
    · intro a memberA b memberB
      have less := wf.bindings_left_lt memberA
      rcases mem_append.mp memberB with root | later
      · rw [here b root]
        exact less
      · exact BitVec.lt_trans less (wf.lt_bindings_right later)

theorem Ascending.lookup_iff (ascending : Ascending elements) : elements.lookup x = some v ↔ (x, v) ∈ elements := by
  induction elements with
  | nil => simp
  | cons first rest ih =>
    obtain ⟨key, value⟩ := first
    obtain ⟨least, tail⟩ := pairwise_cons.mp ascending
    rw [lookup_cons]
    by_cases same : x = key
    · subst same
      have alone : (x, v) ∉ rest := fun mem => BitVec.lt_irrefl x (least (x, v) mem)
      simp [alone, eq_comm]
    · have other : (x == key) = false := by simpa using same
      rw [other, ih tail]
      simp [same]

/-- Elements in ascending order are the bindings that they are looked up as. -/
theorem Ascending.ext (ascending : Ascending elements)
    (ascending' : Ascending elements') (same : ∀ x v, (x, v) ∈ elements ↔ (x, v) ∈ elements') :
    elements = elements' := by
  induction elements generalizing elements' with
  | nil => exact (eq_nil_iff_forall_not_mem.mpr fun b mem => by simpa using (same b.1 b.2).mpr mem).symm
  | cons first rest ih =>
    cases elements' with
    | nil => exact absurd ((same first.1 first.2).mp (mem_cons_self ..)) (by simp)
    | cons first' rest' =>
      obtain ⟨least, tail⟩ := pairwise_cons.mp ascending
      obtain ⟨least', tail'⟩ := pairwise_cons.mp ascending'
      have heads : first = first' := by
        rcases mem_cons.mp ((same first.1 first.2).mp (mem_cons_self ..)) with equal | later
        · exact equal
        · rcases mem_cons.mp ((same first'.1 first'.2).mpr (mem_cons_self ..)) with equal | later'
          · exact equal.symm
          · exact absurd (BitVec.lt_trans (least _ later') (least' _ later)) (BitVec.lt_irrefl _)
      subst heads
      congr 1
      refine ih tail tail' fun y u => ?_
      have here := same y u
      rw [mem_cons, mem_cons] at here
      constructor
      · intro mem
        rcases here.mp (.inr mem) with equal | later
        · exact absurd (least _ mem) (by rw [← equal]; exact BitVec.lt_irrefl _)
        · exact later
      · intro mem
        rcases here.mpr (.inr mem) with equal | later
        · exact absurd (least' _ mem) (by rw [← equal]; exact BitVec.lt_irrefl _)
        · exact later

/-- There is a binding beyond the key of a node without a binding. -/
theorem HasJoin.exists_above (wf : Wf t low high) (join : HasJoin t x) :
    ∃ y u, lookup t y = some u ∧ x.toNat < y.toNat := by
  induction t generalizing low high with
  | null => exact join.elim
  | node key hasValue value left right ihLeft ihRight =>
    rcases join with ⟨rfl, bare⟩ | inLeft | inRight
    · obtain ⟨y, u, found⟩ := wf.2.2.2.1.exists_lookup (wf.2.2.2.2 bare).2.2
      have more := (wf.hasKey_right (hasKey_of_lookup found)).1
      exact ⟨y, u, (lookup_of_gt more).trans found, more⟩
    · obtain ⟨y, u, found, more⟩ := ihLeft wf.2.2.1 inLeft
      exact ⟨y, u, (lookup_of_lt (wf.hasKey_left (hasKey_of_lookup found)).2).trans found, more⟩
    · obtain ⟨y, u, found, more⟩ := ihRight wf.2.2.2.1 inRight
      exact ⟨y, u, (lookup_of_gt (wf.hasKey_right (hasKey_of_lookup found)).1).trans found, more⟩

private theorem insertAll_represents (wf : Wf t 0 (2 ^ 64)) (ascending : Ascending elements)
    (beyond : ∀ element ∈ elements, ∀ y u, lookup t y = some u → y.toNat < element.1.toNat) :
    Represents (insertAll t elements) 0 (2 ^ 64) (fun x => lookup t x <|> elements.lookup x) := by
  induction elements generalizing t with
  | nil => exact wf.represents.congr fun x => by cases lookup t x <;> rfl
  | cons first rest ih =>
    obtain ⟨key, value⟩ := first
    obtain ⟨least, tail⟩ := pairwise_cons.mp ascending
    have fresh (y u : Word) (found : lookup t y = some u) := beyond (key, value) (mem_cons_self ..) y u found
    have noJoin : ¬ HasJoin t key := fun join => by
      obtain ⟨y, u, found, more⟩ := join.exists_above wf
      exact lt_asymm more (fresh y u found)
    have step : Represents (insert t key value) 0 (2 ^ 64) (inserted t key value) := insert_represents wf (inside_top key)
    have bound (y : Word) : lookup (insert t key value) y = if y = key then some value else lookup t y := by
      rw [step.lookup_eq, inserted]
      simp [noJoin]
    have added := ih step.wf tail fun element mem y u found => by
      rw [bound] at found
      split at found
      · next same =>
        subst same
        exact least element mem
      · exact beyond element (.tail _ mem) y u found
    refine added.congr fun x => ?_
    rw [bound, lookup_cons]
    by_cases same : x = key
    · subst same
      have absent : lookup t x = none := Option.eq_none_iff_forall_ne_some.mpr fun u found =>
        lt_irrefl _ (fresh x u found)
      simp [absent]
    · have other : (x == key) = false := by simpa using same
      simp [same, other]

theorem insertAll_null_represents (ascending : Ascending elements) :
    Represents (insertAll null elements) 0 (2 ^ 64) (fun x => elements.lookup x) :=
  (insertAll_represents (t := null) trivial ascending fun _ _ _ _ found => by cases found).congr fun _ => rfl

theorem Wf.eq_insertAll (wf : Wf t low high) (ascending : Ascending elements)
    (same : ∀ x v, lookup t x = some v ↔ (x, v) ∈ elements) : t = insertAll null elements := by
  have built := insertAll_null_represents ascending
  refine wf.ext built.wf fun x => Option.ext fun v => ?_
  rw [built.lookup_eq, same, ascending.lookup_iff]

section Runs

/-- The first element of each run of equal keys after an element with the key. -/
def firstsAfter (key : Word) : List Element → List Element
  | [] => []
  | next :: rest => if next.1 = key then firstsAfter key rest else next :: firstsAfter next.1 rest

/-- The first element of each run of equal keys. -/
def firsts : List Element → List Element
  | [] => []
  | first :: rest => first :: firstsAfter first.1 rest

variable {key value : Word} {arr rest : List Element}

private theorem firstsAfter_spec (sorted : Sorted ((key, value) :: rest)) :
    Ascending (firstsAfter key rest) ∧ (∀ element ∈ firstsAfter key rest, key < element.1) ∧
      ∀ x, x ≠ key → (firstsAfter key rest).lookup x = rest.lookup x := by
  induction rest generalizing key value with
  | nil => exact ⟨Pairwise.nil, by simp [firstsAfter], fun _ _ => rfl⟩
  | cons next rest ih =>
    obtain ⟨next, nextValue⟩ := next
    obtain ⟨least, tail⟩ := pairwise_cons.mp sorted
    rw [firstsAfter]
    by_cases same : next = key
    · subst same
      obtain ⟨ascending, above, others⟩ := ih tail
      rw [if_pos rfl]
      refine ⟨ascending, above, fun x apart => ?_⟩
      have other : (x == next) = false := by simpa using apart
      rw [others x apart, lookup_cons, other]
    · obtain ⟨ascending, above, others⟩ := ih tail
      have beyond : key < next := by
        have := least (next, nextValue) (mem_cons_self ..)
        have := toNat_ne same
        simp only [BitVec.le_def, BitVec.lt_def] at *
        omega
      rw [if_neg same]
      refine ⟨pairwise_cons.mpr ⟨above, ascending⟩, fun element mem => ?_, fun x apart => ?_⟩
      · rcases mem_cons.mp mem with rfl | later
        · exact beyond
        · exact BitVec.lt_trans beyond (above element later)
      · rw [lookup_cons, lookup_cons]
        by_cases here : x = next
        · simp [here]
        · have other : (x == next) = false := by simpa using here
          rw [other]
          exact others x here

theorem firsts_spec (sorted : Sorted arr) : Ascending (firsts arr) ∧ ∀ x, (firsts arr).lookup x = arr.lookup x := by
  cases arr with
  | nil => exact ⟨Pairwise.nil, fun _ => rfl⟩
  | cons first rest =>
    obtain ⟨key, value⟩ := first
    obtain ⟨ascending, above, others⟩ := firstsAfter_spec sorted
    refine ⟨pairwise_cons.mpr ⟨above, ascending⟩, fun x => ?_⟩
    rw [firsts, lookup_cons, lookup_cons]
    by_cases same : x = key
    · simp [same]
    · have other : (x == key) = false := by simpa using same
      rw [other]
      exact others x same

/-- A sorted array is used up, and gives the tree that the first elements of its
runs build one by one. -/
theorem fromSortedArray_firsts (arr : List Element) (sorted : Sorted arr) :
    fromSortedArray arr = some (insertAll null (firsts arr), []) := by
  obtain ⟨made, result, represents⟩ := fromSortedArray_represents sorted
  obtain ⟨ascending, same⟩ := firsts_spec sorted
  have built := insertAll_null_represents ascending
  rw [result, represents.wf.ext built.wf fun x => by rw [represents.lookup_eq, built.lookup_eq, same]]

theorem fromSortedArray_firsts_runs :
    Sorted [(0, 7), (3, 1), (3, 0), (4, 0), (18446744073709551615, 2)] ∧
      fromSortedArray [(0, 7), (3, 1), (3, 0), (4, 0), (18446744073709551615, 2)] =
        some (insertAll null (firsts [(0, 7), (3, 1), (3, 0), (4, 0), (18446744073709551615, 2)]), []) := by
  have sorted : Sorted [(0, 7), (3, 1), (3, 0), (4, 0), (18446744073709551615, 2)] := by
    rw [Sorted]
    decide
  exact ⟨sorted, fromSortedArray_firsts _ sorted⟩

end Runs

end Ucmap

namespace UcmapTrie

open Ucmap

/-- Lookup in unions: the left one prefers the first map, and the combined one
calls the function, whatever state its closure keeps, where both maps bind the key. -/
theorem find_unions (map0 map1 : UcmapTrie) (k : Word) :
    find (leftUnion map0.tree map1.tree) k = (find map0.tree k <|> find map1.tree k) ∧
    ∀ (σ : Type) (f : Word → Word → Word) (next : Word → Word → σ → σ) (state : σ),
      find (combinedUnion (fun v0 v1 s => (f v0 v1, next v0 v1 s)) map0.tree map1.tree state).1 k =
        Option.merge f (find map0.tree k) (find map1.tree k) := by
  have left := leftUnion_represents map0.wf map1.wf
  rw [left.wf.find_eq, left.lookup_eq, map0.wf.find_eq, map1.wf.find_eq]
  refine ⟨rfl, fun σ f next state => ?_⟩
  have combined := combinedUnion_combines (f := fun v0 v1 s => (f v0 v1, next v0 v1 s)) state map0.wf map1.wf
  rw [combined.wf.find_eq]
  have bound := combined.lookup_eq k
  cases first : lookup map0.tree k with
  | none =>
    rw [first] at bound
    rw [show lookup _ k = lookup map1.tree k from bound]
    cases lookup map1.tree k <;> rfl
  | some v0 =>
    cases second : lookup map1.tree k with
    | none =>
      rw [first, second] at bound
      exact bound
    | some v1 =>
      rw [first, second] at bound
      obtain ⟨_, result⟩ := bound
      exact result

end UcmapTrie

end Culibs.Cucon
