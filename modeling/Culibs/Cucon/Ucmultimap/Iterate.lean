import Culibs.Cucon.Ucmap.Iterate
import Culibs.Cucon.Ucmultimap.Canonical
import Culibs.Cucon.Ucset.Extremes
import Culibs.Cucon.Ucset.Iteration

namespace Culibs.Cucon

open Option List BitVec Bool

namespace Ucset

variable {σ : Type} {t : Ucset} {low high : Nat}

/-- Calls until the first false. -/
def conjEach {α : Type} (cb : α → σ → Bool × σ) : List α → σ → Bool × σ
  | [], state => (true, state)
  | k :: rest, state =>
    let called := cb k state
    if !called.1 then called else conjEach cb rest called.2

/-- `cucon_ucset_conj`, with the loop over a leaf as in `iter`. -/
def conj (cb : Word → σ → Bool × σ) (node : Ucset) (state : σ) : Bool × σ :=
  if _nonnull : node = null then (true, state)
  else
    let key := ucnodeKey node
    if keyIsLeaflike key then
      conjEach (fun i state =>
        let k := (key &&& ~~~bitsetMask) + BitVec.ofNat 64 i
        if ucleafFind node k then cb k state else (true, state)) (List.range 128) state
    else
      let inLeft := conj cb node.left state
      if !inLeft.1 then inLeft
      else
        let called := if hasKey node then cb key inLeft.2 else (true, inLeft.2)
        if !called.1 then called else conj cb node.right called.2
termination_by node.size
decreasing_by
  · exact size_left_lt _nonnull
  · exact size_right_lt _nonnull

theorem conjEach_foldl (cb : α → σ → Bool × σ) (l : List α) (state : σ) :
    conjEach cb l state = l.foldl (fun last k => if last.1 then cb k last.2 else last) (true, state) := by
  have stopped (l : List α) (last : Bool × σ) (stop : last.1 = false) :
      l.foldl (fun last k => if last.1 then cb k last.2 else last) last = last := by
    induction l with
    | nil => rfl
    | cons k l ih => rw [List.foldl_cons, stop, if_neg Bool.false_ne_true, ih]
  induction l generalizing state with
  | nil => rfl
  | cons k l ih =>
    rw [conjEach, foldl_cons, if_pos rfl]
    cases more : (cb k state).1 with
    | false =>
      rw [stopped l _ more]
      rfl
    | true =>
      have same : (true, (cb k state).2) = cb k state := Prod.ext more.symm rfl
      exact (ih _).trans (by rw [same])

private theorem conjEach_append (cb : α → σ → Bool × σ) (first second : List α) (state : σ) :
    conjEach cb (first ++ second) state =
      if !(conjEach cb first state).1 then conjEach cb first state
      else conjEach cb second (conjEach cb first state).2 := by
  induction first generalizing state with
  | nil => rfl
  | cons k first ih =>
    rw [List.cons_append, conjEach, conjEach]
    by_cases stopped : (!(cb k state).1) = true
    · simp only [stopped, if_true]
    · simp only [stopped, false_eq_true, if_false]
      exact ih _

private theorem conj_eq (cb : Word → σ → Bool × σ) (wf : Wf t low high) (state : σ) :
    conj cb t state = conjEach cb (elements t) state := by
  induction t generalizing low high state with
  | null =>
    rw [conj]
    rfl
  | leaf key bitset =>
    rw [conj]
    simp only [reduceCtorEq, dite_false, wf.leaf_leaflike, if_true]
    rw [conjEach_foldl, conjEach_foldl, ← foldl_leaf _ wf.1]
    apply foldl_ext
    rintro ⟨more, state⟩ i _
    dsimp only
    split
    · rename_i going
      subst going
      rfl
    · split <;> rfl
  | node key left right ihLeft ihRight =>
    have inner := wf.node_not_leaflike
    obtain ⟨_, _, _, wfLeft, wfRight, _⟩ := wf
    have present : hasKey (node key left right) = true ↔ ¬ key &&& 1 = 0 := by
      rw [hasKey_iff, rawKey_node, and_one_eq_zero_iff]
      omega
    have root (state : σ) : (if hasKey (node key left right) then cb (ucnodeKey (node key left right)) state
        else (true, state)) = conjEach cb (if key &&& 1 = 0 then [] else [key &&& ~~~1]) state := by
      by_cases even : key &&& 1 = 0
      · rw [if_neg (by rw [present]; exact not_not.mpr even), if_pos even]
        rfl
      · rw [if_pos (present.mpr even), if_neg even, conjEach]
        cases more : (cb (key &&& ~~~1) state).1 with
        | false => rfl
        | true => exact Prod.ext more rfl
    rw [conj]
    simp only [reduceCtorEq, dite_false, inner, false_eq_true, if_false, left_node, right_node, root,
      ihLeft wfLeft, ihRight wfRight]
    rw [elements, List.append_assoc, conjEach_append, conjEach_append]

end Ucset

namespace Ucmap

/-- `cucon_ucmap_conj_ptr` -/
def conjPtr {σ : Type} (cb : Word → Word → σ → Bool × σ) (map : Ucmap) (state : σ) : Bool × σ := iterA cb map state

end Ucmap

namespace Ucmultimap

variable {σ : Type}

/-- `cucon_ucmultimap_card`, by `cucon_ucmultimap_isokey_iterA`. There is no result for a value that is not the
address of a set. -/
def card (table : HconsTable) (map : Ucmap) : Option Word :=
  (map.conjPtr (fun _ value count => (true, do return (← count) + (← table.deref value).card)) (some 0)).2

def iterA (table : HconsTable) (f : Word → Word → σ → Bool × σ) : Ucmap → σ → Option (Bool × σ)
  | .null, state => some (true, state)
  | .node key hasValue value left _, state =>
    (iterA table f left state).bind fun inLeft =>
      if !inLeft.1 then some inLeft
      else
        let called := if hasValue then (table.deref value).map fun set => set.conj (f key) inLeft.2
          else some (true, inLeft.2)
        -- `_ucmap_node_right` is `cucon_ucmap_node_left`
        called.bind fun called => if !called.1 then some called else iterA table f left called.2

/-- The pairs of one node. -/
def nodePairs (table : HconsTable) (key : Word) (hasValue : Bool) (value : Word) : List Element :=
  if hasValue then ((table.deref value).getD .null).elements.map fun v => (key, v) else []

/-- The pairs that the iteration comes to. -/
def visited (table : HconsTable) : Ucmap → List Element
  | .null => []
  | .node key hasValue value left _ => visited table left ++ nodePairs table key hasValue value ++ visited table left

/-- All pairs in the order of the tree. -/
def pairs (table : HconsTable) : Ucmap → List Element
  | .null => []
  | .node key hasValue value left right => pairs table left ++ nodePairs table key hasValue value ++ pairs table right

/-- The pairs that the iteration comes to before it goes wrong. -/
def lead (table : HconsTable) : Ucmap → List Element
  | .null => []
  | .node key hasValue value .null _ => nodePairs table key hasValue value
  | .node key hasValue value (.node key' hasValue' value' .null .null) _ =>
    nodePairs table key' hasValue' value' ++ nodePairs table key hasValue value
  | .node _ _ _ left _ => lead table left

/-- A callback that notes its calls. -/
def logged (f : Word → Word → σ → Bool × σ) (k v : Word) (state : σ × List Element) : Bool × (σ × List Element) :=
  ((f k v state.1).1, (f k v state.1).2, state.2 ++ [(k, v)])

def Increasing (elements : List Element) : Prop :=
  elements.Pairwise fun first second => first.1 < second.1 ∨ first.1 = second.1 ∧ first.2 < second.2

/-- The calls are those on the contained pairs, each once and in increasing order, until the first false. -/
def IterRight (table : HconsTable) (map : Ucmap) (f : Word → Word → σ → Bool × σ) (state : σ) : Prop :=
  ∃ elements, Increasing elements ∧ (∀ k v, (k, v) ∈ elements ↔ contains table map k v = true) ∧
    iterA table (logged f) map (state, []) = some (Ucmap.callAll (logged f) elements (state, []))

variable {table : HconsTable} {t : Ucmap} {low high : Nat}

/-- The values are addresses of sets. -/
def Bound (table : HconsTable) (t : Ucmap) : Prop := ∀ b ∈ t.bindings, IsImage table b.2

variable {map : Ucmap}

theorem Holds.bound (holds : Holds table map) : Bound table map := fun b mem =>
  holds.images b.1 b.2 ((Ucmap.mem_bindings_iff holds.wf).mp mem)

section Node

variable {key value : Word} {hasValue : Bool} {left right : Ucmap}

theorem Bound.inLeft (bound : Bound table (.node key hasValue value left right)) : Bound table left := fun b mem =>
  bound b (by rw [Ucmap.bindings, List.append_assoc]; exact List.mem_append_left _ mem)

theorem Bound.atRoot (bound : Bound table (.node key true value left right)) : IsImage table value :=
  bound (key, value) (by simp [Ucmap.bindings])

section

variable (f : Word → Word → σ → Bool × σ)

private theorem callAll_map (k : Word) (l : List Word) (state : σ) :
    Ucmap.callAll f (l.map fun v => (k, v)) state = Ucset.conjEach (f k) l state := by
  induction l generalizing state with
  | nil => rfl
  | cons v l ih =>
    rw [map_cons, Ucmap.callAll, Ucset.conjEach]
    simp only [ih]

private theorem nodePairs_calls (bound : Bound table (.node key hasValue value left right)) (state : σ) :
    (if hasValue then (table.deref value).map fun set => set.conj (f key) state else some (true, state)) =
      some (Ucmap.callAll f (nodePairs table key hasValue value) state) := by
  cases hasValue with
  | false => rfl
  | true =>
    obtain ⟨set, found, _, wf⟩ := bound.atRoot
    rw [nodePairs, if_pos rfl, if_pos rfl, found, map_some, getD_some, callAll_map, Ucset.conj_eq _ wf]

theorem iterA_eq (bound : Bound table t) (state : σ) :
    iterA table f t state = some (Ucmap.callAll f (visited table t) state) := by
  induction t generalizing state with
  | null => rfl
  | node key hasValue value left right ihLeft _ =>
    rw [iterA, ihLeft bound.inLeft, bind_some, visited, List.append_assoc, Ucmap.callAll_append, Ucmap.callAll_append]
    split
    · rfl
    · dsimp only
      rw [nodePairs_calls f bound, bind_some]
      split
      · rfl
      · exact ihLeft bound.inLeft _

end

theorem mem_nodePairs (mem : e ∈ nodePairs table key hasValue value) :
    e.1 = key ∧ hasValue = true := by
  cases hasValue with
  | false => exact absurd mem not_mem_nil
  | true =>
    obtain ⟨v, _, rfl⟩ := mem_map.mp mem
    exact ⟨rfl, rfl⟩

private theorem nodePairs_ne_nil (bound : Bound table (.node key true value left right)) :
    nodePairs table key true value ≠ [] := by
  obtain ⟨set, found, nonnull, wf⟩ := bound.atRoot
  obtain ⟨v, mem⟩ := wf.exists_contains nonnull
  rw [nodePairs, if_pos rfl, found, getD_some]
  intro empty
  exact absurd ((Ucset.mem_elements wf v).mpr mem) (by rw [map_eq_nil_iff.mp empty]; exact not_mem_nil)

end Node

theorem pairs_eq (table : HconsTable) (t : Ucmap) :
    pairs table t = t.bindings.flatMap fun b => nodePairs table b.1 true b.2 := by
  induction t with
  | null => rfl
  | node key hasValue value left right ihLeft ihRight =>
    rw [pairs, Ucmap.bindings, flatMap_append, flatMap_append, ihLeft, ihRight]
    cases hasValue with
    | false => rfl
    | true => rw [if_pos rfl, flatMap_singleton]

theorem mem_nodePairs_iff {set : Ucset} (found : table.deref value = some set)
    (wf : Ucset.Wf set 0 (2 ^ 64)) :
    (k, v) ∈ nodePairs table key true value ↔ k = key ∧ Ucset.Contains set v := by
  rw [nodePairs, if_pos rfl, found, getD_some, List.mem_map]
  constructor
  · rintro ⟨v', mem, same⟩
    obtain ⟨rfl, rfl⟩ := Prod.mk.inj same
    exact ⟨rfl, (Ucset.mem_elements wf _).mp mem⟩
  · rintro ⟨rfl, stored⟩
    exact ⟨v, (Ucset.mem_elements wf v).mpr stored, rfl⟩

theorem mem_pairs (holds : Holds table map) (k v : Word) :
    (k, v) ∈ pairs table map ↔ contains table map k v = true := by
  obtain ⟨set, found, wf, unbound⟩ := holds.image k
  rw [contains_iff found wf, pairs_eq, mem_flatMap]
  rw [holds.image_eq] at found
  constructor
  · rintro ⟨⟨key, value⟩, mem, inNode⟩
    obtain ⟨set', found', _, wf'⟩ := holds.bound _ mem
    obtain ⟨rfl, stored⟩ := (mem_nodePairs_iff found' wf').mp inNode
    rw [(Ucmap.mem_bindings_iff holds.wf).mp mem, getD_some, found'] at found
    rwa [← Option.some.inj found]
  intro stored
  cases bound : Ucmap.lookup map k with
  | none =>
    rw [unbound.mpr bound] at stored
    exact stored.elim
  | some value =>
    rw [bound, getD_some] at found
    exact ⟨(k, value), (Ucmap.mem_bindings_iff holds.wf).mpr bound, (mem_nodePairs_iff found wf).mpr ⟨rfl, stored⟩⟩

theorem pairs_increasing (wf : Ucmap.Wf t low high) (bound : Bound table t) : Increasing (pairs table t) := by
  rw [Increasing, pairs_eq, pairwise_flatMap]
  constructor
  · intro b mem
    obtain ⟨set, found, _, wfSet⟩ := bound b mem
    rw [nodePairs, if_pos rfl, found, getD_some, pairwise_map]
    exact (Ucset.elements_sorted wfSet).imp fun less => .inr ⟨rfl, less⟩
  · refine (Ucmap.bindings_ascending wf).imp fun less e mem e' member' => .inl ?_
    rw [(mem_nodePairs mem).1, (mem_nodePairs member').1]
    exact less

theorem Increasing.ext (increasing : Increasing elements)
    (increasing' : Increasing elements') (same : ∀ e, e ∈ elements ↔ e ∈ elements') : elements = elements' := by
  have irreflexive {l : List Element} (increasing : Increasing l) : l.Nodup :=
    increasing.imp fun {a b} less equal => by
      subst equal
      rcases less with less | ⟨_, less⟩ <;> exact BitVec.lt_irrefl _ less
  refine List.Perm.eq_of_pairwise (fun a b _ _ less less' => ?_) increasing increasing'
    ((perm_ext_iff_of_nodup (irreflexive increasing) (irreflexive increasing')).mpr same)
  rcases less with less | ⟨equal, less⟩
  · rcases less' with less' | ⟨equal', _⟩
    · exact absurd (BitVec.lt_trans less less') (BitVec.lt_irrefl _)
    · rw [equal'] at less
      exact absurd less (BitVec.lt_irrefl _)
  · rcases less' with less' | ⟨_, less'⟩
    · rw [equal] at less'
      exact absurd less' (BitVec.lt_irrefl _)
    · exact absurd (BitVec.lt_trans less less') (BitVec.lt_irrefl _)

theorem card_eq (holds : Holds table map) :
    card table map = some (BitVec.ofNat 64 (pairs table map).length) := by
  have counted (l : List Element) (images : ∀ b ∈ l, IsImage table b.2) (count : Word) :
      (Ucmap.callAll (fun _ value count => (true, do return (← count) + (← table.deref value).card)) l (some count)).2 =
        some (count + BitVec.ofNat 64 (l.flatMap fun b => nodePairs table b.1 true b.2).length) := by
    induction l generalizing count with
    | nil => rw [Ucmap.callAll, List.flatMap_nil, List.length_nil, BitVec.add_zero]
    | cons b l ih =>
      obtain ⟨⟨set, found, _, wf⟩, images⟩ := forall_mem_cons.mp images
      have cards : set.card = BitVec.ofNat 64 (Ucset.elements set).length := by
        rw [Ucset.card, Ucset.cardFrom_eq wf, BitVec.ofNat_eq_ofNat, BitVec.zero_add]
      have here : nodePairs table b.1 true b.2 = set.elements.map fun v => (b.1, v) := by
        rw [nodePairs, if_pos rfl, found, getD_some]
      rw [List.flatMap_cons, List.length_append, here, List.length_map, BitVec.ofNat_add, ← BitVec.add_assoc, ← cards,
        ← ih images, Ucmap.callAll]
      simp [found]
  rw [card, Ucmap.conjPtr, Ucmap.iterA_eq, counted _ holds.bound, pairs_eq, BitVec.ofNat_eq_ofNat, BitVec.zero_add]

section Log

variable (f : Word → Word → σ → Bool × σ)

theorem callAll_logged (e : Element) (l : List Element) (state : σ) (log : List Element) :
    Ucmap.callAll (logged f) (e :: l) (state, log) =
      if !(f e.1 e.2 state).1 then ((f e.1 e.2 state).1, (f e.1 e.2 state).2, log ++ [e])
      else Ucmap.callAll (logged f) l ((f e.1 e.2 state).2, log ++ [e]) := rfl

theorem logged_result (l : List Element) (state : σ) (log : List Element) :
    (Ucmap.callAll (logged f) l (state, log)).1 = (Ucmap.callAll f l state).1 := by
  induction l generalizing state log with
  | nil => rfl
  | cons e l ih =>
    rw [callAll_logged, Ucmap.callAll]
    by_cases stopped : (!(f e.1 e.2 state).1) = true
    · simp only [stopped, if_true]
    · simp only [stopped, false_eq_true, if_false]
      exact ih _ _

theorem log_prefix (l : List Element) (state : σ) (log : List Element) :
    log <+: (Ucmap.callAll (logged f) l (state, log)).2.2 := by
  induction l generalizing state log with
  | nil => exact prefix_rfl
  | cons e l ih =>
    rw [callAll_logged]
    by_cases stopped : (!(f e.1 e.2 state).1) = true
    · rw [if_pos stopped]
      exact prefix_append ..
    · rw [if_neg stopped]
      exact (prefix_append ..).trans (ih _ _)

private theorem log_cons (e : Element) (l : List Element) (state : σ) (log : List Element) :
    log ++ [e] <+: (Ucmap.callAll (logged f) (e :: l) (state, log)).2.2 := by
  rw [callAll_logged]
  by_cases stopped : (!(f e.1 e.2 state).1) = true
  · rw [if_pos stopped]
  · rw [if_neg stopped]
    exact log_prefix f l _ _

private theorem log_ne (state : σ) (log : List Element) (apart : x.head? ≠ y.head?) :
    Ucmap.callAll (logged f) x (state, log) ≠ Ucmap.callAll (logged f) y (state, log) := by
  intro same
  have longer (e : Element) (l : List Element) :
      Ucmap.callAll (logged f) [] (state, log) ≠ Ucmap.callAll (logged f) (e :: l) (state, log) := by
    intro empty
    have noted := (log_cons f e l state log).length_le
    rw [← empty, Ucmap.callAll, length_append] at noted
    exact absurd noted (Nat.not_succ_le_self _)
  cases x with
  | nil =>
    cases y with
    | nil => exact apart rfl
    | cons e y => exact longer e y same
  | cons e x =>
    cases y with
    | nil => exact longer e x same.symm
    | cons e' y =>
      have first := log_cons f e x state log
      rw [same] at first
      have equal := prefix_of_prefix_length_le first (log_cons f e' y state log) (by simp)
      have := equal.eq_of_length (by simp)
      exact apart (by simpa using this)

/-- The calls on two lists that part after a common beginning are the same if they end in it. -/
theorem logged_append_iff (state : σ) (apart : x.head? ≠ y.head?) :
    Ucmap.callAll (logged f) (first ++ x) (state, []) = Ucmap.callAll (logged f) (first ++ y) (state, []) ↔
      (Ucmap.callAll f first state).1 = false := by
  rw [Ucmap.callAll_append, Ucmap.callAll_append, logged_result]
  cases more : (Ucmap.callAll f first state).1 with
  | false => exact iff_of_true rfl rfl
  | true =>
    exact iff_of_false (log_ne f _ _ apart) Bool.noConfusion

end Log

theorem visited_key (mem : e ∈ visited table t) : ∃ b ∈ t.bindings, b.1 = e.1 := by
  induction t with
  | null => exact absurd mem not_mem_nil
  | node key hasValue value left right ih _ =>
    simp only [Ucmap.bindings, mem_append]
    rw [visited, mem_append, mem_append] at mem
    have below (inLeft : e ∈ visited table left) :
        ∃ b, ((b ∈ left.bindings ∨ b ∈ if hasValue then [(key, value)] else []) ∨ b ∈ right.bindings) ∧ b.1 = e.1 := by
      obtain ⟨b, mem, same⟩ := ih inLeft
      exact ⟨b, .inl (.inl mem), same⟩
    rcases mem with (before | here) | again
    · exact below before
    · obtain ⟨same, present⟩ := mem_nodePairs here
      exact ⟨(key, value), .inl (.inr (by rw [if_pos present]; exact mem_singleton_self _)), same.symm⟩
    · exact below again

theorem pairs_key (mem : e ∈ pairs table t) : ∃ b ∈ t.bindings, b.1 = e.1 := by
  rw [pairs_eq, mem_flatMap] at mem
  obtain ⟨b, stored, inNode⟩ := mem
  exact ⟨b, stored, (mem_nodePairs inNode).1.symm⟩

theorem visited_ne_nil (wf : Ucmap.Wf t low high) (bound : Bound table t) (nonnull : t ≠ .null) :
    visited table t ≠ [] := by
  induction t generalizing low high with
  | null => exact absurd rfl nonnull
  | node key hasValue value left right ih _ =>
    rw [visited, ne_eq, append_eq_nil_iff, append_eq_nil_iff]
    rintro ⟨⟨before, here⟩, _⟩
    by_cases empty : left = .null
    · cases hasValue with
      | false => exact (wf.2.2.2.2 rfl).2.1 empty
      | true => exact nodePairs_ne_nil bound here
    · exact ih wf.2.2.1 bound.inLeft empty before

theorem pairs_ne_nil (wf : Ucmap.Wf t low high) (bound : Bound table t) (nonnull : t ≠ .null) :
    pairs table t ≠ [] := by
  obtain ⟨k, value, found⟩ := wf.exists_lookup nonnull
  have mem := (Ucmap.mem_bindings_iff wf).mpr found
  obtain ⟨set, address, nonnullSet, wfSet⟩ := bound _ mem
  obtain ⟨v, stored⟩ := wfSet.exists_contains nonnullSet
  have inNode : (k, v) ∈ nodePairs table k true value := (mem_nodePairs_iff address wfSet).mpr ⟨rfl, stored⟩
  rw [pairs_eq]
  exact ne_nil_of_mem (mem_flatMap.mpr ⟨_, mem, inNode⟩)

section Parts

variable {key value : Word} {hasValue : Bool} {left right : Ucmap}

section

variable (wf : Ucmap.Wf (.node key hasValue value left right) low high)

include wf

variable {e : Element}

theorem visited_lt (mem : e ∈ visited table left) : e.1 < key := by
  obtain ⟨b, stored, same⟩ := visited_key mem
  rw [← same]
  exact wf.bindings_left_lt stored

private theorem pairs_lt (mem : e ∈ pairs table left) : e.1 < key := by
  obtain ⟨b, stored, same⟩ := pairs_key mem
  rw [← same]
  exact wf.bindings_left_lt stored

theorem lt_pairs (mem : e ∈ pairs table right) : key < e.1 := by
  obtain ⟨b, stored, same⟩ := pairs_key mem
  rw [← same]
  exact wf.lt_bindings_right stored

end

/-- Two continuations of a list. Either one starts with a key that the other does not start with, or it is empty and the
other starts with a key that comes after those of the list. -/
def Parts (first x y : List Element) : Prop :=
  (∃ a x', x = a :: x' ∧ ∀ b ∈ y.head?, a.1 ≠ b.1) ∨ x = [] ∧ ∃ b y', y = b :: y' ∧ ∀ a ∈ first, a.1 < b.1

theorem Parts.apart (parts : Parts first x y) : x.head? ≠ y.head? := by
  intro same
  rcases parts with ⟨a, x', rfl, apart⟩ | ⟨rfl, b, y', rfl, _⟩
  · exact apart a same.symm rfl
  · cases same

private theorem lead_node
    (several : left' ≠ .null ∨ right' ≠ .null) :
    lead table (.node key hasValue value (.node key' hasValue' value' left' right') right) =
      lead table (.node key' hasValue' value' left' right') := by
  cases left' with
  | null =>
    cases right' with
    | null => exact (several.elim (absurd rfl) (absurd rfl))
    | node _ _ _ _ _ => rfl
  | node _ _ _ _ _ => rfl

theorem parts_node (wf : Ucmap.Wf (.node key hasValue value left right) low high)
    (bound : Bound table (.node key hasValue value left right)) (nonnull : left ≠ .null)
    (visits : visited table left = first ++ x) (all : pairs table left = first ++ y) (parts : Parts first x y) :
    Parts first (x ++ (nodePairs table key hasValue value ++ visited table left))
      (y ++ (nodePairs table key hasValue value ++ pairs table right)) := by
  rcases parts with ⟨a, x', rfl, apart⟩ | ⟨rfl, b, y', rfl, later⟩
  · refine .inl ⟨a, _, rfl, fun b starts => ?_⟩
    have less : a.1 < key := visited_lt wf (by rw [visits]; exact mem_append_right _ mem_cons_self)
    cases y with
    | cons b' y => exact apart b starts
    | nil =>
      intro same
      rw [same] at less
      rw [nil_append] at starts
      rcases mem_append.mp (mem_of_mem_head? starts) with here | after
      · rw [(mem_nodePairs here).1] at less
        exact BitVec.lt_irrefl _ less
      · exact BitVec.lt_irrefl _ (BitVec.lt_trans less (lt_pairs wf after))
  · have less : b.1 < key := pairs_lt wf (by rw [all]; exact mem_append_right _ mem_cons_self)
    left
    cases here : nodePairs table key hasValue value with
    | cons a rest =>
      refine ⟨a, _, rfl, fun b' starts same => ?_⟩
      obtain rfl : b' = b := (Option.some.inj starts).symm
      rw [← same, (mem_nodePairs (by rw [here]; exact .head _)).1] at less
      exact BitVec.lt_irrefl _ less
    | nil =>
      cases again : visited table left with
      | nil => exact absurd again (visited_ne_nil wf.2.2.1 bound.inLeft nonnull)
      | cons a rest =>
        refine ⟨a, rest, rfl, fun b' starts same => ?_⟩
        obtain rfl : b' = b := (Option.some.inj starts).symm
        rw [append_nil] at visits
        have before := later a (by rw [← visits, again]; exact .head _)
        rw [same] at before
        exact BitVec.lt_irrefl _ before

private theorem visited_parts (wf : Ucmap.Wf (.node key hasValue value left right) low high)
    (bound : Bound table (.node key hasValue value left right)) (several : left ≠ .null ∨ right ≠ .null) :
    ∃ x y, visited table (.node key hasValue value left right) = lead table (.node key hasValue value left right) ++ x ∧
      pairs table (.node key hasValue value left right) = lead table (.node key hasValue value left right) ++ y ∧
      Parts (lead table (.node key hasValue value left right)) x y := by
  induction left generalizing key hasValue value right low high with
  | null =>
    have nonnull := several.resolve_left (absurd rfl)
    cases after : pairs table right with
    | nil =>
      exact absurd after (pairs_ne_nil wf.2.2.2.1
        (fun b mem => bound b (by rw [Ucmap.bindings]; exact mem_append_right _ mem)) nonnull)
    | cons b y' =>
      refine ⟨[], b :: y', rfl, ?_, .inr ⟨rfl, b, y', rfl, fun a mem => ?_⟩⟩
      · rw [pairs, after]
        rfl
      · rw [(mem_nodePairs mem).1]
        exact lt_pairs wf (by rw [after]; exact .head _)
  | node key' hasValue' value' left' right' ih _ =>
    by_cases several' : left' ≠ .null ∨ right' ≠ .null
    · obtain ⟨x, y, visits, all, parts⟩ := ih wf.2.2.1 bound.inLeft several'
      rw [lead_node several', visited, pairs]
      refine ⟨_, _, ?_, ?_, parts_node wf bound (by simp) visits all parts⟩
      · rw [visits]
        simp only [List.append_assoc]
      · rw [all]
        simp only [List.append_assoc]
    · obtain ⟨rfl, rfl⟩ := (not_or.mp several').imp not_not.mp not_not.mp
      have whole : visited table (.node key' hasValue' value' .null .null) = nodePairs table key' hasValue' value' := by
        rw [visited, visited, nil_append, append_nil]
      cases again : nodePairs table key' hasValue' value' with
      | nil =>
        rw [← whole] at again
        exact absurd again (visited_ne_nil wf.2.2.1 bound.inLeft (by simp))
      | cons a rest =>
        refine ⟨a :: rest, pairs table right, ?_, ?_, .inl ⟨a, rest, rfl, fun b starts same => ?_⟩⟩
        · rw [visited, whole, again, lead, again]
        · rw [pairs, pairs, pairs, nil_append, append_nil, lead]
        · have less : a.1 < key := visited_lt wf (by rw [whole, again]; exact .head _)
          rw [same] at less
          exact BitVec.lt_irrefl _ (BitVec.lt_trans less (lt_pairs wf (List.mem_of_mem_head? starts)))

end Parts

theorem card_le_one_iff (wf : Ucmap.Wf t low high) :
    t.card ≤ 1 ↔ t = .null ∨ ∃ key hasValue value, t = .node key hasValue value .null .null := by
  have some_binding {t : Ucmap} {low high : Nat} (wf : Ucmap.Wf t low high) (nonnull : t ≠ .null) :
      0 < t.bindings.length := by
    rw [← Ucmap.card_eq]
    exact pos_of_ne_zero (mt (Ucmap.card_pos_iff wf).mp nonnull)
  rw [Ucmap.card_eq]
  constructor
  · intro few
    cases t with
    | null => exact .inl rfl
    | node key hasValue value left right =>
      rw [Ucmap.bindings, length_append, length_append] at few
      by_cases inLeft : left = .null
      · by_cases inRight : right = .null
        · exact .inr ⟨key, hasValue, value, by rw [inLeft, inRight]⟩
        · have := some_binding wf.2.2.2.1 inRight
          cases hasValue with
          | false => exact absurd inLeft (wf.2.2.2.2 rfl).2.1
          | true =>
            rw [if_pos rfl, length_singleton] at few
            omega
      · have := some_binding wf.2.2.1 inLeft
        cases hasValue with
        | false =>
          have := some_binding wf.2.2.2.1 (wf.2.2.2.2 rfl).2.2
          omega
        | true =>
          rw [if_pos rfl, length_singleton] at few
          omega
  · rintro (rfl | ⟨key, hasValue, value, rfl⟩)
    · exact Nat.zero_le 1
    · cases hasValue <;> simp [Ucmap.bindings]

theorem visited_eq_pairs (wf : Ucmap.Wf t low high) (few : t.card ≤ 1) : visited table t = pairs table t := by
  rcases (card_le_one_iff wf).mp few with rfl | ⟨key, hasValue, value, rfl⟩
  · rfl
  · rfl

private theorem iterRight_iff (holds : Holds table map) (f : Word → Word → σ → Bool × σ) (state : σ) :
    IterRight table map f state ↔ map.card ≤ 1 ∨ (Ucmap.callAll f (lead table map) state).1 = false := by
  have all : IterRight table map f state ↔
      Ucmap.callAll (logged f) (visited table map) (state, []) =
        Ucmap.callAll (logged f) (pairs table map) (state, []) := by
    rw [IterRight, iterA_eq _ holds.bound]
    constructor
    · rintro ⟨elements, increasing, contained, same⟩
      rw [Option.some.inj same, increasing.ext (pairs_increasing holds.wf holds.bound) fun e => ?_]
      rw [contained, mem_pairs holds]
    · exact fun same => ⟨_, pairs_increasing holds.wf holds.bound, mem_pairs holds, congrArg some same⟩
  rw [all]
  by_cases few : map.card ≤ 1
  · rw [visited_eq_pairs holds.wf few]
    exact iff_of_true rfl (.inl few)
  rw [or_iff_right few]
  cases map with
  | null => exact absurd (Nat.zero_le 1) few
  | node key hasValue value left right =>
    have several : left ≠ .null ∨ right ≠ .null := by
      by_contra neither
      obtain ⟨rfl, rfl⟩ := (not_or.mp neither).imp not_not.mp not_not.mp
      exact few ((card_le_one_iff holds.wf).mpr (.inr ⟨key, hasValue, value, rfl⟩))
    obtain ⟨x, y, visits, whole, parts⟩ := visited_parts holds.wf holds.bound several
    rw [visits, whole]
    exact logged_append_iff f state parts.apart

/-- The cardinality is the number of calls of a callback that is always true. -/
def CardRight (table : HconsTable) (map : Ucmap) : Prop :=
  ∃ calls, iterA table (logged fun _ _ (_ : Unit) => (true, ())) map ((), []) = some (true, (), calls) ∧
    card table map = some (BitVec.ofNat 64 calls.length)

theorem logged_true (l log : List Element) :
    Ucmap.callAll (logged fun _ _ (_ : Unit) => (true, ())) l ((), log) = (true, (), log ++ l) := by
  induction l generalizing log with
  | nil => rw [Ucmap.callAll, append_nil]
  | cons e l ih =>
    rw [callAll_logged]
    simp only [Bool.not_true, Bool.false_eq_true, if_false]
    rw [ih, List.append_assoc, List.singleton_append]

/-- Exactly when the iteration comes to each pair once and in order until the callback returns false. With all
callbacks, and with the cardinality, this is so for the multi-maps with at most one key. -/
theorem iterA_right_iff (program : ReachableProgram) (map : Held program) :
    (∀ (σ : Type) (f : Word → Word → σ → Bool × σ) (state : σ), IterRight program.val.table map.val f state ↔
      map.val.card ≤ 1 ∨ (Ucmap.callAll f (lead program.val.table map.val) state).1 = false) ∧
    (((∀ (σ : Type) (f : Word → Word → σ → Bool × σ) (state : σ), IterRight program.val.table map.val f state) ∧
      CardRight program.val.table map.val) ↔ map.val.card ≤ 1) := by
  have holds := program.property.holds map.val map.property
  have exactly (σ : Type) (f : Word → Word → σ → Bool × σ) (state : σ) := iterRight_iff holds f state
  refine ⟨exactly, fun both => ?_, fun few => ⟨fun σ f state => (exactly σ f state).mpr (.inl few), ?_⟩⟩
  · rcases (exactly Unit (fun _ _ _ => (true, ())) ()).mp (both.1 ..) with few | stops
    · exact few
    · rw [← logged_result _ _ _ [], logged_true] at stops
      cases stops
  · refine ⟨pairs program.val.table map.val, ?_, card_eq holds⟩
    rw [iterA_eq _ holds.bound, visited_eq_pairs holds.wf few, logged_true, nil_append]

section Pair

def five : Ucset := .ucleafNew 5

def noSets : HconsTable where
  objects := []
  nonnull := nofun
  addressesDistinct := nodup_nil
  setsDistinct := nodup_nil

/-- The set is the first that has been allocated. -/
def tableFive : HconsTable := noSets.add 1 five (by decide) not_mem_nil nofun

theorem insert_five (found : isokeyFind table map k = some .null)
    (inserted : isokeyInsert firstFree table map k five = .ok (map', tableFive)) :
    insert firstFree table map k 5 = .ok (map', tableFive) := by
  have grown : Ucset.insert .null 5 = five := by
    rw [Ucset.insert]
    rfl
  rw [insert, isokeyGrow_eq found, grown, if_neg (by decide), inserted]

/-- The pairs (1, 5) and (2, 5), of which the first is passed twice. -/
theorem iterA_repeats : ∃ (program : ReachableProgram) (map : Held program),
    (∀ k v, contains program.val.table map.val k v = true ↔ (k, v) = (1, 5) ∨ (k, v) = (2, 5)) ∧
    iterA program.val.table (logged fun _ _ (_ : Unit) => (true, ())) map.val ((), []) =
      some (true, (), [(1, 5), (2, 5), (1, 5)]) := by
  let one : Ucmap := .node 1 true 1 .null .null
  let two : Ucmap := .node 2 true 1 one .null
  have first : insert firstFree noSets .null 1 5 = .ok (one, tableFive) := insert_five rfl rfl
  have second : insert firstFree tableFive one 2 5 = .ok (two, tableFive) := insert_five rfl rfl
  have call : Call firstFree ⟨noSets, [.null]⟩ (.ok (one, tableFive)) := by
    rw [← first]
    exact .insert (mem_singleton_self _) 1 5
  have call' : Call firstFree ⟨tableFive, [one, .null]⟩ (.ok (two, tableFive)) := by
    rw [← second]
    exact .insert mem_cons_self 2 5
  have reachable : Reachable ⟨tableFive, [two, one, .null]⟩ := .call (.call (.empty noSets) call) call'
  have holds : Holds tableFive two := reachable.holds two mem_cons_self
  refine ⟨⟨_, reachable⟩, ⟨two, .head _⟩, fun k v => ?_, ?_⟩
  · have listed : pairs tableFive two = [(1, 5), (2, 5)] := by decide
    rw [← mem_pairs holds, listed, mem_pair]
  · have passed : visited tableFive two = [(1, 5), (2, 5), (1, 5)] := by decide
    rw [iterA_eq _ holds.bound, passed, logged_true]
    rfl

end Pair

end Ucmultimap

end Culibs.Cucon
