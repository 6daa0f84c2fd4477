import Culibs.Cucon.Ucmap.Bindings
import Mathlib.Data.Set.Card

namespace Culibs.Cucon.Ucmap

open List BitVec Option

/-- The loop of `cucon_ucmap_card`. Each binding has a node of its own, so that the
count stays below `SIZE_MAX`. -/
def cardFrom (count : Nat) : Ucmap → Nat
  | null => count
  | node _ hasValue _ left right =>
    let count := count + cardFrom 0 left
    cardFrom (if hasValue then count + 1 else count) right

def card (map : Ucmap) : Nat := cardFrom 0 map

def isEmpty (map : Ucmap) : Bool := map == null

/-- `node->left`, without masking out the presence bit, is `NULL`. -/
def leftFieldNull : Ucmap → Bool
  | null => false
  | node _ hasValue _ left _ => left == null && !hasValue

def right : Ucmap → Ucmap
  | null => null
  | node _ _ _ _ right => right

def isSingleton (map : Ucmap) : Bool := map != null && leftFieldNull map && map.right == null

/-- The loop of `cucon_ucmap_min_ukey`. -/
def minUkeyFrom (min : Word) : Ucmap → Word
  | null => min
  | node key _ _ left _ => minUkeyFrom key left

def minUkey (map : Ucmap) : Word := minUkeyFrom (allOnes 64) map

/-- The loop of `cucon_ucmap_max_ukey`. -/
def maxUkeyFrom (max : Word) : Ucmap → Word
  | null => max
  | node key _ _ _ right => maxUkeyFrom key right

def maxUkey (map : Ucmap) : Word := maxUkeyFrom 0 map

/-- The keys that `cucon_ucmap_find` finds. -/
def boundKeys (map : Ucmap) : Set Word := {k | find map k ≠ none}

variable {t : Ucmap} {low high : Nat}

theorem cardFrom_eq (t : Ucmap) (count : Nat) : cardFrom count t = count + (bindings t).length := by
  induction t generalizing count with
  | null => rfl
  | node key hasValue value left right ihLeft ihRight =>
    rw [cardFrom, bindings, ihLeft, ihRight]
    cases hasValue <;> simp <;> omega

theorem card_eq (t : Ucmap) : card t = (bindings t).length := (cardFrom_eq t 0).trans (zero_add _)

theorem Ascending.keys_nodup (ascending : Ascending elements) :
    (elements.map Prod.fst).Nodup :=
  (pairwise_map.mpr ascending).imp fun less same => by
    rw [same] at less
    exact BitVec.lt_irrefl _ less

section

variable (wf : Wf t low high)

include wf

private theorem mem_boundKeys (k : Word) : k ∈ boundKeys t ↔ k ∈ (bindings t).map Prod.fst := by
  rw [boundKeys, Set.mem_ofPred_eq, wf.find_eq, List.mem_map]
  constructor
  · intro bound
    obtain ⟨v, found⟩ := ne_none_iff_exists'.mp bound
    exact ⟨(k, v), (mem_bindings_iff wf).mpr found, rfl⟩
  · rintro ⟨⟨_, v⟩, mem, rfl⟩ absent
    rw [(mem_bindings_iff wf).mp mem] at absent
    cases absent

theorem card_eq_ncard : card t = Set.ncard (boundKeys t) := by
  have listed : boundKeys t = (((bindings t).map Prod.fst).toFinset : Set Word) := by
    ext k
    rw [mem_boundKeys wf]
    simp
  rw [listed, Set.ncard_coe_finset, toFinset_card_of_nodup (bindings_ascending wf).keys_nodup, length_map, card_eq]

theorem card_pos_iff : card t = 0 ↔ t = null := by
  constructor
  · intro none
    by_contra nonnull
    obtain ⟨x, v, found⟩ := wf.exists_lookup nonnull
    rw [card_eq, length_eq_zero_iff] at none
    have mem := (mem_bindings_iff wf).mpr found
    rw [none] at mem
    cases mem
  · rintro rfl
    rfl

/-- The search for the least key stops at a binding, since a node without a left
subtree has one. -/
theorem minUkeyFrom_least (nonnull : t ≠ null) (min : Word) :
    lookup t (minUkeyFrom min t) ≠ none ∧ ∀ y, lookup t y ≠ none → minUkeyFrom min t ≤ y := by
  induction t generalizing low high min with
  | null => exact absurd rfl nonnull
  | node key hasValue value left right ihLeft _ =>
    rw [minUkeyFrom]
    have smaller (y : Word) (less : y.toNat < key.toNat) :
        lookup (node key hasValue value left right) y = lookup left y := lookup_of_lt less
    by_cases absent : left = null
    · subst absent
      rw [minUkeyFrom]
      have present : hasValue = true := by
        by_contra bare
        exact (wf.2.2.2.2 (Bool.eq_false_iff.mpr bare)).2.1 rfl
      subst present
      refine ⟨by simp [lookup_root], fun y bound => ?_⟩
      by_contra less
      have less : y.toNat < key.toNat := by
        rw [le_def] at less
        omega
      exact bound (smaller y less)
    · obtain ⟨least, below⟩ := ihLeft wf.2.2.1 absent key
      have inside : (minUkeyFrom key left).toNat < key.toNat := by
        obtain ⟨v, found⟩ := ne_none_iff_exists'.mp least
        exact (wf.hasKey_left (hasKey_of_lookup found)).2
      refine ⟨by rwa [smaller _ inside], fun y bound => ?_⟩
      by_cases less : y.toNat < key.toNat
      · rw [smaller y less] at bound
        exact below y bound
      · rw [le_def]
        omega

private theorem maxUkeyFrom_greatest (nonnull : t ≠ null) (max : Word) :
    lookup t (maxUkeyFrom max t) ≠ none ∧ ∀ y, lookup t y ≠ none → y ≤ maxUkeyFrom max t := by
  induction t generalizing low high max with
  | null => exact absurd rfl nonnull
  | node key hasValue value left right _ ihRight =>
    rw [maxUkeyFrom]
    have larger (y : Word) (more : key.toNat < y.toNat) :
        lookup (node key hasValue value left right) y = lookup right y := lookup_of_gt more
    by_cases absent : right = null
    · subst absent
      rw [maxUkeyFrom]
      have present : hasValue = true := by
        by_contra bare
        exact (wf.2.2.2.2 (Bool.eq_false_iff.mpr bare)).2.2 rfl
      subst present
      refine ⟨by simp [lookup_root], fun y bound => ?_⟩
      by_contra more
      have more : key.toNat < y.toNat := by
        rw [le_def] at more
        omega
      exact bound (larger y more)
    · obtain ⟨greatest, above⟩ := ihRight wf.2.2.2.1 absent key
      have inside : key.toNat < (maxUkeyFrom key right).toNat := by
        obtain ⟨v, found⟩ := ne_none_iff_exists'.mp greatest
        exact (wf.hasKey_right (hasKey_of_lookup found)).1
      refine ⟨by rwa [larger _ inside], fun y bound => ?_⟩
      by_cases more : key.toNat < y.toNat
      · rw [larger y more] at bound
        exact above y bound
      · rw [le_def]
        omega

end

/-- The count, the test for the empty map and the extremal keys. -/
structure Counted (map : Ucmap) : Prop where
  card : card map = Set.ncard (boundKeys map)
  empty : isEmpty map = true ↔ Ucmap.card map = 0
  least : map ≠ null → IsLeast (boundKeys map) (minUkey map)
  greatest : map ≠ null → IsGreatest (boundKeys map) (maxUkey map)

theorem Wf.counted (wf : Wf t low high) : Counted t := by
  have bound (k : Word) : k ∈ boundKeys t ↔ lookup t k ≠ none := by
    rw [boundKeys, Set.mem_ofPred_eq, wf.find_eq]
  refine ⟨card_eq_ncard wf, ?_, fun nonnull => ?_, fun nonnull => ?_⟩
  · rw [isEmpty, beq_iff_eq, card_pos_iff wf]
  · obtain ⟨least, below⟩ := minUkeyFrom_least wf nonnull (allOnes 64)
    exact ⟨(bound _).mpr least, fun y mem => below y ((bound y).mp mem)⟩
  · obtain ⟨greatest, above⟩ := maxUkeyFrom_greatest wf nonnull 0
    exact ⟨(bound _).mpr greatest, fun y mem => above y ((bound y).mp mem)⟩

/-- The test for singletons sees the presence bit in the left field, and a node
without that bit has two subtrees. -/
theorem Wf.isSingleton_eq_false (wf : Wf t low high) : isSingleton t = false := by
  cases t with
  | null => rfl
  | node key hasValue value left right =>
    cases hasValue with
    | true => simp [isSingleton, leftFieldNull]
    | false =>
      have branches := (wf.2.2.2.2 rfl).2.1
      simp [isSingleton, leftFieldNull, branches]

/-- All observers are right. -/
def Observed (map : Ucmap) : Prop := Counted map ∧ (isSingleton map = true ↔ card map = 1)

/-- After any sequence of updates the observers are right, with the exception of
the test for singletons, which fails on each singleton. -/
theorem build_observed_iff (history : List Command) :
    (Observed (build history) ↔ Set.ncard (boundKeys (build history)) ≠ 1) ∧ Counted (build history) := by
  have wf := build_wf history
  have counted := wf.counted
  refine ⟨?_, counted⟩
  rw [Observed, and_iff_right counted, wf.isSingleton_eq_false, counted.card]
  simp

theorem singleton_not_observed : ¬ Observed (build [.insert 3 7]) := by
  rintro ⟨_, singleton⟩
  exact absurd (singleton.mpr (by decide)) (by decide)

end Culibs.Cucon.Ucmap
