import Culibs.Cucon.Ucset.Predicate
import Culibs.Cucon.Ucset.SortedArray
import Culibs.Cucon.Ucset.Translate

namespace Culibs.Cucon

open Ucset DyadicBlock

/-- A trie over all words with its invariant. -/
structure UcsetTrie where
  tree : Ucset
  wf : Wf tree 0 (2 ^ 64)

namespace Ucset

/-- The trees that sequences of operations build from the empty set. -/
inductive Reachable : Ucset → Prop
  | empty : Reachable null
  | singleton (key : Word) : Reachable (singleton key)
  | insert {node : Ucset} (key : Word) : Reachable node → Reachable (insert node key)
  | erase {node : Ucset} (key : Word) : Reachable node → Reachable (erase node key)
  | union {lhs rhs : Ucset} : Reachable lhs → Reachable rhs → Reachable (union lhs rhs)
  | isecn {lhs rhs : Ucset} : Reachable lhs → Reachable rhs → Reachable (isecn lhs rhs)
  | compl {lhs rhs : Ucset} : Reachable lhs → Reachable rhs → Reachable (compl lhs rhs)
  | filter {node : Ucset} {σ : Type} (f : Word → σ → Bool × σ) (state : σ) :
      Reachable node → Reachable (filter f node state).1
  | uclip {node : Ucset} (clipMin clipMax : Word) : Reachable node → Reachable (uclip node clipMin clipMax)
  | sclip {node : Ucset} (clipMin clipMax : Word) : Reachable node → Reachable (sclip node clipMin clipMax)
  | translate {node result : Ucset} (diff : Word) :
      Reachable node → translate node diff = some result → Reachable result
  | fromSortedArray {arr : List Word} {result : Ucset} {io : Cursor} : arr.Pairwise (· ≤ ·) →
      fromSortedArray arr = some (result, io) → Reachable result

theorem Reachable.wf {node : Ucset} (reachable : Reachable node) : Wf node 0 (2 ^ 64) := by
  induction reachable with
  | empty => trivial
  | singleton key => exact (singleton_represents Region.top (inRegion_top key)).wf
  | insert key _ ih => exact (insert_represents Region.top (inRegion_top key) ih).wf
  | erase key _ ih => exact (erase_represents ih).wf
  | union _ _ ih0 ih1 => exact (union_represents Region.top ih0 ih1).wf
  | isecn _ _ ih0 ih1 => exact (isecn_represents ih0 ih1).wf
  | compl _ _ ih0 ih1 => exact (compl_represents ih0 ih1).wf
  | filter f state _ ih => exact (filter_subtree f ih state).wf
  | uclip clipMin clipMax _ ih => exact (uclip_represents ih clipMin clipMax).wf
  | sclip clipMin clipMax _ ih => exact (sclip_represents Region.top ih clipMin clipMax).wf
  | translate diff _ made ih =>
    obtain ⟨moved, result, rep⟩ := translate_represents ih diff
    rw [result] at made
    cases made
    exact rep.wf
  | fromSortedArray sorted made =>
    obtain ⟨t, io, result, _, rep⟩ := fromSortedArray_represents sorted
    rw [result] at made
    obtain rfl := congrArg Prod.fst (Option.some.inj made)
    exact rep.wf

/-- The trie invariant node by node. A leaf is centred in its block, has an element
and only leaf keys as elements. A node has a nonzero multiple of 128 as key, its
subtrees strictly below and strictly above the key and inside its block, and
both of them unless the key itself is stored. -/
def TrieInvariant : Ucset → Prop
  | null => True
  | leaf key bitset =>
    IsLeafKey key.toNat ∧ (∃ i, bitset i ≠ 0) ∧
      ∀ x, Contains (leaf key bitset) x → keyIsLeaflike x = true
  | node key left right =>
    IsNodeKey (2 * (key.toNat / 2)) ∧
      (∀ x, Contains left x → lo 64 (2 * (key.toNat / 2)) ≤ x.toNat ∧ x.toNat < 2 * (key.toNat / 2)) ∧
      (∀ x, Contains right x → 2 * (key.toNat / 2) < x.toNat ∧ x.toNat < hi 64 (2 * (key.toNat / 2))) ∧
      (left ≠ null → lo 64 (2 * (key.toNat / 2)) ≤ lo 64 left.centre ∧
        hi 64 left.centre ≤ 2 * (key.toNat / 2)) ∧
      (right ≠ null → 2 * (key.toNat / 2) ≤ lo 64 right.centre ∧
        hi 64 right.centre ≤ hi 64 (2 * (key.toNat / 2))) ∧
      (key.toNat % 2 = 0 → left ≠ null ∧ right ≠ null) ∧ TrieInvariant left ∧ TrieInvariant right

/-- The invariant with bounds is the invariant node by node with the root inside
the bounds. -/
theorem wf_iff_trieInvariant : Wf t low high ↔
    TrieInvariant t ∧ (t ≠ null → low ≤ lo 64 t.centre ∧ hi 64 t.centre ≤ high) := by
  induction t generalizing low high with
  | null => simp [Wf, TrieInvariant]
  | leaf key bitset =>
    constructor
    · intro wf
      obtain ⟨leafKey, lower, upper, nonempty, first⟩ := id wf
      refine ⟨⟨leafKey, (nonzero_iff bitset).mpr nonempty, fun x mem => ?_⟩, fun _ => ?_⟩
      · rw [keyIsLeaflike_iff]
        have offset := wf.contains_block mem
        rw [centre_leaf leafKey, (leaf_block leafKey).1, (leaf_block leafKey).2] at offset
        simp only [IsLeafKey] at leafKey
        omega
      · rw [centre_leaf leafKey]
        exact ⟨lower, upper⟩
    · rintro ⟨⟨leafKey, nonempty, leaflike⟩, inside⟩
      have bounds := inside (by simp)
      rw [centre_leaf leafKey] at bounds
      refine ⟨leafKey, bounds.1, bounds.2, (nonzero_iff bitset).mp nonempty, fun set => ?_⟩
      -- The first word of the block would be a node key.
      have value : (BitVec.ofNat 64 (128 * (key.toNat / 128))).toNat = 128 * (key.toNat / 128) := by
        rw [BitVec.toNat_ofNat, Nat.mod_eq_of_lt (by omega)]
      have first := leaflike (BitVec.ofNat 64 (128 * (key.toNat / 128))) ⟨by rw [value]; omega, by
        rw [value, ← bit_mod, show 128 * (key.toNat / 128) % 128 = 0 by omega]
        exact set⟩
      rw [keyIsLeaflike_iff] at first
      omega
  | node key left right ihLeft ihRight =>
    constructor
    · intro wf
      obtain ⟨nodeKey, lower, upper, wfLeft, wfRight, children⟩ := id wf
      refine ⟨⟨nodeKey, fun x mem => ?_, fun x mem => ?_, (ihLeft.mp wfLeft).2,
        (ihRight.mp wfRight).2, children, (ihLeft.mp wfLeft).1, (ihRight.mp wfRight).1⟩, fun _ => ?_⟩
      · have := wfLeft.contains_bounds mem
        omega
      · have := wfRight.contains_bounds mem
        have := (wf.contains_right x).mp mem
        omega
      · rw [centre_node]
        exact ⟨lower, upper⟩
    · rintro ⟨⟨nodeKey, _, _, inLeft, inRight, children, invLeft, invRight⟩, inside⟩
      have bounds := inside (by simp)
      rw [centre_node] at bounds
      exact ⟨nodeKey, bounds.1, bounds.2, ihLeft.mpr ⟨invLeft, inLeft⟩, ihRight.mpr ⟨invRight, inRight⟩, children⟩

private theorem wf_top_iff : Wf t 0 (2 ^ 64) ↔ TrieInvariant t := by
  rw [wf_iff_trieInvariant]
  exact ⟨And.left, fun invariant => ⟨invariant, fun _ => ⟨Nat.zero_le _, hi_le (centre_lt t)⟩⟩⟩

/-- A reachable tree, for statements about all of them. -/
abbrev ReachableUcset := { node : Ucset // Reachable node }

/-- Reachable trees satisfy the trie invariant and are canonical: the same tree
stands for the same set, and `NULL` for the empty one. The constructors that
run on fuel succeed. -/
theorem reachable_canonical (lhs rhs : ReachableUcset) :
    TrieInvariant lhs.val ∧
      ((∀ x, find lhs.val x = find rhs.val x) ↔ lhs.val = rhs.val) ∧
      ((∀ x, find lhs.val x = false) ↔ lhs.val = null) ∧
      (∀ diff, ∃ result, translate lhs.val diff = some result) ∧
      ∀ arr : { arr : List Word // arr.Pairwise (· ≤ ·) },
        ∃ result io, fromSortedArray arr.val = some (result, io) := by
  have wf0 := lhs.property.wf
  have wf1 := rhs.property.wf
  refine ⟨wf_top_iff.mp wf0, ⟨fun same => ?_, fun same x => by rw [same]⟩, ?_, fun diff => ?_,
    fun arr => ?_⟩
  · refine wf0.ext wf1 fun x => ?_
    rw [← find_iff wf0, ← find_iff wf1, same x]
  · rw [eq_null_iff wf0]
    refine forall_congr' fun x => ?_
    rw [← find_iff wf0, Bool.not_eq_true]
  · obtain ⟨result, made, _⟩ := translate_represents wf0 diff
    exact ⟨result, made⟩
  · obtain ⟨result, io, made, _⟩ := fromSortedArray_represents arr.property
    exact ⟨result, io, made⟩

end Ucset

namespace UcsetTrie

/-- Lookup after insertion and deletion of one key. -/
theorem find_insert_erase (set : UcsetTrie) (k k' : Word) :
    (find (insert set.tree k) k' = true ↔ k' = k ∨ find set.tree k' = true) ∧
      (find (erase set.tree k) k' = true ↔ k' ≠ k ∧ find set.tree k' = true) := by
  have inserted := insert_represents Region.top (inRegion_top k) set.wf
  have erased := erase_represents (x := k) set.wf
  rw [find_iff inserted.wf, inserted.contains, find_iff erased.wf, erased.contains, find_iff set.wf]
  exact ⟨Iff.rfl, Iff.rfl⟩

/-- Lookup in a union, an intersection and a complement. -/
theorem find_algebra (lhs rhs : UcsetTrie) (k : Word) :
    find (union lhs.tree rhs.tree) k = (find lhs.tree k || find rhs.tree k) ∧
      find (isecn lhs.tree rhs.tree) k = (find lhs.tree k && find rhs.tree k) ∧
      find (compl lhs.tree rhs.tree) k = (find lhs.tree k && !find rhs.tree k) := by
  have united := union_represents Region.top lhs.wf rhs.wf
  have common := isecn_represents lhs.wf rhs.wf
  have rest := compl_represents lhs.wf rhs.wf
  refine ⟨?_, ?_, ?_⟩ <;> rw [Bool.eq_iff_iff]
  · rw [find_iff united.wf, united.contains, Bool.or_eq_true, find_iff lhs.wf, find_iff rhs.wf]
  · rw [find_iff common.wf, common.contains, Bool.and_eq_true, find_iff lhs.wf, find_iff rhs.wf]
  · rw [find_iff rest.wf, rest.contains, Bool.and_eq_true, Bool.not_eq_true', Bool.eq_false_iff, Ne,
      find_iff lhs.wf, find_iff rhs.wf]

/-- Inclusion and disjointness of tries are those of their elements. -/
theorem subeq_disjoint (lhs rhs : UcsetTrie) :
    (subeq lhs.tree rhs.tree = true ↔ ∀ x, find lhs.tree x = true → find rhs.tree x = true) ∧
      (disjoint lhs.tree rhs.tree = true ↔ ∀ x, ¬(find lhs.tree x = true ∧ find rhs.tree x = true)) := by
  simp only [find_iff lhs.wf, find_iff rhs.wf]
  exact ⟨subeq_iff lhs.wf rhs.wf, disjoint_iff lhs.wf rhs.wf⟩

/-- Clipping keeps the elements between the bounds, as unsigned or as signed numbers. -/
theorem find_clips (set : UcsetTrie) (clipMin clipMax x : Word) :
    (find (uclip set.tree clipMin clipMax) x = true ↔
      find set.tree x = true ∧ clipMin ≤ x ∧ x ≤ clipMax) ∧
    (find (sclip set.tree clipMin clipMax) x = true ↔
      find set.tree x = true ∧ clipMin.toInt ≤ x.toInt ∧ x.toInt ≤ clipMax.toInt) := by
  have unsigned := uclip_represents set.wf clipMin clipMax
  have signed := sclip_represents Region.top set.wf clipMin clipMax
  constructor
  · rw [find_iff unsigned.wf, unsigned.contains, find_iff set.wf, BitVec.le_def, BitVec.le_def]
  · rw [find_iff signed.wf, signed.contains, find_iff set.wf, SignedBetween]

/-- Filtering calls the predicate on elements and keeps those it holds for. -/
def FilterCorrect (set : UcsetTrie) (f : Word → Bool) : Prop :=
  (∀ y ∈ (filter (logged f) set.tree []).2, find set.tree y = true) ∧
    ∀ x, find (filter (logged f) set.tree []).1 x = true ↔ find set.tree x = true ∧ f x = true

/-- Filtering is correct when each element of a leaf goes through `int` to an
element with the same answer, and correct for every predicate when the
elements of the leaves are in the range of `int`. -/
theorem filterCorrect_iff (set : UcsetTrie) :
    (∀ f, FilterCorrect set f ↔ ∀ x, find set.tree x = true → keyIsLeaflike x = true →
      find set.tree (intKey x) = true ∧ f (intKey x) = f x) ∧
    ((∀ f, FilterCorrect set f) ↔ ∀ x, find set.tree x = true → keyIsLeaflike x = true →
      -2 ^ 31 ≤ x.toInt ∧ x.toInt < 2 ^ 31) := by
  have exactly (f : Word → Bool) : FilterCorrect set f ↔ ∀ x, find set.tree x = true → keyIsLeaflike x = true →
      find set.tree (intKey x) = true ∧ f (intKey x) = f x := by
    have filtered := filter_filtered f [] set.wf
    have wf := (filter_subtree (logged f) set.wf []).wf
    simp only [FilterCorrect, filtered.calls, find_iff wf, find_iff set.wf, filtered.contains, List.not_mem_nil, false_or]
    constructor
    · rintro ⟨only, kept⟩ x member leaflike
      have passed : passedKey x = intKey x := if_pos leaflike
      refine ⟨only _ ⟨x, member, passed.symm⟩, ?_⟩
      have answers := (and_congr_right_iff.mp (kept x)) member
      rwa [passed, ← Bool.eq_iff_iff] at answers
    intro agree
    constructor
    · rintro y ⟨x, member, rfl⟩
      rw [passedKey]
      split
      · next leaflike => exact (agree x member leaflike).1
      · exact member
    · refine fun x => and_congr_right fun member => ?_
      rw [passedKey]
      split
      · next leaflike => rw [(agree x member leaflike).2]
      · rfl
  refine ⟨exactly, ?_⟩
  simp only [exactly, ← intKey_eq_iff]
  constructor
  · intro always x member leaflike
    have same := (always (fun y => decide (y = x)) x member leaflike).2
    simpa using same
  · intro inRange f x member leaflike
    rw [inRange x member leaflike]
    exact ⟨member, rfl⟩

/-- The set of one word, for which the predicate is called on another. -/
def highSingleton : UcsetTrie :=
  ⟨singleton 0x100000001, (singleton_represents Region.top (inRegion_top 0x100000001)).wf⟩

theorem filter_highSingleton : ¬ FilterCorrect highSingleton (fun x => decide (0x100000000 ≤ x)) := by
  rintro ⟨only, _⟩
  have represents := singleton_represents Region.top (inRegion_top 0x100000001)
  have called := ((filter_filtered (fun x => decide (0x100000000 ≤ x)) [] highSingleton.wf).calls 1).mpr
    (.inr ⟨0x100000001, (represents.contains _).mpr rfl, by decide⟩)
  have element := (represents.contains 1).mp ((find_iff highSingleton.wf 1).mp (only 1 called))
  exact absurd element (by decide)

section Translate

variable (set : UcsetTrie) (diff clipMin clipMax : Word)

private theorem translateUclip_eq : ∃ moved, translateUclip set.tree diff clipMin clipMax = some moved ∧
    (∀ y, find moved y = true ↔ ∃ x, find set.tree x = true ∧ clipMin ≤ x ∧ x ≤ clipMax ∧ y = x + diff) ∧
    translate (uclip set.tree clipMin clipMax) diff = some moved := by
  obtain ⟨moved, result, rep⟩ := translateUclip_represents set.wf diff clipMin clipMax
  have clipped := uclip_represents set.wf clipMin clipMax
  obtain ⟨moved', result', represents'⟩ := translate_represents clipped.wf diff
  have same : moved' = moved := represents'.unique (rep.congr fun y => exists_congr fun x => by
    rw [clipped.contains, and_assoc, and_assoc])
  refine ⟨moved, result, fun y => ?_, same ▸ result'⟩
  rw [find_iff rep.wf, rep.contains]
  simp only [find_iff set.wf, BitVec.le_def]

theorem translateSclip_eq : ∃ moved, translateSclip set.tree diff clipMin clipMax = some moved ∧
    (∀ y, find moved y = true ↔
      ∃ x, find set.tree x = true ∧ clipMin.toInt ≤ x.toInt ∧ x.toInt ≤ clipMax.toInt ∧ y = x + diff) ∧
    translate (sclip set.tree clipMin clipMax) diff = some moved := by
  obtain ⟨moved, result, rep⟩ := translateSclip_represents set.wf diff clipMin clipMax
  have clipped := sclip_represents Region.top set.wf clipMin clipMax
  obtain ⟨moved', result', represents'⟩ := translate_represents clipped.wf diff
  have same : moved' = moved := represents'.unique (rep.congr fun y => exists_congr fun x => by
    rw [clipped.contains, and_assoc])
  refine ⟨moved, result, fun y => ?_, same ▸ result'⟩
  rw [find_iff rep.wf, rep.contains]
  simp only [find_iff set.wf, SignedBetween, and_assoc]

/-- Translation with clipping is clipping and then translation, unsigned and signed. -/
theorem translate_clips :
    (∃ moved, translateUclip set.tree diff clipMin clipMax = some moved ∧
      (∀ y, find moved y = true ↔ ∃ x, find set.tree x = true ∧ clipMin ≤ x ∧ x ≤ clipMax ∧ y = x + diff) ∧
      (clipMax < clipMin → moved = null) ∧ translate (uclip set.tree clipMin clipMax) diff = some moved) ∧
    ∃ moved, translateSclip set.tree diff clipMin clipMax = some moved ∧
      (∀ y, find moved y = true ↔
        ∃ x, find set.tree x = true ∧ clipMin.toInt ≤ x.toInt ∧ x.toInt ≤ clipMax.toInt ∧ y = x + diff) ∧
      (clipMax.toInt < clipMin.toInt → moved = null) ∧
      translate (sclip set.tree clipMin clipMax) diff = some moved := by
  constructor
  · obtain ⟨moved, result, elements, same⟩ := translateUclip_eq set diff clipMin clipMax
    refine ⟨moved, result, elements, fun crossed => ?_, same⟩
    obtain ⟨moved', result', represents⟩ := translateUclip_represents set.wf diff clipMin clipMax
    obtain rfl := Option.some.inj (result.symm.trans result')
    refine (eq_null_iff represents.wf).mpr fun y member => ?_
    obtain ⟨x, _, lower, upper, _⟩ := (represents.contains y).mp member
    rw [BitVec.lt_def] at crossed
    omega
  · obtain ⟨moved, result, elements, same⟩ := translateSclip_eq set diff clipMin clipMax
    refine ⟨moved, result, elements, fun crossed => ?_, same⟩
    obtain ⟨moved', result', represents⟩ := translateSclip_represents set.wf diff clipMin clipMax
    obtain rfl := Option.some.inj (result.symm.trans result')
    refine (eq_null_iff represents.wf).mpr fun y member => ?_
    obtain ⟨x, _, ⟨lower, upper⟩, _⟩ := (represents.contains y).mp member
    omega

end Translate

end UcsetTrie

namespace Ucset

theorem foldl_insert_represents (arr : List Word) {node : Ucset} (wf : Wf node 0 (2 ^ 64)) :
    Represents (arr.foldl insert node) 0 (2 ^ 64) (fun y => Contains node y ∨ y ∈ arr) := by
  induction arr generalizing node with
  | nil => exact wf.represents.congr fun y => by simp
  | cons x arr ih =>
    have inserted := insert_represents Region.top (inRegion_top x) wf
    refine (ih inserted.wf).congr fun y => ?_
    rw [inserted.contains]
    grind

/-- A sorted array is used up, and gives the tree that insertion one by one gives. -/
theorem fromSortedArray_inserts (arr : List Word) (sorted : arr.Pairwise (· ≤ ·)) :
    ∃ io, fromSortedArray arr = some (arr.foldl insert null, io) ∧ io.rest.length = 0 := by
  obtain ⟨t, io, result, left, represents⟩ := fromSortedArray_represents sorted
  have inserted := @foldl_insert_represents arr null trivial
  obtain rfl : t = arr.foldl insert null := represents.unique (inserted.congr fun y => by simp [Contains])
  exact ⟨io, result, by rw [left]; rfl⟩

theorem fromSortedArray_inserts_keys : [0, 3, 3, 64, 128, 1000].Pairwise (· ≤ · : Word → Word → Prop) ∧
    ∃ io, fromSortedArray [0, 3, 3, 64, 128, 1000] = some ([0, 3, 3, 64, 128, 1000].foldl insert null, io) ∧
      io.rest.length = 0 :=
  ⟨by decide, fromSortedArray_inserts [0, 3, 3, 64, 128, 1000] (by decide)⟩

end Ucset

end Culibs.Cucon
