import Culibs.Cucon.Ucset.Subset

/-! Filtering through a stateful predicate. The leaf path counts its elements
in an `int`, so the predicate sees them truncated to 32 bits and sign-extended. -/

namespace Culibs.Cucon.Ucset

open List
open BitVec (add_assoc getLsbD_and ofNat_add toNat_ofNat)

section Filter

variable {σ : Type}

/-- The variables of the loop over the bits of one leaf word. -/
structure FilterLoop (σ : Type) where
  bits : Word
  key : BitVec 32
  haveChange : Bool
  state : σ

/-- One round of the loop, for the bit at `j`. -/
def filterBit (f : Word → σ → Bool × σ) (loop : FilterLoop σ) (j : Nat) : FilterLoop σ :=
  if loop.bits &&& ((1 : Word) <<< j) ≠ 0 then
    let called := f (loop.key.signExtend 64) loop.state
    if called.1 then { loop with key := loop.key + 1, state := called.2 }
    else
      { bits := loop.bits &&& ~~~((1 : Word) <<< j), key := loop.key + 1, haveChange := true, state := called.2 }
  else { loop with key := loop.key + 1 }

def filterWord (f : Word → σ → Bool × σ) (bits : Word) (key : BitVec 32) (haveChange : Bool)
    (state : σ) : FilterLoop σ :=
  (range 64).foldl (filterBit f) { bits, key, haveChange, state }

def ucleafFilter (f : Word → σ → Bool × σ) (src : Ucset) (state : σ) : Ucset × σ :=
  let key := (src.rawKey &&& ~~~bitsetMask).setWidth 32
  let loop0 := filterWord f (src.bitset 0) key false state
  let loop1 := filterWord f (src.bitset 1) loop0.key loop0.haveChange loop0.state
  let bitset : Bitset := fun i => if i = 0 then loop0.bits else loop1.bits
  if loop1.haveChange then
    (if ∃ i, bitset i ≠ 0 then leaf src.rawKey bitset else null, loop1.state)
  else (src, loop1.state)

def filter (f : Word → σ → Bool × σ) (node : Ucset) (state : σ) : Ucset × σ :=
  if _nonnull : node = null then (null, state)
  else
    let key := ucnodeKey node
    if keyIsLeaflike key then ucleafFilter f node state
    else
      let left := filter f node.left state
      let right := filter f node.right left.2
      let called := if hasKey node then f key right.2 else (false, right.2)
      if called.1 then (ucnodeNew (key ||| 1) left.1 right.1, called.2)
      else
        (if left.1 = null then right.1
          else if right.1 = null then left.1
          else ucnodeNew key left.1 right.1, called.2)
termination_by node.size
decreasing_by
  · exact size_left_lt _nonnull
  · exact size_right_lt _nonnull

/-- What the loop over a word keeps: no bit is added, and without a change the
bits are the original ones. -/
structure FilterLoop.Within (loop : FilterLoop σ) (source : Word) (changedBefore : Bool) : Prop where
  subset : ∀ j, loop.bits.getLsbD j = true → source.getLsbD j = true
  unchanged : loop.haveChange = false → loop.bits = source ∧ changedBefore = false

variable (f : Word → σ → Bool × σ)

theorem filterBit_within (within : loop.Within source changedBefore) (j : Nat) :
    (filterBit f loop j).Within source changedBefore := by
  simp only [filterBit]
  split
  · split
    · exact ⟨within.subset, within.unchanged⟩
    · refine ⟨fun i set => within.subset i ?_, fun same => by simp at same⟩
      rw [getLsbD_and, Bool.and_eq_true] at set
      exact set.1
  · exact ⟨within.subset, within.unchanged⟩

private theorem filterWord_within (bits : Word) (key : BitVec 32)
    (haveChange : Bool) (state : σ) :
    (filterWord f bits key haveChange state).Within bits haveChange := by
  suffices run : ∀ (positions : List Nat) (loop : FilterLoop σ), loop.Within bits haveChange →
      (positions.foldl (filterBit f) loop).Within bits haveChange from
    run _ _ ⟨fun _ => id, fun same => ⟨rfl, same⟩⟩
  intro positions
  induction positions with
  | nil => exact fun loop within => within
  | cons j rest ih => exact fun loop within => ih _ (filterBit_within f within j)

private theorem bit_words {bitset bitset' : Bitset}
    (subset : ∀ w j, (bitset' w).getLsbD j = true → (bitset w).getLsbD j = true) (i : Nat)
    (set : bit bitset' i = true) : bit bitset i = true :=
  subset _ _ set

/-- A tree with some of the elements of another one, in the same bounds. -/
structure Subtree (result t : Ucset) (low high : Nat) : Prop where
  wf : Wf result low high
  subset : ∀ x, Contains result x → Contains t x

theorem ucleafFilter_subtree (state : σ) {bitset : Bitset} (wf : Wf (leaf key bitset) low high) :
    Subtree (ucleafFilter f (leaf key bitset) state).1 (leaf key bitset) low high := by
  rw [ucleafFilter]
  generalize first : filterWord f _ _ false state = loop0
  have within0 := first ▸ filterWord_within f _ _ false state
  generalize second : filterWord f _ _ loop0.haveChange loop0.state = loop1
  have within1 := second ▸ filterWord_within f _ _ loop0.haveChange loop0.state
  split
  · have subset (w : Fin 2) (j : Nat) :
        (if w = 0 then loop0.bits else loop1.bits).getLsbD j = true →
          (bitset w).getLsbD j = true := by
      match w with
      | 0 => exact within0.subset j
      | 1 => exact within1.subset j
    have kept := leaf_or_null_represents wf (bit_words subset)
    refine ⟨kept.wf, fun x mem => ?_⟩
    obtain ⟨block, set⟩ := (kept.contains x).mp mem
    exact ⟨block, bit_words subset _ set⟩
  · exact ⟨wf, fun x => id⟩

theorem filter_subtree {low high : Nat} (wf : Wf t low high)
    (state : σ) : Subtree (filter f t state).1 t low high := by
  induction t generalizing low high state with
  | null =>
    rw [filter]
    exact ⟨trivial, fun x => id⟩
  | leaf key bitset =>
    rw [filter]
    simp only [reduceCtorEq, dite_false, wf.leaf_leaflike, if_true]
    exact ucleafFilter_subtree f state wf
  | node key left right ihLeft ihRight =>
    have notLeaflike := wf.node_not_leaflike
    obtain ⟨nodeKey, lower, upper, wfLeft, wfRight, _⟩ := wf
    rw [filter]
    simp only [reduceCtorEq, dite_false, notLeaflike, Bool.false_eq_true, if_false]
    generalize filteredLeft : filter f (node key left right).left state = left'
    have inLeft : Subtree left'.1 left _ _ := filteredLeft ▸ ihLeft wfLeft state
    generalize filteredRight : filter f (node key left right).right left'.2 = right'
    have inRight : Subtree right'.1 right _ _ := filteredRight ▸ ihRight wfRight left'.2
    have centred : (ucnodeKey (node key left right)).toNat = 2 * (key.toNat / 2) := centre_node _ _ _
    generalize outcome : (if hasKey (node key left right) = true then
      f (ucnodeKey (node key left right)) right'.2 else (false, right'.2)) = called
    split
    · next kept =>
      have odd : key.toNat % 2 = 1 := by
        by_contra even
        rw [if_neg (by rw [hasKey_iff]; exact even)] at outcome
        simp [← outcome] at kept
      have restored := or_one_key (ucnodeKey (node key left right))
      have built := node_represents
        (by omega : 2 * ((ucnodeKey (node key left right) ||| 1).toNat / 2) = _) nodeKey
        lower upper inLeft.wf.represents inRight.wf.represents (by omega)
      refine ⟨built.wf, fun x mem => ?_⟩
      rcases (built.contains x).mp mem with ⟨_, same⟩ | mem | mem
      · exact .inl ⟨odd, same⟩
      · exact .inr (.inl (inLeft.subset x mem))
      · exact .inr (.inr (inRight.subset x mem))
    · have even : (ucnodeKey (node key left right)).toNat % 2 = 0 := by omega
      have built := collapse_either_represents (left'.1 = null) (right'.1 = null)
        (by omega : 2 * ((ucnodeKey (node key left right)).toNat / 2) = _) nodeKey
        lower upper inLeft.wf.represents inRight.wf.represents (by simp [even]) (by simp [even])
      refine ⟨built.wf, fun x mem => ?_⟩
      rcases (built.contains x).mp mem with ⟨odd, _⟩ | mem | mem
      · omega
      · exact .inr (.inl (inLeft.subset x mem))
      · exact .inr (.inr (inRight.subset x mem))

end Filter

section Predicate

open DyadicBlock

/-- A word after the conversion to `int` and back. -/
def intKey (x : Word) : Word := (x.setWidth 32).signExtend 64

/-- The word that stands for an element in the calls. -/
def passedKey (x : Word) : Word := if keyIsLeaflike x then intKey x else x

/-- A predicate that keeps a list of its calls. -/
def logged (f : Word → Bool) (x : Word) (calls : List Word) : Bool × List Word := (f x, calls ++ [x])

variable {f : Word → Bool} {source : Word} {first : BitVec 32} {changed : Bool} {before : List Word} {n : Nat}

/-- The loop over a word before the bit at `n`. -/
structure FilterLoop.Reached (f : Word → Bool) (source : Word) (first : BitVec 32) (changed : Bool) (before : List Word)
    (n : Nat) (loop : FilterLoop (List Word)) : Prop where
  key : loop.key = first + BitVec.ofNat 32 n
  bits : ∀ j < 64, loop.bits.getLsbD j =
    (source.getLsbD j && (decide (n ≤ j) || f ((first + BitVec.ofNat 32 j).signExtend 64)))
  change : loop.haveChange = true ↔ changed = true ∨
    ∃ j < n, source.getLsbD j = true ∧ f ((first + BitVec.ofNat 32 j).signExtend 64) = false
  calls : ∀ y, y ∈ loop.state ↔ y ∈ before ∨
    ∃ j < n, source.getLsbD j = true ∧ y = (first + BitVec.ofNat 32 j).signExtend 64

theorem getLsbD_bit (n : Nat) (bound : j < 64) (small : n < 64) :
    ((1 : Word) <<< n).getLsbD j = decide (j = n) := by
  have same := getLsbD_bitsetBit (BitVec.ofNat 64 n) bound
  have value : (BitVec.ofNat 64 n &&& bitsetMask).toNat % 64 = n := by
    rw [toNat_and_mask _ _ toNat_bitsetMask, toNat_ofNat]
    omega
  rw [bitsetBit, value, toNat_ofNat] at same
  rw [same]
  congr 1
  rw [show n % 2 ^ 64 % 64 = n by omega]

private theorem bit_test (word : Word) (small : n < 64) : word &&& ((1 : Word) <<< n) ≠ 0 ↔ word.getLsbD n = true := by
  constructor
  · intro nonzero
    by_contra clear
    refine nonzero (BitVec.eq_of_getLsbD_eq fun j bound => ?_)
    rw [getLsbD_and, getLsbD_bit n bound small]
    by_cases same : j = n
    · subst same
      simp [Bool.eq_false_iff.mpr clear]
    · simp [same]
  · intro set zero
    have atN := congrArg (fun x : Word => x.getLsbD n) zero
    rw [getLsbD_and, getLsbD_bit n small small] at atN
    simp [set] at atN

theorem filterBit_logged (loop : FilterLoop (List Word)) (j : Nat) : filterBit (logged f) loop j =
    if loop.bits &&& ((1 : Word) <<< j) ≠ 0 then
      if f (loop.key.signExtend 64) then
        { loop with key := loop.key + 1, state := loop.state ++ [loop.key.signExtend 64] }
      else
        { bits := loop.bits &&& ~~~((1 : Word) <<< j), key := loop.key + 1, haveChange := true,
          state := loop.state ++ [loop.key.signExtend 64] }
    else { loop with key := loop.key + 1 } := rfl

theorem FilterLoop.Reached.next {loop : FilterLoop (List Word)} (reached : loop.Reached f source first changed before n)
    (small : n < 64) : (filterBit (logged f) loop n).Reached f source first changed before (n + 1) := by
  have here : loop.bits.getLsbD n = source.getLsbD n := by simp [reached.bits n small]
  have nextKey : first + BitVec.ofNat 32 n + 1 = first + BitVec.ofNat 32 (n + 1) := by
    rw [add_assoc]
    congr 1
    rw [ofNat_add]
    rfl
  have upTo {P : Nat → Prop} : (∃ j < n + 1, P j) ↔ (∃ j < n, P j) ∨ P n := by
    constructor
    · rintro ⟨j, less, holds⟩
      rcases Nat.lt_succ_iff_lt_or_eq.mp less with less | rfl
      · exact .inl ⟨j, less, holds⟩
      · exact .inr holds
    · rintro (⟨j, less, holds⟩ | holds)
      · exact ⟨j, Nat.lt_succ_of_lt less, holds⟩
      · exact ⟨n, Nat.lt_succ_self n, holds⟩
  simp only [filterBit_logged, bit_test loop.bits small, here, reached.key]
  split
  · next set =>
    by_cases kept : f ((first + BitVec.ofNat 32 n).signExtend 64) = true
    · rw [if_pos kept]
      refine ⟨nextKey, fun j bound => ?_, ?_, fun y => ?_⟩
      · rw [reached.bits j bound]
        rcases lt_trichotomy j n with less | rfl | more
        · simp [Nat.not_le_of_lt less, Nat.not_le_of_lt (Nat.lt_succ_of_lt less)]
        · simp [kept]
        · simp [le_of_lt more, Nat.succ_le_of_lt more]
      · rw [reached.change, upTo]
        simp [kept]
      · simp only [mem_append, List.mem_singleton, reached.calls, upTo, set, true_and, or_assoc]
    · rw [if_neg kept]
      refine ⟨nextKey, fun j bound => ?_, ?_, fun y => ?_⟩
      · rw [getLsbD_and, BitVec.getLsbD_not, getLsbD_bit n bound small, reached.bits j bound]
        rcases lt_trichotomy j n with less | rfl | more
        · simp [Nat.not_le_of_lt less, Nat.not_le_of_lt (Nat.lt_succ_of_lt less), bound, ne_of_lt less]
        · simp [kept]
        · simp [le_of_lt more, Nat.succ_le_of_lt more, bound, ne_of_gt more]
      · rw [upTo]
        simp [set, kept]
      · simp only [mem_append, List.mem_singleton, reached.calls, upTo, set, true_and, or_assoc]
  · next clear =>
    refine ⟨nextKey, fun j bound => ?_, ?_, fun y => ?_⟩
    · rw [reached.bits j bound]
      rcases lt_trichotomy j n with less | rfl | more
      · simp [Nat.not_le_of_lt less, Nat.not_le_of_lt (Nat.lt_succ_of_lt less)]
      · simp [clear]
      · simp [le_of_lt more, Nat.succ_le_of_lt more]
    · rw [reached.change, upTo]
      simp [clear]
    · rw [reached.calls, upTo]
      simp [clear]

theorem filterWord_reached : (filterWord (logged f) source first changed before).Reached f source first changed before 64 := by
  have run : ∀ n ≤ 64, ((List.range n).foldl (filterBit (logged f))
      { bits := source, key := first, haveChange := changed, state := before }).Reached f source first changed before n := by
    intro n
    induction n with
    | zero =>
      intro _
      exact ⟨by simp, fun j bound => by simp, by simp, fun y => by simp⟩
    | succ n ih =>
      intro bound
      rw [range_succ, foldl_append]
      exact (ih (Nat.le_of_succ_le bound)).next bound
  exact run 64 (le_rfl)

variable {t : Ucset} {low high : Nat} {bitset : Bitset} {leafKey x : Word}

/-- The word that is passed for the bit at `i` of a leaf. -/
def leafWord (first : BitVec 32) (i : Nat) : Word := (first + BitVec.ofNat 32 i).signExtend 64

private theorem add_leafWord (first : BitVec 32) (n j : Nat) :
    (first + BitVec.ofNat 32 n + BitVec.ofNat 32 j).signExtend 64 = leafWord first (n + j) := by
  rw [leafWord, add_assoc, ofNat_add]

/-- The bits that are left of a leaf, whether some have been cleared, and the calls. -/
structure LeafFiltered (f : Word → Bool) (bitset : Bitset) (first : BitVec 32) (before : List Word) (bitset' : Bitset)
    (changed : Bool) (calls : List Word) : Prop where
  bits : ∀ i, bit bitset' i = (bit bitset i && f (leafWord first (i % 128)))
  change : changed = true ↔ ∃ i < 128, bit bitset i = true ∧ f (leafWord first i) = false
  calls : ∀ y, y ∈ calls ↔ y ∈ before ∨ ∃ i < 128, bit bitset i = true ∧ y = leafWord first i

/-- The bits of a leaf are those of its first word and those of its second. -/
theorem exists_bit {P : Nat → Prop} : (∃ i < 128, bit bitset i = true ∧ P i) ↔
    (∃ j < 64, (bitset 0).getLsbD j = true ∧ P j) ∨ ∃ j < 64, (bitset 1).getLsbD j = true ∧ P (64 + j) := by
  constructor
  · rintro ⟨i, bound, set, holds⟩
    by_cases low : i < 64
    · refine .inl ⟨i, low, ?_, holds⟩
      rwa [bit, show i / 64 = 0 by omega, show i % 64 = i by omega] at set
    · refine .inr ⟨i - 64, by omega, ?_, by rwa [show 64 + (i - 64) = i by omega]⟩
      rwa [bit, show i / 64 = 1 by omega, show i % 64 = i - 64 by omega] at set
  · rintro (⟨j, bound, set, holds⟩ | ⟨j, bound, set, holds⟩)
    · refine ⟨j, by omega, ?_, holds⟩
      rwa [bit, show j / 64 = 0 by omega, show j % 64 = j by omega]
    · refine ⟨64 + j, by omega, ?_, holds⟩
      rwa [bit, show (64 + j) / 64 = 1 by omega, show (64 + j) % 64 = j by omega]

private theorem leafFiltered (f : Word → Bool) (bitset : Bitset) (first : BitVec 32) (before : List Word) :
    let loop0 := filterWord (logged f) (bitset 0) first false before
    let loop1 := filterWord (logged f) (bitset 1) loop0.key loop0.haveChange loop0.state
    LeafFiltered f bitset first before (fun i => if i = 0 then loop0.bits else loop1.bits) loop1.haveChange loop1.state := by
  intro loop0 loop1
  have reached0 : loop0.Reached f (bitset 0) first false before 64 := filterWord_reached
  have reached1 : loop1.Reached f (bitset 1) loop0.key loop0.haveChange loop0.state 64 := filterWord_reached
  obtain ⟨key0, bits0, change0, calls0⟩ := reached0
  obtain ⟨_, bits1, change1, calls1⟩ := reached1
  simp only [key0, add_leafWord] at bits1 change1 calls1
  change ∀ j < 64, _ = (_ && (_ || f (leafWord first j))) at bits0
  refine ⟨fun i => ?_, ?_, fun y => ?_⟩
  · have low : i % 64 < 64 := Nat.mod_lt _ (by omega)
    have notLe : decide (64 ≤ i % 64) = false := decide_eq_false (Nat.not_le_of_lt low)
    rcases lt_or_ge (i % 128) 64 with less | more
    · have index : Fin.ofNat 2 (i / 64) = 0 := Fin.ext (by simp only [Fin.ofNat]; omega)
      rw [bit, bit, index, if_pos rfl, bits0 _ low, notLe, Bool.false_or, show i % 64 = i % 128 by omega]
    · have index : Fin.ofNat 2 (i / 64) = 1 := Fin.ext (by simp only [Fin.ofNat]; omega)
      rw [bit, bit, index, if_neg (by decide), bits1 _ low, notLe, Bool.false_or, show 64 + i % 64 = i % 128 by omega]
  · rw [change1, change0, exists_bit]
    simp only [Bool.false_eq_true, false_or]
    rfl
  · rw [calls1, calls0, exists_bit, or_assoc]
    rfl

theorem leaf_element_leaflike (wf : Wf (leaf leafKey bitset) low high) (mem : Contains (leaf leafKey bitset) x) :
    keyIsLeaflike x = true := by
  have isLeafKey := wf.1
  have offset := wf.contains_block mem
  rw [centre_leaf isLeafKey, (leaf_block isLeafKey).1, (leaf_block isLeafKey).2] at offset
  simp only [IsLeafKey] at isLeafKey
  rw [keyIsLeaflike_iff]
  omega

private theorem leafWord_eq (block : x.toNat / 128 = leafKey.toNat / 128) :
    leafWord ((leafKey &&& ~~~bitsetMask).setWidth 32) (x.toNat % 128) = intKey x := by
  rw [leafWord]
  congr 1
  apply BitVec.eq_of_toNat_eq
  rw [BitVec.toNat_add, BitVec.toNat_setWidth, BitVec.toNat_setWidth, toNat_ofNat,
    toNat_and_not_mask _ _ toNat_bitsetMask]
  omega

/-- The elements that filtering leaves and the words that it passes, with the calls before. -/
structure Filtered (f : Word → Bool) (t : Ucset) (before : List Word) (result : Ucset × List Word) : Prop where
  contains : ∀ x, Contains result.1 x ↔ Contains t x ∧ f (passedKey x) = true
  calls : ∀ y, y ∈ result.2 ↔ y ∈ before ∨ ∃ x, Contains t x ∧ y = passedKey x

private theorem ucleafFilter_filtered (f : Word → Bool) (before : List Word) (wf : Wf (leaf leafKey bitset) low high) :
    Filtered f (leaf leafKey bitset) before (ucleafFilter (logged f) (leaf leafKey bitset) before) := by
  have passed {x} (mem : Contains (leaf leafKey bitset) x) :
      leafWord ((leafKey &&& ~~~bitsetMask).setWidth 32) (x.toNat % 128) = passedKey x := by
    rw [passedKey, if_pos (leaf_element_leaflike wf mem), leafWord_eq mem.1]
  obtain ⟨bits, change, calls⟩ := leafFiltered f bitset ((leafKey &&& ~~~bitsetMask).setWidth 32) before
  -- Positions in the leaf are elements.
  have position {P : Word → Prop} : (∃ i < 128, bit bitset i = true ∧
      P (leafWord ((leafKey &&& ~~~bitsetMask).setWidth 32) i)) ↔ ∃ x, Contains (leaf leafKey bitset) x ∧ P (passedKey x) := by
    constructor
    · rintro ⟨i, bound, set, holds⟩
      obtain ⟨x, block, same⟩ := leaf_word leafKey i
      have mem := (contains_leaf block same).mpr set
      refine ⟨x, mem, ?_⟩
      rwa [← passed mem, same, Nat.mod_eq_of_lt bound]
    · rintro ⟨x, mem, holds⟩
      refine ⟨x.toNat % 128, Nat.mod_lt _ (by omega), by rw [bit_mod]; exact mem.2, ?_⟩
      rwa [passed mem]
  have members (y : Word) : _ ↔ y ∈ before ∨ ∃ x, Contains (leaf leafKey bitset) x ∧ y = passedKey x :=
    (calls y).trans (or_congr_right position)
  rw [ucleafFilter]
  split
  · next changed =>
    refine ⟨fun x => ?_, members⟩
    have kept := leaf_or_null_represents wf (fun i set => by
      rw [bits, Bool.and_eq_true] at set
      exact set.1)
    refine (kept.contains x).trans ?_
    rw [bits, Bool.and_eq_true, ← and_assoc]
    refine and_congr_right fun mem => ?_
    rw [passed mem]
  · next unchanged =>
    refine ⟨fun x => (and_iff_left_of_imp fun mem => ?_).symm, members⟩
    by_contra dropped
    have cleared := (position (P := fun y => f y = false)).mpr ⟨x, mem, Bool.eq_false_iff.mpr dropped⟩
    exact unchanged (change.mpr cleared)

theorem filter_filtered (f : Word → Bool) (before : List Word) (wf : Wf t low high) :
    Filtered f t before (filter (logged f) t before) := by
  induction t generalizing low high before with
  | null =>
    rw [filter]
    exact ⟨fun x => by simp [Contains], fun y => by simp [Contains]⟩
  | leaf key bitset =>
    rw [filter]
    simp only [reduceCtorEq, dite_false, wf.leaf_leaflike, if_true]
    exact ucleafFilter_filtered f before wf
  | node key left right ihLeft ihRight =>
    have notLeaflike := wf.node_not_leaflike
    obtain ⟨nodeKey, lower, upper, wfLeft, wfRight, _⟩ := wf
    have centred : (ucnodeKey (node key left right)).toNat = 2 * (key.toNat / 2) := centre_node _ _ _
    have isCentre {x : Word} : x.toNat = 2 * (key.toNat / 2) ↔ x = ucnodeKey (node key left right) := by
      rw [← centred]
      exact ⟨BitVec.eq_of_toNat_eq, fun same => same ▸ rfl⟩
    have passed : passedKey (ucnodeKey (node key left right)) = ucnodeKey (node key left right) := by
      rw [passedKey, if_neg (by rw [notLeaflike]; exact Bool.false_ne_true)]
    rw [filter]
    simp only [reduceCtorEq, dite_false, notLeaflike, Bool.false_eq_true, if_false]
    generalize filteredLeft : filter (logged f) (node key left right).left before = left'
    have inLeft : Filtered f left before left' := filteredLeft ▸ ihLeft before wfLeft
    have wfLeft' : Wf left'.1 _ _ := filteredLeft ▸ (filter_subtree (logged f) wfLeft before).wf
    generalize filteredRight : filter (logged f) (node key left right).right left'.2 = right'
    have inRight : Filtered f right left'.2 right' := filteredRight ▸ ihRight left'.2 wfRight
    have wfRight' : Wf right'.1 _ _ := filteredRight ▸ (filter_subtree (logged f) wfRight left'.2).wf
    have elements (x : Word) : Contains (node key left right) x ↔
        (key.toNat % 2 = 1 ∧ x = ucnodeKey (node key left right)) ∨ Contains left x ∨ Contains right x := by
      rw [Contains, isCentre]
    have keyed : hasKey (node key left right) = true ↔ key.toNat % 2 = 1 := hasKey_iff _
    generalize outcome : (if hasKey (node key left right) = true then
      logged f (ucnodeKey (node key left right)) right'.2 else (false, right'.2)) = called
    have answer : called.1 = true ↔ key.toNat % 2 = 1 ∧ f (ucnodeKey (node key left right)) = true := by
      rw [← outcome]
      split
      · next present => simp [logged, keyed.mp present]
      · next absent => simp [mt keyed.mpr absent]
    have called_calls (y : Word) : y ∈ called.2 ↔
        y ∈ right'.2 ∨ key.toNat % 2 = 1 ∧ y = ucnodeKey (node key left right) := by
      rw [← outcome]
      split
      · next present => simp [logged, keyed.mp present]
      · next absent => simp [mt keyed.mpr absent]
    have calls (y : Word) : y ∈ called.2 ↔ y ∈ before ∨ ∃ x, Contains (node key left right) x ∧ y = passedKey x := by
      rw [called_calls, inRight.calls, inLeft.calls]
      constructor
      · rintro (((old | ⟨x, mem, same⟩) | ⟨x, mem, same⟩) | ⟨odd, same⟩)
        · exact .inl old
        · exact .inr ⟨x, (elements x).mpr (.inr (.inl mem)), same⟩
        · exact .inr ⟨x, (elements x).mpr (.inr (.inr mem)), same⟩
        · exact .inr ⟨_, (elements _).mpr (.inl ⟨odd, rfl⟩), by rw [passed, same]⟩
      · rintro (old | ⟨x, mem, same⟩)
        · exact .inl (.inl (.inl old))
        · rcases (elements x).mp mem with ⟨odd, rfl⟩ | mem | mem
          · exact .inr ⟨odd, by rw [same, passed]⟩
          · exact .inl (.inl (.inr ⟨x, mem, same⟩))
          · exact .inl (.inr ⟨x, mem, same⟩)
    split
    · next kept =>
      obtain ⟨odd, yes⟩ := answer.mp kept
      have restored := or_one_key (ucnodeKey (node key left right))
      have built := node_represents
        (by omega : 2 * ((ucnodeKey (node key left right) ||| 1).toNat / 2) = _) nodeKey
        lower upper wfLeft'.represents wfRight'.represents (by omega)
      refine ⟨fun x => ?_, calls⟩
      have odd' : (ucnodeKey (node key left right) ||| 1).toNat % 2 = 1 := by omega
      rw [built.contains, isCentre, inLeft.contains, inRight.contains, elements, or_and_right, or_and_right]
      refine or_congr_left ⟨fun centre => ⟨⟨odd, centre.2⟩, ?_⟩, fun centre => ⟨odd', centre.1.2⟩⟩
      rw [centre.2, passed, yes]
    · next dropped =>
      have even : (ucnodeKey (node key left right)).toNat % 2 = 0 := by omega
      have built := collapse_either_represents (left'.1 = null) (right'.1 = null)
        (by omega : 2 * ((ucnodeKey (node key left right)).toNat / 2) = _) nodeKey
        lower upper wfLeft'.represents wfRight'.represents (by simp [even]) (by simp [even])
      refine ⟨fun x => ?_, calls⟩
      rw [built.contains, inLeft.contains, inRight.contains, elements, or_and_right, or_and_right]
      refine or_congr_left ⟨fun centre => by omega, fun centre => (dropped (answer.mpr ⟨centre.1.1, ?_⟩)).elim⟩
      rw [← passed, ← centre.1.2, centre.2]

/-- The conversions lose nothing of the words in the range of `int`. -/
theorem intKey_eq_iff (x : Word) : intKey x = x ↔ -2 ^ 31 ≤ x.toInt ∧ x.toInt < 2 ^ 31 := by
  have value : (intKey x).toInt = Int.bmod x.toInt (2 ^ 32) := by
    rw [intKey, BitVec.toInt_signExtend_of_le (by omega), BitVec.toInt_setWidth, BitVec.toInt_eq_toNat_bmod]
    exact (Int.bmod_bmod_of_dvd (by decide)).symm
  rw [← BitVec.toInt_inj, value]
  have low := Int.le_bmod (x := x.toInt) (m := 2 ^ 32) (by decide)
  have high := Int.bmod_lt (x := x.toInt) (m := 2 ^ 32) (by decide)
  constructor
  · intro same
    omega
  · rintro ⟨_, _⟩
    exact Int.bmod_eq_of_le (by omega) (by omega)

end Predicate

end Culibs.Cucon.Ucset
