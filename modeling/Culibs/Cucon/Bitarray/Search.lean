import Culibs.Cucon.Bitarray.Resize

namespace Culibs.Cucon.Bitarray

open Cu BitMemory

/-- `(size_t)-1` -/
def notFound : Nat := 2 ^ 64 - 1

/-- `return r >= size? (size_t)-1 : r;` for a sum `r`. -/
def found (size sum : Nat) : Nat :=
  let r := sum % 2 ^ 64
  if r ≥ size then notFound else r

/-- The loops `for (; i < n; ++i)`, by the number of rounds. -/
def scan (word : Nat → Word) (size : Nat) : Nat → Nat → Nat
  | 0, _ => notFound
  | rounds + 1, i => if word i ≠ 0 then found size (i * 64 + log2Lowbit (word i)) else scan word size rounds (i + 1)

/-- There is no result where the search stops at the assertion of `cu_size_log2_lowbit`. -/
def find (ba : Bitarray) (start : Nat) (val : Bool) : Option Nat :=
  let size := ba.size
  let n := sizeCeilDiv ba.size 64
  let i := start / 64
  let l := start % 64
  let full (i : Nat) := if val then scan ba.arr size (n - i) i else scan (fun i => ~~~ba.arr i) size (n - i) i
  if l ≠ 0 then
    if ba.arr i ≠ 0 then (uint64Log2Lowbit (ba.arr i >>> l)).map fun bit => found size (i * 64 + bit + l)
    else some (full (i + 1))
  else some (full i)

def find2 (ba0 ba1 : Bitarray) (start : Nat) (val0 val1 : Bool) : Option Nat :=
  let size := min ba0.size ba1.size
  let n := sizeCeilDiv size 64
  let x01 (i : Nat) := (if val0 then ba0.arr i else ~~~ba0.arr i) &&& (if val1 then ba1.arr i else ~~~ba1.arr i)
  let i := start / 64
  let l := start % 64
  if l ≠ 0 then
    if x01 i ≠ 0 then (uint64Log2Lowbit (x01 i >>> l)).map fun bit => found size (i * 64 + (bit + l))
    else some (scan x01 size (n - (i + 1)) (i + 1))
  else some (scan x01 size (n - i) i)

/-- Both searches: `word` has the bits that are sought, and `first` is looked at in place of a partial first word. -/
def search (first word : Nat → Word) (size start : Nat) : Option Nat :=
  let n := sizeCeilDiv size 64
  let i := start / 64
  let l := start % 64
  if l ≠ 0 then
    if first i ≠ 0 then (uint64Log2Lowbit (first i >>> l)).map fun bit => found size (i * 64 + bit + l)
    else some (scan word size (n - (i + 1)) (i + 1))
  else some (scan word size (n - i) i)

/-- The words with ones for the bits of a value. -/
def sought (arr : Memory) (val : Bool) (i : Nat) : Word := if val then arr i else ~~~arr i

theorem find_eq_search (ba : Bitarray) (start : Nat) (val : Bool) :
    ba.find start val = search ba.arr (sought ba.arr val) ba.size start := by
  cases val <;> rfl

private theorem find2_eq_search (ba0 ba1 : Bitarray) (start : Nat) (val0 val1 : Bool) :
    ba0.find2 ba1 start val0 val1 =
      let x01 (i : Nat) := sought ba0.arr val0 i &&& sought ba1.arr val1 i
      search x01 x01 (min ba0.size ba1.size) start := by
  simp only [find2, search, add_assoc]
  rfl

/-- The least position from `start` that has a property. -/
structure First (p : Nat → Prop) (start r : Nat) : Prop where
  from_start : start ≤ r
  holds : p r
  least : ∀ k, start ≤ k → k < r → ¬ p k

/-- No position of a range has a property. -/
def Lacks (p : Nat → Prop) (start size : Nat) : Prop := ∀ k, start ≤ k → k < size → ¬ p k

/-- The result of a search is the least position of the range, or -1 if there is none. -/
def Finds (p : Nat → Prop) (start size r : Nat) : Prop := First p start r ∧ r < size ∨ r = notFound ∧ Lacks p start size

variable {p : Nat → Prop} {start start' size r i rounds : Nat} {word first : Nat → Word} {x : Word}

theorem First.finds (first : First p start r) (word : r < 2 ^ 64) : Finds p start size (found size r) := by
  rw [found, Nat.mod_eq_of_lt word]
  split
  · next beyond => exact .inr ⟨rfl, fun k after inside => first.least k after (lt_of_lt_of_le inside beyond)⟩
  · next within => exact .inl ⟨first, lt_of_not_ge within⟩

/-- Positions that are passed over do not matter if they lack the property. -/
theorem finds_extend_iff (le : start ≤ start') (lacks : Lacks p start (min start' size)) :
    Finds p start size r ↔ Finds p start' size r := by
  constructor
  · rintro (⟨first, inside⟩ | ⟨none, lacks'⟩)
    · have reached := first.from_start
      have later : start' ≤ r := Nat.le_of_not_lt fun early => lacks r reached (by omega) first.holds
      exact .inl ⟨⟨later, first.holds, fun k after => first.least k (le_trans le after)⟩, inside⟩
    · exact .inr ⟨none, fun k after => lacks' k (le_trans le after)⟩
  rintro (⟨first, inside⟩ | ⟨none, lacks'⟩)
  · refine .inl ⟨⟨le_trans le first.from_start, first.holds, fun k after before => ?_⟩, inside⟩
    by_cases early : k < start'
    · exact lacks k after (by omega)
    · exact first.least k (Nat.le_of_not_lt early) before
  · refine .inr ⟨none, fun k after before => ?_⟩
    by_cases early : k < start'
    · exact lacks k after (by omega)
    · exact lacks' k (Nat.le_of_not_lt early) before

private theorem lacks_extend_iff (le : start ≤ start') (lacks : Lacks p start (min start' size)) :
    Lacks p start size ↔ Lacks p start' size := by
  constructor
  · exact fun all k after => all k (le_trans le after)
  · intro late k after before
    by_cases early : k < start'
    · exact lacks k after (by omega)
    · exact late k (Nat.le_of_not_lt early) before

theorem finds_found_iff (size_lt : size < 2 ^ 64) (r_lt : r < 2 ^ 64) :
    Finds p start size (found size r) ↔ if r ≥ size then Lacks p start size else First p start r := by
  rw [found, Nat.mod_eq_of_lt r_lt]
  split
  · constructor
    · rintro (⟨_, impossible⟩ | ⟨_, lacks⟩)
      · rw [notFound] at impossible
        omega
      · exact lacks
    · exact fun lacks => .inr ⟨rfl, lacks⟩
  · next inside =>
    constructor
    · rintro (⟨first, _⟩ | ⟨none, _⟩)
      · exact first
      · rw [notFound] at none
        omega
    · exact fun first => .inl ⟨first, lt_of_not_ge inside⟩

theorem first_of_shifted (nonzero : x >>> l ≠ 0) :
    First (fun k => x.getLsbD k = true) l (log2Lowbit (x >>> l) + l) ∧ log2Lowbit (x >>> l) + l < 64 := by
  obtain ⟨_, set, low⟩ := log2Lowbit_spec _ nonzero
  rw [BitVec.getLsbD_ushiftRight, Nat.add_comm] at set
  refine ⟨⟨Nat.le_add_left .., set, fun k after before => ?_⟩, BitVec.lt_of_getLsbD set⟩
  have clear := low (k - l) (by omega)
  rw [BitVec.getLsbD_ushiftRight, Nat.add_sub_cancel' after] at clear
  exact Bool.eq_false_iff.mp clear

theorem First.position (first : First (fun k => (word i).getLsbD k = true) l j) (bound : j < 64) :
    First (fun k => bit word k = true) (i * 64 + l) (i * 64 + j) where
  from_start := Nat.add_le_add_left first.from_start _
  holds := (bit_word word i bound).trans first.holds
  least k after before := by
    have index : i * 64 + (k - i * 64) = k := by omega
    rw [← index, bit_word word i (by omega)]
    exact first.least _ (by omega) (by omega)

theorem lacks_of_zero (zero : x >>> l = 0) : Lacks (fun k => x.getLsbD k = true) l 64 := by
  intro k after _ set
  have clear := congrArg (fun w => BitVec.getLsbD w (k - l)) zero
  simp only [BitVec.getLsbD_ushiftRight, Nat.add_sub_cancel' after] at clear
  rw [set] at clear
  exact absurd clear (by simp)

theorem Lacks.position (lacks : Lacks (fun k => (word i).getLsbD k = true) l 64) :
    Lacks (fun k => bit word k = true) (i * 64 + l) ((i + 1) * 64) := by
  intro k after before
  have index : i * 64 + (k - i * 64) = k := by omega
  change ¬ bit word k = true
  rw [← index, bit_word word i (by omega)]
  exact lacks _ (by omega) (by omega)

private theorem scan_finds (word : Nat → Word) (size : Nat) (fits : (i + rounds) * 64 ≤ 2 ^ 64)
    (covers : size ≤ (i + rounds) * 64) :
    Finds (fun k => bit word k = true) (i * 64) size (scan word size rounds i) := by
  induction rounds generalizing i with
  | zero => exact .inr ⟨rfl, fun k after before => by omega⟩
  | succ rounds ih =>
    rw [scan]
    split
    · next nonzero =>
      obtain ⟨bound, set, low⟩ := log2Lowbit_spec _ nonzero
      have first : First (fun k => (word i).getLsbD k = true) 0 (log2Lowbit (word i)) :=
        ⟨Nat.zero_le _, set, fun k _ before => Bool.eq_false_iff.mp (low k before)⟩
      exact (first.position bound).finds (by omega)
    · next zero =>
      have lacks : Lacks (fun k => (word i).getLsbD k = true) 0 64 := by
        refine lacks_of_zero ?_
        rw [not_not.mp zero]
        rfl
      have rest := ih (i := i + 1) (by omega) (by omega)
      exact (finds_extend_iff (by omega) fun k after before => lacks.position k after (by omega)).mpr rest

theorem sizeCeilDiv_eq (roundable : Roundable size) : sizeCeilDiv size 64 = (size + 63) / 64 := by
  rw [sizeCeilDiv, Nat.add_succ_sub_one, Nat.mod_eq_of_lt roundable]

theorem sizeCeilDiv_overflow (within : size < 2 ^ 64) (overflow : ¬ Roundable size) : sizeCeilDiv size 64 = 0 := by
  rw [Roundable] at overflow
  rw [sizeCeilDiv]
  omega

theorem scan_finds_iff (word : Nat → Word) (within : size < 2 ^ 64)
    (inside : Roundable size → i ≤ sizeCeilDiv size 64) :
    Finds (fun k => bit word k = true) (i * 64) size (scan word size (sizeCeilDiv size 64 - i) i) ↔
      Roundable size ∨ Lacks (fun k => bit word k = true) (i * 64) size := by
  by_cases roundable : Roundable size
  · have reached := inside roundable
    have total : i + (sizeCeilDiv size 64 - i) = (size + 63) / 64 := by
      rw [Nat.add_sub_cancel' reached, sizeCeilDiv_eq roundable]
    refine iff_of_true (scan_finds word size ?_ ?_) (.inl roundable)
    · rw [total]
      omega
    · rw [total]
      omega
  · rw [sizeCeilDiv_overflow within roundable, Nat.zero_sub]
    constructor
    · rintro (⟨_, impossible⟩ | ⟨_, lacks⟩)
      · rw [scan, notFound] at impossible
        omega
      · exact .inr lacks
    · exact fun lacks => .inr ⟨rfl, lacks.resolve_left roundable⟩

/-- The partial first word has ones, but only below the start. -/
def Blind (first : Nat → Word) (start : Nat) : Prop :=
  start % 64 ≠ 0 ∧ first (start / 64) ≠ 0 ∧ first (start / 64) >>> (start % 64) = 0

/-- The bits of a partial first word are not all below the start. With a zero first word, and at the start of a
word, the loop needs the number of words. -/
def SearchRight (word : Nat → Word) (size start : Nat) : Prop :=
  ¬ Blind word start ∧
    (start % 64 = 0 ∨ word (start / 64) = 0 → Roundable size ∨ Lacks (fun k => bit word k = true) start size)

private theorem search_right_iff (word : Nat → Word) (ordered : start ≤ size) (within : size < 2 ^ 64) :
    (∃ r ∈ search word word size start, Finds (fun k => bit word k = true) start size r) ↔
      SearchRight word size start := by
  have parts : start / 64 * 64 + start % 64 = start := Nat.div_add_mod' start 64
  rw [search, SearchRight, Blind]
  by_cases aligned : start % 64 = 0
  · have position : start / 64 * 64 = start := by omega
    have rest := scan_finds_iff (i := start / 64) word within fun roundable => by
      rw [sizeCeilDiv_eq roundable]
      omega
    rw [position] at rest
    simp only [aligned, ne_eq, not_true_eq_false, if_false, false_and, not_false_eq_true, true_and, true_or,
      true_implies, Option.mem_some_iff, exists_eq_left', rest]
  · simp only [ne_eq, aligned, not_false_eq_true, if_true, true_and, false_or]
    by_cases zero : word (start / 64) = 0
    · have lacks : Lacks (fun k => bit word k = true) start ((start / 64 + 1) * 64) := by
        have low : Lacks (fun k => (word (start / 64)).getLsbD k = true) (start % 64) 64 := by
          refine lacks_of_zero ?_
          rw [zero]
          exact BitVec.eq_of_toNat_eq (by simp)
        have := low.position
        rwa [parts] at this
      have early : Lacks (fun k => bit word k = true) start (min ((start / 64 + 1) * 64) size) :=
        fun k after before => lacks k after (by omega)
      have rest := scan_finds_iff (i := start / 64 + 1) word within fun roundable => by
        rw [sizeCeilDiv_eq roundable]
        omega
      simp only [zero, not_true_eq_false, if_false, false_and, not_false_eq_true, true_and, true_implies,
        Option.mem_some_iff, exists_eq_left']
      rw [finds_extend_iff (by omega) early, lacks_extend_iff (by omega) early, rest]
    · simp only [zero, not_false_eq_true, if_true, true_and, false_implies, and_true, uint64Log2Lowbit]
      by_cases shifted : word (start / 64) >>> (start % 64) = 0
      · simp [shifted]
      · simp only [shifted, if_false, Option.map_some, Option.mem_some_iff, exists_eq_left', not_false_eq_true,
          iff_true]
        obtain ⟨first, bound⟩ := first_of_shifted shifted
        have position := first.position bound
        rw [parts, ← add_assoc] at position
        exact position.finds (by omega)

theorem bit_sought (arr : Memory) (val : Bool) (k : Nat) : bit (sought arr val) k = true ↔ bit arr k = val := by
  have bound : k % 64 < 64 := Nat.mod_lt k (by decide)
  cases val with
  | true => rfl
  | false =>
    change (~~~arr (k / 64)).getLsbD (k % 64) = true ↔ (arr (k / 64)).getLsbD (k % 64) = false
    rw [getLsbD_bitnot _ bound, Bool.not_eq_true']

/-- The condition for a search for zeros, which looks for a one in a partial first word. -/
def ZerosRight (ba : Bitarray) (start : Nat) : Prop :=
  if start % 64 = 0 then Roundable ba.size ∨ Lacks (fun k => ba.bitAt k = false) start ba.size
  else start = ba.size ∧ ¬ Blind ba.arr start

private theorem sought_zeros (ba : Bitarray) :
    (fun k => bit (sought ba.arr false) k = true) = fun k => ba.bitAt k = false := by
  funext k
  rw [bitAt_eq, bit_sought]

section Zeros

variable {ba : Bitarray} (size_lt : ba.size < 2 ^ 64)

include size_lt

theorem scan_after (first : i * 64 < ba.size) :
    scan (sought ba.arr false) ba.size (sizeCeilDiv ba.size 64 - (i + 1)) (i + 1) = notFound ∨
      (i + 1) * 64 ≤ scan (sought ba.arr false) ba.size (sizeCeilDiv ba.size 64 - (i + 1)) (i + 1) := by
  by_cases roundable : Roundable ba.size
  · have rest := (scan_finds_iff (i := i + 1) (sought ba.arr false) size_lt fun roundable => by
      rw [sizeCeilDiv_eq roundable]
      omega).mpr (.inl roundable)
    exact rest.elim (fun found => .inr found.1.from_start) fun none => .inl none.1
  · left
    rw [sizeCeilDiv_overflow size_lt roundable, Nat.zero_sub, scan]

/-- No search from inside a word is right if there is something to search in. -/
theorem not_finds_zeros (inside : start < ba.size) (inWord : start % 64 ≠ 0) :
    ¬ ∃ r ∈ ba.find start false, Finds (fun k => ba.bitAt k = false) start ba.size r := by
  have parts : start / 64 * 64 + start % 64 = start := Nat.div_add_mod' start 64
  rw [find_eq_search, search, if_pos inWord]
  by_cases zero : ba.arr (start / 64) = 0
  · rw [if_neg (not_not_intro zero)]
    have zeroAt : ba.bitAt start = false := by
      have low : ba.arr (start / 64) >>> (start % 64) = 0 := by
        rw [zero]
        exact BitVec.eq_of_toNat_eq (by simp)
      have lacks := (lacks_of_zero low).position
      rw [parts] at lacks
      rw [bitAt_eq]
      exact Bool.eq_false_iff.mpr (lacks start (le_rfl) (by omega))
    rintro ⟨_, ⟨⟩, ⟨first, within⟩ | ⟨_, lacks⟩⟩
    · rcases scan_after (i := start / 64) size_lt (by omega) with none | beyond
      · rw [none, notFound] at within
        omega
      · exact first.least start (le_rfl) (by omega) zeroAt
    · exact lacks start (le_rfl) inside zeroAt
  · rw [if_pos zero, uint64Log2Lowbit]
    by_cases shifted : ba.arr (start / 64) >>> (start % 64) = 0
    · simp [shifted]
    · obtain ⟨first, bound⟩ := first_of_shifted shifted
      have position := first.position bound
      rw [parts, ← add_assoc] at position
      rw [if_neg shifted, Option.map_some]
      rintro ⟨_, ⟨⟩, finds⟩
      rw [finds_found_iff size_lt (by omega)] at finds
      split at finds
      · next beyond =>
        refine position.least start (le_rfl) (by omega) ?_
        have set : ¬ ba.bitAt start = false := finds start (le_rfl) inside
        rw [bitAt_eq] at set
        exact eq_true_of_ne_false set
      · have zeroAt := finds.holds
        rw [bitAt_eq, position.holds] at zeroAt
        cases zeroAt

private theorem find_zeros_end (inWord : ba.size % 64 ≠ 0) :
    (∃ r ∈ ba.find ba.size false, Finds (fun k => ba.bitAt k = false) ba.size ba.size r) ↔ ¬ Blind ba.arr ba.size := by
  have none : Lacks (fun k => ba.bitAt k = false) ba.size ba.size := fun k after before => by omega
  rw [find_eq_search, search, if_pos inWord, Blind]
  by_cases zero : ba.arr (ba.size / 64) = 0
  · have rounds : sizeCeilDiv ba.size 64 - (ba.size / 64 + 1) = 0 := by
      by_cases roundable : Roundable ba.size
      · rw [sizeCeilDiv_eq roundable]
        omega
      · rw [sizeCeilDiv_overflow size_lt roundable, Nat.zero_sub]
    rw [if_neg (not_not_intro zero), rounds, scan]
    exact iff_of_true ⟨_, rfl, .inr ⟨rfl, none⟩⟩ fun blind => blind.2.1 zero
  · rw [if_pos zero, uint64Log2Lowbit]
    by_cases shifted : ba.arr (ba.size / 64) >>> (ba.size % 64) = 0
    · exact iff_of_false (by simp [shifted]) (not_not_intro ⟨inWord, zero, shifted⟩)
    · obtain ⟨_, bound⟩ := first_of_shifted shifted
      rw [if_neg shifted, Option.map_some]
      refine iff_of_true ⟨_, rfl, ?_⟩ fun blind => shifted blind.2.2
      rw [finds_found_iff size_lt (by omega), if_pos (by omega)]
      exact none

private theorem find_zeros_iff (ordered : start ≤ ba.size) :
    (∃ r ∈ ba.find start false, Finds (fun k => ba.bitAt k = false) start ba.size r) ↔ ZerosRight ba start := by
  rw [ZerosRight]
  by_cases aligned : start % 64 = 0
  · have position : start / 64 * 64 = start := by omega
    have rest := scan_finds_iff (i := start / 64) (sought ba.arr false) size_lt fun roundable => by
      rw [sizeCeilDiv_eq roundable]
      omega
    rw [position, sought_zeros] at rest
    rw [if_pos aligned, find_eq_search, search, if_neg (not_not_intro aligned), ← rest]
    simp
  · rw [if_neg aligned]
    rcases lt_or_eq_of_le ordered with inside | rfl
    · exact iff_of_false (not_finds_zeros size_lt inside aligned) fun right => (ne_of_lt inside) right.1
    · rw [find_zeros_end size_lt aligned, eq_self, true_and]

end Zeros

/-- The condition for a search. A search for ones is right but for what `SearchRight` says. -/
def FindRight (ba : Bitarray) (start : Nat) (val : Bool) : Prop :=
  if val then SearchRight ba.arr ba.size start else ZerosRight ba start

/-- The words of the positions that are sought in two arrays. -/
def soughtBoth (ba0 ba1 : Bitarray) (val0 val1 : Bool) (i : Nat) : Word :=
  sought ba0.arr val0 i &&& sought ba1.arr val1 i

private theorem bit_soughtBoth (ba0 ba1 : Bitarray) (val0 val1 : Bool) (k : Nat) :
    bit (soughtBoth ba0 ba1 val0 val1) k = true ↔ ba0.bitAt k = val0 ∧ ba1.bitAt k = val1 := by
  rw [bitAt_eq, bitAt_eq, ← bit_sought ba0.arr, ← bit_sought ba1.arr, ← Bool.and_eq_true]
  exact Bool.eq_iff_iff.mp (BitVec.getLsbD_and ..)

/-- Exactly when the searches find the least position of the bits. -/
theorem find_correct_iff (ba ba0 ba1 : Bitarray) (start : Nat) (val val0 val1 : Bool) :
    (start ≤ ba.size → ba.size < 2 ^ 64 →
      ((∃ r ∈ ba.find start val, Finds (fun k => ba.bitAt k = val) start ba.size r) ↔ FindRight ba start val)) ∧
    (start ≤ min ba0.size ba1.size → min ba0.size ba1.size < 2 ^ 64 →
      ((∃ r ∈ ba0.find2 ba1 start val0 val1,
          Finds (fun k => ba0.bitAt k = val0 ∧ ba1.bitAt k = val1) start (min ba0.size ba1.size) r) ↔
        SearchRight (soughtBoth ba0 ba1 val0 val1) (min ba0.size ba1.size) start)) := by
  constructor
  · intro ordered size_lt
    cases val with
    | false => exact find_zeros_iff size_lt ordered
    | true =>
      have ones : (fun k => ba.bitAt k = true) = fun k => bit ba.arr k = true := by
        funext k
        rw [bitAt_eq]
      rw [ones, find_eq_search]
      exact search_right_iff ba.arr ordered size_lt
  · intro ordered size_lt
    have both : (fun k => ba0.bitAt k = val0 ∧ ba1.bitAt k = val1) =
        fun k => bit (soughtBoth ba0 ba1 val0 val1) k = true :=
      funext fun k => propext (bit_soughtBoth ba0 ba1 val0 val1 k).symm
    rw [both, find2_eq_search]
    exact search_right_iff _ ordered size_lt

/-- Two zeros are searched from the second. The loop does not come to the word. -/
theorem find_zeros_missed : (initFill 2 false).find 1 false = some notFound ∧ (initFill 2 false).bitAt 1 = false ∧
    ¬ ∃ r ∈ (initFill 2 false).find 1 false,
      Finds (fun k => (initFill 2 false).bitAt k = false) 1 (initFill 2 false).size r := by
  have result : (initFill 2 false).find 1 false = some notFound := by decide
  have zero : (initFill 2 false).bitAt 1 = false := by decide
  refine ⟨result, zero, ?_⟩
  rintro ⟨_, ⟨⟩, ⟨_, impossible⟩ | ⟨_, lacks⟩⟩
  · exact absurd impossible (by decide)
  · exact lacks 1 (le_refl 1) (by decide) zero

/-- The first bit of two is set, and the search starts at the second. -/
theorem find_correct_iff_small :
    let ba : Bitarray := { size := 2, arr := fun _ => 1, cap := 1 }
    ((∃ r ∈ ba.find 0 true, Finds (fun k => ba.bitAt k = true) 0 2 r) ↔ FindRight ba 0 true) ∧
    ((∃ r ∈ (initFill 2 true).find2 (initFill 2 false) 1 true false,
        Finds (fun k => (initFill 2 true).bitAt k = true ∧ (initFill 2 false).bitAt k = false) 1 2 r) ↔
      SearchRight (soughtBoth (initFill 2 true) (initFill 2 false) true false) 2 1) :=
  have right := find_correct_iff (initFill 2 true) (initFill 2 true) (initFill 2 false) 1 true true false
  ⟨(find_correct_iff _ (initFill 2 true) (initFill 2 false) 0 true true false).1 (by decide) (by decide),
    right.2 (by decide) (by decide)⟩

end Culibs.Cucon.Bitarray
