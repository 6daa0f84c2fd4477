import Culibs.Cuex.Ltree.Packed

namespace Culibs.Cuex.Ltree

open Cu DyadicBlock Function List BitVec Nat

variable {α : Type} {d k n q i j : Nat} {l A B : List α} {t : Ltree α} {a : α} {subs : List (Ltree α)}

theorem depth_le (packed : pack d l = some (node k subs)) : k ≤ d := by
  induction d with
  | zero => cases l <;> simp at packed
  | succ d ih =>
    rcases lt_or_ge (4 ^ d) l.length with long | short
    · rw [pack_succ_of_lt long] at packed
      cases packed
      exact le_rfl
    · rw [pack_succ_of_le short] at packed
      exact Nat.le_succ_of_le (ih packed)

theorem intShift_eq (shallow : d < 16) : intShift (log2Fanout * d) = some (4 ^ d) := by
  rw [intShift, log2Fanout, if_pos (by omega), Nat.pow_mul]

/-- The arithmetic of `int` suffices for the size of trees of depth up to 16. -/
theorem sizeLoop_eq (packed : pack d l = some t) (short : l.length ≤ 4 ^ d) (shallow : d ≤ 16) :
    sizeLoop accu t = some (accu + l.length) := by
  induction d generalizing l t accu with
  | zero =>
    obtain ⟨a, rfl, rfl⟩ := pack_zero_eq_some packed short
    simp [sizeLoop]
  | succ d ih =>
    rcases lt_or_ge (4 ^ d) l.length with long | less
    · obtain ⟨q, A, B, tB, rfl, length, _, _, _, shortB, packedB, split⟩ := split_last long short
      rw [pack_succ_of_lt long, split] at packed
      cases packed
      rw [sizeLoop, dif_neg (by simp)]
      simp only [Nat.add_sub_cancel, intShift_eq shallow, Option.bind_eq_bind, Option.bind_some, getLast_concat,
        length_append, length_singleton, packs_full_length length]
      rw [ih packedB shortB (by omega), length, add_assoc]
    · rw [pack_succ_of_le less] at packed
      exact ih packed less (by omega)

private theorem sizeLoop_eq_none (packed : pack d l = some t) (short : l.length ≤ 4 ^ d)
    (large : 4 ^ 16 < l.length) : sizeLoop accu t = none := by
  induction d generalizing t with
  | zero => omega
  | succ d ih =>
    rcases lt_or_ge (4 ^ d) l.length with long | less
    · have deep : 16 ≤ d := by
        by_contra shallow
        have : 4 ^ (d + 1) ≤ 4 ^ 16 := Nat.pow_le_pow_right (by decide) (by omega)
        omega
      rw [pack_succ_of_lt long] at packed
      cases packed
      have shift : intShift (log2Fanout * (d + 1 - 1)) = none := by
        rw [intShift, log2Fanout, if_neg (by omega)]
      rw [sizeLoop]
      split
      · rfl
      · rw [shift]
        rfl
    · rw [pack_succ_of_le less] at packed
      exact ih packed less

/-- An iterator that returns the elements of a list one after another. -/
def Yields (itr : Itr α) : List α → Prop
  | [] => itr.iEnd = itr.iCur
  | a :: l => itr.iEnd - itr.iCur = l.length + 1 ∧ ∃ itr', itr.get = (some (leaf a), itr') ∧ Yields itr' l

variable {itr : Itr α}

theorem Yields.left (yields : Yields itr l) : itr.iEnd - itr.iCur = l.length := by
  cases l with
  | nil =>
    have same : itr.iEnd = itr.iCur := yields
    simp [same]
  | cons a l => exact yields.1

theorem Yields.isEnd_iff (yields : Yields itr l) : itr.isEnd = true ↔ l = [] := by
  rw [Itr.isEnd, beq_iff_eq]
  cases l with
  | nil => exact ⟨fun _ => rfl, fun _ => Eq.symm yields⟩
  | cons a l =>
    have left := yields.1
    constructor
    · intro same
      omega
    · nofun

/-- The position of an iterator over a slice of a packed tree. -/
structure Standing (itr : Itr α) (K : Nat) (l : List α) (i : Nat) : Prop where
  cur : itr.iCur = i
  last : itr.iEnd ≤ l.length
  stack : ∀ k ≤ K, itr.stack k = pack k (l.drop (4 ^ k * (i / 4 ^ k)))

private theorem increment_bits (small : i + 1 < 2 ^ 64) :
    let k := (bitCount (BitVec.ofNat 64 (i ^^^ (i + 1))) - 1) / log2Fanout
    4 ^ k ≤ i + 1 ∧ ∀ m, k + 1 ≤ m → i / 4 ^ m = (i + 1) / 4 ^ m := by
  have one : (1 : Word).toNat = 1 := rfl
  have value : (BitVec.ofNat 64 (i + 1)).toNat = i + 1 := by
    rw [toNat_ofNat, Nat.mod_eq_of_lt small]
  have nonzero : BitVec.ofNat 64 (i + 1) ≠ 0 := by
    intro zero
    rw [zero] at value
    simp at value
  obtain ⟨t, m, bound, multiple, _, mask⟩ := toNat_lowMask (BitVec.ofNat 64 (i + 1)) nonzero
  rw [value] at multiple
  have masked : BitVec.ofNat 64 (i ^^^ (i + 1)) = lowMask (BitVec.ofNat 64 (i + 1)) := by
    have before : BitVec.ofNat 64 (i + 1) - 1 = BitVec.ofNat 64 i := by
      apply eq_of_toNat_eq
      rw [toNat_sub_of_le (by rw [le_def]; omega), one, value, toNat_ofNat,
        Nat.mod_eq_of_lt (by omega), Nat.add_sub_cancel]
    rw [lowMask, before, Nat.xor_comm, ofNat_xor]
  have count : bitCount (BitVec.ofNat 64 (i ^^^ (i + 1))) = t + 1 := by
    apply bitCount_of_below (by omega)
    intro b _
    rw [masked, ← testBit_toNat, mask, testBit_two_pow_sub_one]
  simp only [count, log2Fanout, Nat.add_sub_cancel]
  have power (s : Nat) : 4 ^ s = 2 ^ (2 * s) := by rw [Nat.pow_mul]
  have pos := Nat.two_pow_pos t
  constructor
  · rw [power, multiple]
    calc 2 ^ (2 * (t / 2)) ≤ 2 ^ t := Nat.pow_le_pow_right (by decide) (by omega)
      _ ≤ 2 ^ t * (2 * m + 1) := Nat.le_mul_of_pos_right _ (by omega)
  intro s above
  have split : 4 ^ s = 2 ^ (t + 1) * 2 ^ (2 * s - (t + 1)) := by
    rw [power, ← pow_add]
    congr 1
    omega
  have double : 2 ^ (t + 1) = 2 * 2 ^ t := pow_succ'
  have low : i / 2 ^ (t + 1) = m := by
    rw [Nat.div_eq_iff (Nat.two_pow_pos _)]
    have : 2 ^ t * (2 * m + 1) = m * 2 ^ (t + 1) + 2 ^ t := by rw [double]; ring
    omega
  have high : (i + 1) / 2 ^ (t + 1) = m := by
    rw [Nat.div_eq_iff (Nat.two_pow_pos _)]
    have : 2 ^ t * (2 * m + 1) = m * 2 ^ (t + 1) + 2 ^ t := by rw [double]; ring
    omega
  rw [split, ← Nat.div_div_eq_div_mul, ← Nat.div_div_eq_div_mul, low, high]

private theorem subAt_eq (inside : j < l.length) :
    subAt (k + 1) ((j >>> (log2Fanout * k)) &&& fanoutMask)
      (pack (k + 1) (l.drop (4 ^ (k + 1) * (j / 4 ^ (k + 1))))) = pack k (l.drop (4 ^ k * (j / 4 ^ k))) := by
  have quadruple : 4 ^ (k + 1) = 4 ^ k * 4 := pow_succ 4 k
  have index : (j >>> (log2Fanout * k)) &&& fanoutMask = j / 4 ^ k % 4 := by
    rw [shiftRight_eq_div_pow, pow_mul]
    exact and_two_pow_sub_one_eq_mod _ 2
  have remainder : j % 4 ^ (k + 1) < l.length - 4 ^ (k + 1) * (j / 4 ^ (k + 1)) := by
    have := div_add_mod j (4 ^ (k + 1))
    omega
  have position : 4 ^ k * (j / 4 ^ k) = 4 ^ (k + 1) * (j / 4 ^ (k + 1)) + (j / 4 ^ k % 4) * 4 ^ k := by
    have division := div_add_mod (j / 4 ^ k) 4
    rw [Nat.div_div_eq_div_mul, ← quadruple] at division
    calc 4 ^ k * (j / 4 ^ k) = 4 ^ k * (4 * (j / 4 ^ (k + 1)) + j / 4 ^ k % 4) := by rw [division]
      _ = 4 ^ k * 4 * (j / 4 ^ (k + 1)) + (j / 4 ^ k % 4) * 4 ^ k := by ring
      _ = _ := by rw [quadruple]
  rw [index, position]
  rw [← length_drop] at remainder
  rw [← drop_drop]
  generalize l.drop (4 ^ (k + 1) * (j / 4 ^ (k + 1))) = C at *
  rcases lt_or_ge (4 ^ k) C.length with long | short
  · rw [pack_succ_of_lt long, subAt, if_neg (lt_irrefl _)]
    exact packs_getElem? (mod_lt _ (by decide))
  · have first : j / 4 ^ k % 4 = 0 := by
      rw [← mod_mul_right_div_self, ← quadruple, div_eq_of_lt (by omega)]
    rw [pack_succ_of_le short, first, Nat.zero_mul]
    match packed : pack k C with
    | some (node depth subs) => rw [subAt, if_pos (lt_succ_of_le (depth_le packed))]
    | some (leaf _) => rfl
    | none => rfl

variable {stack : Nat → Option (Ltree α)}

/-- The levels below `k` are found again, and the others are left. -/
theorem descend_spec (inside : j < l.length) (top : stack k = pack k (l.drop (4 ^ k * (j / 4 ^ k)))) :
    ∀ m, descend j k stack m = if m < k then pack m (l.drop (4 ^ m * (j / 4 ^ m))) else stack m := by
  induction k generalizing stack with
  | zero =>
    intro m
    rw [descend, if_neg (not_lt_zero m)]
  | succ k ih =>
    intro m
    rw [descend, top, subAt_eq inside, ih (update_self ..)]
    rcases Nat.lt_trichotomy m k with below | same | above
    · rw [if_pos below, if_pos (by omega)]
    · subst same
      rw [if_neg (lt_irrefl m), if_pos (lt_succ_self m), update_self]
    · rw [if_neg (by omega), if_neg (by omega), update_of_ne (by omega)]

variable {K : Nat}

theorem Standing.get (standing : Standing itr K l i) (inside : i + 1 < itr.iEnd)
    (deep : l.length ≤ 4 ^ K) (small : l.length ≤ 2 ^ 64) :
    itr.get.1 = itr.stack 0 ∧ itr.get.2.iEnd = itr.iEnd ∧ Standing itr.get.2 K l (i + 1) := by
  obtain ⟨cur, last, stack⟩ := standing
  obtain ⟨least, same⟩ := increment_bits (show i + 1 < 2 ^ 64 by omega)
  simp only [Itr.get, cur, if_neg (not_le.mpr inside)]
  generalize (bitCount (BitVec.ofNat 64 (i ^^^ (i + 1))) - 1) / log2Fanout = k at *
  have below : k < K := by
    by_contra above
    have : 4 ^ K ≤ 4 ^ k := Nat.pow_le_pow_right (by decide) (by omega)
    omega
  have top : itr.stack (k + 1) = pack (k + 1) (l.drop (4 ^ (k + 1) * ((i + 1) / 4 ^ (k + 1)))) := by
    rw [stack _ below, same _ (le_rfl)]
  refine ⟨trivial, trivial, rfl, last, ?_⟩
  intro m inside
  simp only [descend_spec (show i + 1 < l.length by omega) top m]
  split
  · rfl
  · next high => rw [stack m inside, same m (by omega)]

theorem Standing.top (standing : Standing itr K l i) (inside : i < l.length) :
    itr.stack 0 = some (leaf l[i]) := by
  rw [standing.stack 0 (Nat.zero_le K), Nat.pow_zero, Nat.div_one, Nat.one_mul, drop_eq_getElem_cons inside, pack_zero_cons]

theorem Standing.yields (standing : Standing itr K l i) (inside : i < itr.iEnd)
    (deep : l.length ≤ 4 ^ K) (small : l.length ≤ 2 ^ 64) : Yields itr ((l.take itr.iEnd).drop i) := by
  have last := standing.last
  have count : i < (l.take itr.iEnd).length := by rwa [length_take_of_le last]
  have top := standing.top (lt_of_lt_of_le inside last)
  rw [drop_eq_getElem_cons count, getElem_take]
  induction left : itr.iEnd - (i + 1) generalizing itr i with
  | zero =>
    have rest : (l.take itr.iEnd).drop (i + 1) = [] := drop_of_length_le (by rw [length_take]; omega)
    rw [rest, Yields, standing.cur]
    refine ⟨by rw [length_nil]; omega, { itr with iCur := i + 1 }, ?_, ?_⟩
    · rw [Itr.get, standing.cur, if_pos (by omega), if_neg (by omega), top]
    · simp only [Yields]
      omega
  | succ n ih =>
    obtain ⟨returned, same, next⟩ := standing.get (by omega) deep small
    have count' : i + 1 < (l.take itr.get.2.iEnd).length := by
      rw [length_take]
      omega
    have rest := ih next (by omega) next.last count' (next.top (by omega)) (by omega)
    rw [← getElem_take (h := count'), ← drop_eq_getElem_cons, same] at rest
    rw [Yields, standing.cur]
    exact ⟨by rw [length_drop, length_take]; omega, itr.get.2, by rw [← top, ← returned], rest⟩

private theorem initStack_above (above : k < n) : initStack k x stack n = stack n := by
  induction k generalizing x stack with
  | zero => rw [initStack, update_of_ne (by omega)]
  | succ k ih => rw [initStack, ih (by omega), update_of_ne (by omega)]

theorem initStack_spec (deep : k = 0 ∨ 4 ^ (k - 1) < l.length) :
    ∀ m ≤ k, initStack k (pack k l) stack m = pack m l := by
  induction k generalizing stack with
  | zero =>
    intro m least
    obtain rfl := le_zero.mp least
    rw [initStack, update_self]
  | succ k ih =>
    intro m least
    have long : 4 ^ k < l.length := by simpa using deep
    have sub : opnAt (pack (k + 1) l) 0 = pack k l := by
      rw [pack_succ_of_lt long, opnAt, packs_getElem? (by decide), Nat.zero_mul, drop_zero]
    rw [initStack, sub]
    rcases lt_or_ge k m with above | below
    · obtain rfl : m = k + 1 := by omega
      rw [initStack_above above, update_self]
    apply ih _ m below
    cases k with
    | zero => exact .inl rfl
    | succ k =>
      right
      simp only [Nat.add_sub_cancel]
      omega

variable {D : Nat}

theorem pack_cases (packed : pack D l = some t) (short : l.length ≤ 4 ^ D) :
    (∃ a, l = [a] ∧ t = leaf a) ∨
      ∃ d, 4 ^ d < l.length ∧ l.length ≤ 4 ^ (d + 1) ∧ t = node (d + 1) (packs d 4 l) := by
  induction D with
  | zero =>
    exact .inl (pack_zero_eq_some packed short)
  | succ D ih =>
    rcases lt_or_ge (4 ^ D) l.length with long | less
    · rw [pack_succ_of_lt long] at packed
      cases packed
      exact .inr ⟨D, long, short, rfl⟩
    · rw [pack_succ_of_le less] at packed
      exact ih packed less

theorem initFull_yields (packed : pack D l = some t) (deep : l.length ≤ 4 ^ D) (short : l.length ≤ 4 ^ 16) :
    ∃ itr, Itr.initFull (some t) = some itr ∧ Yields itr l := by
  have small : l.length ≤ 2 ^ 64 := le_trans short (by decide)
  rcases pack_cases packed deep with ⟨a, rfl, rfl⟩ | ⟨d, long, least, rfl⟩
  · refine ⟨_, rfl, ?_⟩
    have standing : Standing ⟨0, 1, initStack 0 (some (leaf a)) fun _ => none⟩ 0 [a] 0 := by
      refine ⟨rfl, le_rfl, ?_⟩
      intro m below
      rw [Nat.zero_div, ← initStack_spec (.inl rfl) m below]
      rfl
    exact standing.yields zero_lt_one (by simp) small
  · have packed' := pack_succ_of_lt long
    have shallow : d + 1 ≤ 16 := by
      by_contra deeper
      have : 4 ^ 16 ≤ 4 ^ d := Nat.pow_le_pow_right (by decide) (by omega)
      omega
    have size : size (some (node (d + 1) (packs d 4 l))) = some l.length := by
      rw [size, sizeLoop_eq packed' least shallow, zero_add]
    refine ⟨⟨0, l.length, initStack (d + 1) (some (node (d + 1) (packs d 4 l))) fun _ => none⟩, ?_, ?_⟩
    · rw [Itr.initFull, size]
      rfl
    · have standing : Standing
          ⟨0, l.length, initStack (d + 1) (some (node (d + 1) (packs d 4 l))) fun _ => none⟩ (d + 1) l 0 := by
        refine ⟨rfl, le_rfl, ?_⟩
        intro m below
        rw [Nat.zero_div, ← packed']
        exact initStack_spec (.inr (by simpa using long)) m below
      have yields := standing.yields (zero_lt_of_lt long) least small
      rwa [take_length, drop_zero] at yields

theorem initFull_eq_none (packed : pack D l = some t) (deep : l.length ≤ 4 ^ D) (large : 4 ^ 16 < l.length) :
    Itr.initFull (some t) = none := by
  rcases pack_cases packed deep with ⟨a, rfl, rfl⟩ | ⟨d, long, least, rfl⟩
  · simp at large
  · have size : size (some (node (d + 1) (packs d 4 l))) = none :=
      sizeLoop_eq_none (pack_succ_of_lt long) least large
    rw [Itr.initFull, size]
    rfl

end Culibs.Cuex.Ltree
