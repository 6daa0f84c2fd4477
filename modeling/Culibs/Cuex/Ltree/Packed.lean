import Culibs.Cuex.Ltree.Basic

/-! The canonical form of a sequence: the tree that `ltree_fresh_source` packs
from a list. Chains of single operands are left out, so a sequence gives the
same tree at every sufficient depth. -/

namespace Culibs.Cuex.Ltree

open List Nat

variable {α : Type} {d e i n q : Nat} {l l' A B : List α} {t : Ltree α} {a : α}

@[simp] theorem fanout_eq : fanout = 4 := rfl

/-- The tree of depth at most `d` packed from the first `4 ^ d` elements. -/
def pack (d : Nat) (l : List α) : Option (Ltree α) := (freshSource d l).1

/-- Up to `n` trees of depth at most `d` packed one after another. -/
def packs (d n : Nat) (l : List α) : List (Ltree α) := (collectSource (freshSource d) n l).1

/-- What a node of given depth becomes: its operands, without a single one. -/
def wrap (d : Nat) : List (Ltree α) → Option (Ltree α)
  | [] => none
  | [x] => some x
  | x :: y :: v => some (node d (x :: y :: v))

@[simp] theorem pack_zero_nil : pack 0 ([] : List α) = none := rfl

@[simp] theorem pack_zero_cons : pack 0 (a :: l) = some (leaf a) := rfl

@[simp] theorem packs_zero : packs d 0 l = [] := rfl

theorem freshSource_succ (d : Nat) (l : List α) :
    freshSource (d + 1) l = (wrap (d + 1) (packs d 4 l), (collectSource (freshSource d) 4 l).2) := by
  rw [freshSource, packs, fanout_eq]
  generalize collectSource (freshSource d) 4 l = drawn
  obtain ⟨v, source⟩ := drawn
  cases v with
  | nil => rfl
  | cons x v => cases v <;> rfl

@[simp] theorem pack_succ : pack (d + 1) l = wrap (d + 1) (packs d 4 l) := by
  rw [pack, freshSource_succ]

private theorem wrap_eq_none_iff (v : List (Ltree α)) : wrap d v = none ↔ v = [] := by
  match v with
  | [] => simp [wrap]
  | [x] => simp [wrap]
  | x :: y :: v => simp [wrap]

/-- A tree takes its elements from the source, and is `NULL` for the empty source only. -/
theorem freshSource_takes (d : Nat) (l : List α) :
    (freshSource d l).2 = l.drop (4 ^ d) ∧ (pack d l = none ↔ l = []) := by
  induction d generalizing l with
  | zero => cases l <;> simp [freshSource]
  | succ d ih =>
    have several (n : Nat) (l : List α) :
        (collectSource (freshSource d) n l).2 = l.drop (n * 4 ^ d) ∧ (packs d n l = [] ↔ n = 0 ∨ l = []) := by
      induction n generalizing l with
      | zero => simp [collectSource]
      | succ n ihn =>
        have taken := ih l
        rw [pack] at taken
        rw [packs, collectSource]
        generalize freshSource d l = drawn at taken
        obtain ⟨x, source⟩ := drawn
        simp only at taken
        cases x with
        | none => simp [taken.1, taken.2.mp rfl]
        | some x =>
          have rest := ihn source
          have nonempty : l ≠ [] := fun empty => by simpa using taken.2.mpr empty
          refine ⟨?_, by simp [nonempty]⟩
          rw [rest.1, taken.1, drop_drop]
          congr 1
          ring
    rw [freshSource_succ, pack_succ, wrap_eq_none_iff]
    refine ⟨?_, by simpa using (several 4 l).2⟩
    rw [(several 4 l).1, pow_succ']

theorem pack_eq_none_iff : pack d l = none ↔ l = [] := (freshSource_takes d l).2

theorem pack_zero_eq_some (packed : pack 0 l = some t) (short : l.length ≤ 1) : ∃ a, l = [a] ∧ t = leaf a := by
  cases l with
  | nil => cases packed
  | cons a rest =>
    cases packed
    rw [length_cons] at short
    obtain rfl : rest = [] := eq_nil_of_length_eq_zero (by omega)
    exact ⟨a, rfl, rfl⟩

theorem exists_pack (nonempty : l ≠ []) : ∃ t, pack d l = some t :=
  Option.ne_none_iff_exists'.mp fun none => nonempty (pack_eq_none_iff.mp none)

theorem collectSource_step (packed : pack d l = some t) :
    collectSource (freshSource d) (n + 1) l =
      (t :: packs d n (l.drop (4 ^ d)), (collectSource (freshSource d) n (l.drop (4 ^ d))).2) := by
  have taken := (freshSource_takes d l).1
  rw [pack] at packed
  rw [collectSource]
  generalize freshSource d l = drawn at taken packed
  obtain ⟨x, source⟩ := drawn
  subst taken packed
  rfl

@[simp] theorem packs_succ_nil : packs d (n + 1) ([] : List α) = [] := by
  have none : pack d ([] : List α) = none := pack_eq_none_iff.mpr rfl
  rw [pack] at none
  rw [packs, collectSource]
  generalize freshSource d [] = drawn at none
  obtain ⟨x, source⟩ := drawn
  subst none
  rfl

@[simp] theorem packs_nil : packs d n ([] : List α) = [] := by
  cases n with
  | zero => rfl
  | succ n => exact packs_succ_nil

theorem packs_succ (packed : pack d l = some t) : packs d (n + 1) l = t :: packs d n (l.drop (4 ^ d)) := by
  rw [packs, collectSource_step packed]

theorem collectSource_eq (d n : Nat) (l : List α) :
    collectSource (freshSource d) n l = (packs d n l, l.drop (n * 4 ^ d)) := by
  refine Prod.ext rfl ?_
  induction n generalizing l with
  | zero => simp [collectSource]
  | succ n ih =>
    by_cases empty : l = []
    · subst empty
      have none : pack d ([] : List α) = none := pack_eq_none_iff.mpr rfl
      have taken := (freshSource_takes d ([] : List α)).1
      rw [pack] at none
      rw [collectSource]
      generalize freshSource d [] = drawn at none taken
      obtain ⟨x, source⟩ := drawn
      subst none
      simpa using taken
    · obtain ⟨t, packed⟩ : ∃ t, pack d l = some t := exists_pack empty
      simp only [collectSource_step packed, ih, drop_drop]
      congr 1
      ring

theorem pack_congr (same : l.take (4 ^ d) = l'.take (4 ^ d)) : pack d l = pack d l' := by
  induction d generalizing l l' with
  | zero =>
    rw [Nat.pow_zero] at same
    cases l <;> cases l' <;> simp_all [take_succ_cons]
  | succ d ih =>
    have several (n : Nat) (l l' : List α) (same : l.take (n * 4 ^ d) = l'.take (n * 4 ^ d)) :
        packs d n l = packs d n l' := by
      induction n generalizing l l' with
      | zero => rfl
      | succ n ihn =>
        have split : (n + 1) * 4 ^ d = 4 ^ d + n * 4 ^ d := by ring
        rw [split] at same
        have first : l.take (4 ^ d) = l'.take (4 ^ d) := by
          have := congrArg (List.take (4 ^ d)) same
          rwa [take_take, take_take, min_eq_left (le_add_right _ _)] at this
        have rest : (l.drop (4 ^ d)).take (n * 4 ^ d) = (l'.drop (4 ^ d)).take (n * 4 ^ d) := by
          have := congrArg (List.drop (4 ^ d)) same
          rwa [drop_take, drop_take, Nat.add_sub_cancel_left] at this
        cases packed : pack d l with
        | none =>
          rw [pack_eq_none_iff.mp packed, pack_eq_none_iff.mp ((ih first).symm.trans packed)]
        | some t =>
          rw [packs_succ packed, packs_succ ((ih first).symm.trans packed), ihn _ _ rest]
    rw [pack_succ, pack_succ, several 4 l l' (by rwa [pow_succ'] at same)]

theorem packs_append (length : A.length = q * 4 ^ d) : packs d (q + n) (A ++ B) = packs d q A ++ packs d n B := by
  induction q generalizing A with
  | zero =>
    have : A = [] := eq_nil_of_length_eq_zero (by simpa using length)
    simp [this]
  | succ q ih =>
    have power : 0 < 4 ^ d := Nat.pow_pos (by decide)
    have split : (q + 1) * 4 ^ d = q * 4 ^ d + 4 ^ d := by ring
    have full : 4 ^ d ≤ A.length := by omega
    have nonempty : A ≠ [] := ne_nil_of_length_pos (by omega)
    obtain ⟨t, packed⟩ : ∃ t, pack d _ = some t := exists_pack nonempty
    have packed' : pack d (A ++ B) = some t := (pack_congr (take_append_of_le_length full)).trans packed
    rw [add_right_comm, packs_succ packed', packs_succ packed, drop_append_of_le_length full,
      ih (by rw [length_drop]; omega), cons_append]

theorem packs_single (packed : pack d l = some t) (short : l.length ≤ 4 ^ d) : packs d (n + 1) l = [t] := by
  rw [packs_succ packed, drop_of_length_le short, packs_nil]

theorem pack_succ_of_le (short : l.length ≤ 4 ^ d) : pack (d + 1) l = pack d l := by
  cases packed : pack d l with
  | none => rw [pack_eq_none_iff.mp packed, pack_eq_none_iff.mpr rfl]
  | some t => rw [pack_succ, packs_single packed short, wrap]

theorem pack_succ_of_lt (long : 4 ^ d < l.length) : pack (d + 1) l = some (node (d + 1) (packs d 4 l)) := by
  have power : 0 < 4 ^ d := Nat.pow_pos (by decide)
  have nonempty : l ≠ [] := ne_nil_of_length_pos (by omega)
  have rest : l.drop (4 ^ d) ≠ [] := ne_nil_of_length_pos (by rw [length_drop]; omega)
  obtain ⟨t, packed⟩ : ∃ t, pack d _ = some t := exists_pack nonempty
  obtain ⟨t', packed'⟩ : ∃ t, pack d _ = some t := exists_pack rest
  rw [pack_succ, packs_succ packed, packs_succ packed', wrap]

theorem pack_of_le (short : l.length ≤ 4 ^ d) (deeper : d ≤ e) : pack e l = pack d l := by
  induction deeper with
  | refl => rfl
  | @step e deeper ih =>
    have : 4 ^ d ≤ 4 ^ e := Nat.pow_le_pow_right (by decide) deeper
    rw [pack_succ_of_le (by omega), ih]

theorem pack_eq_pack (short : l.length ≤ 4 ^ d) (short' : l.length ≤ 4 ^ e) : pack d l = pack e l := by
  rcases le_total d e with deeper | deeper
  · rw [pack_of_le short deeper]
  · rw [pack_of_le short' deeper]

theorem split_last (long : 4 ^ d < l.length) (short : l.length ≤ 4 ^ (d + 1)) :
    ∃ q A B t, l = A ++ B ∧ A.length = q * 4 ^ d ∧ 1 ≤ q ∧ q ≤ 3 ∧ B ≠ [] ∧ B.length ≤ 4 ^ d ∧ pack d B = some t ∧
      packs d 4 l = packs d q A ++ [t] := by
  have power : 0 < 4 ^ d := Nat.pow_pos (by decide)
  have division := div_add_mod (l.length - 1) (4 ^ d)
  have remainder := mod_lt (l.length - 1) power
  have atLeast : 1 ≤ (l.length - 1) / 4 ^ d := (one_le_div_iff power).mpr (by omega)
  have atMost : (l.length - 1) / 4 ^ d < 4 := (div_lt_iff_lt_mul power).mpr (by omega)
  generalize (l.length - 1) / 4 ^ d = q at *
  generalize (l.length - 1) % 4 ^ d = r at *
  have bound : q * 4 ^ d < l.length := by
    rw [mul_comm q]
    omega
  have size : (l.drop (q * 4 ^ d)).length = r + 1 := by
    rw [length_drop, mul_comm q]
    omega
  have nonempty : l.drop (q * 4 ^ d) ≠ [] := ne_nil_of_length_pos (by omega)
  obtain ⟨t, packed⟩ : ∃ t, pack d _ = some t := exists_pack nonempty
  have length : (l.take (q * 4 ^ d)).length = q * 4 ^ d := by
    rw [length_take]
    omega
  refine ⟨q, l.take (q * 4 ^ d), l.drop (q * 4 ^ d), t, (take_append_drop _ _).symm, length, atLeast, by omega,
    nonempty, by omega, packed, ?_⟩
  obtain ⟨m, count⟩ : ∃ m, 4 = q + (m + 1) := ⟨3 - q, by omega⟩
  have parts : packs d 4 l = packs d (q + (m + 1)) (l.take (q * 4 ^ d) ++ l.drop (q * 4 ^ d)) := by
    rw [← count, take_append_drop]
  rw [parts, packs_append length, packs_single packed (by omega)]

theorem packs_getElem? (inside : i < n) : (packs d n l)[i]? = pack d (l.drop (i * 4 ^ d)) := by
  induction n generalizing l i with
  | zero => omega
  | succ n ih =>
    cases packed : pack d l with
    | none =>
      have empty := pack_eq_none_iff.mp packed
      subst empty
      simp [pack_eq_none_iff.mpr]
    | some t =>
      rw [packs_succ packed]
      cases i with
      | zero => simp [packed]
      | succ i =>
        rw [getElem?_cons_succ, ih (lt_of_succ_lt_succ inside), drop_drop]
        congr 2
        ring

theorem packs_full_length (length : A.length = q * 4 ^ d) : (packs d q A).length = q := by
  induction q generalizing A with
  | zero => simp
  | succ q ih =>
    have power : 0 < 4 ^ d := Nat.pow_pos (by decide)
    rw [add_mul] at length
    have nonempty : A ≠ [] := ne_nil_of_length_pos (by omega)
    obtain ⟨t, packed⟩ : ∃ t, pack d A = some t := exists_pack nonempty
    rw [packs_succ packed, length_cons, ih (by rw [length_drop]; omega)]

theorem complete_operands (long : 4 ^ d < (A ++ B).length)
    (length : A.length = q * 4 ^ d) (atMost : q ≤ 3) (packed : pack d (B ++ R) = some sub) :
    let v := packs d q A ++ [sub]
    pack (d + 1) (A ++ B ++ R) = some (node (d + 1) (v ++ packs d (4 - v.length) ((B ++ R).drop (4 ^ d)))) ∧
      ((B ++ R).drop (4 ^ d)).drop ((4 - v.length) * 4 ^ d) = (A ++ B ++ R).drop (4 ^ (d + 1)) := by
  have parts : 4 = q + (4 - (q + 1) + 1) := by omega
  have operands : (packs d q A ++ [sub]).length = q + 1 := by
    rw [length_append, packs_full_length length, length_singleton]
  constructor
  · rw [length_append] at long
    rw [pack_succ_of_lt (by simp only [length_append]; omega), operands, append_assoc A,
      append_assoc (packs d q A), singleton_append, ← packs_succ packed, ← packs_append length, ← parts]
  · have split : 4 ^ (d + 1) = q * 4 ^ d + (4 ^ d + (4 - (q + 1)) * 4 ^ d) := by
      calc 4 ^ (d + 1) = (q + (4 - (q + 1) + 1)) * 4 ^ d := by rw [← parts, pow_succ']
        _ = _ := by ring
    rw [operands, drop_drop, append_assoc, split, ← length, drop_length_add_append]

theorem length_le_of_packs (fewer : (packs d n l).length < n) : l.length ≤ (packs d n l).length * 4 ^ d := by
  induction n generalizing l with
  | zero => simp at fewer
  | succ n ih =>
    cases packed : pack d l with
    | none => simp [pack_eq_none_iff.mp packed]
    | some t =>
      rw [packs_succ packed, length_cons] at fewer ⊢
      have rest := ih (l := l.drop (4 ^ d)) (by omega)
      rw [length_drop] at rest
      rw [add_mul]
      omega

theorem pack_above (packed : pack d l = some t) (full : l.length = 4 ^ d) (more : l' ≠ []) :
    pack (d + 1) (l ++ l') = some (node (d + 1) (t :: packs d 3 l')) := by
  have pos := length_pos_iff.mpr more
  rw [pack_succ_of_lt (by rw [length_append]; omega), show 4 = 1 + 3 from rfl,
    packs_append (by omega), packs_single packed (by omega), singleton_append]

theorem appendLoop_eq (packed : pack d l = some t)
    (full : l.length = 4 ^ d ∨ (l.length ≤ 4 ^ d ∧ source = [])) (enough : source.length < rounds)
    (deep : (l ++ source).length ≤ 4 ^ D) : pack D (l ++ source) = some (appendLoop rounds d t source) := by
  induction rounds generalizing d l t source with
  | zero => omega
  | succ rounds ih =>
    simp only [appendLoop, fanout_eq, collectSource_eq, Nat.add_one_sub_one]
    by_cases empty : source = []
    · subst empty
      have short : l.length ≤ 4 ^ d := by omega
      rw [packs_nil, if_pos rfl, append_nil]
      rw [append_nil] at deep
      rw [pack_eq_pack deep short, packed]
    have full : l.length = 4 ^ d := by tauto
    obtain ⟨t', packed'⟩ : ∃ t', pack d source = some t' := exists_pack empty
    have above := pack_above packed full empty
    have pos := length_pos_iff.mpr empty
    have power : 0 < 4 ^ d := Nat.pow_pos (by decide)
    rw [if_neg (by rw [packs_succ packed']; exact cons_ne_nil _ _)]
    split
    · next fewer =>
      have taken := length_le_of_packs fewer
      have count : (packs d 3 source).length ≤ 2 := by omega
      have : (packs d 3 source).length * 4 ^ d ≤ 2 * 4 ^ d := Nat.mul_le_mul_right _ count
      have short : (l ++ source).length ≤ 4 ^ (d + 1) := by
        rw [length_append]
        omega
      rw [pack_eq_pack deep short, above]
    · have parts : l ++ source = (l ++ source.take (3 * 4 ^ d)) ++ source.drop (3 * 4 ^ d) := by
        rw [List.append_assoc, take_append_drop]
      have packed'' : pack (d + 1) (l ++ source.take (3 * 4 ^ d)) = some (node (d + 1) (t :: packs d 3 source)) := by
        rw [← above]
        apply pack_congr
        rw [take_append, take_append, take_take]
        congr 2
        omega
      rw [parts] at deep ⊢
      apply ih packed'' _ _ deep
      · rw [length_append, length_take]
        by_cases long : 3 * 4 ^ d ≤ source.length
        · left
          omega
        · right
          exact ⟨by omega, drop_of_length_le (by omega)⟩
      · rw [length_drop]
        omega

theorem fromArray_eq (deep : l.length ≤ 4 ^ D) : fromArray l = pack D l := by
  cases l with
  | nil => exact (pack_eq_none_iff.mpr rfl).symm
  | cons a rest =>
    have packed : pack 0 [a] = some (leaf a) := rfl
    exact (appendLoop_eq packed (.inl rfl) (lt_succ_self _) deep).symm

end Culibs.Cuex.Ltree
