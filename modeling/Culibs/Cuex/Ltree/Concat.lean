import Culibs.Cuex.Ltree.Iterator

namespace Culibs.Cuex.Ltree

open List Option Nat

section Concat

variable {α : Type} {d D n q : Nat} {l xs ys zs W R : List α} {t : Ltree α} {a : α} {itr : Itr α}

/-- What a constructor does with an iterator that yields `source`. -/
def Draws {β : Type} (result : Option (β × Itr α)) (value : β) (source : List α) : Prop :=
  ∃ itr, result = some (value, itr) ∧ Yields itr source

theorem collect_draws
    (fresh : ∀ {itr : Itr α} {l : List α}, Yields itr l → l ≠ [] →
      ∃ t, pack d l = some t ∧ Draws (fresh d itr) t (l.drop (4 ^ d)))
    (yields : Yields itr l) : Draws (collect (Ltree.fresh d) n itr) (packs d n l) (l.drop (n * 4 ^ d)) := by
  induction n generalizing itr l with
  | zero =>
    rw [zero_mul, drop_zero]
    exact ⟨itr, rfl, yields⟩
  | succ n ih =>
    rw [collect]
    by_cases empty : l = []
    · rw [if_pos (yields.isEnd_iff.mpr empty)]
      subst empty
      refine ⟨itr, by rw [packs_nil], ?_⟩
      rwa [drop_nil]
    · rw [if_neg (fun atEnd => empty (yields.isEnd_iff.mp atEnd))]
      obtain ⟨t, packed, itr', drawn, rest⟩ := fresh yields empty
      obtain ⟨itr'', collected, left⟩ := ih rest
      refine ⟨itr'', ?_, ?_⟩
      · simp only [drawn, collected, packs_succ packed, bind_eq_bind, bind_some]
      · rw [drop_drop] at left
        rwa [add_mul, one_mul, add_comm]

private theorem fresh_draws (yields : Yields itr l) (nonempty : l ≠ []) :
    ∃ t, pack d l = some t ∧ Draws (fresh d itr) t (l.drop (4 ^ d)) := by
  induction d generalizing itr l with
  | zero =>
    cases l with
    | nil => exact absurd rfl nonempty
    | cons a l =>
      obtain ⟨_, itr', got, rest⟩ := yields
      exact ⟨leaf a, rfl, itr', by rw [fresh, got], rest⟩
  | succ d ih =>
    obtain ⟨itr', collected, rest⟩ := collect_draws (n := 4) ih yields
    obtain ⟨t, packed⟩ := exists_pack (d := d + 1) nonempty
    refine ⟨t, packed, itr', ?_, ?_⟩
    · rw [fresh, fanout_eq, collected]
      simp only [bind_eq_bind, bind_some]
      rw [pack_succ] at packed
      generalize packs d 4 l = v at packed
      match v with
      | [] => cases packed
      | [x] =>
        cases packed
        rfl
      | x :: y :: v =>
        cases packed
        rfl
    · rwa [pow_succ']

theorem collect_fresh (yields : Yields itr l) :
    Draws (collect (fresh d) n itr) (packs d n l) (l.drop (n * 4 ^ d)) :=
  collect_draws fresh_draws yields

private theorem fillLoop_draws (levels : Nat) (yields : Yields itr R)
    (completed : pack (d + 1) W = some (node (d + 1) (v ++ packs d (4 - v.length) R)))
    (left : R.drop ((4 - v.length) * 4 ^ d) = W.drop (4 ^ (d + 1))) :
    ∃ t, pack (d + 1 + levels) W = some t ∧
      Draws (fillLoop levels (d + 1) v itr) t (W.drop (4 ^ (d + 1 + levels))) := by
  induction levels generalizing d v R itr with
  | zero =>
    obtain ⟨itr', collected, rest⟩ := collect_fresh (d := d) (n := 4 - v.length) yields
    rw [left] at rest
    refine ⟨_, completed, itr', ?_, rest⟩
    rw [fillLoop, Nat.add_sub_cancel, fanout_eq, collected]
    rfl
  | succ levels ih =>
    obtain ⟨itr', collected, rest⟩ := collect_fresh (d := d) (n := 4 - v.length) yields
    rw [left] at rest
    have above : d + 1 + (levels + 1) = d + 1 + 1 + levels := by omega
    rw [fillLoop, Nat.add_sub_cancel, fanout_eq, collected]
    simp only [bind_eq_bind, bind_some]
    by_cases complete : W.drop (4 ^ (d + 1)) = []
    · have short : W.length ≤ 4 ^ (d + 1) := drop_eq_nil_iff.mp complete
      have deeper : 4 ^ (d + 1) ≤ 4 ^ (d + 1 + (levels + 1)) := Nat.pow_le_pow_right (by decide) (by omega)
      rw [if_pos (rest.isEnd_iff.mpr complete), pack_of_le short (by omega)]
      refine ⟨_, completed, itr', rfl, ?_⟩
      rw [complete] at rest
      rwa [drop_of_length_le (by omega)]
    · have long : 4 ^ (d + 1) < W.length := by
        by_contra short
        exact complete (drop_of_length_le (by omega))
      rw [if_neg (fun atEnd => complete (rest.isEnd_iff.mp atEnd)), above]
      apply ih rest
      · rw [pack_succ_of_lt long, packs_succ completed]
        rfl
      · rw [drop_drop]
        congr 1
        rw [length_singleton, pow_succ' (n := d + 1)]
        omega

private theorem fill_draws (packed : pack D l = some t) (short : l.length ≤ 4 ^ D) (yields : Yields itr R) (more : R ≠ []) :
    ∃ t', pack D (l ++ R) = some t' ∧ Draws (fill D t itr) t' ((l ++ R).drop (4 ^ D)) := by
  induction D using Nat.strongRecOn generalizing l t with
  | ind D ih =>
    rcases pack_cases packed short with ⟨a, rfl, rfl⟩ | ⟨d, long, least, rfl⟩
    · cases D with
      | zero => exact ⟨leaf a, rfl, itr, by simp [fill], yields⟩
      | succ D =>
        have above := pack_above (d := 0) (l := [a]) rfl rfl more
        have filled := fillLoop_draws D (v := [leaf a]) yields above (by simp)
        rw [fill, if_neg (Nat.succ_ne_zero D), Nat.add_sub_cancel, Nat.add_comm D 1]
        simpa only [Nat.zero_add] using filled
    · have inside : d < D := by
        by_contra outside
        have : 4 ^ D ≤ 4 ^ d := Nat.pow_le_pow_right (by decide) (by omega)
        omega
      obtain ⟨q, A, B, tB, rfl, length, pos, atMost, _, shortB, packedB, split⟩ := split_last long least
      obtain ⟨levels, deep⟩ : ∃ levels, D = d + 1 + levels := ⟨D - (d + 1), by omega⟩
      subst deep
      have completion {sub : Ltree α} {itr' : Itr α} (packed' : pack d (B ++ R) = some sub)
          (rest : Yields itr' ((B ++ R).drop (4 ^ d))) :
          ∃ t', pack (d + 1 + levels) (A ++ B ++ R) = some t' ∧
            Draws (fillLoop levels (d + 1) (packs d q A ++ [sub]) itr') t'
              ((A ++ B ++ R).drop (4 ^ (d + 1 + levels))) := by
        obtain ⟨completed, left⟩ := complete_operands long length atMost packed'
        exact fillLoop_draws levels rest completed left
      rw [fill, dif_neg (by rw [split]; simp)]
      simp only [split, getLast_concat, dropLast_concat, Nat.add_sub_cancel_left]
      cases d with
      | zero =>
        obtain ⟨b, rfl, rfl⟩ := pack_zero_eq_some packedB shortB
        exact completion rfl yields
      | succ d =>
        obtain ⟨sub, packed', itr', filled, rest⟩ := ih (d + 1) inside packedB shortB
        rw [if_pos (by omega), Nat.add_sub_cancel, filled]
        exact completion packed' rest

private theorem concatLoop_eq (packed : pack d W = some t) (yields : Yields itr (W.drop (4 ^ d)))
    (enough : (W.drop (4 ^ d)).length ≤ rounds) (deep : W.length ≤ 4 ^ D) : concatLoop rounds d t itr = pack D W := by
  induction rounds generalizing d t itr with
  | zero =>
    have finished : W.drop (4 ^ d) = [] := eq_nil_of_length_eq_zero (by omega)
    rw [concatLoop, if_pos (yields.isEnd_iff.mpr finished), ← packed]
    exact pack_eq_pack (drop_eq_nil_iff.mp finished) deep
  | succ rounds ih =>
    rw [concatLoop]
    by_cases finished : W.drop (4 ^ d) = []
    · rw [if_pos (yields.isEnd_iff.mpr finished), ← packed]
      exact pack_eq_pack (drop_eq_nil_iff.mp finished) deep
    have long : 4 ^ d < W.length := by
      by_contra short
      exact finished (drop_of_length_le (by omega))
    have power : 0 < 4 ^ d := Nat.pow_pos (by decide)
    have next : (W.drop (4 ^ d)).drop (3 * 4 ^ d) = W.drop (4 ^ (d + 1)) := by
      rw [drop_drop]
      congr 1
      ring
    obtain ⟨itr', collected, rest⟩ := collect_fresh (d := d) (n := 3) yields
    rw [next] at rest
    rw [if_neg (fun atEnd => finished (yields.isEnd_iff.mp atEnd)), fanout_eq, collected]
    apply ih _ rest
    · rw [← next, length_drop]
      omega
    · rw [pack_succ_of_lt long, packs_succ packed]

/-- The sizes for which the size of the right operand is defined. -/
def Sized (xs ys : List α) : Prop := xs = [] ∨ ys.length ≤ 2 ^ 32

theorem length_lt_power (l : List α) : l.length ≤ 4 ^ l.length := le_of_lt (Nat.lt_pow_self (by decide))

theorem fromArray_ne_none (nonempty : l ≠ []) : ∃ t, pack l.length l = some t ∧ fromArray l = some t := by
  obtain ⟨t, packed⟩ := exists_pack (d := l.length) nonempty
  exact ⟨t, packed, by rw [fromArray_eq (length_lt_power l), packed]⟩

theorem concat_eq (sized : Sized xs ys) : concat (fromArray xs) (fromArray ys) = some (fromArray (xs ++ ys)) := by
  by_cases emptyX : xs = []
  · subst emptyX
    rfl
  by_cases emptyY : ys = []
  · subst emptyY
    obtain ⟨x, _, fromX⟩ := fromArray_ne_none emptyX
    rw [append_nil, fromX]
    rfl
  have short : ys.length ≤ 2 ^ 32 := sized.resolve_left emptyX
  obtain ⟨x, packedX, fromX⟩ := fromArray_ne_none emptyX
  obtain ⟨y, packedY, fromY⟩ := fromArray_ne_none emptyY
  obtain ⟨itr, started, yields⟩ := initFull_yields packedY (length_lt_power ys) (le_trans short (by decide))
  have deep := length_lt_power (xs ++ ys)
  rw [fromX, fromY, concat, started, fromArray_eq deep]
  rcases pack_cases packedX (length_lt_power xs) with ⟨a, rfl, rfl⟩ | ⟨d, long, least, rfl⟩
  · have loop : concatLoop (itr.iEnd - itr.iCur) 0 (leaf a) itr = pack ([a] ++ ys).length ([a] ++ ys) :=
      concatLoop_eq rfl yields (le_of_eq yields.left.symm) deep
    obtain ⟨t, packed⟩ := exists_pack (d := ([a] ++ ys).length) (l := [a] ++ ys) (by simp)
    simp only [bind_eq_bind, bind_some, loop, packed]
  · obtain ⟨t, packed, itr', filled, rest⟩ := fill_draws (pack_succ_of_lt long) least yields emptyY
    have loop : concatLoop (itr'.iEnd - itr'.iCur) (d + 1) t itr' = pack (xs ++ ys).length (xs ++ ys) :=
      concatLoop_eq packed rest (le_of_eq rest.left.symm) deep
    obtain ⟨t', packed'⟩ := exists_pack (d := (xs ++ ys).length) (l := xs ++ ys) (by simp [emptyX])
    simp only [bind_eq_bind, bind_some, filled, loop, packed']

private theorem concat_eq_none (large : ¬Sized xs ys) : concat (fromArray xs) (fromArray ys) = none := by
  obtain ⟨emptyX, large⟩ := not_or.mp large
  have emptyY : ys ≠ [] := by
    rintro rfl
    simp at large
  obtain ⟨x, _, fromX⟩ := fromArray_ne_none emptyX
  obtain ⟨y, packedY, fromY⟩ := fromArray_ne_none emptyY
  have power : 4 ^ 16 = 2 ^ 32 := by decide
  rw [fromX, fromY, concat, initFull_eq_none packedY (length_lt_power ys) (by omega)]
  rfl

end Concat

section Canonical

variable {α : Type} {d n : Nat} {l xs ys zs : List α} {t : Ltree α}

mutual

def visited : Ltree α → List α
  | leaf a => [a]
  | node _ subs => visitedAll subs

def visitedAll : List (Ltree α) → List α
  | [] => []
  | x :: xs => visited x ++ visitedAll xs

end

def elements (x : Option (Ltree α)) : List α :=
  match x with
  | none => []
  | some x => visited x

theorem visited_pack (packed : pack d l = some t) : visited t = l.take (4 ^ d) := by
  induction d generalizing l t with
  | zero =>
    cases l with
    | nil => cases packed
    | cons a l =>
      cases packed
      rfl
  | succ d ih =>
    have several (n : Nat) (l : List α) : visitedAll (packs d n l) = l.take (n * 4 ^ d) := by
      induction n generalizing l with
      | zero => simp [visitedAll]
      | succ n ihn =>
        cases packed : pack d l with
        | none => simp [pack_eq_none_iff.mp packed, visitedAll]
        | some t =>
          have split : (n + 1) * 4 ^ d = 4 ^ d + n * 4 ^ d := by ring
          rw [packs_succ packed, visitedAll, ih packed, ihn, split, take_add]
    rcases lt_or_ge (4 ^ d) l.length with long | short
    · rw [pack_succ_of_lt long] at packed
      cases packed
      rw [visited, several, pow_succ']
    · have deeper : 4 ^ d ≤ 4 ^ (d + 1) := Nat.pow_le_pow_right (by decide) (by omega)
      rw [pack_succ_of_le short] at packed
      rw [ih packed, take_of_length_le short, take_of_length_le (by omega)]

theorem elements_fromArray (l : List α) : elements (fromArray l) = l := by
  cases packed : pack l.length l with
  | none =>
    rw [pack_eq_none_iff.mp packed]
    rfl
  | some t =>
    rw [fromArray_eq (length_lt_power l), packed, elements, visited_pack packed,
      take_of_length_le (length_lt_power l)]

/-- The trees built by `cuex_ltree_from_array` and `cuex_ltree_concat`. -/
inductive Built : Option (Ltree α) → Prop where
  | fromArray (l : List α) : Built (fromArray l)
  | concat {x y z : Option (Ltree α)} (left : Built x) (right : Built y) (result : concat x y = some z) : Built z

theorem concat_eq_some_iff :
    concat (fromArray xs) (fromArray ys) = some z ↔ Sized xs ys ∧ fromArray (xs ++ ys) = z := by
  by_cases sized : Sized xs ys
  · simp [concat_eq sized, sized]
  · simp [concat_eq_none sized, sized]

theorem Built.eq_fromArray (built : Built x) : Ltree.fromArray (elements x) = x := by
  induction built with
  | fromArray l => rw [elements_fromArray]
  | concat _ _ result left right =>
    rw [← left, ← right] at result
    obtain ⟨_, rfl⟩ := concat_eq_some_iff.mp result
    rw [elements_fromArray]

/-- Concatenation of trees is that of sequences where the size of the right tree is defined, and
built trees are the same object when they hold the same sequence. -/
theorem concat_canonical (xs ys zs : List α) :
    (concat (fromArray xs) (fromArray ys) = some (fromArray (xs ++ ys)) ↔ Sized xs ys) ∧
    (concat none (fromArray xs) = some (fromArray xs) ∧ concat (fromArray xs) none = some (fromArray xs)) ∧
    ((∃ t, (concat (fromArray xs) (fromArray ys)).bind (concat · (fromArray zs)) = some t ∧
        (concat (fromArray ys) (fromArray zs)).bind (concat (fromArray xs)) = some t) ↔
      (Sized xs ys ∧ Sized (xs ++ ys) zs) ∧ (Sized ys zs ∧ Sized xs (ys ++ zs))) ∧
    ∀ x y : Option (Ltree α), Built x → Built y → (x = y ↔ elements x = elements y) := by
  refine ⟨?_, ⟨rfl, ?_⟩, ?_, ?_⟩
  · simp [concat_eq_some_iff]
  · have unit : concat (fromArray xs) (fromArray []) = some (fromArray (xs ++ [])) := concat_eq (.inr (by simp))
    rwa [append_nil] at unit
  · simp only [bind_eq_some_iff, concat_eq_some_iff]
    constructor
    · rintro ⟨t, ⟨_, ⟨sizedXY, rfl⟩, left⟩, _, ⟨sizedYZ, rfl⟩, right⟩
      exact ⟨⟨sizedXY, (concat_eq_some_iff.mp left).1⟩, sizedYZ, (concat_eq_some_iff.mp right).1⟩
    · rintro ⟨⟨sizedXY, sizedLeft⟩, sizedYZ, sizedRight⟩
      refine ⟨fromArray (xs ++ ys ++ zs), ⟨_, ⟨sizedXY, rfl⟩, concat_eq sizedLeft⟩, _, ⟨sizedYZ, rfl⟩, ?_⟩
      rw [concat_eq sizedRight, append_assoc]
  · intro x y builtX builtY
    constructor
    · intro same
      rw [same]
    · intro same
      rw [← builtX.eq_fromArray, ← builtY.eq_fromArray, same]

/-- The size of a tree with more than `2 ^ 32` elements is undefined, hence the concatenation. -/
theorem concat_large_undefined :
    concat (fromArray [()]) (fromArray (replicate (2 ^ 32 + 1) ())) ≠
      some (fromArray ([()] ++ replicate (2 ^ 32 + 1) ())) := by
  intro packed
  have sized := (concat_eq_some_iff.mp packed).1
  rw [Sized, length_replicate] at sized
  simp at sized

end Canonical

end Culibs.Cuex.Ltree
