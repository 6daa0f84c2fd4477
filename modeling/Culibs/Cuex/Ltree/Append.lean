import Culibs.Cuex.Ltree.Concat

/-! Appending from a source. `ltree_fill_source` tries a level above a complete
subtree before it knows whether the source has more elements, and returns a node
with a single operand if not. -/

namespace Culibs.Cuex.Ltree

open List
open Nat (mul_zero pow_le_pow_right pow_pos pow_succ' sub_zero succ_ne_zero)

variable {α : Type} {d D n N q levels : Nat} {l R W ys : List α} {t : Ltree α} {a : α} {v : List (Ltree α)}

/-- A tree in which some node has a single operand. -/
inductive HasSingle : Ltree α → Prop where
  | here (depth : Nat) (x : Ltree α) : HasSingle (node depth [x])
  | sub {depth : Nat} {subs : List (Ltree α)} {x : Ltree α} (mem : x ∈ subs) (single : HasSingle x) :
    HasSingle (node depth subs)

private theorem not_single_pack (packed : pack d l = some t) : ¬HasSingle t := by
  induction d generalizing l t with
  | zero =>
    cases l with
    | nil => cases packed
    | cons a l =>
      cases packed
      nofun
  | succ d ih =>
    have several (n : Nat) (l : List α) : ∀ x ∈ packs d n l, ¬HasSingle x := by
      induction n generalizing l with
      | zero => simp
      | succ n ihn =>
        cases packed : pack d l with
        | none => simp [pack_eq_none_iff.mp packed]
        | some t =>
          rw [packs_succ packed]
          exact forall_mem_cons.mpr ⟨ih packed, ihn _⟩
    rw [pack_succ] at packed
    have parts := several 4 l
    generalize packs d 4 l = v at packed parts
    match v, packed, parts with
    | [x], packed, parts =>
      cases packed
      exact parts _ (mem_singleton_self _)
    | x :: y :: v, packed, parts =>
      cases packed
      intro single
      cases single with
      | sub mem single => exact parts _ mem single

variable {x : Ltree α}

theorem fillLoopSource_single (mem : x ∈ v) (single : HasSingle x) :
    HasSingle (fillLoopSource levels depth v R).1 := by
  induction levels generalizing depth v x R with
  | zero =>
    rw [fillLoopSource]
    dsimp only
    split <;> exact .sub (mem_append_left _ mem) single
  | succ levels ih =>
    rw [fillLoopSource]
    dsimp only
    split
    · exact .sub (mem_append_left _ mem) single
    · exact ih (mem_singleton_self _) (.sub (mem_append_left _ mem) single)

private theorem appendLoop_single (single : HasSingle t) : HasSingle (appendLoop rounds d t R) := by
  induction rounds generalizing d t R with
  | zero => exact single
  | succ rounds ih =>
    rw [appendLoop]
    dsimp only
    split
    · exact single
    split
    · exact .sub mem_cons_self single
    · exact ih (.sub mem_cons_self single)

/-- The last of four operands of a tree of depth `e` contains the last of `m`
elements, or the tree is a single element. -/
def Ends (e m : Nat) : Prop := 3 * 4 ^ e < 4 * m ∧ m ≤ 4 ^ e

/-- The loop that fills a tree of depth `d` with `W` ends with a single operand, which is a complete tree. -/
def Stops (levels d : Nat) (W : List α) (result : Ltree α × List α) : Prop :=
  ∃ e x, d ≤ e ∧ e < d + levels ∧ Ends e W.length ∧ pack e W = some x ∧ result = (node (e + 1) [x], [])

variable {result : Ltree α × List α}

theorem Stops.single (stops : Stops levels d W result) :
    (∃ e, d ≤ e ∧ e < d + levels ∧ Ends e W.length) ∧ HasSingle result.1 := by
  obtain ⟨e, x, least, below, ends, _, rfl⟩ := stops
  exact ⟨⟨e, least, below, ends⟩, .here _ _⟩

theorem fillLoopSource_nil (fewer : v.length < 4) : fillLoopSource levels (d + 1) v [] = (node (d + 1) v, []) := by
  cases levels <;> simp [fillLoopSource, collectSource_eq, fewer]

theorem fillLoopSource_full (full : v.length = 4) : fillLoopSource 0 (d + 1) v R = (node (d + 1) v, R) := by
  rw [fillLoopSource]
  simp [collectSource_eq, full]

theorem fillLoopSource_next (full : v.length = 4) :
    fillLoopSource (levels + 1) (d + 1) v R = fillLoopSource levels (d + 1 + 1) [node (d + 1) v] R := by
  rw [fillLoopSource]
  simp [collectSource_eq, full]

private theorem fillLoopSource_spec
    (completed : pack (d + 1) W = some (node (d + 1) (v ++ packs d (4 - v.length) R)))
    (left : R.drop ((4 - v.length) * 4 ^ d) = W.drop (4 ^ (d + 1))) :
    Stops levels (d + 1) W (fillLoopSource levels (d + 1) v R) ∨
    ((¬∃ e, d + 1 ≤ e ∧ e < d + 1 + levels ∧ Ends e W.length) ∧
      ∃ t, pack (d + 1 + levels) W = some t ∧
        fillLoopSource levels (d + 1) v R = (t, W.drop (4 ^ (d + 1 + levels)))) := by
  have long : 4 ^ d < W.length := by
    by_contra short
    rw [pack_succ_of_le (by omega)] at completed
    exact Nat.not_succ_le_self d (depth_le completed)
  have operands : packs d 4 W = v ++ packs d (4 - v.length) R := by
    simpa only [pack_succ_of_lt long, Option.some.injEq, node.injEq, true_and] using completed
  have power : 4 ^ (d + 1) = 4 * 4 ^ d := pow_succ'
  induction levels generalizing d v R with
  | zero =>
    right
    refine ⟨by rintro ⟨e, above, below, _⟩; omega, _, completed, ?_⟩
    rw [fillLoopSource, Nat.add_sub_cancel, fanout_eq, collectSource_eq, left]
    simp
  | succ levels ih =>
    rw [fillLoopSource, Nat.add_sub_cancel, fanout_eq, collectSource_eq, left]
    dsimp only
    split
    · next fewer =>
      rw [← operands] at fewer
      have short : W.length ≤ 3 * 4 ^ d :=
        Nat.le_trans (length_le_of_packs fewer) (Nat.mul_le_mul_right _ (by omega))
      right
      refine ⟨?_, _, (pack_of_le (by omega) (by omega)).trans completed, ?_⟩
      · rintro ⟨e, above, _, ends, _⟩
        have : 4 ^ (d + 1) ≤ 4 ^ e := pow_le_pow_right (by decide) above
        omega
      · have : 4 ^ (d + 1) ≤ 4 ^ (d + 1 + (levels + 1)) := pow_le_pow_right (by decide) (by omega)
        rw [drop_of_length_le (by omega), drop_of_length_le (by omega)]
    · next full =>
      rw [← operands] at full
      have last : 3 * 4 ^ d < W.length := by
        by_contra short
        have none : (packs d 4 W)[3]? = none := by
          rw [packs_getElem? (by decide), drop_of_length_le (by omega), pack_eq_none_iff]
        rw [getElem?_eq_none_iff] at none
        omega
      rcases lt_or_ge (4 ^ (d + 1)) W.length with longer | complete
      · have above : d + 1 + (levels + 1) = d + 1 + 1 + levels := by omega
        have next : pack (d + 1 + 1) W = some (node (d + 1 + 1)
            ([node (d + 1) (v ++ packs d (4 - v.length) R)] ++ packs (d + 1) 3 (W.drop (4 ^ (d + 1))))) := by
          rw [pack_succ_of_lt longer, packs_succ completed]
          rfl
        have remaining : (W.drop (4 ^ (d + 1))).drop ((4 - 1) * 4 ^ (d + 1)) = W.drop (4 ^ (d + 1 + 1)) := by
          rw [drop_drop]
          congr 1
          omega
        rcases ih next remaining longer (packs_succ completed) pow_succ' with
          ⟨e, x, least, below, rest⟩ | ⟨goesOn, filled⟩
        · exact .inl ⟨e, x, by omega, by omega, rest⟩
        · right
          rw [above]
          refine ⟨?_, filled⟩
          rintro ⟨e, least, below, ends⟩
          refine goesOn ⟨e, ?_, below, ends⟩
          by_contra equal
          obtain rfl : e = d + 1 := by omega
          exact Nat.not_lt_of_le ends.2 longer
      · left
        refine ⟨d + 1, _, le_rfl, by omega, ⟨by omega, complete⟩, completed, ?_⟩
        rw [drop_of_length_le complete, fillLoopSource_nil (by simp)]

/-- The source of `ltree_fill_source` runs out in a tree of `n` elements, of a depth up to `D`, when
there are `N` elements in all. -/
def EndsWithin (D n N : Nat) : Prop :=
  ∃ e q, (0 < q ∨ e < D) ∧ 4 ^ (e + 1) * q < n ∧ Ends e (N - 4 ^ (e + 1) * q)

private theorem endsWithin_last (pos : 0 < q) (nonempty : 0 < b) (short : b ≤ 4 ^ d)
    (atMost : q ≤ 3) (enough : q * 4 ^ d + b ≤ N) :
    EndsWithin D (q * 4 ^ d + b) N ↔
      EndsWithin d b (N - q * 4 ^ d) ∨ ∃ e, d + 1 ≤ e ∧ e < D ∧ Ends e N := by
  have least : 4 ^ d ≤ q * 4 ^ d := Nat.le_mul_of_pos_left _ pos
  have most : q * 4 ^ d ≤ 3 * 4 ^ d := Nat.mul_le_mul_right _ atMost
  have offset {e : Nat} (below : e < d) : q * 4 ^ d = 4 ^ (e + 1) * (q * 4 ^ (d - (e + 1))) := by
    rw [mul_left_comm, ← pow_add]
    congr 2
    omega
  constructor
  · rintro ⟨e, p, choice, started, ends⟩
    rcases eq_zero_or_pos p with rfl | later
    · right
      refine ⟨e, ?_, by omega, ends⟩
      by_contra below
      have : 4 ^ e ≤ 4 ^ d := pow_le_pow_right (by decide) (by omega)
      have := ends.2
      omega
    · left
      have below : e < d := by
        by_contra above
        have : 4 ^ (d + 1) ≤ 4 ^ (e + 1) := pow_le_pow_right (by decide) (by omega)
        have : 4 ^ (e + 1) ≤ 4 ^ (e + 1) * p := Nat.le_mul_of_pos_right _ later
        omega
      have reached : q * 4 ^ (d - (e + 1)) ≤ p := by
        by_contra before
        have : 4 ^ (e + 1) * (p + 1) ≤ q * 4 ^ d := by
          rw [offset below]
          exact Nat.mul_le_mul_left _ (by omega)
        have := ends.2
        rw [mul_add] at *
        omega
      have split : 4 ^ (e + 1) * (p - q * 4 ^ (d - (e + 1))) = 4 ^ (e + 1) * p - q * 4 ^ d := by
        rw [Nat.mul_sub, offset below]
      have covered : q * 4 ^ d ≤ 4 ^ (e + 1) * p := by
        rw [offset below]
        exact Nat.mul_le_mul_left _ reached
      refine ⟨e, p - q * 4 ^ (d - (e + 1)), .inr below, by omega, ?_⟩
      have rest : N - q * 4 ^ d - (4 ^ (e + 1) * p - q * 4 ^ d) = N - 4 ^ (e + 1) * p := by omega
      rwa [split, rest]
  · rintro (⟨e, p, choice, started, ends⟩ | ⟨e, above, below, ends⟩)
    · have below : e < d := by
        rcases choice with later | below
        · by_contra above
          have : 4 ^ d ≤ 4 ^ (e + 1) := pow_le_pow_right (by decide) (by omega)
          have : 4 ^ (e + 1) ≤ 4 ^ (e + 1) * p := Nat.le_mul_of_pos_right _ later
          omega
        · exact below
      have more : 0 < 4 ^ (d - (e + 1)) := pow_pos (by decide)
      have split : 4 ^ (e + 1) * (p + q * 4 ^ (d - (e + 1))) = 4 ^ (e + 1) * p + q * 4 ^ d := by
        rw [mul_add, ← offset below]
      have rest : N - (4 ^ (e + 1) * p + q * 4 ^ d) = N - q * 4 ^ d - 4 ^ (e + 1) * p := by omega
      refine ⟨e, p + q * 4 ^ (d - (e + 1)), .inl (Nat.add_pos_right _ (mul_pos pos more)), by omega, ?_⟩
      rwa [split, rest]
    · refine ⟨e, 0, .inr below, by omega, ?_⟩
      rwa [mul_zero, sub_zero]

def ActsAs (D : Nat) (x y : Ltree α) : Prop := ∀ R, fillSource D x R = fillSource D y R

theorem fillSource_node (atomic : d = 0 → ∃ a, x = leaf a) :
    fillSource (d + 1 + levels) (node (d + 1) (v ++ [x])) R =
      fillLoopSource levels (d + 1) (v ++ [(fillSource d x R).1]) (fillSource d x R).2 := by
  have inner : (if 1 < d + 1 then fillSource (d + 1 - 1) x R else (x, R)) = fillSource d x R := by
    cases d with
    | zero =>
      obtain ⟨a, rfl⟩ := atomic rfl
      simp [fillSource]
    | succ d => rw [if_pos (by omega), Nat.add_sub_cancel]
  rw [fillSource, dif_neg (by simp)]
  simp only [getLast_concat, dropLast_concat, Nat.add_sub_cancel_left, inner]

variable {y : Ltree α}

theorem ActsAs.last (acts : ActsAs (d + 1) x y) :
    ActsAs (d + 1 + 1 + levels) (node (d + 1 + 1) (v ++ [x])) (node (d + 1 + 1) (v ++ [y])) := by
  have atomic (z : Ltree α) : d + 1 = 0 → ∃ a, z = leaf a := fun none => absurd none (succ_ne_zero d)
  intro R
  rw [fillSource_node (atomic x), fillSource_node (atomic y), acts R]

/-- A tree of depth `e` with four operands, or a single element. -/
inductive Wide : Nat → Ltree α → Prop where
  | leaf (a : α) : Wide 0 (leaf a)
  | node {e : Nat} {v : List (Ltree α)} {x : Ltree α} (three : v.length = 3) (atomic : e = 0 → ∃ a, x = .leaf a) :
    Wide (e + 1) (node (e + 1) (v ++ [x]))

variable {e : Nat}

theorem Wide.fillSource_eq (wide : Wide e y) (R : List α) :
    fillSource (e + 1 + levels) y R = fillLoopSource levels (e + 1) [(fillSource e y R).1] (fillSource e y R).2 := by
  cases wide with
  | leaf a => rw [fillSource, fillSource, if_neg (by omega), if_pos rfl, Nat.add_sub_cancel_left]
  | @node e v x three atomic =>
    have above := @fillSource_node _ e (levels + 1) R v x atomic
    have same := @fillSource_node _ e 0 R v x atomic
    have four : (v ++ [(fillSource e x R).1]).length = 4 := by simp [three]
    rw [add_right_comm _ 1, add_assoc _ levels, above, same, fillLoopSource_full four, fillLoopSource_next four]

theorem ActsAs.single (acts : ActsAs e x y) (wide : Wide e y) (atomic : e = 0 → ∃ a, x = leaf a) :
    ActsAs (e + 1 + levels) (node (e + 1) [x]) y := by
  intro R
  rw [wide.fillSource_eq, ← acts R]
  exact fillSource_node (v := []) atomic

theorem Ends.wide (ends : Ends e W.length) (packed : pack e W = some x) : Wide e x := by
  cases e with
  | zero =>
    obtain ⟨a, rfl, rfl⟩ := pack_zero_eq_some packed ends.2
    exact .leaf a
  | succ d =>
    obtain ⟨most, short⟩ := ends
    have long : 4 ^ d < W.length := by omega
    obtain ⟨q, A, B, tB, rfl, length, pos, atMost, nonempty, shortB, packedB, split⟩ := split_last long short
    rw [length_append] at most
    obtain rfl : q = 3 := by
      by_contra fewer
      have : q * 4 ^ d ≤ 2 * 4 ^ d := Nat.mul_le_mul_right _ (by omega)
      omega
    rw [pack_succ_of_lt long, split] at packed
    cases packed
    refine .node (packs_full_length length) ?_
    rintro rfl
    obtain ⟨a, _, rfl⟩ := pack_zero_eq_some packedB shortB
    exact ⟨a, rfl⟩

/-- Filling a tree with the last elements of `W` uses up the source and gives a tree that is as good as that of `W`. -/
def RunsOut (D : Nat) (W : List α) (result : Ltree α × List α) : Prop :=
  0 < D ∧ W.length ≤ 4 ^ D ∧ result.2 = [] ∧ ∃ t, pack D W = some t ∧ ActsAs D result.1 t

theorem Stops.runsOut (stops : Stops levels d W result) : RunsOut (d + levels) W result := by
  obtain ⟨e, x, least, below, ends, packed, rfl⟩ := stops
  obtain ⟨k, equal⟩ : ∃ k, d + levels = e + 1 + k := ⟨d + levels - (e + 1), by omega⟩
  have deeper : e ≤ d + levels := by omega
  refine ⟨by omega, le_trans ends.2 (pow_le_pow_right (by decide) deeper), rfl, x,
    (pack_of_le ends.2 deeper).trans packed, ?_⟩
  rw [equal]
  refine ActsAs.single (fun _ => rfl) (ends.wide packed) ?_
  rintro rfl
  obtain ⟨a, _, rfl⟩ := pack_zero_eq_some packed ends.2
  exact ⟨a, rfl⟩

theorem RunsOut.last (runsOut : RunsOut d (B ++ R) (sub, []))
    (long : 4 ^ d < (A ++ B).length) (length : A.length = q * 4 ^ d) (atMost : q ≤ 3) :
    RunsOut (d + 1 + levels) (A ++ B ++ R) (fillLoopSource levels (d + 1) (packs d q A ++ [sub]) []) := by
  obtain ⟨pos, short, _, y, packed, acts⟩ := runsOut
  obtain ⟨d, rfl⟩ : ∃ e, d = e + 1 := ⟨d - 1, by omega⟩
  have operands := (complete_operands long length atMost packed).1
  have count : (packs (d + 1) q A).length = q := packs_full_length length
  rw [drop_of_length_le short, packs_nil, append_nil] at operands
  have fits : (A ++ B ++ R).length ≤ 4 ^ (d + 1 + 1) := by
    have : q * 4 ^ (d + 1) ≤ 3 * 4 ^ (d + 1) := Nat.mul_le_mul_right _ atMost
    rw [length_append] at short
    rw [length_append, length_append]
    omega
  have deeper : d + 1 + 1 ≤ d + 1 + 1 + levels := by omega
  refine ⟨by omega, le_trans fits (pow_le_pow_right (by decide) deeper), ?_⟩
  rw [pack_of_le fits deeper, operands]
  rcases lt_or_eq_of_le atMost with fewer | rfl
  · rw [fillLoopSource_nil (by rw [length_append, count]; exact Nat.succ_lt_succ fewer)]
    exact ⟨rfl, _, rfl, acts.last⟩
  have four : (packs (d + 1) 3 A ++ [sub]).length = 4 := by rw [length_append, count, length_singleton]
  cases levels with
  | zero =>
    rw [fillLoopSource_full four]
    exact ⟨rfl, _, rfl, acts.last⟩
  | succ levels =>
    have atomic (x : Ltree α) : d + 1 = 0 → ∃ a, x = leaf a := fun none => absurd none (succ_ne_zero _)
    rw [fillLoopSource_next four, fillLoopSource_nil (by simp), add_comm levels 1, ← add_assoc]
    have last : ActsAs (d + 1 + 1 + 0) (node (d + 1 + 1) (packs (d + 1) 3 A ++ [sub]))
      (node (d + 1 + 1) (packs (d + 1) 3 A ++ [y])) := acts.last
    exact ⟨rfl, _, rfl, ActsAs.single last (.node count (atomic _)) fun none => absurd none (succ_ne_zero _)⟩

theorem fillSource_spec (packed : pack D l = some t) (short : l.length ≤ 4 ^ D) :
    (EndsWithin D l.length (l.length + R.length) ∧ HasSingle (fillSource D t R).1 ∧
      RunsOut D (l ++ R) (fillSource D t R)) ∨
    (¬EndsWithin D l.length (l.length + R.length) ∧
      ∃ t', pack D (l ++ R) = some t' ∧ fillSource D t R = (t', (l ++ R).drop (4 ^ D))) := by
  induction D using Nat.strongRecOn generalizing l t with
  | ind D ih =>
    rcases pack_cases packed short with ⟨a, rfl, rfl⟩ | ⟨d, long, least, rfl⟩
    · cases D with
      | zero =>
        right
        refine ⟨?_, leaf a, rfl, by simp [fillSource]⟩
        rintro ⟨e, q, later | below, started, _⟩
        · have : 0 < 4 ^ (e + 1) * q := Nat.mul_pos (pow_pos (by decide)) later
          omega
        · omega
      | succ D =>
        rw [fillSource, if_neg (succ_ne_zero D), Nat.add_sub_cancel]
        by_cases empty : R = []
        · left
          subst empty
          have stops : Stops (D + 1) 0 [a] (node 1 [leaf a], []) :=
            ⟨0, leaf a, le_refl 0, by omega, by simp [Ends], rfl, rfl⟩
          rw [fillLoopSource_nil (by simp)]
          exact ⟨⟨0, 0, by simp [Ends]⟩, .here _ _, zero_add (D + 1) ▸ stops.runsOut⟩
        have above := pack_above (d := 0) (l := [a]) rfl rfl empty
        have pos := length_pos_iff.mpr empty
        have condition : EndsWithin (D + 1) [a].length ([a].length + R.length) ↔
            ∃ e, 0 + 1 ≤ e ∧ e < 0 + 1 + D ∧ Ends e ([a] ++ R).length := by
          rw [length_append]
          constructor
          · rintro ⟨e, q, choice, started, ends⟩
            have power : 0 < 4 ^ (e + 1) := pow_pos (by decide)
            have first : q = 0 := by
              by_contra later
              have : 0 < 4 ^ (e + 1) * q := mul_pos power (by omega)
              simp only [length_singleton] at started
              omega
            subst first
            refine ⟨e, ?_, by omega, ends⟩
            by_contra zero
            obtain rfl : e = 0 := by omega
            have := ends.2
            omega
          · rintro ⟨e, _, below, ends⟩
            refine ⟨e, 0, .inr (by omega), by simp, ?_⟩
            rwa [mul_zero, sub_zero]
        rw [condition, Nat.add_comm D 1]
        exact (fillLoopSource_spec above (by simp)).imp_left fun stops => ⟨stops.single.1, stops.single.2, stops.runsOut⟩
    · have inside : d < D := by
        by_contra outside
        have : 4 ^ D ≤ 4 ^ d := pow_le_pow_right (by decide) (by omega)
        omega
      obtain ⟨q, A, B, tB, rfl, length, pos, atMost, nonempty, shortB, packedB, split⟩ := split_last long least
      obtain ⟨levels, rfl⟩ : ∃ levels, D = d + 1 + levels := ⟨D - (d + 1), by omega⟩
      have atomic : d = 0 → ∃ a, tB = leaf a := by
        rintro rfl
        obtain ⟨b, _, rfl⟩ := pack_zero_eq_some packedB shortB
        exact ⟨b, rfl⟩
      have count : (A ++ B).length = q * 4 ^ d + B.length := by rw [length_append, length]
      have rest : (A ++ B).length + R.length - q * 4 ^ d = B.length + R.length := by omega
      have last := endsWithin_last (D := d + 1 + levels) (N := (A ++ B).length + R.length) pos
        (length_pos_iff.mpr nonempty) shortB atMost (by omega)
      rw [← count, rest] at last
      rw [split, fillSource_node atomic, last]
      rcases ih d inside packedB shortB with ⟨ends, single, runsOut⟩ | ⟨goesOn, sub, packed', filled⟩
      · left
        refine ⟨.inl ends, fillLoopSource_single (mem_append_right _ (mem_singleton_self _)) single, ?_⟩
        have rest := runsOut.2.2.1
        generalize fillSource d tB R = filled at runsOut rest
        obtain ⟨sub, source⟩ := filled
        subst rest
        exact runsOut.last long length atMost
      · obtain ⟨completed, left⟩ := complete_operands long length atMost packed'
        have total : (A ++ B ++ R).length = (A ++ B).length + R.length := length_append
        rw [filled, or_iff_right goesOn, ← total]
        exact (fillLoopSource_spec completed left).imp_left fun stops => ⟨stops.single.1, stops.single.2, stops.runsOut⟩

/-- A tree of `n` elements is extended to `N` elements by a source that runs out where `ltree_fill_source`
has just completed a subtree. -/
def EndsEarly (n N : Nat) : Prop := ∃ e q, 0 < q ∧ 4 ^ (e + 1) * q < n ∧ Ends e (N - 4 ^ (e + 1) * q)

theorem endsWithin_iff (long : 4 ^ d < n) (more : n ≤ N) : EndsWithin (d + 1) n N ↔ EndsEarly n N := by
  constructor
  · rintro ⟨e, q, choice, started, ends⟩
    refine ⟨e, q, ?_, started, ends⟩
    by_contra first
    obtain rfl : q = 0 := by omega
    have : 4 ^ e ≤ 4 ^ d := pow_le_pow_right (by decide) (by omega)
    have := ends.2
    omega
  · rintro ⟨e, q, later, started, ends⟩
    exact ⟨e, q, .inl later, started, ends⟩

theorem endsEarly_of_le_one (few : n ≤ 1) : ¬EndsEarly n N := by
  rintro ⟨e, q, later, started, _⟩
  have : 0 < 4 ^ (e + 1) * q := Nat.mul_pos (pow_pos (by decide)) later
  omega

theorem appendFromSource_eq_iff :
    appendFromSource (fromArray l) ys = fromArray (l ++ ys) ↔ ¬EndsEarly l.length (l.length + ys.length) := by
  by_cases empty : l = []
  · subst empty
    exact iff_of_true rfl (endsEarly_of_le_one (by simp))
  have deep := length_lt_power (l ++ ys)
  obtain ⟨x, packed, from_⟩ := fromArray_ne_none empty
  rw [from_, fromArray_eq deep]
  rcases pack_cases packed (length_lt_power l) with ⟨a, rfl, rfl⟩ | ⟨d, long, least, rfl⟩
  · refine iff_of_true ?_ (endsEarly_of_le_one (by simp))
    have packed' : pack 0 [a] = some (leaf a) := rfl
    exact (appendLoop_eq packed' (.inl rfl) (Nat.lt_succ_self _) deep).symm
  rw [← endsWithin_iff long (Nat.le_add_right _ _), appendFromSource]
  rcases fillSource_spec (R := ys) (pack_succ_of_lt long) least with ⟨ends, single, _⟩ | ⟨goesOn, t, packed', filled⟩
  · refine iff_of_false ?_ (not_not_intro ends)
    intro same
    exact not_single_pack same.symm (appendLoop_single single)
  refine iff_of_true ?_ goesOn
  rw [filled]
  have first : pack (d + 1) ((l ++ ys).take (4 ^ (d + 1))) = some t := by
    rw [← packed']
    apply pack_congr
    rw [take_take, Nat.min_self]
  have parts : (l ++ ys).take (4 ^ (d + 1)) ++ (l ++ ys).drop (4 ^ (d + 1)) = l ++ ys :=
    take_append_drop _ _
  have full : ((l ++ ys).take (4 ^ (d + 1))).length = 4 ^ (d + 1) ∨
      ((l ++ ys).take (4 ^ (d + 1))).length ≤ 4 ^ (d + 1) ∧ (l ++ ys).drop (4 ^ (d + 1)) = [] := by
    rw [length_take]
    rcases Nat.lt_or_ge (l ++ ys).length (4 ^ (d + 1)) with fewer | enough
    · exact .inr ⟨by omega, drop_of_length_le (by omega)⟩
    · left
      omega
  have looped := appendLoop_eq first full (Nat.lt_succ_self _) (by rwa [parts])
  rw [parts] at looped
  exact looped.symm

theorem fillSource_depth (subs : List (Ltree α)) : ∃ v, (fillSource d (node d subs) R).1 = node d v := by
  rw [fillSource]
  split
  · exact ⟨_, rfl⟩
  · simp only [Nat.sub_self, fillLoopSource, ite_self]
    exact ⟨_, rfl⟩

/-- Appending to a tree with single operands gives what appending to the proper tree gives. -/
theorem append_append (l R ys : List α) :
    appendFromSource (appendFromSource (fromArray l) R) ys = appendFromSource (fromArray (l ++ R)) ys := by
  by_cases early : EndsEarly l.length (l.length + R.length)
  swap
  · rw [appendFromSource_eq_iff.mpr early]
  have several : ¬l.length ≤ 1 := fun few => endsEarly_of_le_one few early
  obtain ⟨x, packed, from_⟩ := fromArray_ne_none (l := l) (by rintro rfl; simp at several)
  rcases pack_cases packed (length_lt_power l) with ⟨a, rfl, rfl⟩ | ⟨d, long, least, rfl⟩
  · simp at several
  rcases fillSource_spec (R := R) (pack_succ_of_lt long) least with ⟨_, _, _, short, atEnd, t, packed', acts⟩ | ⟨goesOn, _⟩
  swap
  · exact absurd ((endsWithin_iff long (Nat.le_add_right _ _)).mpr early) goesOn
  have whole : fromArray (l ++ R) = some (node (d + 1) (packs d 4 (l ++ R))) := by
    rw [fromArray_eq short, pack_succ_of_lt (by rw [length_append]; omega)]
  obtain ⟨v, filled⟩ := fillSource_depth (d := d + 1) (R := R) (packs d 4 l)
  have appended : appendFromSource (fromArray l) R = some (node (d + 1) v) := by
    have drawn : fillSource (d + 1) (node (d + 1) (packs d 4 l)) R = (node (d + 1) v, []) := Prod.ext filled atEnd
    rw [from_, appendFromSource, drawn]
    simp [appendLoop, collectSource_eq]
  rw [pack_succ_of_lt (by rw [length_append]; omega)] at packed'
  cases packed'
  rw [appended, whole, appendFromSource, appendFromSource, ← acts, filled]

theorem fromValistLoop_eq {t : Option (Ltree α)}
    (acts : ∀ ys, appendFromSource t ys = appendFromSource (fromArray l) ys) :
    let whole := 32 * (vl.length / 32)
    fromValistLoop t vl = appendFromSource (fromArray (l ++ vl.take whole)) (vl.drop whole) := by
  fun_induction fromValistLoop t vl generalizing l with
  | case1 t vl buf tree =>
    rename_i few
    simp only [buf, length_take] at few
    have none : vl.length / 32 = 0 := by omega
    have all : buf = vl := take_of_length_le (by omega)
    simp only [tree, none, all, acts, mul_zero, take_zero, drop_zero, append_nil]
  | case2 t vl buf tree =>
    rename_i full ih
    simp only [buf, length_take] at full
    have next (ys : List α) : appendFromSource (appendFromSource t buf) ys = appendFromSource (fromArray (l ++ buf)) ys := by
      rw [acts, append_append]
    have more : 32 * (vl.length / 32) = 32 + 32 * ((vl.drop 32).length / 32) := by
      rw [length_drop]
      omega
    rw [ih next, more]
    dsimp only
    rw [take_add, ← append_assoc, ← drop_drop]

theorem fromValist_eq_iff : fromValist l = fromArray l ↔ ¬EndsEarly (32 * (l.length / 32)) l.length := by
  have loop : fromValist l = _ := fromValistLoop_eq (l := []) fun _ => rfl
  have parts := @appendFromSource_eq_iff _ (l.take (32 * (l.length / 32))) (l.drop (32 * (l.length / 32)))
  have count : (l.take (32 * (l.length / 32))).length = 32 * (l.length / 32) := by
    rw [length_take]
    omega
  rw [← length_append, take_append_drop, count] at parts
  rw [loop, ← parts, nil_append]

/-- Appending gives the tree of the whole sequence unless the source runs out where a subtree has just been
completed. A list of arguments is appended 32 at a time. -/
theorem append_correct_iff (xs ys : List α) :
    (appendFromSource (fromArray xs) ys = fromArray (xs ++ ys) ↔ ¬EndsEarly xs.length (xs.length + ys.length)) ∧
    (fromValist xs = fromArray xs ↔ ¬EndsEarly (32 * (xs.length / 32)) xs.length) :=
  ⟨appendFromSource_eq_iff, fromValist_eq_iff⟩

/-- Appending nothing to five elements, three elements to 17, and 320 arguments. -/
theorem append_differs :
    appendFromSource (fromArray (range 5)) [] ≠ fromArray (range 5 ++ []) ∧
    appendFromSource (fromArray (range 17)) (range 3) ≠ fromArray (range 17 ++ range 3) ∧
    fromValist (range 320) ≠ fromArray (range 320) := by
  refine ⟨fun same => appendFromSource_eq_iff.mp same ⟨0, 1, ?_⟩, fun same => appendFromSource_eq_iff.mp same ⟨1, 1, ?_⟩,
    fun same => fromValist_eq_iff.mp same ⟨3, 1, ?_⟩⟩ <;> simp [Ends]

end Culibs.Cuex.Ltree
