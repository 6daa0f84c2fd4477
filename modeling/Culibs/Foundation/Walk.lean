import Culibs.Foundation.Buckets
import Mathlib.Algebra.BigOperators.Group.Finset.Basic

/-! Loops over all chains of a hash table that do not change these chains. -/

namespace Culibs.Buckets

open List Finset Option

variable {α β : Type}

section Loops

variable [DecidableEq α] (null : α) (next : α → α)

/-- `while (node) { if (!test(node)) return false; node = node->next; }` -/
def conjLoop (test : α → Option Bool) : Nat → α → Option Bool
  | 0, _ => none
  | fuel + 1, node =>
    if node = null then some true
    else (test node).bind fun holds => if holds then conjLoop test fuel (next node) else some false

/-- `while (node) { acc = step(acc, node); node = node->next; }` -/
def foldLoop (step : β → α → β) : Nat → α → β → Option β
  | 0, _, _ => none
  | fuel + 1, node, acc => if node = null then some acc else foldLoop step fuel (next node) (step acc node)

end Loops

/-- A loop over indices, up to one with the result false. -/
def conjAll (body : Nat → Option Bool) : List Nat → Option Bool
  | [] => some true
  | i :: rest => (body i).bind fun holds => if holds then conjAll body rest else some false

variable {body : Nat → Option Bool}

theorem conjAll_eq (each : ∀ i ∈ l, body i = some (holds i)) :
    conjAll body l = some (l.all holds) := by
  induction l with
  | nil => rfl
  | cons i l ih =>
    obtain ⟨first, rest⟩ := forall_mem_cons.mp each
    rw [conjAll, first, bind_some, all_cons, ih rest]
    cases holds i <;> rfl

theorem conjAll_append (before : ∀ i ∈ first, body i = some true) :
    conjAll body (first ++ rest) = conjAll body rest := by
  induction first with
  | nil => rfl
  | cons i first ih =>
    obtain ⟨here, before⟩ := forall_mem_cons.mp before
    rw [cons_append, conjAll, here, bind_some, if_pos rfl, ih before]

variable [DecidableEq α] {null first : α} {next : α → α} {xs : List α} {fuel : Nat}
variable {holds : α → Bool} {test : α → Option Bool}

theorem conjLoop_eq (path : Path next null first xs)
    (each : ∀ a ∈ xs, test a = some (holds a)) (enough : xs.length < fuel) :
    conjLoop null next test fuel first = some (xs.all holds) := by
  induction xs generalizing first fuel with
  | nil =>
    obtain ⟨fuel, rfl⟩ := Nat.exists_eq_add_of_lt enough
    rw [conjLoop, if_pos (show first = null from path)]
    rfl
  | cons x xs ih =>
    obtain ⟨rfl, nonnull, rest⟩ := path
    obtain ⟨here, each⟩ := forall_mem_cons.mp each
    cases fuel with
    | zero => exact absurd enough (Nat.not_lt_zero _)
    | succ fuel =>
      rw [conjLoop, if_neg nonnull, here, bind_some, ih rest each (Nat.lt_of_succ_lt_succ enough), all_cons]
      cases holds first <;> rfl

theorem foldLoop_eq (path : Path next null first xs) (enough : xs.length < fuel) (acc : β) :
    foldLoop null next step fuel first acc = some (xs.foldl step acc) := by
  induction xs generalizing first fuel acc with
  | nil =>
    obtain ⟨fuel, rfl⟩ := Nat.exists_eq_add_of_lt enough
    rw [foldLoop, if_pos (show first = null from path)]
    rfl
  | cons x xs ih =>
    obtain ⟨rfl, nonnull, rest⟩ := path
    cases fuel with
    | zero => exact absurd enough (Nat.not_lt_zero _)
    | succ fuel => rw [foldLoop, if_neg nonnull, ih rest (Nat.lt_of_succ_lt_succ enough), foldl_cons]

variable {t : Buckets α} {cap : Nat} {index : α → Nat} {nodes : Finset α} {read : Nat → Option α}

theorem length_lt_of_part (enough : nodes.card < fuel)
    (distinct : xs.Nodup) (isPart : xs.toFinset = nodes.filter fun a => index a = i) : xs.length < fuel := by
  rw [← toFinset_card_of_nodup distinct, isPart]
  exact lt_of_le_of_lt (card_filter_le ..) enough

theorem Chained.conjAll (chained : Chained t null cap index nodes) (reads : ∀ i < cap, read i = t.heads[i]?)
    (each : ∀ a ∈ nodes, test a = some (holds a))
    (enough : nodes.card < fuel) :
    ∃ result, conjAll (fun i => (read i).bind (conjLoop null t.next test fuel)) (List.range cap) = some result ∧
      (result = true ↔ ∀ a ∈ nodes, holds a = true) := by
  have inChain (i : Nat) (bound : i < cap) :
      ∃ result, (read i).bind (conjLoop null t.next test fuel) = some result ∧
        (result = true ↔ ∀ a ∈ nodes, index a = i → holds a = true) := by
    obtain ⟨first, held, xs, path, distinct, isPart⟩ := chained.chain i bound
    have mem (a : α) : a ∈ xs ↔ a ∈ nodes ∧ index a = i := by
      rw [← List.mem_toFinset, isPart, Finset.mem_filter]
    refine ⟨xs.all holds, ?_, ?_⟩
    · rw [reads i bound, held]
      exact conjLoop_eq path (fun a here => each a ((mem a).mp here).1) (length_lt_of_part enough distinct isPart)
    · simp only [List.all_eq_true, mem, and_imp]
  choose! result isResult right using inChain
  refine ⟨_, conjAll_eq fun i mem => isResult i (List.mem_range.mp mem), ?_⟩
  rw [List.all_eq_true]
  constructor
  · intro all a mem
    have bound := chained.inside a mem
    exact (right _ bound).mp (all _ (List.mem_range.mpr bound)) a mem rfl
  · exact fun all i bound => (right i (List.mem_range.mp bound)).mpr fun a mem _ => all a mem

/-- The loop over the first chains adds up the values of their nodes. -/
theorem Chained.foldM_sum [AddCommMonoid β] (chained : Chained t null cap index nodes)
    (reads : ∀ i < cap, read i = t.heads[i]?) (value : α → β) (enough : nodes.card < fuel) {count : Nat}
    (few : count ≤ cap) (acc : β) :
    (List.range count).foldlM (fun acc i => (read i).bind fun first =>
      foldLoop null t.next (fun acc a => acc + value a) fuel first acc) acc =
    some (acc + ∑ a ∈ nodes.filter fun a => index a < count, value a) := by
  induction count with
  | zero =>
    rw [List.range_zero, foldlM_nil, filter_false_of_mem fun a _ => Nat.not_lt_zero _, sum_empty, add_zero]
    rfl
  | succ count ih =>
    obtain ⟨first, held, xs, path, distinct, isPart⟩ := chained.chain count few
    have sum : xs.foldl (fun acc a => acc + value a) (acc + ∑ a ∈ nodes.filter fun a => index a < count, value a) =
        acc + ∑ a ∈ nodes.filter fun a => index a < count + 1, value a := by
      have split : (nodes.filter fun a => index a < count + 1) =
          (nodes.filter fun a => index a < count) ∪ nodes.filter fun a => index a = count := by
        rw [← filter_or]
        exact filter_congr fun a _ => Nat.lt_succ_iff_lt_or_eq
      have apart : Disjoint (nodes.filter fun a => index a < count) (nodes.filter fun a => index a = count) :=
        disjoint_filter.mpr fun a _ less same => ne_of_lt less same
      rw [split, sum_union apart, ← isPart, sum_toFinset _ distinct, ← add_assoc]
      generalize acc + ∑ a ∈ nodes.filter fun a => index a < count, value a = start
      clear path distinct isPart
      induction xs generalizing start with
      | nil => rw [foldl_nil, map_nil, sum_nil, add_zero]
      | cons x xs ih => rw [foldl_cons, ih, List.map_cons, List.sum_cons, add_assoc]
    rw [range_succ, foldlM_append, ih (Nat.le_of_succ_le few)]
    simp only [bind_eq_bind, bind_some, foldlM_cons, foldlM_nil, reads count few, held,
      foldLoop_eq path (length_lt_of_part enough distinct isPart), sum]
    rfl

section Calls

variable {σ : Type} {visited : Finset α} {s : σ}

/-- `while (node) { call(node); node = node->next; }`, where the call may change the state. -/
def callLoop (null : α) (links : σ → α → α) (call : α → σ → Option σ) : Nat → α → σ → Option σ
  | 0, _, _ => none
  | fuel + 1, node, s =>
    if node = null then some s
    else (call node s).bind fun s => callLoop null links call fuel (links s node) s

/-- The rule for a loop whose calls keep an invariant of the nodes visited so far. -/
theorem callLoop_inv (links : σ → α → α) (call : α → σ → Option σ) (Inv : Finset α → σ → Prop)
    (path : Path next null first xs) (enough : xs.length < fuel) (distinct : xs.Nodup)
    (same : ∀ visited s, Inv visited s → ∀ a ∈ xs, links s a = next a)
    (step : ∀ visited s, ∀ a ∈ xs, a ∉ visited → Inv visited s → ∃ s', call a s = some s' ∧ Inv (insert a visited) s')
    (unvisited : ∀ a ∈ xs, a ∉ visited) (inv : Inv visited s) :
    ∃ s', callLoop null links call fuel first s = some s' ∧ Inv (visited ∪ xs.toFinset) s' := by
  induction xs generalizing first fuel visited s with
  | nil =>
    obtain ⟨fuel, rfl⟩ := Nat.exists_eq_add_of_lt enough
    refine ⟨s, ?_, by simpa using inv⟩
    rw [callLoop, if_pos (show first = null from path)]
  | cons x xs ih =>
    obtain ⟨rfl, nonnull, rest⟩ := path
    obtain ⟨notLater, distinct⟩ := nodup_cons.mp distinct
    cases fuel with
    | zero => exact absurd enough (Nat.not_lt_zero _)
    | succ fuel =>
      have here := mem_cons_self (a := first) (l := xs)
      obtain ⟨s', called, inv'⟩ := step visited s first here (unvisited first here) inv
      obtain ⟨s'', looped, inv''⟩ := ih rest (Nat.lt_of_succ_lt_succ enough) distinct
        (fun visited s inv a mem => same visited s inv a (.tail _ mem))
        (fun visited s a mem => step visited s a (.tail _ mem))
        (fun a mem => by
          rw [mem_insert, not_or]
          exact ⟨ne_of_mem_of_not_mem mem notLater, unvisited a (.tail _ mem)⟩) inv'
      refine ⟨s'', ?_, ?_⟩
      · rw [callLoop, if_neg nonnull, called, bind_some, same _ _ inv' first here, looped]
      · rwa [toFinset_cons, union_insert, ← insert_union]

theorem Chained.callAll_inv (heads : σ → Nat → Option α) (links : σ → α → α) (call : α → σ → Option σ)
    (Inv : Finset α → σ → Prop) (chained : Chained t null cap index nodes)
    (reads : ∀ visited s, Inv visited s → ∀ i < cap, heads s i = t.heads[i]?)
    (same : ∀ visited s, Inv visited s → ∀ a ∈ nodes, links s a = t.next a)
    (step : ∀ visited s, ∀ a ∈ nodes, a ∉ visited → Inv visited s →
      ∃ s', call a s = some s' ∧ Inv (insert a visited) s')
    (enough : nodes.card < fuel) (inv : Inv ∅ s) :
    ∃ s', (List.range cap).foldlM (fun s i => (heads s i).bind fun first => callLoop null links call fuel first s) s =
      some s' ∧ Inv nodes s' := by
  have upTo (count : Nat) (few : count ≤ cap) :
      ∃ s', (List.range count).foldlM
          (fun s i => (heads s i).bind fun first => callLoop null links call fuel first s) s = some s' ∧
        Inv (nodes.filter fun a => index a < count) s' := by
    induction count with
    | zero => exact ⟨s, rfl, by simpa using inv⟩
    | succ count ih =>
      obtain ⟨s', before, inv'⟩ := ih (Nat.le_of_succ_le few)
      obtain ⟨first, held, xs, path, distinct, isPart⟩ := chained.chain count few
      have mem (a : α) : a ∈ xs ↔ a ∈ nodes ∧ index a = count := by
        rw [← List.mem_toFinset, isPart, Finset.mem_filter]
      obtain ⟨s'', looped, inv''⟩ :=
        callLoop_inv links call Inv path (length_lt_of_part enough distinct isPart) distinct
        (fun visited s inv a here => same visited s inv a ((mem a).mp here).1)
        (fun visited s a here => step visited s a ((mem a).mp here).1)
        (fun a here => by simp [((mem a).mp here).2]) inv'
      refine ⟨s'', ?_, ?_⟩
      · rw [range_succ, foldlM_append, before]
        simp only [bind_eq_bind, bind_some, foldlM_cons, foldlM_nil, reads _ _ inv' count few, held, looped]
        rfl
      · rwa [isPart, ← filter_or, filter_congr fun a _ => (Nat.lt_succ_iff_lt_or_eq ..).symm] at inv''
  obtain ⟨s', done, inv'⟩ := upTo cap (le_refl cap)
  rw [filter_true_of_mem chained.inside] at inv'
  exact ⟨s', done, inv'⟩

end Calls

end Culibs.Buckets
