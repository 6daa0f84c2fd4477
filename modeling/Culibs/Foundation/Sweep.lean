import Culibs.Foundation.Buckets

/-! Loops over all chains of a hash table that take nodes out of them. -/

namespace Culibs

open List Finset Option

variable {γ δ : Type}

/-- There is a result if and only if a condition holds, and the result is right. -/
structure Outcome (good : Prop) (result : Option γ) (right : γ → Prop) : Prop where
  returns : good → ∃ value, result = some value ∧ right value
  fails : ¬ good → result = none

namespace Outcome

variable {good good' : Prop} {result : Option γ} {right right' : γ → Prop}

theorem pure (holds : right value) : Outcome True (some value) right :=
  ⟨fun _ => ⟨value, rfl, holds⟩, fun absurd => (absurd trivial).elim⟩

theorem none (bad : ¬ good) : Outcome good (none : Option γ) right :=
  ⟨fun holds => (bad holds).elim, fun _ => rfl⟩

theorem congr (outcome : Outcome good result right) (same : good ↔ good')
    (implies : ∀ value, right value → right' value) :
    Outcome good' result right' := by
  refine ⟨fun holds => ?_, fun bad => outcome.fails fun holds => bad (same.mp holds)⟩
  obtain ⟨value, isResult, isRight⟩ := outcome.returns (same.mpr holds)
  exact ⟨value, isResult, implies value isRight⟩

theorem bind {right'' : δ → Prop} {next : γ → Option δ} (outcome : Outcome good result right)
    (later : ∀ value, right value → Outcome good' (next value) right'') :
    Outcome (good ∧ good') (result.bind next) right'' := by
  by_cases holds : good
  · obtain ⟨value, isResult, isRight⟩ := outcome.returns holds
    rw [isResult, bind_some]
    exact (later value isRight).congr (and_iff_right holds).symm fun _ => id
  · rw [outcome.fails holds]
    exact .none fun both => holds both.1

end Outcome

namespace Buckets

variable {α β : Type}

/-- A table, and the other data that a loop over it changes. -/
structure Sweeping (α β : Type) where
  table : Buckets α
  others : β

/-- The heads, and the links of some nodes, are as before. -/
def SameIn (part : Finset α) (s s' : Sweeping α β) : Prop :=
  s'.table.heads = s.table.heads ∧ ∀ a ∈ part, s'.table.next a = s.table.next a

section Loops

variable [DecidableEq α] (null : α) (test : Sweeping α β → α → Option (Bool × Sweeping α β))
  (take : Sweeping α β → α → Option (Sweeping α β))

/-- `while (*p) if (test(*p)) p = &(*p)->next; else { node = *p; *p = node->next; take(node); }` -/
def sweep : Nat → Place α → Sweeping α β → Option (Sweeping α β)
  | 0, _, _ => none
  | fuel + 1, place, s =>
    (s.table.read place).bind fun node =>
      if node = null then some s
      else
        (test s node).bind fun tested =>
          (tested.2.table.read place).bind fun node =>
            if tested.1 then sweep fuel (.link node) tested.2
            else
              (tested.2.table.write place (tested.2.table.next node)).bind fun table =>
                (take { tested.2 with table } node).bind fun s => sweep fuel place s

/-- The loop over the chains of the heads below a bound. -/
def sweepAll (fuel cap : Nat) (s : Sweeping α β) : Option (Sweeping α β) :=
  (List.range cap).foldlM (fun s i => sweep null test take fuel (.head i) s) s

end Loops

variable [DecidableEq α] {null : α} {test : Sweeping α β → α → Option (Bool × Sweeping α β)}
  {take : Sweeping α β → α → Option (Sweeping α β)} {nodes moved : Finset α} {keep : α → Bool} {good : α → Prop}
  {inv : Finset α → Sweeping α β → Prop} {mid : Finset α → α → Sweeping α β → Prop}
  {index : α → Nat} {cap i fuel : Nat} {s s' : Sweeping α β}

/-- What a loop needs of its body: `inv` is an invariant for the nodes that have been taken so far, `mid`
holds between the test of a node that is taken next and its removal. The test fails for bad nodes. -/
structure Rules (nodes : Finset α) (keep : α → Bool) (good : α → Prop)
    (test : Sweeping α β → α → Option (Bool × Sweeping α β)) (take : Sweeping α β → α → Option (Sweeping α β))
    (inv : Finset α → Sweeping α β → Prop) (mid : Finset α → α → Sweeping α β → Prop) : Prop where
  tests : ∀ moved s a, moved ⊆ nodes → a ∈ nodes \ moved → inv moved s → good a → ∃ s', test s a = some (keep a, s') ∧
    SameIn (nodes \ moved) s s' ∧ (keep a = true → inv moved s') ∧ (keep a = false → mid moved a s')
  fails : ∀ moved s a, moved ⊆ nodes → a ∈ nodes \ moved → inv moved s → ¬ good a → test s a = none
  stable : ∀ moved s a table, mid moved a s → (∀ b, b ∉ nodes \ moved → table.next b = s.table.next b) →
    mid moved a { s with table }
  takes : ∀ moved s a, moved ⊆ nodes → a ∈ nodes \ moved → mid moved a s → ∃ s', take s a = some s' ∧
    SameIn (nodes \ insert a moved) s s' ∧ inv (insert a moved) s'

/-- The table after the nodes of a set have been taken. -/
structure Swept (null : α) (cap : Nat) (index : α → Nat) (nodes : Finset α) (inv : Finset α → Sweeping α β → Prop)
    (s : Sweeping α β) (moved : Finset α) (s' : Sweeping α β) : Prop where
  chained : Chained s'.table null cap index (nodes \ moved)
  holds : inv moved s'
  length : s'.table.heads.length = s.table.heads.length
  heads : ∀ j, cap ≤ j → s'.table.heads[j]? = s.table.heads[j]?

theorem Swept.trans (first : Swept null cap index nodes inv s moved s')
    (second : Swept null cap index nodes inv s' moved' s'') : Swept null cap index nodes inv s moved' s'' :=
  ⟨second.chained, second.holds, second.length.trans first.length,
    fun j beyond => (second.heads j beyond).trans (first.heads j beyond)⟩

variable {before rest : List α}

/-- The loop over a chain, by induction on the nodes that are left. -/
theorem sweep_outcome (rules : Rules nodes keep good test take inv mid) (bound : i < cap) (few : moved ⊆ nodes)
    (chained : Chained s.table null cap index (nodes \ moved)) (holds : inv moved s)
    (inChain : InChain null index (nodes \ moved) s.table i before rest) (enough : rest.length < fuel) :
    Outcome (∀ a ∈ rest, good a) (sweep null test take fuel (after (.head i) before) s)
      (Swept null cap index nodes inv s (moved ∪ (rest.filter fun a => keep a = false).toFinset)) := by
  induction rest generalizing before moved s fuel with
  | nil =>
    obtain ⟨less, rfl⟩ := Nat.exists_eq_add_one_of_ne_zero (ne_zero_of_lt enough)
    obtain ⟨first, held, path⟩ := inChain.path
    have here := (read_after (show s.table.read (.head i) = some first from held) path).1
    rw [sweep, here, bind_some, headD_nil, if_pos rfl, filter_nil, toFinset_nil, union_empty]
    exact (Outcome.pure ⟨chained, holds, rfl, fun _ _ => rfl⟩).congr (by simp) fun _ => id
  | cons a rest ih =>
    obtain ⟨less, rfl⟩ := Nat.exists_eq_add_one_of_ne_zero (ne_zero_of_lt enough)
    have room := Nat.lt_of_succ_lt_succ enough
    obtain ⟨here, nonnull, mem⟩ := inChain.read
    rw [sweep, here, bind_some, if_neg nonnull]
    by_cases isGood : good a
    · obtain ⟨s1, tested, same, kept, removed⟩ := rules.tests moved s a few mem holds isGood
      have inChain1 := inChain.congr same.1 same.2
      have chained1 : Chained s1.table null cap index (nodes \ moved) :=
        chained.congr (fun _ _ => by rw [same.1]) same.2
      have goods : (∀ b ∈ rest, good b) ↔ ∀ b ∈ a :: rest, good b := by
        rw [List.forall_mem_cons, and_iff_right isGood]
      rw [tested, bind_some, inChain1.read.1, bind_some]
      cases isKept : keep a with
      | true =>
        have swept := ih few chained1 (kept isKept) inChain1.advance room
        rw [after_concat] at swept
        rw [if_pos rfl, filter_cons_of_neg (by simp [isKept])]
        exact swept.congr goods fun s' done => ⟨done.chained, done.holds, done.length.trans (by rw [same.1]),
          fun j beyond => (done.heads j beyond).trans (by rw [same.1])⟩
      | false =>
        obtain ⟨table, written, unlinked, inChain2, keeps⟩ := inChain1.unlink bound chained1
        rw [← sdiff_insert] at unlinked inChain2 keeps
        have mid' := rules.stable moved s1 a table (removed isKept) fun b outside => keeps.next b fun inside =>
          outside (sdiff_subset_sdiff (Subset.refl _) (subset_insert a moved) inside)
        obtain ⟨s2, taken, same2, holds2⟩ := rules.takes moved _ a few mem mid'
        have chained2 : Chained s2.table null cap index (nodes \ insert a moved) :=
          unlinked.congr (fun _ _ => by rw [same2.1]) same2.2
        have few2 : insert a moved ⊆ nodes := insert_subset (mem_sdiff.mp mem).1 few
        have swept := ih few2 chained2 holds2 (inChain2.congr same2.1 same2.2) room
        have union : insert a moved ∪ (rest.filter fun b => keep b = false).toFinset =
            moved ∪ ((a :: rest).filter fun b => keep b = false).toFinset := by
          rw [List.filter_cons_of_pos (by simp [isKept]), toFinset_cons, insert_union, union_insert]
        rw [if_neg Bool.false_ne_true, written, bind_some, taken, bind_some, ← union]
        refine swept.congr goods fun s' done => ⟨done.chained, done.holds, done.length.trans ?_, fun j beyond =>
          (done.heads j beyond).trans ?_⟩
        · rw [same2.1]
          exact keeps.length.trans (by rw [same.1])
        · rw [same2.1]
          exact (keeps.heads j beyond).trans (by rw [same.1])
    · rw [rules.fails moved s a few mem holds isGood]
      exact .none fun all => isGood (all a (mem_cons_self ..))

theorem sweepAll_outcome (rules : Rules nodes keep good test take inv mid)
    (chained : Chained s.table null cap index nodes) (holds : inv ∅ s) (enough : nodes.card < fuel) :
    Outcome (∀ a ∈ nodes, good a) (sweepAll null test take fuel cap s)
      (Swept null cap index nodes inv s (nodes.filter fun a => keep a = false)) := by
  have part (n : Nat) (few : n ≤ cap) : Outcome (∀ a ∈ nodes, index a < n → good a) (sweepAll null test take fuel n s)
      (Swept null cap index nodes inv s (nodes.filter fun a => index a < n ∧ keep a = false)) := by
    induction n with
    | zero =>
      have empty : (nodes.filter fun a => index a < 0 ∧ keep a = false) = ∅ := by simp
      rw [empty]
      have start : Swept null cap index nodes inv s ∅ s := ⟨by rwa [sdiff_empty], holds, rfl, fun _ _ => rfl⟩
      exact (Outcome.pure start).congr (by simp) fun _ => id
    | succ n ih =>
      have before := ih (Nat.le_of_succ_le few)
      have later (s1 : Sweeping α β)
          (swept : Swept null cap index nodes inv s (nodes.filter fun a => index a < n ∧ keep a = false) s1) :
          Outcome (∀ a ∈ nodes, index a = n → good a) (sweep null test take fuel (.head n) s1)
            (Swept null cap index nodes inv s (nodes.filter fun a => index a < n + 1 ∧ keep a = false)) := by
        obtain ⟨first, held, xs, path, distinct, isPart⟩ := swept.chained.chain n few
        have members (a : α) : a ∈ xs ↔ a ∈ nodes ∧ index a = n := by
          rw [← List.mem_toFinset, isPart]
          simp only [Finset.mem_filter, mem_sdiff]
          refine ⟨fun both => ⟨both.1.1, both.2⟩, fun both => ⟨⟨both.1, fun taken => ?_⟩, both.2⟩⟩
          exact absurd both.2 (ne_of_lt taken.2.1)
        have short : xs.length ≤ nodes.card := by
          rw [← toFinset_card_of_nodup distinct, isPart]
          exact (card_filter_le ..).trans (card_le_card sdiff_subset)
        have inChain : InChain null index (nodes \ nodes.filter fun a => index a < n ∧ keep a = false) s1.table n [] xs := by
          refine ⟨⟨first, held, path⟩, distinct, fun a => ?_⟩
          rw [nil_append, ← List.mem_toFinset, isPart, Finset.mem_filter]
        have outcome := sweep_outcome rules few (Finset.filter_subset ..) swept.chained swept.holds inChain
          (lt_of_le_of_lt short enough)
        have union : (nodes.filter fun a => index a < n ∧ keep a = false) ∪
            (xs.filter fun a => keep a = false).toFinset =
            nodes.filter fun a => index a < n + 1 ∧ keep a = false := by
          ext a
          simp only [mem_union, Finset.mem_filter, List.mem_toFinset, List.mem_filter, members,
            decide_eq_true_eq, Nat.lt_succ_iff_lt_or_eq]
          tauto
        rw [union] at outcome
        refine outcome.congr ?_ fun _ done => swept.trans done
        simp only [members, and_imp]
      have both := before.bind later
      rw [sweepAll, range_succ, foldlM_append]
      simp only [foldlM_cons, foldlM_nil, bind_pure, bind_eq_bind]
      refine both.congr
        ⟨fun good a mem below => ?_, fun good => ⟨fun a mem below => ?_, fun a mem isLast => ?_⟩⟩
        fun _ => id
      · rcases Nat.lt_succ_iff_lt_or_eq.mp below with earlier | last
        · exact good.1 a mem earlier
        · exact good.2 a mem last
      · exact good a mem (Nat.lt_succ_of_lt below)
      · exact good a mem (Nat.lt_succ_of_le (le_of_eq isLast))
  have all := part cap (le_refl cap)
  have filter : (nodes.filter fun a => index a < cap ∧ keep a = false) = nodes.filter fun a => keep a = false :=
    Finset.filter_congr fun a mem => and_iff_right (chained.inside a mem)
  rw [filter] at all
  exact all.congr ⟨fun good a mem => good a mem (chained.inside a mem), fun good a mem _ => good a mem⟩
    fun _ => id

end Buckets

end Culibs
