import Culibs.Cucon.Po.Ordered
import Culibs.Cucon.Priq.Queue
import Culibs.Foundation.BestFirst

namespace Culibs.Cucon.Po

open DepthFirst BestFirst Relation List Finset Option

variable {α : Type} [DecidableEq α]

/-- `cucon_po_topological_prec` -/
def topologicalPrec (po : Po α) (e0 e1 : α) : Bool := po.level e0 < po.level e1

/-- `cucon_po_topological_succ` -/
def topologicalSucc (po : Po α) (e0 e1 : α) : Bool := po.level e0 < po.level e1

/-- The body of the inner loops. -/
def enqueue (prior : α → α → Bool) (s : Priq α × Finset α) (elt : α) : Except Priq.Fault (Priq α × Finset α) :=
  if elt ∈ s.2 then .ok s else (Priq.insert prior s.1 elt).map fun priq => (priq, insert elt s.2)

/-- The loop of the two functions: `calls` has the elements that `f` has been called with before `e`.
There is no result if the queue reads or writes outside of its block. -/
def topologicalLoop (prior : α → α → Bool) (next : α → List α) :
    Nat → α → Priq α × Finset α → List α → Option (List α)
  | 0, _, _, _ => none
  | fuel + 1, e, s, calls =>
    ((next e).foldlM (enqueue prior) s).toOption.bind fun s =>
      if s.1.count = 0 then some (calls ++ [e])
      else
        (Priq.popFront prior s.1).toOption.bind fun popped =>
          popped.1.bind fun e' => topologicalLoop prior next fuel e' (popped.2, s.2) (calls ++ [e])

def topologicalSuccs (fuel : Nat) (po : Po α) (e : α) : Option (List α) :=
  topologicalLoop po.topologicalPrec po.isuccs fuel e (Priq.init, ∅) []

def topologicalPreds (fuel : Nat) (po : Po α) (e : α) : Option (List α) :=
  topologicalLoop po.topologicalSucc po.ipreds fuel e (Priq.init, ∅) []

/-- The levels order the queue. -/
def levelOrder (level : α → Nat) : StrictWeakOrder α where
  prior a b := decide (level a < level b)
  irrefl a := decide_eq_false (lt_irrefl (level a))
  trans below above := decide_eq_true (lt_trans (of_decide_eq_true below) (of_decide_eq_true above))
  incomparableTrans atMost atLeast atMost' atLeast' :=
    ⟨decide_eq_false (not_lt.mpr
      (le_trans (not_lt.mp (of_decide_eq_false atMost')) (not_lt.mp (of_decide_eq_false atMost)))),
    decide_eq_false (not_lt.mpr
      (le_trans (not_lt.mp (of_decide_eq_false atLeast)) (not_lt.mp (of_decide_eq_false atLeast'))))⟩

section Queue

variable {level : α → Nat} {s : Priq α × Finset α} {frontier : Finset α}

/-- The queue has the elements of a set that have been marked. -/
structure Queued (level : α → Nat) (s : Priq α × Finset α) (frontier : Finset α) : Prop where
  stores : ∃ f, Priq.Stores (levelOrder level) s.1 f
  contents : s.1.contents = frontier.val
  marked : frontier ⊆ s.2

theorem enqueue_spec (queued : Queued level s frontier) (elt : α) :
    ∃ s', enqueue (levelOrder level).prior s elt = .ok s' ∧ s'.2 = insert elt s.2 ∧
      Queued level s' (frontier ∪ ({elt} \ s.2)) := by
  rw [enqueue]
  split
  · next isMarked =>
    refine ⟨s, rfl, (insert_eq_of_mem isMarked).symm, ?_⟩
    rwa [sdiff_eq_empty_iff_subset.mpr (singleton_subset_iff.mpr isMarked), union_empty]
  · next isNew =>
    obtain ⟨f, stores⟩ := queued.stores
    obtain ⟨q', f', inserted, stores', grown⟩ := Priq.insert_spec stores elt
    have notIn : elt ∉ frontier := fun mem => isNew (queued.marked mem)
    have same : frontier ∪ ({elt} \ s.2) = insert elt frontier := by
      rw [sdiff_eq_self_of_disjoint (disjoint_singleton_left.mpr isNew), union_comm, Finset.insert_eq]
    refine ⟨(q', insert elt s.2), by rw [inserted]; rfl, rfl, ⟨f', stores'⟩, ?_, ?_⟩
    · rw [grown, queued.contents, same, insert_val_of_notMem notIn]
    · rw [same]
      exact insert_subset_insert elt queued.marked

private theorem enqueue_run (queued : Queued level s frontier) (list : List α) :
    ∃ s', list.foldlM (enqueue (levelOrder level).prior) s = .ok s' ∧ s'.2 = s.2 ∪ list.toFinset ∧
      Queued level s' (frontier ∪ (list.toFinset \ s.2)) := by
  induction list generalizing s frontier with
  | nil => exact ⟨s, rfl, by simp, by simpa using queued⟩
  | cons elt rest ih =>
    obtain ⟨s1, enqueued, marked, queued1⟩ := enqueue_spec queued elt
    obtain ⟨s', run, marked', queued'⟩ := ih queued1
    refine ⟨s', by rw [foldlM_cons, enqueued]; exact run, ?_, ?_⟩
    · rw [marked', marked]
      ext x
      simp
    · convert queued' using 1
      rw [marked, toFinset_cons]
      ext x
      simp only [mem_union, mem_sdiff, mem_insert, Finset.mem_singleton]
      tauto

omit [DecidableEq α] in
theorem Queued.count_eq_zero (queued : Queued level s frontier) : s.1.count = 0 ↔ frontier = ∅ := by
  obtain ⟨f, stores⟩ := queued.stores
  have contents := queued.contents
  rw [stores.contents_eq] at contents
  rw [← val_eq_zero, ← contents, BinaryHeap.elements, Multiset.map_eq_zero, ← Multiset.card_eq_zero,
    Multiset.card_range]

theorem Queued.pop (queued : Queued level s frontier) (some : frontier ≠ ∅) :
    ∃ e q', Priq.popFront (levelOrder level).prior s.1 = .ok (.some e, q') ∧ e ∈ frontier ∧
      (∀ b ∈ frontier, level e ≤ level b) ∧ Queued level (q', s.2) (frontier.erase e) := by
  obtain ⟨f, stores⟩ := queued.stores
  obtain ⟨q', f', e, popped, stores', shrunk, front⟩ := Priq.popFront_spec stores (mt queued.count_eq_zero.mp some)
  rw [queued.contents] at shrunk front
  have mem : e ∈ frontier := by
    rw [← mem_val, shrunk]
    exact Multiset.mem_cons_self e _
  refine ⟨e, q', popped, mem, fun b isLeft => ?_, ⟨f', stores'⟩, ?_,
    (erase_subset e frontier).trans queued.marked⟩
  · have notPrior := front b isLeft
    simpa [levelOrder] using notPrior
  · rw [erase_val, shrunk, Multiset.erase_cons_head]

variable {elements : Finset α} {next : α → List α} {a : α}

private theorem card_round (seen : Finset α) (inside : ∀ b ∈ next a, b ∈ elements) (isLeft : a ∈ frontier) :
    (elements \ (seen ∪ (next a).toFinset)).card + (frontier.erase a ∪ ((next a).toFinset \ seen)).card <
      (elements \ seen).card + frontier.card := by
  have parts : (elements \ seen).card =
      (elements \ (seen ∪ (next a).toFinset)).card + ((next a).toFinset \ seen).card := by
    rw [← card_union_of_disjoint]
    · congr 1
      ext x
      simp only [mem_union, mem_sdiff, List.mem_toFinset]
      tauto
    · refine Finset.disjoint_left.mpr fun x outside isNew => ?_
      exact (mem_sdiff.mp outside).2 (Finset.mem_union_right _ (mem_sdiff.mp isNew).1)
  have union := card_union_le (frontier.erase a) ((next a).toFinset \ seen)
  have popped := card_erase_add_one isLeft
  omega

/-- The loop ends, as each round calls an element that has been marked and marks only elements. -/
theorem topologicalLoop_drains (closed : ∀ a ∈ elements, ∀ b ∈ next a, b ∈ elements) (n : Nat)
    (isElement : e ∈ elements)
    (calls : List α) (queued : Queued level s frontier) (inside : s.2 ⊆ elements)
    (few : (elements \ (s.2 ∪ (next e).toFinset)).card + (frontier ∪ ((next e).toFinset \ s.2)).card ≤ n) :
    ∃ rest, Drains next level (s.2 ∪ (next e).toFinset) (frontier ∪ ((next e).toFinset \ s.2)) rest ∧
      Returns (fun fuel => topologicalLoop (levelOrder level).prior next fuel e s calls) (calls ++ e :: rest) := by
  induction n generalizing e s frontier calls with
  | zero =>
    obtain ⟨s', run, _, queued'⟩ := enqueue_run queued (next e)
    have none : frontier ∪ ((next e).toFinset \ s.2) = ∅ := by
      rw [← card_eq_zero]
      omega
    refine ⟨[], none, .step ((Returns.const _).congr fun fuel => ?_)⟩
    rw [topologicalLoop, run]
    simp [Except.toOption, queued'.count_eq_zero.mpr none]
  | succ n ih =>
    obtain ⟨s', run, marked, queued'⟩ := enqueue_run queued (next e)
    by_cases none : frontier ∪ ((next e).toFinset \ s.2) = ∅
    · refine ⟨[], none, .step ((Returns.const _).congr fun fuel => ?_)⟩
      rw [topologicalLoop, run]
      simp [Except.toOption, queued'.count_eq_zero.mpr none]
    obtain ⟨e', q', popped, isLeft, least, queued''⟩ := queued'.pop none
    have inside' : s'.2 ⊆ elements := by
      rw [marked]
      exact union_subset inside fun b step => closed e isElement b (mem_toFinset.mp step)
    have isElement' : e' ∈ elements := inside' (queued'.marked isLeft)
    have fewer := card_round s'.2 (closed e' isElement') isLeft
    rw [← marked] at few ⊢
    obtain ⟨rest, drains, returns⟩ := ih isElement' (calls ++ [e]) queued'' inside' (by dsimp only; omega)
    refine ⟨e' :: rest, ⟨isLeft, least, drains⟩, .step ?_⟩
    rw [append_cons]
    refine returns.congr fun fuel => ?_
    rw [topologicalLoop, run]
    simp [Except.toOption, if_neg (mt queued'.count_eq_zero.mp none), popped]

theorem topologicalLoop_traverses (level : α → Nat) (closed : ∀ a ∈ elements, ∀ b ∈ next a, b ∈ elements)
    (isElement : e ∈ elements) (grounded : Grounded next e) :
    ∃ calls, Returns (fun fuel => topologicalLoop (levelOrder level).prior next fuel e (Priq.init, ∅) []) calls ∧
      Traverses next level e calls := by
  have queued : Queued level ((Priq.init, ∅) : Priq α × Finset α) ∅ := by
    refine ⟨⟨fun _ => e, rfl, fun i bound => ?_, fun i _ bound => ?_⟩, rfl, Finset.Subset.refl _⟩
    · exact absurd bound (Nat.not_lt_zero i)
    · exact absurd bound (Nat.not_lt_zero i)
  obtain ⟨rest, drains, returns⟩ := topologicalLoop_drains closed _ isElement [] queued (empty_subset _)
    (le_refl _)
  exact ⟨e :: rest, returns, drains.traverses grounded⟩

end Queue

section Order

variable {po : Po α} {elements : Finset α} {e : α}

/-- `f` is called once with `e` and each element above it, and with none before a lower one. -/
def TopologicalSuccsCorrect (po : Po α) (elements : Finset α) (e : α) : Prop :=
  ∃ calls, Returns (fun fuel => topologicalSuccs fuel po e) calls ∧ calls.Nodup ∧
    (∀ x, x ∈ calls ↔ po.PrecEq elements e x) ∧ calls.Pairwise fun y x => ¬ po.Prec elements x y

/-- `f` is called once with `e` and each element below it, and with none before a higher one. -/
def TopologicalPredsCorrect (po : Po α) (elements : Finset α) (e : α) : Prop :=
  ∃ calls, Returns (fun fuel => topologicalPreds fuel po e) calls ∧ calls.Nodup ∧
    (∀ x, x ∈ calls ↔ po.PrecEq elements x e) ∧ calls.Pairwise fun y x => ¬ po.Prec elements y x

omit [DecidableEq α] in
omit [DecidableEq α] in
theorem Linked.leads_preds_iff (linked : Linked po elements) (inside : a ∈ elements) :
    Leads po.ipreds a b ↔ po.Prec elements b a := by
  refine TransGen.head'_iff.trans (Iff.trans (exists_congr fun c => and_congr_right fun step => ?_)
    (linked.pred_iff inside))
  exact linked.down_iff (linked.preds a inside c step)

section

variable (ordered : Ordered po elements) (inside : e ∈ elements)

include ordered inside

theorem topologicalSuccs_correct : TopologicalSuccsCorrect po elements e := by
  have linked := ordered.linked
  obtain ⟨calls, returns, traverses⟩ := topologicalLoop_traverses po.level linked.succs inside
    (linked.grounded_succs ordered.leveled.irrefl inside)
  have mem (x : α) : x ∈ calls ↔ po.PrecEq elements e x := (traverses.mem x).trans (linked.up_iff inside)
  have isElement {x : α} (member : x ∈ calls) : x ∈ elements := linked.mem_of_path ((mem x).mp member) inside
  have topological := traverses.topological fun a path b step =>
    ordered.leveled a b ⟨isElement ((traverses.mem a).mpr path), step⟩
  refine ⟨calls, returns, traverses.nodup, mem, (Pairwise.iff_of_mem fun _ isCall => ?_).mp topological⟩
  exact not_congr (TransGen.head'_iff.trans (linked.above_iff (isElement isCall)))

theorem topologicalPreds_correct_iff :
    TopologicalPredsCorrect po elements e ↔ ∀ x, po.PrecEq elements x e → (po.ipreds x).length ≤ 1 := by
  have linked := ordered.linked
  obtain ⟨calls, returns, traverses⟩ := topologicalLoop_traverses po.level
    (fun b inside a step => linked.preds b inside a step) inside (linked.grounded_preds ordered.leveled inside)
  have mem (x : α) : x ∈ calls ↔ po.PrecEq elements x e := (traverses.mem x).trans (linked.down_iff inside)
  have isElement {x : α} (path : Reach po.ipreds e x) : x ∈ elements := by
    rcases precEq_iff.mp ((linked.down_iff inside).mp path) with rfl | below
    · exact inside
    · exact Linked.mem_left below
  have descends : Descends po.ipreds po.level e po.bot := by
    refine ⟨fun a path b step => ?_, fun a path => ?_, fun a path => (linked.nodup a (isElement path)).2⟩
    · exact ordered.leveled b a (linked.link_of_pred (isElement path) step)
    · exact (linked.down_iff (isElement path)).mpr (ordered.from_bot a (isElement path))
  have topological_iff : Topological po.ipreds calls ↔ calls.Pairwise fun y x => ¬ po.Prec elements y x :=
    Pairwise.iff_of_mem fun _ isCall =>
      not_congr (linked.leads_preds_iff (isElement ((traverses.mem _).mp isCall)))
  have single_iff := (topological_iff.symm.trans (traverses.topological_iff descends)).trans
    (forall_congr' fun x => imp_congr_left (linked.down_iff inside))
  rw [← single_iff]
  refine ⟨fun ⟨calls', returns', _, _, pairs⟩ => ?_, fun pairs => ⟨calls, returns, traverses.nodup, mem, pairs⟩⟩
  rwa [returns.unique returns']

/-- Both traversals are right exactly when the elements below are a chain. -/
theorem topological_correct_iff :
    TopologicalSuccsCorrect po elements e ∧ TopologicalPredsCorrect po elements e ↔
      ∀ x, po.PrecEq elements x e → (po.ipreds x).length ≤ 1 := by
  rw [and_iff_right (topologicalSuccs_correct ordered inside), topologicalPreds_correct_iff ordered inside]

end

end Order

theorem topological_correct_iff_diamond :
    TopologicalSuccsCorrect diamondPo {0, 1, 2, 3, 4, 5} 4 ∧ TopologicalPredsCorrect diamondPo {0, 1, 2, 3, 4, 5} 4 ↔
      ∀ x, diamondPo.PrecEq {0, 1, 2, 3, 4, 5} x 4 → (diamondPo.ipreds x).length ≤ 1 :=
  topological_correct_iff diamond_ordered (by decide)

/-- After one insertion the bottom, which is still linked to the top, is called before the new element. -/
theorem topologicalPreds_bottom_first : ∃ po', Returns (fun fuel => insertCct fuel pair 2) po' ∧
    ¬ (TopologicalSuccsCorrect po' {2, 0, 1} 1 ∧ TopologicalPredsCorrect po' {2, 0, 1} 1) := by
  have represents := init_represents Nat.zero_ne_one (fun _ => []) (fun _ => []) fun _ => 0
  have fresh : 2 ∉ (Order.init 0 1).elements := by decide
  obtain ⟨po', returns, represents'⟩ := insert_represents represents fresh
  obtain ⟨po'', returns', _, inserted⟩ := insertCct_spec represents.linked represents.leveled fresh represents.bounds
  obtain rfl := returns.unique returns'
  refine ⟨po', returns, fun both => ?_⟩
  have ordered : Ordered po' {2, 0, 1} := represents'.ordered
  have short := (topologicalPreds_correct_iff ordered (by decide)).mp both.2 1 .refl
  have old : po'.Link {2, 0, 1} 0 1 := (inserted 0 1).mpr (.inl ⟨by decide, by decide⟩)
  have new : po'.Link {2, 0, 1} 2 1 := (inserted 2 1).mpr (.inr (.inr ⟨rfl, rfl⟩))
  obtain ⟨only, isOnly⟩ := length_eq_one_iff.mp
    (le_antisymm short (length_pos_of_mem (ordered.linked.pred_of_link old)))
  have isFirst := ordered.linked.pred_of_link old
  have isSecond := ordered.linked.pred_of_link new
  rw [isOnly, List.mem_singleton] at isFirst isSecond
  exact absurd (isFirst.trans isSecond.symm) (by decide)

end Culibs.Cucon.Po
