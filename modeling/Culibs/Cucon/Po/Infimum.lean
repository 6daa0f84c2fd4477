import Culibs.Cucon.Po.Spans
import Culibs.Foundation.FirstPath

namespace Culibs.Cucon.Po

open DepthFirst Relation List Finset

variable {α : Type} [DecidableEq α]

/-- The end of `cucon_po_connected_prune_to_max` and `cucon_po_connected_prune_to_min`. -/
def pruneElt (elt : α) (eltIsExtreme : Bool) (s : Finset α) : Finset α := if eltIsExtreme then s else s.erase elt

/-- The loop of `cucon_po_connected_prune_to_max` over the rest of the immediate successors, and that of
`cucon_po_connected_prune_to_min` over the rest of the immediate predecessors. -/
def connectedPrune (next : α → List α) : Nat → List α → Bool → Finset α → Option (Bool × Finset α)
  | 0, _, _, _ => none
  | _ + 1, [], eltIsExtreme, s => some (eltIsExtreme, s)
  | fuel + 1, e :: rest, eltIsExtreme, s =>
    if e ∈ s then
      (connectedPrune next fuel (next e) true s).bind fun result =>
        connectedPrune next fuel rest false (pruneElt e result.1 result.2)
    else connectedPrune next fuel rest eltIsExtreme s

def connectedPruneToMax (fuel : Nat) (po : Po α) (s : Finset α) (elt : α) : Option (Finset α) :=
  (connectedPrune po.isuccs fuel (po.isuccs elt) true s).map fun result => pruneElt elt result.1 result.2

def connectedPruneToMin (fuel : Nat) (po : Po α) (s : Finset α) (elt : α) : Option (Finset α) :=
  (connectedPrune po.ipreds fuel (po.ipreds elt) true s).map fun result => pruneElt elt result.1 result.2

/-- `cucon_po_inf_of_list`, which is not defined for the empty list. -/
def infOfList (fuel : Nat) (po : Po α) : List α → Option (Finset α)
  | [] => none
  | [elt0] => some {elt0}
  | elt0 :: rest => do
    let r ← lspan fuel po elt0
    let r ← rest.foldlM (fun r elt => lspanIsecn fuel po elt r) r
    connectedPruneToMax fuel po r po.bot

def supOfList (fuel : Nat) (po : Po α) : List α → Option (Finset α)
  | [] => none
  | [elt0] => some {elt0}
  | elt0 :: rest => do
    let r ← uspan fuel po elt0
    let r ← rest.foldlM (fun r elt => uspanIsecn fuel po elt r) r
    connectedPruneToMin fuel po r po.top

section Prune

open Classical in
/-- The part of a list in a set. -/
noncomputable def keep (inside : α → Prop) (list : List α) : List α := list.filter fun b => decide (inside b)

/-- The neighbours in a set. -/
noncomputable def within (next : α → List α) (inside : α → Prop) (a : α) : List α := keep inside (next a)

variable {next graph : α → List α} {inside visited visited' visited1 : α → Prop} {s s' s1 : Finset α} {root a c x : α}
  {list rest : List α} {eltIsExtreme eltIsExtreme' : Bool}

section

omit [DecidableEq α]

theorem mem_keep : c ∈ keep inside list ↔ c ∈ list ∧ inside c := by
  simp [keep]

private theorem keep_cons (isInside : inside c) : keep inside (c :: rest) = c :: keep inside rest := by
  simp [keep, isInside]

private theorem keep_cons_of_not (outside : ¬ inside c) : keep inside (c :: rest) = keep inside rest := by
  simp [keep, outside]

theorem within_grounded (inside : α → Prop) (grounded : Grounded next c) : Grounded (within next inside) c :=
  Subrelation.accessible (fun step => (mem_keep.mp step).1) grounded

end

theorem pruneElt_subset (elt : α) (eltIsExtreme : Bool) (s : Finset α) : pruneElt elt eltIsExtreme s ⊆ s := by
  rw [pruneElt]
  split
  · exact Subset.refl s
  · exact erase_subset elt s

private theorem connectedPrune_none (next : α → List α) (none : ∀ b ∈ list, b ∉ s) (eltIsExtreme : Bool) :
    Returns (fun fuel => connectedPrune next fuel list eltIsExtreme s) (eltIsExtreme, s) := by
  induction list with
  | nil => exact .step (.const _)
  | cons b rest ih =>
    obtain ⟨first, later⟩ := forall_mem_cons.mp none
    exact .step ((ih later).congr fun _ => if_neg first)

/-- An element is left in the set when the search came to none of its neighbours first from there, and
none of them is left. -/
def Settled (graph : α → List α) (root : α) (s : Finset α) (x : α) : Prop :=
  x ∈ s ↔ ∀ q ∈ graph x, ¬ First graph root q x ∧ q ∉ s

omit [DecidableEq α] in
theorem Settled.congr (settled : Settled graph root s x) (here : x ∈ s' ↔ x ∈ s)
    (after : ∀ q ∈ graph x, (q ∈ s' ↔ q ∈ s)) : Settled graph root s' x := by
  refine here.trans (settled.trans (forall₂_congr fun q step => and_congr_right fun _ => ?_))
  exact not_congr (after q step).symm

/-- Of the elements that have been visited, those ahead are settled. -/
structure PruneState (graph : α → List α) (root : α) (inside : α → Prop) (list : List α) (s : Finset α)
    (visited : α → Prop) : Prop where
  subset : ∀ x ∈ s, inside x
  unvisited : ∀ x, inside x → ¬ visited x → x ∈ s
  closed : Finished graph list visited
  settled : ∀ x, visited x → (∃ b ∈ list, Reach graph b x) → Settled graph root s x

/-- What the loop does for some neighbours of `a`. -/
structure Pruned (graph : α → List α) (root a : α) (list : List α) (s s' : Finset α) (visited visited' : α → Prop)
    (eltIsExtreme eltIsExtreme' : Bool) : Prop where
  visits : ∀ x, visited' x ↔ visited x ∨ ∃ b ∈ list, Reach graph b x
  frame : ∀ x, visited x ∨ ¬ visited' x → (x ∈ s' ↔ x ∈ s)
  fewer : s' ⊆ s
  settled : ∀ x, visited' x → ¬ visited x → Settled graph root s' x
  extreme : eltIsExtreme' = true ↔ eltIsExtreme = true ∧ ∀ q ∈ list, ¬ First graph root q a ∧ q ∉ s'

omit [DecidableEq α] in
theorem PruneState.skip (state : PruneState graph root inside (c :: rest) s visited) :
    PruneState graph root inside rest s visited :=
  ⟨state.subset, state.unvisited, state.closed.skip, fun x isVisited ahead =>
    state.settled x isVisited (ahead.imp fun _ both => ⟨mem_cons_of_mem c both.1, both.2⟩)⟩

omit [DecidableEq α] in
theorem PruneState.enter (grounded : Grounded graph c) (state : PruneState graph root inside (c :: rest) s visited) :
    PruneState graph root inside (graph c) s fun x => x = c ∨ visited x := by
  refine ⟨state.subset, fun x isInside isNew => state.unvisited x isInside (mt .inr isNew),
    state.closed.enter grounded fun _ => Iff.rfl, ?_⟩
  rintro x (rfl | isVisited) ⟨b, step, reach⟩
  · exact absurd reach (grounded.acyclic step)
  · exact state.settled x isVisited ⟨c, .head _, .head step reach⟩

theorem Pruned.node (grounded : Grounded graph c) (isNew : ¬ visited c) (isThere : c ∈ s)
    (pruned : Pruned graph root c (graph c) s s1 (fun x => x = c ∨ visited x) visited1 true eltIsExtreme) :
    (∀ x, visited1 x ↔ visited x ∨ Reach graph c x) ∧
      (∀ x, visited x ∨ ¬ visited1 x → (x ∈ pruneElt c eltIsExtreme s1 ↔ x ∈ s)) ∧
      ∀ x, visited1 x → ¬ visited x → Settled graph root (pruneElt c eltIsExtreme s1) x := by
  have visits := explored_node (fun _ => Iff.rfl) pruned.visits
  have others {x : α} (ne : x ≠ c) : x ∈ pruneElt c eltIsExtreme s1 ↔ x ∈ s1 := by
    rw [pruneElt]
    split
    · rfl
    · exact mem_erase.trans (and_iff_right ne)
  refine ⟨visits, fun x before => ?_, fun x isVisited isNew' => ?_⟩
  · have ne : x ≠ c := by
      rintro rfl
      exact before.elim isNew fun outside => outside ((visits x).mpr (.inr (.refl _ _)))
    exact (others ne).trans (pruned.frame x (before.imp_left .inr))
  have after {y q : α} (reach : Reach graph c y) (step : q ∈ graph y) : q ≠ c := by
    rintro rfl
    exact (grounded.reach reach).acyclic step reach
  by_cases same : x = c
  · subst same
    have there : x ∈ s1 := (pruned.frame x (.inl (.inl rfl))).mpr isThere
    have here : x ∈ pruneElt x eltIsExtreme s1 ↔ eltIsExtreme = true := by
      cases eltIsExtreme <;> simp [pruneElt, there]
    rw [Settled, here, pruned.extreme, and_iff_right rfl]
    exact forall₂_congr fun q step => and_congr_right fun _ => not_congr (others (after (.refl _ _) step)).symm
  · have reach := ((visits x).mp isVisited).resolve_left isNew'
    have settled := pruned.settled x isVisited fun before => before.elim same isNew'
    exact settled.congr (others same) fun q step => others (after reach step)

omit [DecidableEq α] in
theorem PruneState.after (state : PruneState graph root inside (c :: rest) s visited)
    (visits : ∀ x, visited1 x ↔ visited x ∨ Reach graph c x) (frame : ∀ x, visited x ∨ ¬ visited1 x → (x ∈ s1 ↔ x ∈ s))
    (subset : s1 ⊆ s) (settled : ∀ x, visited1 x → ¬ visited x → Settled graph root s1 x) :
    PruneState graph root inside rest s1 visited1 := by
  refine ⟨fun x mem => state.subset x (subset mem), fun x isInside isNew => ?_, state.closed.after visits,
    fun x isVisited ahead => ?_⟩
  · have notBefore : ¬ visited x := fun before => isNew ((visits x).mpr (.inl before))
    exact (frame x (.inr isNew)).mpr (state.unvisited x isInside notBefore)
  · by_cases before : visited x
    · have same {y : α} (reach : Reach graph x y) : y ∈ s1 ↔ y ∈ s :=
        frame y (.inl (state.skip.closed x before ahead y reach))
      exact (state.skip.settled x before ahead).congr (same (.refl _ _)) fun q step => same (.head step (.refl _ _))
    · exact settled x isVisited before

omit [DecidableEq α] in
theorem Pruned.cons (visits : ∀ x, visited1 x ↔ visited x ∨ Reach graph c x)
    (frame : ∀ x, visited x ∨ ¬ visited1 x → (x ∈ s1 ↔ x ∈ s)) (subset : s1 ⊆ s)
    (settled : ∀ x, visited1 x → ¬ visited x → Settled graph root s1 x)
    (pruned : Pruned graph root a rest s1 s' visited1 visited' eltIsExtreme1 eltIsExtreme')
    (extreme : eltIsExtreme1 = true ↔ eltIsExtreme = true ∧ ¬ First graph root c a ∧ c ∉ s') :
    Pruned graph root a (c :: rest) s s' visited visited' eltIsExtreme eltIsExtreme' := by
  have more {x : α} (isVisited : visited1 x) : visited' x := (pruned.visits x).mpr (.inl isVisited)
  refine ⟨fun x => ?_, fun x before => ?_, pruned.fewer.trans subset, fun x isVisited isNew => ?_, ?_⟩
  · rw [pruned.visits, visits, exists_mem_cons_iff, or_assoc]
  · rcases before with before | outside
    · exact (pruned.frame x (.inl ((visits x).mpr (.inl before)))).trans (frame x (.inl before))
    · exact (pruned.frame x (.inr outside)).trans (frame x (.inr (mt more outside)))
  · by_cases early : visited1 x
    · have reach := ((visits x).mp early).resolve_left isNew
      have same {y : α} (further : Reach graph x y) : y ∈ s' ↔ y ∈ s1 :=
        pruned.frame y (.inl ((visits y).mpr (.inr (reach.trans further))))
      exact (settled x early isNew).congr (same (.refl _ _)) fun q step => same (.head step (.refl _ _))
    · exact pruned.settled x isVisited early
  · rw [pruned.extreme, extreme, List.forall_mem_cons, and_assoc]

/-- The loop over neighbours of `a`, where those in the set that have been seen are not first seen from there. -/
theorem connectedPrune_spec (nodup : ∀ a, inside a → (next a).Nodup) (grounded : Grounded (within next inside) root)
    (groundedList : ∀ b ∈ list, Grounded next b) (isInside : inside a)
    (fresh : Fresh (within next inside) root a before (keep inside list) visited)
    (state : PruneState (within next inside) root inside (keep inside list) s visited) (eltIsExtreme : Bool) :
    ∃ eltIsExtreme' s' visited',
      Returns (fun fuel => connectedPrune next fuel list eltIsExtreme s) (eltIsExtreme', s') ∧
        Pruned (within next inside) root a (keep inside list) s s' visited visited' eltIsExtreme eltIsExtreme' := by
  refine Grounded.list_induction (P := fun list => ∀ a before s visited eltIsExtreme, inside a →
    Fresh (within next inside) root a before (keep inside list) visited →
    PruneState (within next inside) root inside (keep inside list) s visited →
    ∃ eltIsExtreme' s' visited',
      Returns (fun fuel => connectedPrune next fuel list eltIsExtreme s) (eltIsExtreme', s') ∧
        Pruned (within next inside) root a (keep inside list) s s' visited visited' eltIsExtreme eltIsExtreme')
    ?_ ?_ groundedList a before s visited eltIsExtreme isInside fresh state
  · intro a before s visited eltIsExtreme _ _ _
    refine ⟨eltIsExtreme, s, visited, .step (.const _), ?_⟩
    exact ⟨by simp [keep], fun _ _ => Iff.rfl, Subset.refl s, fun x isVisited isNew => absurd isVisited isNew,
      by simp [keep]⟩
  intro c rest groundedC ihNext ihRest a before s visited eltIsExtreme isInside fresh state
  by_cases insideC : inside c
  · rw [keep_cons insideC] at fresh state ⊢
    have nodupA : (within next inside a).Nodup := (nodup a isInside).filter _
    have first_iff := fresh.first_iff nodupA
    by_cases isVisited : visited c
    · have settled := state.settled c isVisited ⟨c, .head _, .refl _ _⟩
      have notFirst : ¬ First (within next inside) root c a := fun first => first_iff.mpr first isVisited
      have visits (x : α) : visited x ↔ visited x ∨ Reach (within next inside) c x :=
        iff_self_or.mpr (state.closed.seen isVisited)
      have again {extreme extreme' : Bool} {s' visited'}
          (pruned : Pruned (within next inside) root a (keep inside rest) s s' visited visited' extreme extreme')
          (extreme_iff : extreme = true ↔ eltIsExtreme = true ∧ ¬ First (within next inside) root c a ∧ c ∉ s') :
          Pruned (within next inside) root a (c :: keep inside rest) s s' visited visited' eltIsExtreme extreme' :=
        pruned.cons visits (fun _ _ => Iff.rfl) (Subset.refl s)
          (fun x isVisited isNew => absurd isVisited isNew) extreme_iff
      by_cases isThere : c ∈ s
      · -- An element that has been left in the set has no neighbour there.
        have none : ∀ b ∈ next c, b ∉ s := fun b step mem =>
          (settled.mp isThere b (mem_keep.mpr ⟨step, state.subset b mem⟩)).2 mem
        obtain ⟨eltIsExtreme', s', visited', returns, pruned⟩ := ihRest a _ s visited false isInside
          (fresh.seen isVisited) state.skip
        have back := connectedPrune_none next none true
        refine ⟨eltIsExtreme', s', visited', .step (back.andThen returns fun fuel done => ?_),
          again pruned (iff_of_false Bool.false_ne_true ?_)⟩
        · simp [connectedPrune, if_pos isThere, done, pruneElt]
        · exact fun both => both.2.2 ((pruned.frame c (.inl isVisited)).mpr isThere)
      · obtain ⟨eltIsExtreme', s', visited', returns, pruned⟩ := ihRest a _ s visited eltIsExtreme isInside
          (fresh.seen isVisited) state.skip
        refine ⟨eltIsExtreme', s', visited', .step (returns.congr fun _ => if_neg isThere), again pruned ?_⟩
        rw [pruned.frame c (.inl isVisited), iff_self_and]
        exact fun _ => ⟨notFirst, isThere⟩
    · have isThere : c ∈ s := state.unvisited c insideC isVisited
      have groundedC' : Grounded (within next inside) c := within_grounded inside groundedC
      obtain ⟨extreme1, s1, visited1, returns1, pruned1⟩ := ihNext c [] s (fun x => x = c ∨ visited x) true insideC
        (fresh.enter nodupA grounded isVisited fun _ => Iff.rfl) (state.enter groundedC')
      obtain ⟨visits, frame, settled⟩ := pruned1.node groundedC' isVisited isThere
      have subset : pruneElt c extreme1 s1 ⊆ s := (pruneElt_subset c extreme1 s1).trans pruned1.fewer
      obtain ⟨eltIsExtreme', s', visited', returns, pruned⟩ := ihRest a _ (pruneElt c extreme1 s1) visited1 false
        isInside (fresh.after visits) (state.after visits frame subset settled)
      refine ⟨eltIsExtreme', s', visited', .step (returns1.andThen returns fun fuel done => ?_),
        pruned.cons visits frame subset settled (iff_of_false Bool.false_ne_true ?_)⟩
      · simp [connectedPrune, if_pos isThere, done]
      · exact fun both => both.2.1 (first_iff.mp isVisited)
  · have outside : c ∉ s := fun mem => insideC (state.subset c mem)
    rw [keep_cons_of_not insideC] at fresh state ⊢
    obtain ⟨eltIsExtreme', s', visited', returns, pruned⟩ :=
      ihRest a before s visited eltIsExtreme isInside fresh state
    exact ⟨eltIsExtreme', s', visited', .step (returns.congr fun _ => if_neg outside), pruned⟩

theorem connectedPrune_settles (next : α → List α) (root : α) (nodup : ∀ a, inside a → (next a).Nodup)
    (grounded : Grounded next root) (members : ∀ x, x ∈ s ↔ inside x) (isRoot : inside root)
    (reach : ∀ x, inside x → Reach (within next inside) root x) :
    ∃ s', Returns (fun fuel =>
        (connectedPrune next fuel (next root) true s).map fun result => pruneElt root result.1 result.2) s' ∧
      s' ⊆ s ∧ ∀ x, inside x → Settled (within next inside) root s' x := by
  have grounded' : Grounded (within next inside) root := within_grounded inside grounded
  have isStart (x : α) : x = root ∨ False ↔ x = root := or_iff_left not_false
  have start : PruneState (within next inside) root inside (keep inside (next root)) s fun x => x = root ∨ False := by
    refine ⟨fun x => (members x).mp, fun x isInside _ => (members x).mpr isInside, .start grounded' isStart, ?_⟩
    rintro x (rfl | none) ⟨b, step, back⟩
    · exact absurd back (grounded'.acyclic step)
    · exact none.elim
  obtain ⟨extreme, s1, visited1, returns, pruned⟩ := connectedPrune_spec nodup grounded' (fun _ => grounded.after)
    isRoot (.start grounded' isStart) start true
  obtain ⟨visits, _, settled⟩ := pruned.node grounded' not_false ((members root).mpr isRoot)
  refine ⟨pruneElt root extreme s1, returns.map _, (pruneElt_subset root extreme s1).trans pruned.fewer, ?_⟩
  exact fun x isInside => settled x ((visits x).mpr (.inr (reach x isInside))) not_false

omit [DecidableEq α] in
/-- The elements that are left are the extreme ones exactly when each other one has an extreme neighbour
or one to which the search comes first from there. -/
theorem settled_extreme_iff (subset : ∀ x ∈ s, inside x) (settled : ∀ x, inside x → Settled graph root s x) :
    (∀ x, x ∈ s ↔ inside x ∧ graph x = []) ↔
      ∀ h, inside h → graph h ≠ [] → ∃ q ∈ graph h, (inside q ∧ graph q = []) ∨ First graph root q h := by
  constructor
  · intro correct h isInside notExtreme
    have gone : h ∉ s := fun mem => notExtreme ((correct h).mp mem).2
    have some := mt (settled h isInside).mpr gone
    push Not at some
    obtain ⟨q, step, cause⟩ := some
    refine ⟨q, step, ?_⟩
    by_cases first : First graph root q h
    · exact .inr first
    · exact .inl ((correct q).mp (cause first))
  · intro condition
    have extreme {x : α} (isInside : inside x) (none : graph x = []) : x ∈ s := by
      refine (settled x isInside).mpr fun q step => ?_
      rw [none] at step
      cases step
    refine fun x => ⟨fun mem => ⟨subset x mem, ?_⟩, fun both => extreme both.1 both.2⟩
    by_contra notExtreme
    obtain ⟨q, step, cause⟩ := condition x (subset x mem) notExtreme
    have none := (settled x (subset x mem)).mp mem q step
    rcases cause with ⟨isInside, isExtreme⟩ | first
    · exact none.2 (extreme isInside isExtreme)
    · exact none.1 first

omit [DecidableEq α] in
/-- The result of a pruning is right exactly when each element that is not extreme has such a neighbour. -/
theorem correct_iff_of_settled {extreme : α → Prop} (many : list.length ≠ 1)
    (extreme_iff : ∀ x, extreme x ↔ inside x ∧ graph x = []) (spec : ∃ r, Returns run r ∧ (∀ x ∈ r, inside x) ∧
      ∀ x, inside x → Settled graph root r x) :
    (∃ r, Returns run r ∧ (∀ x, x ∈ r ↔ extreme x) ∧ ∀ e, list = [e] → r = {e}) ↔
      ∀ h, inside h → ¬ extreme h → ∃ q ∈ graph h, extreme q ∨ First graph root q h := by
  obtain ⟨r, returns, subset, settled⟩ := spec
  have condition := settled_extreme_iff subset settled
  simp only [← extreme_iff] at condition
  have correct_iff : (∃ r, Returns run r ∧ (∀ x, x ∈ r ↔ extreme x) ∧ ∀ e, list = [e] → r = {e}) ↔
      ∀ x, x ∈ r ↔ extreme x := by
    refine ⟨fun ⟨r', returns', correct, _⟩ => returns.unique returns' ▸ correct, fun correct => ?_⟩
    refine ⟨r, returns, correct, ?_⟩
    rintro e rfl
    exact absurd rfl many
  rw [correct_iff, condition]
  refine forall₂_congr fun h isInside => ?_
  rw [extreme_iff, and_iff_right isInside]

end Prune

section Bounds

variable {po : Po α} {elements : Finset α} {list rest : List α} {r : Finset α}
variable {span : Nat → α → Option (Finset α)} {rel : α → α → Prop}

private theorem isecn_run
    (spans : ∀ e ∈ rest, ∃ r, Returns (fun fuel => span fuel e) r ∧ ∀ v, v ∈ r ↔ rel v e) (r : Finset α) :
    ∃ r', Returns (fun fuel => rest.foldlM (fun r elt => (span fuel elt).map (· ∩ r)) r) r' ∧
      ∀ v, v ∈ r' ↔ v ∈ r ∧ ∀ e ∈ rest, rel v e := by
  induction rest generalizing r with
  | nil => exact ⟨r, .const r, by simp⟩
  | cons e rest ih =>
    obtain ⟨⟨r1, returns1, members1⟩, later⟩ := forall_mem_cons.mp spans
    obtain ⟨r2, returns2, members2⟩ := ih later (r1 ∩ r)
    refine ⟨r2, returns1.andThen returns2 fun fuel done => ?_, fun v => ?_⟩
    · rw [foldlM_cons, done]
      rfl
    · rw [members2, mem_inter, members1, List.forall_mem_cons, and_comm (a := rel v e), and_assoc]

/-- The spans of the elements of a list are intersected, and what is left is pruned. -/
theorem isecn_prune_settles {next : α → List α} {root e0 : α}
    (inside : α → Prop) (inside_iff : ∀ x, inside x ↔ ∀ e ∈ e0 :: rest, rel x e)
    (spans : ∀ e ∈ e0 :: rest, ∃ r, Returns (fun fuel => span fuel e) r ∧ ∀ v, v ∈ r ↔ rel v e)
    (nodup : ∀ a, inside a → (next a).Nodup) (grounded : Grounded next root) (isRoot : inside root)
    (reach : ∀ x, inside x → Reach (within next inside) root x) :
    ∃ r, Returns (fun fuel => (span fuel e0).bind fun r =>
        (rest.foldlM (fun r elt => (span fuel elt).map (· ∩ r)) r).bind fun r =>
          (connectedPrune next fuel (next root) true r).map fun result => pruneElt root result.1 result.2) r ∧
      (∀ x ∈ r, inside x) ∧ ∀ x, inside x → Settled (within next inside) root r x := by
  obtain ⟨⟨r0, returns0, members0⟩, later⟩ := forall_mem_cons.mp spans
  obtain ⟨r1, returns1, members1⟩ := isecn_run later r0
  have members (x : α) : x ∈ r1 ↔ inside x := by
    rw [members1, members0, inside_iff, List.forall_mem_cons]
  obtain ⟨r, returns, subset, settled⟩ := connectedPrune_settles next root nodup grounded members isRoot reach
  have pruned : Returns (fun fuel => (rest.foldlM (fun r elt => (span fuel elt).map (· ∩ r)) r0).bind fun r =>
      (connectedPrune next fuel (next root) true r).map fun result => pruneElt root result.1 result.2) r :=
    returns1.andThen returns fun fuel done => by rw [done]; rfl
  exact ⟨r, returns0.andThen pruned fun fuel done => by rw [done]; rfl, fun x mem => (members x).mp (subset mem), settled⟩

/-- The elements that precede or equal those of a list. -/
def LowerBound (po : Po α) (elements : Finset α) (list : List α) (x : α) : Prop := ∀ e ∈ list, po.PrecEq elements x e

/-- The elements that succeed or equal those of a list. -/
def UpperBound (po : Po α) (elements : Finset α) (list : List α) (x : α) : Prop := ∀ e ∈ list, po.PrecEq elements e x

/-- The result is the set of the maximal common lower bounds. -/
def InfOfListCorrect (po : Po α) (elements : Finset α) (list : List α) : Prop :=
  ∃ r, Returns (fun fuel => infOfList fuel po list) r ∧
    (∀ x, x ∈ r ↔ Maximal po elements (LowerBound po elements list) x) ∧ ∀ e, list = [e] → r = {e}

/-- The result is the set of the minimal common upper bounds. -/
def SupOfListCorrect (po : Po α) (elements : Finset α) (list : List α) : Prop :=
  ∃ r, Returns (fun fuel => supOfList fuel po list) r ∧
    (∀ x, x ∈ r ↔ Minimal po elements (UpperBound po elements list) x) ∧ ∀ e, list = [e] → r = {e}

/-- Each common lower bound that is not maximal has an immediate successor that is a maximal one, or one
to which the first path from the bottom, through common lower bounds, is by the given one. -/
def PrunesToMax (po : Po α) (elements : Finset α) (list : List α) : Prop :=
  ∀ h, LowerBound po elements list h → ¬ Maximal po elements (LowerBound po elements list) h →
    ∃ q ∈ within po.isuccs (LowerBound po elements list) h, Maximal po elements (LowerBound po elements list) q ∨
      First (within po.isuccs (LowerBound po elements list)) po.bot q h

/-- Each common upper bound that is not minimal has an immediate predecessor that is a minimal one, or one
to which the first path from the top, through common upper bounds, is by the given one. -/
def PrunesToMin (po : Po α) (elements : Finset α) (list : List α) : Prop :=
  ∀ h, UpperBound po elements list h → ¬ Minimal po elements (UpperBound po elements list) h →
    ∃ q ∈ within po.ipreds (UpperBound po elements list) h, Minimal po elements (UpperBound po elements list) q ∨
      First (within po.ipreds (UpperBound po elements list)) po.top q h

omit [DecidableEq α] in
theorem mem_of_precEq (path : po.PrecEq elements a b) (inside : b ∈ elements) : a ∈ elements := by
  rcases precEq_iff.mp path with rfl | below
  · exact inside
  · exact Linked.mem_left below

variable (ordered : Ordered po elements) (nonempty : list ≠ []) (members : ∀ e ∈ list, e ∈ elements)

include ordered nonempty members

omit [DecidableEq α] ordered in
theorem LowerBound.mem (low : LowerBound po elements list x) : x ∈ elements := by
  obtain ⟨e, mem⟩ := exists_mem_of_ne_nil list nonempty
  exact mem_of_precEq (low e mem) (members e mem)

section

omit [DecidableEq α]

theorem UpperBound.mem (high : UpperBound po elements list x) : x ∈ elements := by
  obtain ⟨e, mem⟩ := exists_mem_of_ne_nil list nonempty
  exact ordered.linked.mem_of_path (high e mem) (members e mem)

private theorem maximal_iff (x : α) : Maximal po elements (LowerBound po elements list) x ↔
    LowerBound po elements list x ∧ within po.isuccs (LowerBound po elements list) x = [] := by
  refine and_congr_right fun low => ⟨fun greatest => ?_, fun none y low' path => ?_⟩
  · refine eq_nil_iff_forall_not_mem.mpr fun c mem => ?_
    obtain ⟨step, low'⟩ := mem_keep.mp mem
    exact greatest c low' (.single ⟨low.mem nonempty members, step⟩)
  · obtain ⟨c, step, path⟩ := (ordered.linked.succ_iff (low.mem nonempty members)).mpr path
    exact eq_nil_iff_forall_not_mem.mp none c (mem_keep.mpr ⟨step, fun e mem => path.trans (low' e mem)⟩)

private theorem minimal_iff (x : α) : Minimal po elements (UpperBound po elements list) x ↔
    UpperBound po elements list x ∧ within po.ipreds (UpperBound po elements list) x = [] := by
  refine and_congr_right fun high => ⟨fun least => ?_, fun none y high' path => ?_⟩
  · refine eq_nil_iff_forall_not_mem.mpr fun c mem => ?_
    obtain ⟨step, high'⟩ := mem_keep.mp mem
    exact least c high' (.single (ordered.linked.link_of_pred (high.mem ordered nonempty members) step))
  · obtain ⟨c, step, path⟩ := (ordered.linked.pred_iff (high.mem ordered nonempty members)).mpr path
    exact eq_nil_iff_forall_not_mem.mp none c (mem_keep.mpr ⟨step, fun e mem => (high' e mem).trans path⟩)

end

omit [DecidableEq α] ordered members in
theorem exists_cons_cons (many : list.length ≠ 1) : ∃ e0 e1 rest, list = e0 :: e1 :: rest := by
  rcases list with _ | ⟨e0, _ | ⟨e1, rest⟩⟩
  · exact absurd rfl nonempty
  · exact absurd rfl many
  · exact ⟨e0, e1, rest, rfl⟩

theorem infOfList_spec (many : list.length ≠ 1) : ∃ r, Returns (fun fuel => infOfList fuel po list) r ∧
    (∀ x ∈ r, LowerBound po elements list x) ∧
      ∀ x, LowerBound po elements list x → Settled (within po.isuccs (LowerBound po elements list)) po.bot r x := by
  have linked := ordered.linked
  obtain ⟨e0, e1, rest, rfl⟩ := exists_cons_cons nonempty many
  have inside := members e0 mem_cons_self
  refine isecn_prune_settles _ (fun _ => Iff.rfl) (fun e mem => lspan_spec linked ordered.leveled (members e mem))
    (fun a low => (linked.nodup a (low.mem nonempty members)).1)
    (linked.grounded_succs ordered.leveled.irrefl (mem_of_precEq (ordered.from_bot e0 inside) inside))
    (fun e mem => ordered.from_bot e (members e mem)) fun x low => ?_
  -- All that is on a path to a lower bound is one.
  refine ReflTransGen.head_induction_on (ordered.from_bot x (low.mem nonempty members)) (.refl _ _) ?_
  intro a c link path reach
  exact .head (mem_keep.mpr ⟨link.2, fun e mem => path.trans (low e mem)⟩) reach

private theorem supOfList_spec (many : list.length ≠ 1) : ∃ r, Returns (fun fuel => supOfList fuel po list) r ∧
    (∀ x ∈ r, UpperBound po elements list x) ∧
      ∀ x, UpperBound po elements list x → Settled (within po.ipreds (UpperBound po elements list)) po.top r x := by
  have linked := ordered.linked
  obtain ⟨e0, e1, rest, rfl⟩ := exists_cons_cons nonempty many
  have inside := members e0 mem_cons_self
  refine isecn_prune_settles _ (fun _ => Iff.rfl) (fun e mem => uspan_spec linked ordered.leveled (members e mem))
    (fun a high => (linked.nodup a (high.mem ordered nonempty members)).2)
    (linked.grounded_preds ordered.leveled (linked.mem_of_path (ordered.to_top e0 inside) inside))
    (fun e mem => ordered.to_top e (members e mem)) fun x high => ?_
  have path := ordered.to_top x (high.mem ordered nonempty members)
  generalize po.top = t at path ⊢
  induction path with
  | refl => exact .refl _ _
  | tail path link ih =>
    exact .head (mem_keep.mpr ⟨linked.pred_of_link link, fun e mem => (high e mem).trans path⟩) ih

private theorem infOfList_correct_iff :
    InfOfListCorrect po elements list ↔ list.length = 1 ∨ PrunesToMax po elements list := by
  by_cases one : list.length = 1
  · refine iff_of_true ?_ (.inl one)
    obtain ⟨e, rfl⟩ := length_eq_one_iff.mp one
    refine ⟨{e}, (Returns.const _).congr fun _ => rfl, fun x => ?_, fun e' same => by rw [(cons.inj same).1]⟩
    rw [Finset.mem_singleton, Maximal, LowerBound, forall_mem_singleton]
    constructor
    · rintro rfl
      exact ⟨.refl, fun y low path => ordered.leveled.not_back path (low x mem_cons_self)⟩
    · rintro ⟨low, greatest⟩
      refine (precEq_iff.mp low).resolve_right (greatest e fun e' mem => ?_)
      exact List.mem_singleton.mp mem ▸ .refl
  · rw [or_iff_right one]
    exact correct_iff_of_settled one (maximal_iff ordered nonempty members)
      (infOfList_spec ordered nonempty members one)

private theorem supOfList_correct_iff :
    SupOfListCorrect po elements list ↔ list.length = 1 ∨ PrunesToMin po elements list := by
  by_cases one : list.length = 1
  · refine iff_of_true ?_ (.inl one)
    obtain ⟨e, rfl⟩ := length_eq_one_iff.mp one
    refine ⟨{e}, (Returns.const _).congr fun _ => rfl, fun x => ?_, fun e' same => by rw [(cons.inj same).1]⟩
    rw [Finset.mem_singleton, Minimal, UpperBound, forall_mem_singleton]
    constructor
    · rintro rfl
      exact ⟨.refl, fun y high path => ordered.leveled.not_back path (high x mem_cons_self)⟩
    · rintro ⟨high, least⟩
      refine ((precEq_iff.mp high).resolve_right (least e fun e' mem => ?_)).symm
      exact List.mem_singleton.mp mem ▸ .refl
  · rw [or_iff_right one]
    exact correct_iff_of_settled one (minimal_iff ordered nonempty members)
      (supOfList_spec ordered nonempty members one)

/-- Both bounds are right exactly for single elements, and where the pruning comes from each element that
is not extreme to one above or below it before it comes there from elsewhere. -/
theorem infSupOfList_correct_iff : InfOfListCorrect po elements list ∧ SupOfListCorrect po elements list ↔
    list.length = 1 ∨ PrunesToMax po elements list ∧ PrunesToMin po elements list := by
  rw [infOfList_correct_iff ordered nonempty members, supOfList_correct_iff ordered nonempty members, or_and_left]

end Bounds

theorem infSupOfList_correct_iff_diamond :
    InfOfListCorrect diamondPo {0, 1, 2, 3, 4, 5} [5, 1] ∧ SupOfListCorrect diamondPo {0, 1, 2, 3, 4, 5} [5, 1] ↔
      [5, 1].length = 1 ∨
        PrunesToMax diamondPo {0, 1, 2, 3, 4, 5} [5, 1] ∧ PrunesToMin diamondPo {0, 1, 2, 3, 4, 5} [5, 1] :=
  infSupOfList_correct_iff diamond_ordered (cons_ne_nil _ _) (by decide)

/-- Of the common lower bounds of 5 and the top, 2 is left as well: 4 has been erased when the search comes
to it from there. -/
theorem infOfList_diamond : ∃ po, Returns diamond po ∧
    ¬ (InfOfListCorrect po {0, 1, 2, 3, 4, 5} [5, 1] ∧ SupOfListCorrect po {0, 1, 2, 3, 4, 5} [5, 1]) := by
  obtain ⟨po, isResult⟩ : ∃ po, diamond 20 = some po := ⟨_, rfl⟩
  have enough (k : Nat) : diamond (k + 20) = some po := isResult ▸ rfl
  have links : (diamond 20).map (fun po => decide (4 ∈ po.isuccs 2 ∧ 5 ∈ po.isuccs 4 ∧ 1 ∈ po.isuccs 5)) =
      some true := rfl
  have left (k : Nat) : (diamond (k + 20)).bind (fun po => (infOfList (k + 20) po [5, 1]).map fun r => decide (2 ∈ r)) =
      some true := rfl
  refine ⟨po, ⟨20, fun fuel bound => ?_⟩, ?_⟩
  · obtain ⟨k, rfl⟩ := Nat.exists_eq_add_of_le' bound
    exact enough k
  rintro ⟨⟨r, ⟨bound, returns⟩, correct, _⟩, _⟩
  have result : infOfList (bound + 20) po [5, 1] = some r := returns (bound + 20) (Nat.le_add_right bound 20)
  have member := left bound
  rw [enough, Option.bind_some, result, Option.map_some, Option.some.injEq, decide_eq_true_iff] at member
  rw [isResult, Option.map_some, Option.some.injEq, decide_eq_true_iff] at links
  obtain ⟨above, low, high⟩ := links
  have isLower : LowerBound po {0, 1, 2, 3, 4, 5} [5, 1] 4 := by
    have path : po.PrecEq {0, 1, 2, 3, 4, 5} 4 5 := .single ⟨by decide, low⟩
    exact forall_mem_cons.mpr ⟨path, forall_mem_singleton.mpr (path.tail ⟨by decide, high⟩)⟩
  exact ((correct 2).mp member).2 4 isLower (.single ⟨by decide, above⟩)

end Culibs.Cucon.Po
