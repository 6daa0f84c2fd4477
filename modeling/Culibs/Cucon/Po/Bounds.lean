import Culibs.Cucon.Po.Spans
import Culibs.Foundation.FirstPath
import Mathlib.Data.Finset.Max

namespace Culibs.Cucon.Po

open DepthFirst Relation List Finset

variable {α : Type} [DecidableEq α]

/-- `cucon_pocmp_t`. A classification has the virtual range on the left-hand side. -/
inductive Pocmp where
  | eq | prec | succ | unord
  deriving DecidableEq

/-- The three sets, and the table of the answers. -/
structure RangeBounds (α : Type) where
  range : Finset α
  preds : Finset α
  succs : Finset α
  cache : α → Option Pocmp

namespace RangeBounds

def init : RangeBounds α := ⟨∅, ∅, ∅, fun _ => none⟩

def put (s : RangeBounds α) (e : α) (cmp : Pocmp) : RangeBounds α :=
  { s with cache := Function.update s.cache e (some cmp) }

theorem cache_put (s : RangeBounds α) (e : α) (cmp : Pocmp) (x : α) :
    (s.put e cmp).cache x = if x = e then some cmp else s.cache x :=
  Function.update_apply ..

end RangeBounds

/-- The loop of `_po_ucollect_preds`, over the rest of the immediate successors. -/
def ucollectPredsLoop (po : Po α) (cmpFn : α → Pocmp) :
    Nat → List α → Bool → RangeBounds α → Option (Bool × RangeBounds α)
  | 0, _, _, _ => none
  | _ + 1, [], havePred, s => some (havePred, s)
  | fuel + 1, e :: rest, havePred, s =>
    match s.cache e with
    | none =>
      let s := s.put e (cmpFn e)
      if cmpFn e = .prec then
        (ucollectPredsLoop po cmpFn fuel (po.isuccs e) false s).bind fun result =>
          ucollectPredsLoop po cmpFn fuel rest true
            (if result.1 then result.2 else { result.2 with preds := insert e result.2.preds })
      else ucollectPredsLoop po cmpFn fuel rest havePred s
    | some cmp => ucollectPredsLoop po cmpFn fuel rest (if cmp = .prec then true else havePred) s

/-- `_po_ucollect_preds` -/
def ucollectPreds (fuel : Nat) (po : Po α) (low : α) (cmpFn : α → Pocmp) (s : RangeBounds α) : Option (RangeBounds α) :=
  (ucollectPredsLoop po cmpFn fuel (po.isuccs low) false s).map fun result =>
    if result.1 then result.2 else { result.2 with preds := insert low result.2.preds }

/-- The loop of `_po_dcollect_range`, over the rest of the immediate predecessors. -/
def dcollectRangeLoop (po : Po α) (cmpFn : α → Pocmp) : Nat → List α → RangeBounds α → Option (RangeBounds α)
  | 0, _, _ => none
  | _ + 1, [], s => some s
  | fuel + 1, e :: rest, s =>
    match s.cache e with
    | none =>
      let s := s.put e (cmpFn e)
      if cmpFn e = .eq then
        (dcollectRangeLoop po cmpFn fuel (po.ipreds e) { s with range := insert e s.range }).bind
          (dcollectRangeLoop po cmpFn fuel rest)
      else dcollectRangeLoop po cmpFn fuel rest s
    | some _ => dcollectRangeLoop po cmpFn fuel rest s

/-- `_po_dcollect_range` -/
def dcollectRange (fuel : Nat) (po : Po α) (high : α) (cmpFn : α → Pocmp) (s : RangeBounds α) :
    Option (RangeBounds α) :=
  dcollectRangeLoop po cmpFn fuel (po.ipreds high) { s with range := insert high s.range }

/-- The loop of `_po_dcollect_range_and_succs`, over the rest of the immediate predecessors. -/
def dcollectLoop (po : Po α) (cmpFn : α → Pocmp) :
    Nat → List α → Bool → RangeBounds α → Option (Bool × RangeBounds α)
  | 0, _, _, _ => none
  | _ + 1, [], haveSucc, s => some (haveSucc, s)
  | fuel + 1, e :: rest, haveSucc, s =>
    match s.cache e with
    | none =>
      let s := s.put e (cmpFn e)
      match cmpFn e with
      | .prec =>
        (dcollectLoop po cmpFn fuel (po.ipreds e) false s).bind fun result =>
          dcollectLoop po cmpFn fuel rest true
            (if result.1 then result.2 else { result.2 with succs := insert e result.2.succs })
      | .eq => (dcollectRange fuel po e cmpFn s).bind (dcollectLoop po cmpFn fuel rest haveSucc)
      | _ => dcollectLoop po cmpFn fuel rest haveSucc s
    | some cmp => dcollectLoop po cmpFn fuel rest (if cmp = .succ then true else haveSucc) s

/-- `_po_dcollect_range_and_succs` -/
def dcollectRangeAndSuccs (fuel : Nat) (po : Po α) (high : α) (cmpFn : α → Pocmp) (s : RangeBounds α) :
    Option (RangeBounds α) :=
  (dcollectLoop po cmpFn fuel (po.ipreds high) false s).map fun result =>
    if result.1 then result.2 else { result.2 with succs := insert high result.2.succs }

/-- The first switch of `cucon_po_range_and_bounds_of_fn`. Outside of debug builds nothing happens where
`cu_debug_unreachable` stands. -/
def collectFromTop (fuel : Nat) (po : Po α) (top : α) (cmpFn : α → Pocmp) (s : RangeBounds α) :
    Option (RangeBounds α) :=
  match cmpFn top with
  | .eq => dcollectRange fuel po top cmpFn s
  | .prec => dcollectRangeAndSuccs fuel po top cmpFn s
  | .succ | .unord => some s

/-- The second switch of `cucon_po_range_and_bounds_of_fn`. -/
def collectFromBot (fuel : Nat) (po : Po α) (bot : α) (cmpFn : α → Pocmp) (cmp : Pocmp) (s : RangeBounds α) :
    Option (RangeBounds α) :=
  match cmp with
  | .succ => ucollectPreds fuel po bot cmpFn s
  | .prec | .eq | .unord => some s

/-- `cucon_po_range_and_bounds_of_fn`, for maps that are empty. -/
def rangeAndBoundsOfFn (fuel : Nat) (po : Po α) (bot top : α) (cmpFn : α → Pocmp) : Option (RangeBounds α) := do
  let s ← collectFromTop fuel po top cmpFn (RangeBounds.init.put top (cmpFn top))
  match s.cache bot with
  | none => collectFromBot fuel po bot cmpFn (cmpFn bot) (s.put bot (cmpFn bot))
  | some cmp => collectFromBot fuel po bot cmpFn cmp s

section Collect

variable {po : Po α} {cmpFn : α → Pocmp} {top a e x : α} {list rest : List α} {s s' s1 : RangeBounds α}
  {elements : Finset α}

/-- The immediate predecessors, of the elements that the searches go on from. -/
def below (po : Po α) (cmpFn : α → Pocmp) (a : α) : List α :=
  if cmpFn a = .prec ∨ cmpFn a = .eq then po.ipreds a else []

/-- An immediate predecessor makes `a` no bound if it is above the range and first reached from `a`, or
below the range and first reached from elsewhere. -/
def Counts (po : Po α) (cmpFn : α → Pocmp) (top e a : α) : Prop :=
  (cmpFn e = .prec ∧ First (below po cmpFn) top e a) ∨ (cmpFn e = .succ ∧ ¬ First (below po cmpFn) top e a)

def Seen (s : RangeBounds α) (x : α) : Prop := s.cache x ≠ none

/-- The table has answers of the classification. -/
def Knows (cmpFn : α → Pocmp) (s : RangeBounds α) : Prop := ∀ x cmp, s.cache x = some cmp → cmp = cmpFn x

/-- An element that has been seen now and not before. -/
def New (s s' : RangeBounds α) (x : α) : Prop := Seen s' x ∧ ¬ Seen s x

/-- What is below a list has been seen, and collected where it is in the range or one of its bounds. -/
structure Collected (po : Po α) (cmpFn : α → Pocmp) (top : α) (list : List α) (s s' : RangeBounds α) : Prop where
  knows : Knows cmpFn s'
  visits : ∀ x, Seen s' x ↔ Seen s x ∨ ∃ b ∈ list, Reach (below po cmpFn) b x
  range : ∀ x, x ∈ s'.range ↔ x ∈ s.range ∨ New s s' x ∧ cmpFn x = .eq
  succs : ∀ x, x ∈ s'.succs ↔ x ∈ s.succs ∨ New s s' x ∧ cmpFn x = .prec ∧ ¬ ∃ e ∈ po.ipreds x, Counts po cmpFn top e x
  preds : s'.preds = s.preds

theorem seen_put (cmp : Pocmp) : Seen (s.put e cmp) x ↔ x = e ∨ Seen s x := by
  rw [Seen, RangeBounds.cache_put]
  split
  · next same => simp [same]
  · next ne => simp [Seen, ne]

theorem knows_put (knows : Knows cmpFn s) : Knows cmpFn (s.put e (cmpFn e)) := by
  intro x cmp known
  rw [RangeBounds.cache_put] at known
  split at known
  · next same => rw [same, Option.some.inj known]
  · exact knows x cmp known

section

omit [DecidableEq α]

theorem Collected.refl (knows : Knows cmpFn s) : Collected po cmpFn top [] s s := by
  refine ⟨knows, by simp, fun x => ?_, fun x => ?_, rfl⟩
  · exact (or_iff_left fun new => new.1.2 new.1.1).symm
  · exact (or_iff_left fun new => new.1.2 new.1.1).symm

theorem Collected.seen (knows : Knows cmpFn s) (closed : ∀ b, Reach (below po cmpFn) e b → Seen s b) :
    Collected po cmpFn top [e] s s := by
  have nothing : Collected po cmpFn top [] s s := .refl knows
  refine ⟨knows, fun x => ?_, nothing.range, nothing.succs, rfl⟩
  simpa using closed x

theorem Collected.cons (first : Collected po cmpFn top [e] s s1) (later : Collected po cmpFn top rest s1 s') :
    Collected po cmpFn top (e :: rest) s s' := by
  have new_iff (x : α) : New s s' x ↔ New s s1 x ∨ New s1 s' x := by
    have grows (x : α) (isSeen : Seen s x) : Seen s1 x := (first.visits x).mpr (.inl isSeen)
    have grows' (x : α) (isSeen : Seen s1 x) : Seen s' x := (later.visits x).mpr (.inl isSeen)
    unfold New
    tauto
  refine ⟨later.knows, fun x => ?_, fun x => ?_, fun x => ?_, later.preds.trans first.preds⟩
  · rw [later.visits, first.visits, or_assoc]
    simp
  · rw [later.range, first.range, new_iff, or_and_right, or_assoc]
  · rw [later.succs, first.succs, new_iff, or_and_right, or_assoc]

end

/-- How an element is entered, before those below it. -/
structure Enters (cmpFn : α → Pocmp) (e : α) (s s' : RangeBounds α) : Prop where
  knows : Knows cmpFn s'
  seen : ∀ x, Seen s' x ↔ x = e ∨ Seen s x
  range : ∀ x, x ∈ s'.range ↔ x ∈ s.range ∨ x = e ∧ cmpFn e = .eq
  succs : s'.succs = s.succs
  preds : s'.preds = s.preds

theorem enters_put (knows : Knows cmpFn s) (other : cmpFn e ≠ .eq) : Enters cmpFn e s (s.put e (cmpFn e)) :=
  ⟨knows_put knows, fun _ => seen_put _, fun _ => (or_iff_left fun both => other both.2).symm, rfl, rfl⟩

theorem enters_eq (knows : Knows cmpFn s) (isEq : cmpFn e = .eq) :
    Enters cmpFn e s { s.put e (cmpFn e) with range := insert e s.range } := by
  refine ⟨knows_put knows, fun _ => seen_put _, fun x => ?_, rfl, rfl⟩
  rw [and_iff_left isEq, or_comm]
  exact mem_insert

theorem Collected.node (isNew : ¬ Seen s e) (enters : Enters cmpFn e s s0)
    (inner : Collected po cmpFn top (below po cmpFn e) s0 s1) {succs : Finset α}
    (closes : ∀ x, x ∈ succs ↔ x ∈ s1.succs ∨ x = e ∧ cmpFn e = .prec ∧ ¬ ∃ c ∈ po.ipreds e, Counts po cmpFn top c e) :
    Collected po cmpFn top [e] s { s1 with succs } := by
  have visits := explored_node enters.seen inner.visits
  have isSeen : Seen s1 e := (visits e).mpr (.inr (.refl _ _))
  have new_iff (x : α) : New s { s1 with succs } x ↔ New s0 s1 x ∨ x = e := by
    by_cases same : x = e
    · subst same
      exact iff_of_true ⟨isSeen, isNew⟩ (.inr rfl)
    · rw [or_iff_left same, New, New, enters.seen, or_iff_right same]
      rfl
  refine ⟨inner.knows, fun x => ?_, fun x => ?_, fun x => ?_, inner.preds.trans enters.preds⟩
  · exact (visits x).trans (or_congr_right (by simp))
  · rw [inner.range, enters.range, new_iff]
    by_cases same : x = e
    · subst same
      tauto
    · tauto
  · rw [closes, inner.succs, enters.succs, new_iff]
    by_cases same : x = e
    · subst same
      tauto
    · tauto

section

omit [DecidableEq α]

theorem Collected.explored (first : Collected po cmpFn top [e] s s1) (x : α) :
    Seen s1 x ↔ Seen s x ∨ Reach (below po cmpFn) e x :=
  (first.visits x).trans (or_congr_right (by simp))

theorem below_of (searched : cmpFn a = .prec ∨ cmpFn a = .eq) : below po cmpFn a = po.ipreds a := if_pos searched

theorem below_of_not (notPrec : cmpFn a ≠ .prec) (notEq : cmpFn a ≠ .eq) : below po cmpFn a = [] :=
  if_neg (not_or.mpr ⟨notPrec, notEq⟩)

theorem below_subset (step : e ∈ below po cmpFn a) : e ∈ po.ipreds a := by
  rw [below] at step
  split at step
  · exact step
  · cases step

theorem reach_preds (reach : Reach (below po cmpFn) a x) : Reach po.ipreds a x :=
  ReflTransGen.mono (fun _ _ => below_subset) _ _ reach

end

theorem Collected.leaf (knows : Knows cmpFn s) (isNew : ¬ Seen s e) (notPrec : cmpFn e ≠ .prec)
    (notEq : cmpFn e ≠ .eq) : Collected po cmpFn top [e] s (s.put e (cmpFn e)) := by
  have inner : Collected po cmpFn top (below po cmpFn e) (s.put e (cmpFn e)) (s.put e (cmpFn e)) := by
    rw [below_of_not notPrec notEq]
    exact .refl (knows_put knows)
  exact .node isNew (enters_put knows notEq) inner fun x => (or_iff_left fun both => notPrec both.2.1).symm

theorem dcollectRangeLoop_spec (top : α) (grounded : ∀ b ∈ list, Grounded (below po cmpFn) b)
    (noPrec : ∀ b ∈ list, ∀ x, Reach (below po cmpFn) b x → cmpFn x ≠ .prec) (knows : Knows cmpFn s)
    (closed : Finished (below po cmpFn) list (Seen s)) :
    ∃ s', Returns (fun fuel => dcollectRangeLoop po cmpFn fuel list s) s' ∧ Collected po cmpFn top list s s' := by
  refine Grounded.list_induction (P := fun list => (∀ b ∈ list, ∀ x, Reach (below po cmpFn) b x → cmpFn x ≠ .prec) →
    ∀ s, Knows cmpFn s → Finished (below po cmpFn) list (Seen s) →
    ∃ s', Returns (fun fuel => dcollectRangeLoop po cmpFn fuel list s) s' ∧ Collected po cmpFn top list s s')
    ?_ ?_ grounded noPrec s knows closed
  · intro _ s knows _
    exact ⟨s, .step (.const s), .refl knows⟩
  intro e rest grounded ihNext ihRest noPrec s knows closed
  obtain ⟨first, later⟩ := forall_mem_cons.mp noPrec
  have finish {s1 : RangeBounds α} (collected : Collected po cmpFn top [e] s s1)  :
      ∃ s', Returns (fun fuel => dcollectRangeLoop po cmpFn fuel rest s1) s' ∧
        Collected po cmpFn top (e :: rest) s s' := by
    obtain ⟨s', returns, collected'⟩ := ihRest later s1 collected.knows (closed.after collected.explored)
    exact ⟨s', returns, collected.cons collected'⟩
  by_cases isSeen : Seen s e
  · obtain ⟨cmp, known⟩ := Option.ne_none_iff_exists'.mp isSeen
    obtain ⟨s', returns, collected⟩ := finish (.seen knows fun b => closed.seen isSeen)
    refine ⟨s', .step (returns.congr fun fuel => ?_), collected⟩
    simp only [dcollectRangeLoop, known]
  have unknown : s.cache e = none := not_not.mp isSeen
  by_cases isEq : cmpFn e = .eq
  · have enters : Enters cmpFn e s { s.put e (cmpFn e) with range := insert e s.range } := enters_eq knows isEq
    obtain ⟨s1, returns1, inner⟩ := ihNext (fun b step x reach => first x (.head step reach)) _ enters.knows
      (closed.enter grounded enters.seen)
    have collected : Collected po cmpFn top [e] s s1 := .node isSeen enters inner fun x =>
      (or_iff_left fun both => absurd (isEq.symm.trans both.2.1) (by decide)).symm
    obtain ⟨s', returns, collected'⟩ := finish collected
    rw [below_of (.inr isEq)] at returns1
    refine ⟨s', .step (returns1.andThen returns fun fuel done => ?_), collected'⟩
    simp only [dcollectRangeLoop, unknown, if_pos isEq]
    exact congrArg (Option.bind · (dcollectRangeLoop po cmpFn fuel rest)) done
  · obtain ⟨s', returns, collected⟩ := finish (.leaf knows isSeen (first e (.refl _ _)) isEq)
    refine ⟨s', .step (returns.congr fun fuel => ?_), collected⟩
    simp only [dcollectRangeLoop, unknown, if_neg isEq]

private theorem dcollectLoop_spec (nodup : ∀ a ∈ elements, (po.ipreds a).Nodup)
    (inner : ∀ a ∈ elements, ∀ b ∈ po.ipreds a, b ∈ elements)
    (noPrec : ∀ e ∈ elements, cmpFn e = .eq → ∀ b ∈ po.ipreds e, ∀ x, Reach (below po cmpFn) b x → cmpFn x ≠ .prec)
    (groundedTop : Grounded (below po cmpFn) top) (grounded : ∀ b ∈ list, Grounded (below po cmpFn) b)
    (inside : ∀ b ∈ list, b ∈ elements) (isPrec : cmpFn a = .prec) (isElement : a ∈ elements) {before : List α}
    (fresh : Fresh (below po cmpFn) top a before list (Seen s)) (knows : Knows cmpFn s)
    (closed : Finished (below po cmpFn) list (Seen s)) (haveSucc : Bool) :
    ∃ haveSucc' s', Returns (fun fuel => dcollectLoop po cmpFn fuel list haveSucc s) (haveSucc', s') ∧
      Collected po cmpFn top list s s' ∧
        (haveSucc' = true ↔ haveSucc = true ∨ ∃ e ∈ list, Counts po cmpFn top e a) := by
  refine Grounded.list_induction (P := fun list => ∀ a ∈ elements, cmpFn a = .prec → (∀ b ∈ list, b ∈ elements) →
    ∀ before s haveSucc, Fresh (below po cmpFn) top a before list (Seen s) → Knows cmpFn s →
    Finished (below po cmpFn) list (Seen s) →
    ∃ haveSucc' s', Returns (fun fuel => dcollectLoop po cmpFn fuel list haveSucc s) (haveSucc', s') ∧
      Collected po cmpFn top list s s' ∧ (haveSucc' = true ↔ haveSucc = true ∨ ∃ e ∈ list, Counts po cmpFn top e a))
    ?_ ?_ grounded a isElement isPrec inside before s haveSucc fresh knows closed
  · intro a _ _ _ before s haveSucc _ knows _
    exact ⟨haveSucc, s, .step (.const _), .refl knows, by simp⟩
  intro e rest grounded ihNext ihRest a isElement isPrec inside before s haveSucc fresh knows closed
  obtain ⟨insideE, later⟩ := forall_mem_cons.mp inside
  have nodupA : (below po cmpFn a).Nodup := by
    rw [below_of (.inl isPrec)]
    exact nodup a isElement
  have first_iff := fresh.first_iff nodupA
  by_cases isSeen : Seen s e
  · obtain ⟨cmp, known⟩ := Option.ne_none_iff_exists'.mp isSeen
    obtain rfl := knows e cmp known
    have counts_iff : Counts po cmpFn top e a ↔ cmpFn e = .succ := by
      have notFirst : ¬ First (below po cmpFn) top e a := fun first => first_iff.mpr first isSeen
      simp [Counts, notFirst]
    obtain ⟨haveSucc', s', returns, collected, have_iff⟩ := ihRest a isElement isPrec later _ s
      (if cmpFn e = .succ then true else haveSucc) (fresh.seen isSeen) knows closed.skip
    refine ⟨haveSucc', s', .step (returns.congr fun fuel => ?_),
      .cons (.seen knows fun b => closed.seen isSeen) collected, ?_⟩
    · simp only [dcollectLoop, known]
    · rw [have_iff, exists_mem_cons_iff, counts_iff]
      by_cases isSucc : cmpFn e = .succ <;> simp [isSucc]
  · have first : First (below po cmpFn) top e a := first_iff.mp isSeen
    have counts_iff : Counts po cmpFn top e a ↔ cmpFn e = .prec := by
      simp [Counts, first]
    have unknown : s.cache e = none := not_not.mp isSeen
    have finish {s1 : RangeBounds α} (collected : Collected po cmpFn top [e] s s1) (haveSucc1 : Bool)
        (have1 : haveSucc1 = true ↔ haveSucc = true ∨ cmpFn e = .prec) :
        ∃ haveSucc' s', Returns (fun fuel => dcollectLoop po cmpFn fuel rest haveSucc1 s1) (haveSucc', s') ∧
          Collected po cmpFn top (e :: rest) s s' ∧
            (haveSucc' = true ↔ haveSucc = true ∨ ∃ b ∈ e :: rest, Counts po cmpFn top b a) := by
      obtain ⟨haveSucc', s', returns, collected', have_iff⟩ := ihRest a isElement isPrec later _ s1 haveSucc1
        (fresh.after collected.explored) collected.knows (closed.after collected.explored)
      refine ⟨haveSucc', s', returns, collected.cons collected', ?_⟩
      rw [have_iff, have1, exists_mem_cons_iff, counts_iff, or_assoc]
    by_cases isPrecE : cmpFn e = .prec
    · have same : below po cmpFn e = po.ipreds e := below_of (.inl isPrecE)
      have enters : Enters cmpFn e s (s.put e (cmpFn e)) := enters_put knows (by simp [isPrecE])
      obtain ⟨haveSucc1, s1, returns1, collected1, have1⟩ := ihNext e insideE isPrecE
        (same ▸ inner e insideE) [] (s.put e (cmpFn e)) false (fresh.enter nodupA groundedTop isSeen enters.seen)
        enters.knows (closed.enter grounded enters.seen)
      rw [same, or_iff_right Bool.false_ne_true] at have1
      have collected : Collected po cmpFn top [e] s
          { s1 with succs := if haveSucc1 then s1.succs else insert e s1.succs } := by
        refine .node isSeen enters collected1 fun x => ?_
        rw [and_iff_right isPrecE, ← have1]
        cases haveSucc1
        · simp [or_comm]
        · simp
      obtain ⟨haveSucc', s', returns, rest⟩ := finish collected true (by simp [isPrecE])
      rw [same] at returns1
      refine ⟨haveSucc', s', .step (returns1.andThen returns fun fuel done => ?_), rest⟩
      simp only [dcollectLoop, unknown]
      rw [isPrecE] at done ⊢
      simp only [done, Option.bind_some]
      cases haveSucc1 <;> rfl
    by_cases isEqE : cmpFn e = .eq
    · have same : below po cmpFn e = po.ipreds e := below_of (.inr isEqE)
      have enters : Enters cmpFn e s { s.put e (cmpFn e) with range := insert e s.range } := enters_eq knows isEqE
      obtain ⟨s1, returns1, collected1⟩ := dcollectRangeLoop_spec top (fun _ => grounded.after)
        (same ▸ noPrec e insideE isEqE) enters.knows (closed.enter grounded enters.seen)
      have collected : Collected po cmpFn top [e] s s1 := .node isSeen enters collected1 fun x =>
        (or_iff_left fun both => absurd (isEqE.symm.trans both.2.1) (by decide)).symm
      obtain ⟨haveSucc', s', returns, rest⟩ := finish collected haveSucc (by simp [isEqE])
      rw [same] at returns1
      refine ⟨haveSucc', s', .step (returns1.andThen returns fun fuel done => ?_), rest⟩
      simp only [dcollectLoop, unknown]
      rw [isEqE] at done ⊢
      exact congrArg (Option.bind · _) done
    · obtain ⟨haveSucc', s', returns, rest⟩ := finish (.leaf knows isSeen isPrecE isEqE) haveSucc (by simp [isPrecE])
      refine ⟨haveSucc', s', .step (returns.congr fun fuel => ?_), rest⟩
      simp only [dcollectLoop, unknown]

/-- The last search only takes elements above the range, after the one it starts from. -/
structure Climbed (cmpFn : α → Pocmp) (list : List α) (s s' : RangeBounds α) : Prop where
  knows : Knows cmpFn s'
  range : s'.range = s.range
  succs : s'.succs = s.succs
  preds : ∀ x ∈ s'.preds, x ∈ s.preds ∨ cmpFn x = .prec
  none : (∀ e ∈ list, cmpFn e ≠ .prec) → s'.preds = s.preds

theorem ucollectPredsLoop_spec (grounded : ∀ b ∈ list, Grounded po.isuccs b) (knows : Knows cmpFn s) (havePred : Bool) :
    ∃ havePred' s', Returns (fun fuel => ucollectPredsLoop po cmpFn fuel list havePred s) (havePred', s') ∧
      Climbed cmpFn list s s' ∧ (havePred' = true ↔ havePred = true ∨ ∃ e ∈ list, cmpFn e = .prec) := by
  refine Grounded.list_induction (P := fun list => ∀ s havePred, Knows cmpFn s →
    ∃ havePred' s', Returns (fun fuel => ucollectPredsLoop po cmpFn fuel list havePred s) (havePred', s') ∧
      Climbed cmpFn list s s' ∧ (havePred' = true ↔ havePred = true ∨ ∃ e ∈ list, cmpFn e = .prec))
    ?_ ?_ grounded s havePred knows
  · intro s havePred knows
    exact ⟨havePred, s, .step (.const _), ⟨knows, rfl, rfl, fun _ => .inl, fun _ => rfl⟩, by simp⟩
  intro e rest _ ihNext ihRest s havePred knows
  have finish (havePred1 : Bool) {s1 : RangeBounds α} (first : Climbed cmpFn [e] s s1)
      (have1 : havePred1 = true ↔ havePred = true ∨ cmpFn e = .prec) :
      ∃ havePred' s', Returns (fun fuel => ucollectPredsLoop po cmpFn fuel rest havePred1 s1) (havePred', s') ∧
        Climbed cmpFn (e :: rest) s s' ∧ (havePred' = true ↔ havePred = true ∨ ∃ b ∈ e :: rest, cmpFn b = .prec) := by
    obtain ⟨havePred', s', returns, later, have_iff⟩ := ihRest s1 havePred1 first.knows
    refine ⟨havePred', s', returns, ⟨later.knows, later.range.trans first.range, later.succs.trans first.succs,
      fun x mem => ?_, fun none => ?_⟩, ?_⟩
    · exact (later.preds x mem).elim (first.preds x) .inr
    · obtain ⟨here, after⟩ := forall_mem_cons.mp none
      exact (later.none after).trans (first.none (forall_mem_singleton.mpr here))
    · rw [have_iff, have1, exists_mem_cons_iff, or_assoc]
  by_cases isSeen : Seen s e
  · obtain ⟨cmp, known⟩ := Option.ne_none_iff_exists'.mp isSeen
    obtain rfl := knows e cmp known
    obtain ⟨havePred', s', returns, rest⟩ := finish (if cmpFn e = .prec then true else havePred)
      ⟨knows, rfl, rfl, fun _ => .inl, fun _ => rfl⟩ (by split <;> simp [*])
    refine ⟨havePred', s', .step (returns.congr fun fuel => ?_), rest⟩
    simp only [ucollectPredsLoop, known]
  · have unknown : s.cache e = none := not_not.mp isSeen
    by_cases isPrec : cmpFn e = .prec
    · obtain ⟨havePred1, s1, returns1, climbed1, _⟩ := ihNext (s.put e (cmpFn e)) false (knows_put knows)
      have climbed : Climbed cmpFn [e] s (if havePred1 then s1 else { s1 with preds := insert e s1.preds }) := by
        cases havePred1
        · refine ⟨climbed1.knows, climbed1.range, climbed1.succs, fun x mem => ?_, fun none => ?_⟩
          · rcases mem_insert.mp mem with rfl | before
            · exact .inr isPrec
            · exact climbed1.preds x before
          · exact absurd isPrec (none e mem_cons_self)
        · refine ⟨climbed1.knows, climbed1.range, climbed1.succs, climbed1.preds, fun none => ?_⟩
          exact absurd isPrec (none e mem_cons_self)
      obtain ⟨havePred', s', returns, rest⟩ := finish true climbed (by simp [isPrec])
      refine ⟨havePred', s', .step (returns1.andThen returns fun fuel done => ?_), rest⟩
      simp [ucollectPredsLoop, unknown, if_pos isPrec, done]
    · have climbed : Climbed cmpFn [e] s (s.put e (cmpFn e)) :=
        ⟨knows_put knows, rfl, rfl, fun _ => .inl, fun _ => rfl⟩
      obtain ⟨havePred', s', returns, rest⟩ := finish havePred climbed (by simp [isPrec])
      refine ⟨havePred', s', .step (returns.congr fun fuel => ?_), rest⟩
      simp only [ucollectPredsLoop, unknown, if_neg isPrec]

end Collect

section Order

variable {po : Po α} {elements : Finset α} {bot top : α} {cmpFn : α → Pocmp}

/-- A classification as if by a virtual range between two elements. -/
structure Consistent (po : Po α) (elements : Finset α) (bot top : α) (cmpFn : α → Pocmp) : Prop where
  at_bot : cmpFn bot = .succ ∨ cmpFn bot = .eq
  at_top : cmpFn top = .prec ∨ cmpFn top = .eq
  prec_above : ∀ a b, po.Prec elements a b → cmpFn a = .prec → cmpFn b = .prec
  eq_above : ∀ a b, po.Prec elements a b → cmpFn a = .eq → cmpFn b = .eq ∨ cmpFn b = .prec
  succ_below : ∀ a b, po.Prec elements a b → cmpFn b = .succ → cmpFn a = .succ
  eq_below : ∀ a b, po.Prec elements a b → cmpFn b = .eq → cmpFn a = .eq ∨ cmpFn a = .succ
  above_bot : ∀ a, po.PrecEq elements a top → cmpFn a = .prec ∨ cmpFn a = .eq → po.PrecEq elements bot a
  below_top : ∀ a, po.PrecEq elements bot a → cmpFn a = .succ ∨ cmpFn a = .eq → po.PrecEq elements a top

/-- The elements of a closed range. -/
def Between (po : Po α) (elements : Finset α) (bot top x : α) : Prop :=
  po.PrecEq elements bot x ∧ po.PrecEq elements x top

/-- The sets are the range and its bounds, between two elements. -/
def RangeAndBoundsCorrect (po : Po α) (elements : Finset α) (bot top : α) (cmpFn : α → Pocmp) : Prop :=
  ∃ s, Returns (fun fuel => rangeAndBoundsOfFn fuel po bot top cmpFn) s ∧
    (∀ x, x ∈ s.range ↔ Between po elements bot top x ∧ cmpFn x = .eq) ∧
    (∀ x, x ∈ s.preds ↔ Maximal po elements (fun y => Between po elements bot top y ∧ cmpFn y = .succ) x) ∧
      ∀ x, x ∈ s.succs ↔ Minimal po elements (fun y => Between po elements bot top y ∧ cmpFn y = .prec) x

/-- The bottom is in the range or all that is next to it is unordered; and an element above the range has
such an immediate predecessor exactly when it has one that counts in the search from the top. -/
def BoundsFound (po : Po α) (elements : Finset α) (bot top : α) (cmpFn : α → Pocmp) : Prop :=
  (cmpFn bot = .eq ∨ ∀ e ∈ po.isuccs bot, cmpFn e ≠ .prec ∧ cmpFn e ≠ .succ) ∧
    ∀ h, po.PrecEq elements h top → cmpFn h = .prec →
      ((∃ e ∈ po.ipreds h, cmpFn e = .prec) ↔ ∃ e ∈ po.ipreds h, Counts po cmpFn top e h)

section Searched

variable (ordered : Ordered po elements) (consistent : Consistent po elements bot top cmpFn)
  (insideTop : top ∈ elements)

include ordered consistent insideTop

omit [DecidableEq α] in
/-- The searches from the top come to the elements of the range and to those above it. -/
theorem reach_below_iff (kind : cmpFn x = .prec ∨ cmpFn x = .eq) :
    Reach (below po cmpFn) top x ↔ po.PrecEq elements x top := by
  refine ⟨fun reach => (ordered.linked.down_iff insideTop).mp (reach_preds reach), fun path => ?_⟩
  · revert kind
    refine ReflTransGen.head_induction_on path (fun _ => .refl _ _) fun {a c} link path ih kind => ?_
    have kindC : cmpFn c = .prec ∨ cmpFn c = .eq := by
      rcases kind with isPrec | isEq
      · exact .inl (consistent.prec_above a c (.single link) isPrec)
      · exact (consistent.eq_above a c (.single link) isEq).symm
    refine (ih kindC).tail ?_
    rw [below_of kindC]
    exact ordered.linked.pred_of_link link

private theorem collectFromTop_spec :
    ∃ s, Returns (fun fuel => collectFromTop fuel po top cmpFn (RangeBounds.init.put top (cmpFn top))) s ∧
      Collected po cmpFn top [top] RangeBounds.init s := by
  have linked := ordered.linked
  have grounded : Grounded (below po cmpFn) top := Subrelation.accessible below_subset
    (linked.grounded_preds ordered.leveled insideTop)
  have knows : Knows cmpFn RangeBounds.init := fun _ _ known => by cases known
  have isNew : ¬ Seen RangeBounds.init top := fun isSeen => isSeen rfl
  have noPrec : ∀ e ∈ elements, cmpFn e = .eq → ∀ b ∈ po.ipreds e, ∀ x, Reach (below po cmpFn) b x →
      cmpFn x ≠ .prec := by
    intro e inside isEq b step x reach isPrec
    have path := (linked.down_iff (linked.preds e inside b step)).mp (reach_preds reach)
    have lower := consistent.eq_below x e (prec_of_precEq path (.single (linked.link_of_pred inside step))) isEq
    rw [isPrec] at lower
    simp at lower
  rcases consistent.at_top with isPrec | isEq
  · have enters : Enters cmpFn top RangeBounds.init (RangeBounds.init.put top (cmpFn top)) :=
      enters_put knows (by simp [isPrec])
    have isRoot (x : α) : Seen (RangeBounds.init.put top (cmpFn top)) x ↔ x = top :=
      (enters.seen x).trans (or_iff_left fun isSeen => isSeen rfl)
    have same : below po cmpFn top = po.ipreds top := below_of (.inl isPrec)
    obtain ⟨haveSucc, s, returns, collected, have_iff⟩ := dcollectLoop_spec (fun a inside => (linked.nodup a inside).2)
      linked.preds noPrec grounded (fun _ => grounded.after) (same ▸ linked.preds top insideTop) isPrec insideTop
      (.start grounded isRoot) enters.knows (.start grounded isRoot) false
    rw [same, or_iff_right Bool.false_ne_true] at have_iff
    have node : Collected po cmpFn top [top] RangeBounds.init
        { s with succs := if haveSucc then s.succs else insert top s.succs } := by
      refine .node isNew enters collected fun x => ?_
      rw [and_iff_right isPrec, ← have_iff]
      cases haveSucc
      · simp [or_comm]
      · simp
    rw [same] at returns
    refine ⟨_, (returns.map fun result => { result.2 with
      succs := if result.1 then result.2.succs else insert top result.2.succs }).congr fun fuel => ?_, node⟩
    simp only [collectFromTop, isPrec, dcollectRangeAndSuccs]
    congr 1
    funext result
    cases result.1 <;> rfl
  · have enters : Enters cmpFn top RangeBounds.init { RangeBounds.init.put top (cmpFn top) with range := {top} } :=
      enters_eq knows isEq
    have isRoot (x : α) : Seen { RangeBounds.init.put top (cmpFn top) with range := {top} } x ↔ x = top :=
      (enters.seen x).trans (or_iff_left fun isSeen => isSeen rfl)
    have same : below po cmpFn top = po.ipreds top := below_of (.inr isEq)
    obtain ⟨s, returns, collected⟩ := dcollectRangeLoop_spec top (fun _ => grounded.after)
      (same ▸ noPrec top insideTop isEq) enters.knows (.start grounded isRoot)
    have node : Collected po cmpFn top [top] RangeBounds.init s := .node isNew enters collected fun x =>
      (or_iff_left fun both => absurd (isEq.symm.trans both.2.1) (by decide)).symm
    rw [same] at returns
    refine ⟨s, returns.congr fun fuel => ?_, node⟩
    simp only [collectFromTop, isEq]
    rfl

end Searched

omit [DecidableEq α] in
private theorem exists_maximal (leveled : Leveled po elements) (subset : ∀ x, inside x → x ∈ elements)
    (isInside : inside x) : ∃ y, Maximal po elements inside y := by
  classical
  obtain ⟨y, mem, greatest⟩ := (elements.filter inside).exists_max_image po.level
    ⟨x, mem_filter.mpr ⟨subset x isInside, isInside⟩⟩
  refine ⟨y, (mem_filter.mp mem).2, fun z isInsideZ path => ?_⟩
  have lower := greatest z (mem_filter.mpr ⟨subset z isInsideZ, isInsideZ⟩)
  exact Nat.not_lt_of_le lower (leveled.lt path)

/-- What the search from the bottom takes. -/
structure Climbs (po : Po α) (bot : α) (cmpFn : α → Pocmp) (preds : Finset α) : Prop where
  at_eq : cmpFn bot = .eq → preds = ∅
  first : cmpFn bot = .succ → (∀ e ∈ po.isuccs bot, cmpFn e ≠ .prec) → preds = {bot}
  later : cmpFn bot = .succ → (∃ e ∈ po.isuccs bot, cmpFn e = .prec) → ∀ x ∈ preds, cmpFn x = .prec

private theorem collectFromBot_spec (grounded : Grounded po.isuccs bot) (knows : Knows cmpFn s)
    (empty : s.preds = ∅) (kind : cmpFn bot = .succ ∨ cmpFn bot = .eq) :
    ∃ s', Returns (fun fuel => collectFromBot fuel po bot cmpFn (cmpFn bot) s) s' ∧ s'.range = s.range ∧
      s'.succs = s.succs ∧ Climbs po bot cmpFn s'.preds := by
  rcases kind with isSucc | isEq
  · obtain ⟨havePred, s', returns, climbed, have_iff⟩ := ucollectPredsLoop_spec (fun _ => grounded.after) knows false
    rw [or_iff_right Bool.false_ne_true] at have_iff
    refine ⟨{ s' with preds := if havePred then s'.preds else insert bot s'.preds }, (returns.map fun result =>
      { result.2 with preds := if result.1 then result.2.preds else insert bot result.2.preds }).congr fun fuel => ?_,
      climbed.range, climbed.succs, fun isEq => ?_, fun _ none => ?_, fun _ some => ?_⟩
    · simp only [collectFromBot, isSucc, ucollectPreds]
      congr 1
      funext result
      cases result.1 <;> rfl
    · exact absurd (isSucc.symm.trans isEq) (by decide)
    · have noPred : havePred = false := Bool.eq_false_iff.mpr fun found =>
        (have_iff.mp found).elim fun e both => none e both.1 both.2
      simp [noPred, climbed.none none, empty]
    · simp only [have_iff.mpr some, if_true]
      intro x mem
      exact (climbed.preds x mem).resolve_left (by simp [empty])
  · refine ⟨s, (Returns.const s).congr fun _ => ?_, rfl, rfl, fun _ => empty, fun isSucc => ?_, fun isSucc => ?_⟩
    · simp only [collectFromBot, isEq]
    · exact absurd (isEq.symm.trans isSucc) (by decide)
    · exact absurd (isEq.symm.trans isSucc) (by decide)

section Correct

variable {preds : Finset α} (ordered : Ordered po elements) (consistent : Consistent po elements bot top cmpFn)
  (insideBot : bot ∈ elements) (insideTop : top ∈ elements)

include ordered consistent insideBot insideTop

theorem rangeAndBoundsOfFn_spec : ∃ s, Returns (fun fuel => rangeAndBoundsOfFn fuel po bot top cmpFn) s ∧
    (∀ x, x ∈ s.range ↔ Between po elements bot top x ∧ cmpFn x = .eq) ∧
    (∀ x, x ∈ s.succs ↔ po.PrecEq elements x top ∧ cmpFn x = .prec ∧ ¬ ∃ e ∈ po.ipreds x, Counts po cmpFn top e x) ∧
      Climbs po bot cmpFn s.preds := by
  obtain ⟨s1, returns1, collected⟩ := collectFromTop_spec ordered consistent insideTop
  have new_iff {x : α} (kind : cmpFn x = .prec ∨ cmpFn x = .eq) :
      New RangeBounds.init s1 x ↔ po.PrecEq elements x top := by
    rw [← reach_below_iff ordered consistent insideTop kind, New, and_iff_left fun isSeen => isSeen rfl,
      collected.explored]
    exact or_iff_right fun isSeen => isSeen rfl
  have grounded := ordered.linked.grounded_succs ordered.leveled.irrefl insideBot
  obtain ⟨s, returns, range, succs, climbs⟩ : ∃ s, Returns (fun fuel => rangeAndBoundsOfFn fuel po bot top cmpFn) s ∧
      s.range = s1.range ∧ s.succs = s1.succs ∧ Climbs po bot cmpFn s.preds := by
    cases known : s1.cache bot with
    | none =>
      obtain ⟨s, returns, rest⟩ := collectFromBot_spec (s := s1.put bot (cmpFn bot)) grounded
        (knows_put collected.knows) collected.preds consistent.at_bot
      refine ⟨s, returns1.andThen returns fun fuel done => ?_, rest⟩
      simp [rangeAndBoundsOfFn, done, known]
    | some cmp =>
      obtain rfl := collected.knows bot cmp known
      obtain ⟨s, returns, rest⟩ := collectFromBot_spec grounded collected.knows collected.preds consistent.at_bot
      refine ⟨s, returns1.andThen returns fun fuel done => ?_, rest⟩
      simp [rangeAndBoundsOfFn, done, known]
  refine ⟨s, returns, fun x => ?_, fun x => ?_, climbs⟩
  · have notBefore : x ∉ (RangeBounds.init : RangeBounds α).range := notMem_empty x
    rw [range, collected.range, or_iff_right notBefore]
    refine and_congr_left fun isEq => (new_iff (.inr isEq)).trans ?_
    exact (and_iff_right_of_imp fun low => consistent.above_bot x low (.inr isEq)).symm
  · have notBefore : x ∉ (RangeBounds.init : RangeBounds α).succs := notMem_empty x
    rw [succs, collected.succs, or_iff_right notBefore, ← and_assoc, ← and_assoc]
    exact and_congr_left fun _ => and_congr_left fun isPrec => new_iff (.inl isPrec)

omit [DecidableEq α] insideBot in
/-- The least elements above the range have no immediate predecessor above it. -/
theorem minimal_prec_iff (x : α) : Minimal po elements (fun y => Between po elements bot top y ∧ cmpFn y = .prec) x ↔
    po.PrecEq elements x top ∧ cmpFn x = .prec ∧ ¬ ∃ e ∈ po.ipreds x, cmpFn e = .prec := by
  constructor
  · rintro ⟨⟨between, isPrec⟩, least⟩
    refine ⟨between.2, isPrec, ?_⟩
    rintro ⟨e, step, isPrecE⟩
    have link := ordered.linked.link_of_pred (mem_of_path_to between.2 insideTop) step
    have low : po.PrecEq elements e top := .head link between.2
    exact least e ⟨⟨consistent.above_bot e low (.inl isPrecE), low⟩, isPrecE⟩ (.single link)
  · rintro ⟨low, isPrec, none⟩
    refine ⟨⟨⟨consistent.above_bot x low (.inl isPrec), low⟩, isPrec⟩, fun y both path => none ?_⟩
    obtain ⟨c, step, path⟩ := (ordered.linked.pred_iff (mem_of_path_to low insideTop)).mpr path
    refine ⟨c, step, ?_⟩
    rcases precEq_iff.mp path with rfl | path
    · exact both.2
    · exact consistent.prec_above y c path both.2

omit [DecidableEq α] insideTop in
private theorem exists_succ (path : po.Prec elements bot x) (isSucc : cmpFn x = .succ) :
    ∃ c ∈ po.isuccs bot, cmpFn c = .succ := by
  obtain ⟨c, step, path⟩ := (ordered.linked.succ_iff insideBot).mpr path
  refine ⟨c, step, ?_⟩
  rcases precEq_iff.mp path with rfl | path
  · exact isSucc
  · exact consistent.succ_below c x path isSucc

omit [DecidableEq α] insideTop in
theorem preds_correct_iff (climbs : Climbs po bot cmpFn preds) (low : po.PrecEq elements bot top) :
    (∀ x, x ∈ preds ↔ Maximal po elements (fun y => Between po elements bot top y ∧ cmpFn y = .succ) x) ↔
      cmpFn bot = .eq ∨ ∀ e ∈ po.isuccs bot, cmpFn e ≠ .prec ∧ cmpFn e ≠ .succ := by
  rcases consistent.at_bot with isSucc | isEq
  · have notEq : cmpFn bot ≠ .eq := fun isEq => absurd (isSucc.symm.trans isEq) (by decide)
    have isBetween : Between po elements bot top bot ∧ cmpFn bot = .succ := ⟨⟨.refl, low⟩, isSucc⟩
    rw [or_iff_right notEq]
    constructor
    · intro correct e step
      have noPrec : ∀ e ∈ po.isuccs bot, cmpFn e ≠ .prec := by
        intro e step isPrec
        have subset (y : α) (both : Between po elements bot top y ∧ cmpFn y = .succ) : y ∈ elements :=
          ordered.linked.mem_of_path both.1.1 insideBot
        obtain ⟨x, maximal⟩ := exists_maximal ordered.leveled subset isBetween
        have isPrecX := climbs.later isSucc ⟨e, step, isPrec⟩ x ((correct x).mpr maximal)
        exact absurd (isPrecX.symm.trans maximal.1.2) (by decide)
      have isPred : bot ∈ preds := by simp [climbs.first isSucc noPrec]
      refine ⟨noPrec e step, fun isSuccE => ?_⟩
      have link : po.Link elements bot e := ⟨insideBot, step⟩
      have path : po.PrecEq elements bot e := .single link
      exact ((correct bot).mp isPred).2 e ⟨⟨path, consistent.below_top e path (.inl isSuccE)⟩, isSuccE⟩ (.single link)
    · intro none x
      rw [climbs.first isSucc fun e step => (none e step).1, Finset.mem_singleton]
      have notAbove {y : α} (isSuccY : cmpFn y = .succ) : ¬ po.Prec elements bot y := by
        intro path
        obtain ⟨c, step, isSuccC⟩ := exists_succ ordered consistent insideBot path isSuccY
        exact (none c step).2 isSuccC
      constructor
      · rintro rfl
        exact ⟨isBetween, fun y both => notAbove both.2⟩
      · rintro ⟨⟨between, isSuccX⟩, _⟩
        exact ((precEq_iff.mp between.1).resolve_right (notAbove isSuccX)).symm
  · refine iff_of_true (fun x => ?_) (.inl isEq)
    rw [climbs.at_eq isEq]
    refine iff_of_false (notMem_empty x) ?_
    rintro ⟨⟨between, isSuccX⟩, _⟩
    have isSucc : cmpFn bot = .succ := by
      rcases precEq_iff.mp between.1 with rfl | path
      · exact isSuccX
      · exact consistent.succ_below bot x path isSuccX
    exact absurd (isEq.symm.trans isSucc) (by decide)

/-- The range is always right, and the bounds are under these conditions. -/
theorem rangeAndBounds_correct_iff (low : po.PrecEq elements bot top) :
    RangeAndBoundsCorrect po elements bot top cmpFn ↔ BoundsFound po elements bot top cmpFn := by
  obtain ⟨s, returns, range, succs, climbs⟩ := rangeAndBoundsOfFn_spec ordered consistent insideBot insideTop
  have preds_iff := preds_correct_iff ordered consistent insideBot climbs low
  have succs_iff :
      (∀ x, x ∈ s.succs ↔ Minimal po elements (fun y => Between po elements bot top y ∧ cmpFn y = .prec) x) ↔
        ∀ h, po.PrecEq elements h top → cmpFn h = .prec →
          ((∃ e ∈ po.ipreds h, cmpFn e = .prec) ↔ ∃ e ∈ po.ipreds h, Counts po cmpFn top e h) := by
    refine forall_congr' fun x => ?_
    rw [succs, minimal_prec_iff ordered consistent insideTop, and_congr_right_iff]
    refine imp_congr_right fun _ => ?_
    rw [and_congr_right_iff, not_iff_not]
    exact imp_congr_right fun _ => iff_comm
  rw [BoundsFound, ← preds_iff, ← succs_iff]
  constructor
  · rintro ⟨s', returns', _, correct⟩
    exact returns.unique returns' ▸ correct
  · exact fun correct => ⟨s, returns, range, correct⟩

end Correct

end Order

/-- A range between the bounds of a fresh partial order. -/
def betweenBounds (e : Nat) : Pocmp := if e = 0 then .succ else .prec

theorem betweenBounds_above (path : pair.Prec {0, 1} a b) : betweenBounds b = .prec := by
  refine if_neg ?_
  rintro rfl
  exact Nat.not_lt_zero _ (pair_ordered.leveled.lt path)

theorem betweenBounds_consistent : Consistent pair {0, 1} 0 1 betweenBounds := by
  have notEq (a : Nat) : betweenBounds a ≠ .eq := by
    rw [betweenBounds]
    split <;> decide
  refine ⟨.inl rfl, .inl rfl, fun a b path _ => betweenBounds_above path, fun a b _ isEq => absurd isEq (notEq a),
    fun a b path isSucc => ?_, fun a b _ isEq => absurd isEq (notEq b), fun a low _ => ?_, fun a high _ => ?_⟩
  · exact absurd ((betweenBounds_above path).symm.trans isSucc) (by decide)
  · exact pair_ordered.from_bot a (mem_of_path_to low (by decide))
  · exact pair_ordered.to_top a (pair_ordered.linked.mem_of_path high (by decide))

/-- A range of one element of the diamond. -/
def aroundFour : Nat → Pocmp
  | 0 | 2 | 3 => .succ
  | 4 => .eq
  | _ => .prec

private theorem aroundFour_consistent : Consistent diamondPo {0, 1, 2, 3, 4, 5} 0 1 aroundFour := by
  have rising : ∀ a ∈ ({0, 1, 2, 3, 4, 5} : Finset Nat), ∀ b ∈ ({0, 1, 2, 3, 4, 5} : Finset Nat),
      diamondPo.level a < diamondPo.level b → aroundFour a = .succ ∨ aroundFour b = .prec := by decide
  have rises {a b : Nat} (path : diamondPo.Prec {0, 1, 2, 3, 4, 5} a b) :
      aroundFour a = .succ ∨ aroundFour b = .prec := by
    have inside := Linked.mem_left path
    exact rising a inside b (diamond_ordered.linked.mem_of_path path.to_reflTransGen inside)
      (diamond_ordered.leveled.lt path)
  refine ⟨.inl rfl, .inl rfl, fun a b path isPrec => ?_, fun a b path isEq => ?_, fun a b path isSucc => ?_,
    fun a b path isEq => ?_, fun a low _ => ?_, fun a high _ => ?_⟩
  · exact (rises path).resolve_left (by simp [isPrec])
  · exact .inr ((rises path).resolve_left (by simp [isEq]))
  · exact (rises path).resolve_right (by simp [isSucc])
  · exact .inr ((rises path).resolve_right (by simp [isEq]))
  · exact diamond_ordered.from_bot a (mem_of_path_to low (by decide))
  · exact diamond_ordered.to_top a (diamond_ordered.linked.mem_of_path high (by decide))

theorem rangeAndBounds_correct_iff_diamond : RangeAndBoundsCorrect diamondPo {0, 1, 2, 3, 4, 5} 0 1 aroundFour ↔
    BoundsFound diamondPo {0, 1, 2, 3, 4, 5} 0 1 aroundFour :=
  rangeAndBounds_correct_iff diamond_ordered aroundFour_consistent (by decide) (by decide)
    (diamond_ordered.from_bot 1 (by decide))

/-- The bottom is not taken, as its successor is above the range. -/
theorem rangeAndBounds_no_preds : Consistent pair {0, 1} 0 1 betweenBounds ∧ pair.PrecEq {0, 1} 0 1 ∧
    ¬ RangeAndBoundsCorrect pair {0, 1} 0 1 betweenBounds := by
  have high : pair.PrecEq {0, 1} 0 1 := pair_ordered.from_bot 1 (by decide)
  refine ⟨betweenBounds_consistent, high, ?_⟩
  rintro ⟨s, ⟨bound, returns⟩, _, preds, _⟩
  have run : (rangeAndBoundsOfFn (bound + 5) pair 0 1 betweenBounds).map
    (fun s => decide (0 ∈ s.preds)) = some false := rfl
  have result : rangeAndBoundsOfFn (bound + 5) pair 0 1 betweenBounds = some s := returns _ (Nat.le_add_right bound 5)
  rw [result, Option.map_some, Option.some.injEq, decide_eq_false_iff_not, preds] at run
  refine run ⟨⟨⟨.refl, high⟩, rfl⟩, fun y both path => ?_⟩
  exact absurd ((betweenBounds_above path).symm.trans both.2) (by decide)

end Culibs.Cucon.Po
