import Culibs.Cucon.Po.Ordered

namespace Culibs.Cucon.Po

open DepthFirst List Finset

variable {α : Type} [DecidableEq α]

/-- `cucon_po_lspan_accu`, which takes the element into the set before its immediate predecessors. -/
def lspanAccu (fuel : Nat) (po : Po α) (max : α) (accum : Finset α) : Option (Finset α) :=
  (walk (fun _ => po.ipreds) (fun _ state => state) fuel [max] () accum).map Prod.snd

/-- `cucon_po_uspan_accu` -/
def uspanAccu (fuel : Nat) (po : Po α) (min : α) (accum : Finset α) : Option (Finset α) :=
  (walk (fun _ => po.isuccs) (fun _ state => state) fuel [min] () accum).map Prod.snd

def lspan (fuel : Nat) (po : Po α) (max : α) : Option (Finset α) := lspanAccu fuel po max ∅

def uspan (fuel : Nat) (po : Po α) (min : α) : Option (Finset α) := uspanAccu fuel po min ∅

/-- The intersection by `cucon_pmap_assign_isecn` is one of keys. -/
def lspanIsecn (fuel : Nat) (po : Po α) (max : α) (s : Finset α) : Option (Finset α) :=
  (lspan fuel po max).map (· ∩ s)

def uspanIsecn (fuel : Nat) (po : Po α) (min : α) (s : Finset α) : Option (Finset α) :=
  (uspan fuel po min).map (· ∩ s)

/-- The loop of `_po_pruned_lspanning_accu`, over the rest of the immediate successors. -/
def prunedLspanningAccu (po : Po α) : Nat → List α → Finset α → Finset α → Option (Finset α × Finset α)
  | 0, _, _, _ => none
  | _ + 1, [], prunedS, uspan => some (prunedS, uspan)
  | fuel + 1, succ :: rest, prunedS, uspan =>
    if succ ∈ uspan then prunedLspanningAccu po fuel rest (prunedS.erase succ) uspan
    else
      (prunedLspanningAccu po fuel (po.isuccs succ) prunedS (insert succ uspan)).bind fun result =>
        prunedLspanningAccu po fuel rest result.1 result.2

/-- `_po_pruned_lspanning_cb` -/
def prunedLspanningCb (fuel : Nat) (po : Po α) (self : Finset α × Finset α) (elt : α) : Option (Finset α × Finset α) :=
  if elt ∈ self.2 then some self
  else prunedLspanningAccu po fuel (po.isuccs elt) (insert elt self.1) (insert elt self.2)

/-- `cucon_po_pruned_lspanning` of a set with these keys, in the order of its table. -/
def prunedLspanning (fuel : Nat) (po : Po α) (keys : List α) : Option (Finset α) :=
  (keys.foldlM (prunedLspanningCb fuel po) (∅, ∅)).map Prod.fst

/-- The minimal elements of a set. -/
def Minimal (po : Po α) (elements : Finset α) (s : α → Prop) (x : α) : Prop :=
  s x ∧ ∀ y, s y → ¬ po.Prec elements y x

/-- The maximal elements of a set. -/
def Maximal (po : Po α) (elements : Finset α) (s : α → Prop) (x : α) : Prop :=
  s x ∧ ∀ y, s y → ¬ po.Prec elements x y

variable {po : Po α} {elements : Finset α} {a e : α}

section Spans

theorem walk_span {next : α → List α} (grounded : Grounded next e) : ∃ span,
    Returns (fun fuel => (walk (fun _ : Unit => next) (fun _ state => state) fuel [e] () ∅).map Prod.snd) span ∧
      ∀ v, v ∈ span ↔ Reach next e v := by
  have framed : Framed next (fun _ : Unit => next) (fun _ state => state) (fun _ => True) fun _ => True :=
    ⟨fun _ _ _ _ => trivial, fun _ _ _ _ => rfl, fun _ _ _ _ => trivial⟩
  have each : ∀ a ∈ [e], Grounded next a := fun a isFirst => List.mem_singleton.mp isFirst ▸ grounded
  obtain ⟨order, span, returns, visits⟩ : ∃ (order : List α) (span : Finset α),
      Returns (fun fuel => walk (fun _ : Unit => next) (fun _ state => state) fuel [e] () ∅)
        (order.foldl (fun state _ => state) (), span) ∧ Visits next [e] ∅ span order := by
    obtain ⟨order, span, returns, _, visits⟩ := walk_spec framed each (fun _ _ => trivial) trivial (.empty _ _ _ _)
    exact ⟨order, span, returns, visits⟩
  refine ⟨span, returns.map Prod.snd, fun v => ?_⟩
  rw [visits.members, visits.mem_order]
  simp

variable (linked : Linked po elements) (leveled : Leveled po elements) (inside : e ∈ elements)

include linked leveled inside

theorem lspan_spec : ∃ span, Returns (fun fuel => lspan fuel po e) span ∧ ∀ v, v ∈ span ↔ po.PrecEq elements v e := by
  obtain ⟨span, returns, members⟩ := walk_span (linked.grounded_preds leveled inside)
  exact ⟨span, returns, fun v => (members v).trans (linked.down_iff inside)⟩

theorem uspan_spec : ∃ span, Returns (fun fuel => uspan fuel po e) span ∧ ∀ v, v ∈ span ↔ po.PrecEq elements e v := by
  obtain ⟨span, returns, members⟩ := walk_span (linked.grounded_succs leveled.irrefl inside)
  exact ⟨span, returns, fun v => (members v).trans (linked.up_iff inside)⟩

end Spans

section Pruned

/-- All that is after an element of the span is in it and has been removed. -/
def Covers (next : α → List α) (prunedS uspan : Finset α) (v : α) : Prop :=
  ∀ c ∈ next v, ∀ z, Reach next c z → z ∈ uspan ∧ z ∉ prunedS

variable {next : α → List α} {prunedS prunedS' uspan uspan' : Finset α} {v : α}

omit [DecidableEq α] in
theorem Covers.mono (covers : Covers next prunedS uspan v) (less : prunedS' ⊆ prunedS) (more : uspan ⊆ uspan') :
    Covers next prunedS' uspan' v :=
  fun c step z reach => ⟨more (covers c step z reach).1, fun kept => (covers c step z reach).2 (less kept)⟩

/-- What is reachable from a list is added to the span and removed from the pruned set. -/
structure Prunes (next : α → List α) (list : List α) (prunedS uspan prunedS' uspan' : Finset α) : Prop where
  uspan : ∀ v, v ∈ uspan' ↔ v ∈ uspan ∨ ∃ a ∈ list, Reach next a v
  pruned : ∀ v, v ∈ prunedS' ↔ v ∈ prunedS ∧ ∀ a ∈ list, ¬ Reach next a v

private theorem prunedLspanningAccu_spec (grounded : ∀ a ∈ list, Grounded po.isuccs a)
    (inSpan : prunedS ⊆ uspan)
    (ahead : ∀ v ∈ uspan, ∀ a ∈ list, Reach po.isuccs a v → Covers po.isuccs prunedS uspan v) :
    ∃ prunedS' uspan', Returns (fun fuel => prunedLspanningAccu po fuel list prunedS uspan) (prunedS', uspan') ∧
      Prunes po.isuccs list prunedS uspan prunedS' uspan' := by
  refine Grounded.list_induction (P := fun list => ∀ prunedS uspan, prunedS ⊆ uspan →
    (∀ v ∈ uspan, ∀ a ∈ list, Reach po.isuccs a v → Covers po.isuccs prunedS uspan v) →
    ∃ prunedS' uspan', Returns (fun fuel => prunedLspanningAccu po fuel list prunedS uspan) (prunedS', uspan') ∧
      Prunes po.isuccs list prunedS uspan prunedS' uspan') ?_ ?_ grounded prunedS uspan inSpan ahead
  · intro prunedS uspan _ _
    exact ⟨prunedS, uspan, .step (.const _), by simp, by simp⟩
  intro succ rest grounded ihNext ihRest prunedS uspan inSpan ahead
  by_cases isSeen : succ ∈ uspan
  · have covered := ahead succ isSeen succ mem_cons_self (.refl _ _)
    -- All that is after an element of the span is gone, and the element itself is erased.
    have gone (v : α) (reach : Reach po.isuccs succ v) : v ∈ uspan ∧ v ∉ prunedS.erase succ := by
      rcases reach.cases_head with rfl | ⟨c, step, reach⟩
      · exact ⟨isSeen, notMem_erase _ _⟩
      · exact ⟨(covered c step v reach).1, fun kept => (covered c step v reach).2 (mem_of_mem_erase kept)⟩
    have fewer := erase_subset succ prunedS
    obtain ⟨prunedS', uspan', returns, prunes⟩ := ihRest (prunedS.erase succ) uspan (fewer.trans inSpan)
      fun v mem a inRest reach => (ahead v mem a (mem_cons_of_mem succ inRest) reach).mono fewer subset_rfl
    refine ⟨prunedS', uspan', .step (returns.congr fun _ => if_pos isSeen), fun v => ?_, fun v => ?_⟩
    · rw [prunes.uspan, exists_mem_cons_iff, ← or_assoc]
      exact or_congr_left (iff_self_or.mpr fun reach => (gone v reach).1)
    · rw [prunes.pruned, List.forall_mem_cons, ← and_assoc]
      refine and_congr_left fun _ => ⟨fun kept => ?_, fun kept => ?_⟩
      · exact ⟨mem_of_mem_erase kept, fun reach => (gone v reach).2 kept⟩
      · exact mem_erase.mpr ⟨fun same => kept.2 (same ▸ .refl _ _), kept.1⟩
  · have notPruned : succ ∉ prunedS := fun mem => isSeen (inSpan mem)
    have inside : ∀ v ∈ insert succ uspan, ∀ a ∈ po.isuccs succ, Reach po.isuccs a v →
        Covers po.isuccs prunedS (insert succ uspan) v := by
      intro v mem a step reach
      rcases mem_insert.mp mem with rfl | before
      · exact absurd reach (grounded.acyclic step)
      · exact (ahead v before succ mem_cons_self (.head step reach)).mono subset_rfl (subset_insert _ _)
    obtain ⟨prunedS1, uspan1, returns1, prunes1⟩ := ihNext prunedS (insert succ uspan)
      (inSpan.trans (subset_insert _ _)) inside
    have uspan_iff (v : α) : v ∈ uspan1 ↔ v ∈ uspan ∨ Reach po.isuccs succ v := by
      rw [prunes1.uspan, mem_insert, or_comm (a := v = succ), or_assoc]
      refine or_congr_right ⟨?_, fun reach => reach.cases_head.imp_left Eq.symm⟩
      rintro (rfl | ⟨c, step, reach⟩)
      · exact .refl _ _
      · exact .head step reach
    have pruned_iff (v : α) : v ∈ prunedS1 ↔ v ∈ prunedS ∧ ¬ Reach po.isuccs succ v := by
      rw [prunes1.pruned]
      refine and_congr_right fun isPruned => ⟨fun none reach => ?_, fun none c step reach => none (.head step reach)⟩
      rcases reach.cases_head with rfl | ⟨c, step, reach⟩
      · exact notPruned isPruned
      · exact none c step reach
    have fewer : prunedS1 ⊆ prunedS := fun v mem => ((pruned_iff v).mp mem).1
    have more : uspan ⊆ uspan1 := fun v mem => (uspan_iff v).mpr (.inl mem)
    obtain ⟨prunedS2, uspan2, returns2, prunes2⟩ := ihRest prunedS1 uspan1 (fewer.trans (inSpan.trans more)) <| by
      intro v mem a inRest reach
      rcases (uspan_iff v).mp mem with before | fromSucc
      · exact (ahead v before a (mem_cons_of_mem succ inRest) reach).mono fewer more
      · intro c step z further
        have path : Reach po.isuccs succ z := fromSucc.trans (.head step further)
        exact ⟨(uspan_iff z).mpr (.inr path), fun kept => ((pruned_iff z).mp kept).2 path⟩
    refine ⟨prunedS2, uspan2, .step (returns1.andThen returns2 fun fuel done => ?_), fun v => ?_, fun v => ?_⟩
    · simp [prunedLspanningAccu, if_neg isSeen, done]
    · rw [prunes2.uspan, uspan_iff, exists_mem_cons_iff, or_assoc]
    · rw [prunes2.pruned, pruned_iff, List.forall_mem_cons, and_assoc]

end Pruned

/-- The state after some keys: the span above them, and the minimal ones. -/
def Spanning (po : Po α) (elements : Finset α) (keys : List α) (self : Finset α × Finset α) : Prop :=
  (∀ v, v ∈ self.2 ↔ ∃ k ∈ keys, po.PrecEq elements k v) ∧
    ∀ v, v ∈ self.1 ↔ Minimal po elements (· ∈ keys) v

section Run

variable (linked : Linked po elements) (leveled : Leveled po elements)

include linked leveled

variable {keys : List α} {self : Finset α × Finset α}

theorem prunedLspanningCb_spec (spanning : Spanning po elements keys self)
    (members : ∀ k ∈ keys, k ∈ elements) (inside : e ∈ elements) :
    ∃ self', Returns (fun fuel => prunedLspanningCb fuel po self e) self' ∧
      Spanning po elements (keys ++ [e]) self' := by
  obtain ⟨span, pruned⟩ := spanning
  by_cases isSeen : e ∈ self.2
  · obtain ⟨k, isKey, low⟩ := (span e).mp isSeen
    refine ⟨self, (Returns.const self).congr fun _ => if_pos isSeen, fun v => ?_, fun v => ?_⟩
    · simp only [span, mem_append, List.mem_singleton, or_and_right, exists_or, exists_eq_left, iff_self_or]
      exact fun high => ⟨k, isKey, low.trans high⟩
    simp only [pruned, Minimal, mem_append, List.mem_singleton]
    constructor
    · rintro ⟨isKey', none⟩
      refine ⟨.inl isKey', fun y from' path => ?_⟩
      rcases from' with before | rfl
      · exact none y before path
      · exact none k isKey (prec_of_precEq low path)
    · rintro ⟨isKey' | rfl, none⟩
      · exact ⟨isKey', fun y before => none y (.inl before)⟩
      · rcases precEq_iff.mp low with rfl | path
        · exact ⟨isKey, fun y before => none y (.inl before)⟩
        · exact absurd path (none k (.inl isKey))
  · have unordered {k : α} (isKey : k ∈ keys) : ¬ po.PrecEq elements k e := fun low =>
      isSeen ((span e).mpr ⟨k, isKey, low⟩)
    have grounded : ∀ a ∈ po.isuccs e, Grounded po.isuccs a := fun a step =>
      linked.grounded_succs leveled.irrefl (linked.succs e inside a step)
    have inSpan : insert e self.1 ⊆ insert e self.2 :=
      insert_subset_insert e fun v mem => (span v).mpr ⟨v, ((pruned v).mp mem).1, .refl⟩
    obtain ⟨prunedS', uspan', returns, prunes⟩ := prunedLspanningAccu_spec grounded inSpan <| by
        intro v mem a step reach c after z further
        rcases mem_insert.mp mem with rfl | before
        · exact absurd reach ((linked.grounded_succs leveled.irrefl inside).acyclic step)
        obtain ⟨k, isKey, low⟩ := (span v).mp before
        have here := linked.mem_of_path low (members k isKey)
        have path : po.Prec elements v z := (linked.succ_iff here).mp
          ⟨c, after, (linked.up_iff (linked.succs v here c after)).mp further⟩
        have above : po.Prec elements k z := prec_of_precEq low path
        refine ⟨Finset.mem_insert_of_mem ((span z).mpr ⟨k, isKey, above.to_reflTransGen⟩), fun kept => ?_⟩
        rcases mem_insert.mp kept with rfl | isMinimal
        · exact unordered isKey above.to_reflTransGen
        · exact ((pruned z).mp isMinimal).2 k isKey above
    have above (v : α) : (∃ a ∈ po.isuccs e, Reach po.isuccs a v) ↔ po.Prec elements e v := linked.above_iff inside
    refine ⟨(prunedS', uspan'), returns.congr fun _ => if_neg isSeen, fun v => ?_, fun v => ?_⟩
    · simp only [prunes.uspan, above, mem_insert, span, mem_append, List.mem_singleton, or_and_right, exists_or,
        exists_eq_left]
      rw [precEq_iff (a := e) (b := v), eq_comm (a := v), or_comm (a := e = v), or_assoc]
    have none : (∀ a ∈ po.isuccs e, ¬ Reach po.isuccs a v) ↔ ¬ po.Prec elements e v := by
      rw [← above]
      push Not
      rfl
    simp only [prunes.pruned, none, mem_insert, pruned, Minimal, mem_append, List.mem_singleton]
    constructor
    · rintro ⟨rfl | ⟨isKey, least⟩, high⟩
      · refine ⟨.inr rfl, fun y from' path => ?_⟩
        rcases from' with before | rfl
        · exact unordered before path.to_reflTransGen
        · exact high path
      · refine ⟨.inl isKey, fun y from' path => ?_⟩
        rcases from' with before | rfl
        · exact least y before path
        · exact high path
    · rintro ⟨isKey | rfl, least⟩
      · exact ⟨.inr ⟨isKey, fun y before => least y (.inl before)⟩, least e (.inr rfl)⟩
      · exact ⟨.inl rfl, leveled.irrefl v⟩

/-- The keys one after another, by induction on those that are left. -/
theorem prunedLspanning_run
    (spanning : Spanning po elements done self)
    (members : ∀ k ∈ done ++ keys, k ∈ elements) :
    ∃ self', Returns (fun fuel => keys.foldlM (prunedLspanningCb fuel po) self) self' ∧
      Spanning po elements (done ++ keys) self' := by
  induction keys generalizing done self with
  | nil => exact ⟨self, .const self, by rwa [append_nil]⟩
  | cons k rest ih =>
    obtain ⟨self1, returns1, spanning1⟩ := prunedLspanningCb_spec linked leveled spanning
      (fun k before => members k (mem_append_left _ before))
      (members k (mem_append_right _ mem_cons_self))
    rw [append_cons] at members ⊢
    obtain ⟨self2, returns2, spanning2⟩ := ih spanning1 members
    refine ⟨self2, returns1.andThen returns2 fun fuel done => ?_, spanning2⟩
    rw [foldlM_cons, done]
    rfl

/-- The result is the set of the minimal elements, in whatever order the table has them. -/
theorem prunedLspanning_minimal (s : Finset α) (members : s ⊆ elements)
    (iteration : ∀ k, k ∈ keys ↔ k ∈ s) :
    ∃ result, Returns (fun fuel => prunedLspanning fuel po keys) result ∧
      (∀ x, x ∈ result ↔ Minimal po elements (· ∈ s) x) ∧ (∀ x ∈ s, ∃ r ∈ result, po.PrecEq elements r x) ∧
      ∀ r ∈ result, ∀ r' ∈ result, ¬ po.Prec elements r r' := by
  have start : Spanning po elements [] (∅, ∅) := ⟨by simp, by simp [Minimal]⟩
  have inside : ∀ k ∈ [] ++ keys, k ∈ elements := fun k isKey => members ((iteration k).mp isKey)
  obtain ⟨self, returns, span, pruned⟩ := prunedLspanning_run linked leveled start inside
  have minimal (x : α) : x ∈ self.1 ↔ Minimal po elements (· ∈ s) x := by
    simp only [pruned, nil_append, iteration]
  refine ⟨self.1, returns.map Prod.fst, minimal, fun x inSet => ?_, fun r isResult r' isResult' => ?_⟩
  · induction level : po.level x using Nat.strong_induction_on generalizing x with
    | _ level ih =>
      by_cases least : ∃ y ∈ s, po.Prec elements y x
      · obtain ⟨y, inSet', path⟩ := least
        obtain ⟨r, isResult, low⟩ := ih (po.level y) (level ▸ leveled.lt path) y inSet' rfl
        exact ⟨r, isResult, low.trans path.to_reflTransGen⟩
      · exact ⟨x, (minimal x).mpr ⟨inSet, fun y inSet' path => least ⟨y, inSet', path⟩⟩, .refl⟩
  · exact ((minimal r').mp isResult').2 r ((minimal r).mp isResult).1

end Run

theorem prunedLspanning_minimal_diamond :
    ∃ result, Returns (fun fuel => prunedLspanning fuel diamondPo [5, 2, 3]) result ∧
      (∀ x, x ∈ result ↔ Minimal diamondPo {0, 1, 2, 3, 4, 5} (· ∈ ({5, 2, 3} : Finset Nat)) x) ∧
      (∀ x ∈ ({5, 2, 3} : Finset Nat), ∃ r ∈ result, diamondPo.PrecEq {0, 1, 2, 3, 4, 5} r x) ∧
      ∀ r ∈ result, ∀ r' ∈ result, ¬ diamondPo.Prec {0, 1, 2, 3, 4, 5} r r' :=
  prunedLspanning_minimal diamond_ordered.linked diamond_ordered.leveled {5, 2, 3} (by decide) (by simp)

end Culibs.Cucon.Po
