import Culibs.Cucon.Po.Ordered

namespace Culibs.Cucon.Po

open DepthFirst List

variable {α : Type} [DecidableEq α]

/-- The table of a search, `visit_set`, and the elements that `f` has been called with. -/
structure Visit (α : Type) where
  visit : α → Option Int
  calls : List α

namespace Visit

def init : Visit α := ⟨fun _ => none, []⟩

def put (s : Visit α) (e : α) (visit : Int) : Visit α := { s with visit := Function.update s.visit e (some visit) }

omit [DecidableEq α] in
def call (s : Visit α) (e : α) : Visit α := { s with calls := s.calls ++ [e] }

end Visit

/-- The loop of `_po_for_open_range_dw`, over the rest of the immediate predecessors. The memory of a
new entry is clear. -/
def forOpenRangeDw (po : Po α) (low : α) : Nat → List α → Int → Visit α → Option (Int × Visit α)
  | 0, _, _, _ => none
  | _ + 1, [], reach, s => some (reach, s)
  | fuel + 1, e :: rest, reach, s =>
    if e = low then some (1, s)
    else
      match s.visit e with
      | some visit => forOpenRangeDw po low fuel rest (reach + visit) s
      | none =>
        (forOpenRangeDw po low fuel (po.ipreds e) 0 (s.put e 0)).bind fun result =>
          if result.1 ≠ 0 then forOpenRangeDw po low fuel rest (reach + 1) ((result.2.put e 1).call e)
          else forOpenRangeDw po low fuel rest reach (result.2.put e 0)

section Iter

variable (fuel : Nat) (po : Po α)

def iterOpenRange (low high : α) : Option (List α) :=
  (forOpenRangeDw po low fuel (po.ipreds high) 0 .init).map fun result => result.2.calls

def iterLeftRange (min high : α) : Option (List α) :=
  (forOpenRangeDw po min fuel (po.ipreds high) 0 .init).map fun result =>
    if result.1 ≠ 0 then (result.2.call min).calls else result.2.calls

def iterRightRange (low max : α) : Option (List α) :=
  (forOpenRangeDw po low fuel (po.ipreds max) 0 .init).map fun result =>
    if result.1 ≠ 0 then (result.2.call max).calls else result.2.calls

def iterClosedRange (min max : α) : Option (List α) :=
  if min = max then some [min]
  else
    (forOpenRangeDw po min fuel (po.ipreds max) 0 .init).map fun result =>
      if result.1 ≠ 0 then ((result.2.call min).call max).calls else result.2.calls

end Iter

/-- `f` is called once with each element that has the property, and with no other. -/
def CallsOnce (run : Nat → Option (List α)) (p : α → Prop) : Prop :=
  ∃ calls, Returns run calls ∧ calls.Nodup ∧ ∀ x, x ∈ calls ↔ p x

variable {po : Po α} {elements : Finset α} {low high e : α}

namespace Visit

variable {s s' s'' : Visit α} {v : α}

/-- The entry of an element says whether it is above the limit, and the calls from there down have
been made. -/
def Known (po : Po α) (elements : Finset α) (low : α) (s : Visit α) (v : α) : Prop :=
  (∃ visit, s.visit v = some visit ∧ 0 ≤ visit ∧ (visit ≠ 0 ↔ po.Prec elements low v)) ∧
    ∀ z, po.PrecEq elements z v → po.Prec elements low z → z ∈ s.calls

/-- What a search adds. -/
structure Extends (po : Po α) (elements : Finset α) (low : α) (p : α → Prop) (s s' : Visit α) : Prop where
  kept : ∀ v, s.visit v ≠ none → s'.visit v = s.visit v
  known : ∀ v, s'.visit v ≠ none → s.visit v ≠ none ∨ s'.Known po elements low v
  calls : ∃ new, s'.calls = s.calls ++ new ∧ new.Nodup ∧
    ∀ z ∈ new, s.visit z = none ∧ s'.visit z ≠ none ∧ po.Prec elements low z ∧ p z

section

omit [DecidableEq α]

theorem Extends.refl (p : α → Prop) (s : Visit α) : Extends po elements low p s s :=
  ⟨fun _ _ => rfl, fun _ isSeen => .inl isSeen, [], by simp, nodup_nil, by simp⟩

theorem Known.mono (known : s.Known po elements low v) (more : Extends po elements low p s s') :
    s'.Known po elements low v := by
  obtain ⟨⟨visit, entry, correct⟩, called⟩ := known
  obtain ⟨new, isCalls, _⟩ := more.calls
  refine ⟨⟨visit, ?_, correct⟩, fun z down above => ?_⟩
  · rw [more.kept v (by rw [entry]; exact Option.some_ne_none visit), entry]
  · rw [isCalls]
    exact mem_append_left _ (called z down above)

theorem Extends.trans {p p' q : α → Prop} (first : Extends po elements low p s s')
    (second : Extends po elements low p' s' s'')
    (left : ∀ z, p z → q z) (right : ∀ z, p' z → q z) : Extends po elements low q s s'' := by
  obtain ⟨new, isCalls, nodup, fresh⟩ := first.calls
  obtain ⟨new', isCalls', nodup', fresh'⟩ := second.calls
  have later (v : α) (isSeen : s.visit v ≠ none) : s'.visit v ≠ none := by rwa [first.kept v isSeen]
  refine ⟨fun v isSeen => (second.kept v (later v isSeen)).trans (first.kept v isSeen), fun v isSeen => ?_,
    new ++ new', by rw [isCalls', isCalls, append_assoc], ?_, fun z mem => ?_⟩
  · rcases second.known v isSeen with before | known
    · exact (first.known v before).imp_right fun known => known.mono second
    · exact .inr known
  · refine nodup_append.mpr ⟨nodup, nodup', ?_⟩
    rintro z mem w member' rfl
    exact (fresh z mem).2.1 (fresh' z member').1
  · rcases mem_append.mp mem with before | after
    · obtain ⟨unseen, isSeen, above, isLeft⟩ := fresh z before
      exact ⟨unseen, by rwa [second.kept z isSeen], above, left z isLeft⟩
    · obtain ⟨unseen, isSeen, above, isRight⟩ := fresh' z after
      refine ⟨?_, isSeen, above, right z isRight⟩
      by_contra before
      exact later z before unseen

end

private theorem put_self (s : Visit α) (e : α) (n : Int) : (s.put e n).visit e = some n := Function.update_self ..

theorem put_of_ne (ne : v ≠ e) (s : Visit α) (n : Int) : (s.put e n).visit v = s.visit v :=
  Function.update_of_ne ne ..

/-- After the search below an element its entry gets the answer, and if it is in the range the call is made. -/
theorem Extends.close (linked : Linked po elements) (isElement : e ∈ elements) (entry : s.visit e = none)
    (extended : Extends po elements low (fun z => ∃ a ∈ po.ipreds e, po.PrecEq elements z a) (s.put e 0) s')
    (called : ∀ a ∈ po.ipreds e, ∀ z, po.PrecEq elements z a → po.Prec elements low z → z ∈ s'.calls)
    (n : Int) (last : List α) (nonneg : 0 ≤ n) (isAnswer : n ≠ 0 ↔ po.Prec elements low e)
    (isLast : ∀ z, z ∈ last ↔ z = e ∧ po.Prec elements low e) (once : last.Nodup) :
    Extends po elements low (fun z => po.PrecEq elements z e) s { s'.put e n with calls := s'.calls ++ last } ∧
      Known po elements low { s'.put e n with calls := s'.calls ++ last } e := by
  obtain ⟨new, isCalls, nodup, fresh⟩ := extended.calls
  have notNew {z : α} (mem : z ∈ new) : z ≠ e ∧ s.visit z = none := by
    obtain ⟨unseen, _⟩ := fresh z mem
    have ne : z ≠ e := by
      rintro rfl
      rw [put_self] at unseen
      cases unseen
    exact ⟨ne, by rwa [put_of_ne ne] at unseen⟩
  have known : Known po elements low { s'.put e n with calls := s'.calls ++ last } e := by
    refine ⟨⟨n, put_self s' e n, nonneg, isAnswer⟩, fun z down above => mem_append.mpr ?_⟩
    rcases precEq_iff.mp down with rfl | path
    · exact .inr ((isLast z).mpr ⟨rfl, above⟩)
    · obtain ⟨a, step, down⟩ := (linked.pred_iff isElement).mpr path
      exact .inl (called a step z down above)
  refine ⟨⟨fun v isSeen => ?_, fun v isSeen => ?_, new ++ last, ?_, ?_, fun z mem => ?_⟩, known⟩
  · have ne : v ≠ e := by
      rintro rfl
      exact isSeen entry
    change (s'.put e n).visit v = _
    rw [put_of_ne ne, extended.kept v (by rwa [put_of_ne ne]), put_of_ne ne]
  · by_cases same : v = e
    · exact .inr (same ▸ known)
    change (s'.put e n).visit v ≠ none at isSeen
    rw [put_of_ne same] at isSeen
    rcases extended.known v isSeen with before | ⟨entry', called'⟩
    · exact .inl (by rwa [put_of_ne same] at before)
    · refine .inr ⟨?_, fun z down above => mem_append_left _ (called' z down above)⟩
      change ∃ visit, (s'.put e n).visit v = some visit ∧ _
      rwa [put_of_ne same]
  · rw [isCalls, append_assoc]
    rfl
  · refine nodup_append.mpr ⟨nodup, once, ?_⟩
    rintro z mem w member' rfl
    exact (notNew mem).1 ((isLast z).mp member').1
  · rcases mem_append.mp mem with before | after
    · obtain ⟨_, isSeen, above, a, step, down⟩ := fresh z before
      obtain ⟨ne, unseen⟩ := notNew before
      refine ⟨unseen, ?_, above, down.tail (linked.link_of_pred isElement step)⟩
      change (s'.put e n).visit z ≠ none
      rwa [put_of_ne ne]
    · obtain ⟨rfl, above⟩ := (isLast z).mp after
      refine ⟨entry, ?_, above, .refl⟩
      change (s'.put z n).visit z ≠ none
      rw [put_self]
      exact Option.some_ne_none n

end Visit

open Visit

section Search

variable (linked : Linked po elements) (leveled : Leveled po elements) (irredundant : Irredundant po elements)

include linked leveled irredundant

omit leveled in
/-- The part of a list that is left to a search reaches an element of the range from the limit, and
nothing is lost when it stops early. -/
theorem forOpenRangeDw_spec (low : α) (grounded : ∀ a ∈ list, Grounded po.ipreds a)
    (inside : ∀ a ∈ list, a ∈ elements)
    (direct : low ∈ list → ∀ a ∈ list, ¬ po.Prec elements low a) (pos : 0 ≤ reach)
    (ahead : ∀ v, s.visit v ≠ none → ∀ a ∈ list, Reach po.ipreds a v → s.Known po elements low v) :
    ∃ reach' s', Returns (fun fuel => forOpenRangeDw po low fuel list reach s) (reach', s') ∧
      Extends po elements low (fun z => ∃ a ∈ list, po.PrecEq elements z a) s s' ∧
      (∀ a ∈ list, ∀ z, po.PrecEq elements z a → po.Prec elements low z → z ∈ s'.calls) ∧
      0 ≤ reach' ∧ (reach' ≠ 0 ↔ reach ≠ 0 ∨ ∃ a ∈ list, po.PrecEq elements low a) := by
  refine Grounded.list_induction (P := fun list => (∀ a ∈ list, a ∈ elements) →
    (low ∈ list → ∀ a ∈ list, ¬ po.Prec elements low a) → ∀ reach : Int, 0 ≤ reach → ∀ s : Visit α,
    (∀ v, s.visit v ≠ none → ∀ a ∈ list, Reach po.ipreds a v → s.Known po elements low v) →
    ∃ reach' s', Returns (fun fuel => forOpenRangeDw po low fuel list reach s) (reach', s') ∧
      Extends po elements low (fun z => ∃ a ∈ list, po.PrecEq elements z a) s s' ∧
      (∀ a ∈ list, ∀ z, po.PrecEq elements z a → po.Prec elements low z → z ∈ s'.calls) ∧
      0 ≤ reach' ∧ (reach' ≠ 0 ↔ reach ≠ 0 ∨ ∃ a ∈ list, po.PrecEq elements low a))
    ?_ ?_ grounded inside direct reach pos s ahead
  · intro _ _ reach pos s _
    exact ⟨reach, s, .step (.const _), .refl _ s, by simp, pos, by simp⟩
  intro e rest grounded ihNext ihRest inside direct reach pos s ahead
  obtain ⟨isElement, restInside⟩ := forall_mem_cons.mp inside
  have restDirect : low ∈ rest → ∀ a ∈ rest, ¬ po.Prec elements low a := fun mem a inRest =>
    direct (mem_cons_of_mem e mem) a (mem_cons_of_mem e inRest)
  by_cases isLow : e = low
  · -- The limit is an immediate predecessor, so that none of the others is above it.
    have nothing := direct (isLow ▸ .head _)
    refine ⟨1, s, .step ((Returns.const _).congr fun _ => if_pos isLow), .refl _ s, fun a mem z down above => ?_,
      by decide, iff_of_true (by decide) (.inr ⟨e, .head _, isLow ▸ .refl⟩)⟩
    exact absurd (prec_of_prec above down) (nothing a mem)
  have low_iff : po.PrecEq elements low e ↔ po.Prec elements low e := by
    rw [precEq_iff, or_iff_right (Ne.symm isLow)]
  -- The rest of a list after an element that is known.
  have finish {s1 : Visit α} (reach1 : Int) (positive1 : 0 ≤ reach1)
      (extended : Extends po elements low (fun z => po.PrecEq elements z e) s s1) (known : s1.Known po elements low e)
      (answer : reach1 ≠ 0 ↔ reach ≠ 0 ∨ po.Prec elements low e) :
      ∃ reach' s', Returns (fun fuel => forOpenRangeDw po low fuel rest reach1 s1) (reach', s') ∧
        Extends po elements low (fun z => ∃ a ∈ e :: rest, po.PrecEq elements z a) s s' ∧
        (∀ a ∈ e :: rest, ∀ z, po.PrecEq elements z a → po.Prec elements low z → z ∈ s'.calls) ∧
        0 ≤ reach' ∧ (reach' ≠ 0 ↔ reach ≠ 0 ∨ ∃ a ∈ e :: rest, po.PrecEq elements low a) := by
    obtain ⟨reach', s', returns, extended', called, positive', answer'⟩ :=
      ihRest restInside restDirect reach1 positive1 s1 <| by
      intro v isSeen a inRest path
      rcases extended.known v isSeen with before | known
      · exact (ahead v before a (mem_cons_of_mem e inRest) path).mono extended
      · exact known
    refine ⟨reach', s', returns, extended.trans extended' (fun z down => ⟨e, .head _, down⟩) ?_, ?_,
      positive', ?_⟩
    · rintro z ⟨a, inRest, down⟩
      exact ⟨a, mem_cons_of_mem e inRest, down⟩
    · exact forall_mem_cons.mpr ⟨(known.mono extended').2, called⟩
    · rw [answer', answer, exists_mem_cons_iff, low_iff, or_assoc]
  cases entry : s.visit e with
  | some visit =>
    have known := ahead e (by rw [entry]; exact Option.some_ne_none visit) e mem_cons_self (.refl _ _)
    have ⟨⟨visit', entry', nonneg, correct⟩, _⟩ := known
    obtain rfl : visit = visit' := Option.some.inj (entry.symm.trans entry')
    obtain ⟨reach', s', returns, rest⟩ := finish (reach + visit) (by omega) (.refl _ s) known
      (by rw [← correct]; omega)
    refine ⟨reach', s', .step (returns.congr fun fuel => ?_), rest⟩
    rw [forOpenRangeDw, if_neg isLow, entry]
  | none =>
    have predsDirect : low ∈ po.ipreds e → ∀ a ∈ po.ipreds e, ¬ po.Prec elements low a := fun mem a step above =>
      irredundant low e (linked.link_of_pred isElement mem) a ⟨above, .single (linked.link_of_pred isElement step)⟩
    obtain ⟨reach1, s1, returns1, extended1, called1, positive1, answer1⟩ :=
      ihNext (fun a step => linked.preds e isElement a step)
        predsDirect 0 (le_refl 0) (s.put e 0) <| by
      intro v isSeen a step path
      have ne : v ≠ e := by
        rintro rfl
        exact grounded.acyclic step path
      rw [put_of_ne ne] at isSeen
      obtain ⟨entry', called⟩ := ahead v isSeen e mem_cons_self (.head step path)
      exact ⟨by rwa [put_of_ne ne], called⟩
    have below : reach1 ≠ 0 ↔ po.Prec elements low e := by
      rw [answer1, or_iff_right (fun zero => zero rfl), linked.pred_iff isElement]
    have unfold_eq (fuel : Nat) (done : forOpenRangeDw po low fuel (po.ipreds e) 0 (s.put e 0) = some (reach1, s1)) :
        forOpenRangeDw po low (fuel + 1) (e :: rest) reach s =
          if reach1 ≠ 0 then forOpenRangeDw po low fuel rest (reach + 1) ((s1.put e 1).call e)
          else forOpenRangeDw po low fuel rest reach (s1.put e 0) := by
      rw [forOpenRangeDw, if_neg isLow, entry]
      simp [done]
    by_cases above : po.Prec elements low e
    · obtain ⟨extended, known⟩ := extended1.close linked isElement entry called1 1 [e] (by decide)
        (iff_of_true (by decide) above) (by simp [above])
        (nodup_singleton e)
      obtain ⟨reach', s', returns, rest⟩ := finish (reach + 1) (by omega) extended known
        (iff_of_true (by omega) (.inr above))
      refine ⟨reach', s', .step (returns1.andThen returns fun fuel done => ?_), rest⟩
      rw [unfold_eq fuel done, if_pos (below.mpr above)]
      rfl
    · obtain ⟨extended, known⟩ := extended1.close linked isElement entry called1 0 [] (le_refl 0)
        (iff_of_false (fun zero => zero rfl) above) (by simp [above]) nodup_nil
      obtain ⟨reach', s', returns, rest⟩ := finish reach pos extended known
        (by rw [or_iff_left above])
      refine ⟨reach', s', .step (returns1.andThen returns fun fuel done => ?_), rest⟩
      rw [unfold_eq fuel done, if_neg fun nonzero => above (below.mp nonzero)]
      simp only [append_nil]
      rfl

theorem forOpenRangeDw_range (low : α) (inside : high ∈ elements) :
    ∃ reach s, Returns (fun fuel => forOpenRangeDw po low fuel (po.ipreds high) 0 .init) (reach, s) ∧ s.calls.Nodup ∧
      (∀ x, x ∈ s.calls ↔ po.Prec elements low x ∧ po.Prec elements x high) ∧
        (reach ≠ 0 ↔ po.Prec elements low high) := by
  obtain ⟨reach, s, returns, extended, called, _, answer⟩ := forOpenRangeDw_spec linked irredundant low
    (fun a step => linked.grounded_preds leveled (linked.preds high inside a step)) (linked.preds high inside)
    (fun mem a step above => irredundant low high (linked.link_of_pred inside mem) a
      ⟨above, .single (linked.link_of_pred inside step)⟩) (le_refl 0) (s := .init) fun v isSeen => absurd rfl isSeen
  obtain ⟨new, isCalls, nodup, fresh⟩ := extended.calls
  obtain rfl : s.calls = new := isCalls
  refine ⟨reach, s, returns, nodup, fun x => ⟨fun mem => ?_, fun between => ?_⟩, ?_⟩
  · obtain ⟨_, _, above, down⟩ := fresh x mem
    exact ⟨above, (linked.pred_iff inside).mp down⟩
  · obtain ⟨a, step, down⟩ := (linked.pred_iff inside).mpr between.2
    exact called a step x down between.1
  · rw [answer, or_iff_right (fun zero => zero rfl), linked.pred_iff inside]

omit [DecidableEq α] linked leveled irredundant in
private theorem callsOnce_ends {reach : Int} {s : Visit α}
    (returns : Returns run (reach, s)) (nodup : s.calls.Nodup)
    (range : ∀ x, x ∈ s.calls ↔ po.Prec elements a x ∧ po.Prec elements x b)
    (answer : reach ≠ 0 ↔ po.Prec elements a b) (ends : Visit α → List α) (once : (ends s).Nodup) {p : α → Prop}
    (members : po.Prec elements a b → ∀ x, x ∈ ends s ↔ p x) (apart : ∀ x, p x → po.Prec elements a b) :
    CallsOnce (fun fuel => (run fuel).map fun result => if result.1 ≠ 0 then ends result.2 else result.2.calls) p := by
  refine ⟨_, returns.map _, ?_, fun x => ?_⟩
  · dsimp only
    split
    · exact once
    · exact nodup
  · dsimp only
    split
    · next path => exact members (answer.mp path) x
    · next empty =>
      refine iff_of_false (fun mem => empty (answer.mpr ?_)) fun holds => empty (answer.mpr (apart x holds))
      exact ((range x).mp mem).1.trans ((range x).mp mem).2

/-- Each range has its elements, once, and nothing is called for an empty one. -/
theorem iter_ranges {a b : α} (insideA : a ∈ elements) (insideB : b ∈ elements) :
    CallsOnce (fun fuel => iterOpenRange fuel po a b) (fun x => po.Prec elements a x ∧ po.Prec elements x b) ∧
      CallsOnce (fun fuel => iterLeftRange fuel po a b) (fun x => po.PrecEq elements a x ∧ po.Prec elements x b) ∧
      CallsOnce (fun fuel => iterRightRange fuel po a b) (fun x => po.Prec elements a x ∧ po.PrecEq elements x b) ∧
      CallsOnce (fun fuel => iterClosedRange fuel po a b)
        (fun x => po.PrecEq elements a x ∧ po.PrecEq elements x b) := by
  obtain ⟨reach, s, returns, nodup, range, answer⟩ := forOpenRangeDw_range linked leveled irredundant a insideB
  have notFirst : a ∉ s.calls := fun member => leveled.irrefl a ((range a).mp member).1
  have notLast : b ∉ s.calls := fun member => leveled.irrefl b ((range b).mp member).2
  have left (x : α) (path : po.Prec elements a b) :
      x ∈ s.calls ++ [a] ↔ po.PrecEq elements a x ∧ po.Prec elements x b := by
    rw [mem_append, range, mem_singleton, precEq_iff]
    refine ⟨fun member => ?_, fun between => between.1.elim (fun same => .inr same.symm) fun above =>
      .inl ⟨above, between.2⟩⟩
    rcases member with between | rfl
    · exact ⟨.inr between.1, between.2⟩
    · exact ⟨.inl rfl, path⟩
  have right (x : α) (path : po.Prec elements a b) :
      x ∈ s.calls ++ [b] ↔ po.Prec elements a x ∧ po.PrecEq elements x b := by
    rw [mem_append, range, mem_singleton, precEq_iff (a := x)]
    refine ⟨fun member => ?_, fun between => between.2.elim .inr fun below => .inl ⟨between.1, below⟩⟩
    rcases member with between | rfl
    · exact ⟨between.1, .inr between.2⟩
    · exact ⟨path, .inl rfl⟩
  have both (x : α) (path : po.Prec elements a b) :
      x ∈ s.calls ++ [a] ++ [b] ↔ po.PrecEq elements a x ∧ po.PrecEq elements x b := by
    rw [mem_append, left x path, mem_singleton, precEq_iff (a := x)]
    refine ⟨fun member => ?_, fun between => between.2.elim .inr fun below => .inl ⟨between.1, below⟩⟩
    rcases member with between | rfl
    · exact ⟨between.1, .inr between.2⟩
    · exact ⟨path.to_reflTransGen, .inl rfl⟩
  have once {x : α} {calls : List α} (unique : calls.Nodup) (new : x ∉ calls) : (calls ++ [x]).Nodup :=
    nodup_append.mpr ⟨unique, nodup_singleton x, fun y member z isLast same =>
      new (mem_singleton.mp isLast ▸ same ▸ member)⟩
  have onceBoth (different : a ≠ b) : (s.calls ++ [a] ++ [b]).Nodup := by
    refine once (once nodup notFirst) fun member => ?_
    rcases mem_append.mp member with before | isFirst
    · exact notLast before
    · exact different (mem_singleton.mp isFirst).symm
  refine ⟨⟨s.calls, returns.map _, nodup, range⟩, ?_, ?_, ?_⟩
  · exact callsOnce_ends returns nodup range answer (fun s => (s.call a).calls) (once nodup notFirst)
      (fun path x => left x path) fun x between => prec_of_precEq between.1 between.2
  · exact callsOnce_ends returns nodup range answer (fun s => (s.call b).calls) (once nodup notLast)
      (fun path x => right x path) fun x between => prec_of_prec between.1 between.2
  by_cases same : a = b
  · refine ⟨[a], (Returns.const _).congr fun _ => if_pos same, nodup_singleton a, fun x => ?_⟩
    rw [mem_singleton, ← same]
    refine ⟨fun isFirst => isFirst ▸ ⟨.refl, .refl⟩, fun between => ?_⟩
    rcases precEq_iff.mp between.1 with isFirst | path
    · exact isFirst.symm
    · exact absurd between.2 (leveled.not_back path)
  · obtain ⟨calls, done, nodupCalls, members⟩ := callsOnce_ends returns nodup range answer
      (fun s => ((s.call a).call b).calls) (onceBoth same) (fun path x => both x path)
      fun x between => (precEq_iff.mp (between.1.trans between.2)).resolve_left same
    exact ⟨calls, done.congr fun _ => if_neg same, nodupCalls, members⟩

end Search

theorem iter_ranges_diamond :
    CallsOnce (fun fuel => iterOpenRange fuel diamondPo 0 5)
        (fun x => diamondPo.Prec {0, 1, 2, 3, 4, 5} 0 x ∧ diamondPo.Prec {0, 1, 2, 3, 4, 5} x 5) ∧
      CallsOnce (fun fuel => iterLeftRange fuel diamondPo 0 5)
        (fun x => diamondPo.PrecEq {0, 1, 2, 3, 4, 5} 0 x ∧ diamondPo.Prec {0, 1, 2, 3, 4, 5} x 5) ∧
      CallsOnce (fun fuel => iterRightRange fuel diamondPo 0 5)
        (fun x => diamondPo.Prec {0, 1, 2, 3, 4, 5} 0 x ∧ diamondPo.PrecEq {0, 1, 2, 3, 4, 5} x 5) ∧
      CallsOnce (fun fuel => iterClosedRange fuel diamondPo 0 5)
        (fun x => diamondPo.PrecEq {0, 1, 2, 3, 4, 5} 0 x ∧ diamondPo.PrecEq {0, 1, 2, 3, 4, 5} x 5) :=
  iter_ranges diamond_ordered.linked diamond_ordered.leveled diamond_irredundant (by decide) (by decide)

end Culibs.Cucon.Po
