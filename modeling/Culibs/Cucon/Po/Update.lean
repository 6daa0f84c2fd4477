import Culibs.Cucon.Po.Basic

namespace Culibs.Cucon.Po

open DepthFirst GeneratedOrder Relation Function List Finset Option

variable {α : Type} [DecidableEq α] {po po' po'' : Po α} {elements rm : Finset α} {a b c e : α}

section Lists

variable {lists : α → List α}

theorem mem_prepend (lists : α → List α) (a b c d : α) : d ∈ prepend lists a b c ↔ (c = a ∧ d = b) ∨ d ∈ lists c := by
  rw [prepend, update_apply]
  split
  · next same => rw [List.mem_cons, same, and_iff_right rfl]
  · next other => rw [iff_or_self]; exact fun both => absurd both.1 other

theorem nodup_prepend (nodup : (lists c).Nodup) (new : c = a → b ∉ lists a) : (prepend lists a b c).Nodup := by
  rw [prepend, update_apply]
  split
  · next same => exact nodup_cons.mpr ⟨new same, same ▸ nodup⟩
  · exact nodup

theorem mem_eraseAt (nodup : (lists a).Nodup) (b c d : α) :
    d ∈ update lists a ((lists a).erase b) c ↔ d ∈ lists c ∧ ¬ (c = a ∧ d = b) := by
  rw [update_apply]
  split
  · next same => rw [nodup.mem_erase_iff, same, and_iff_right rfl, and_comm]
  · next other => rw [iff_self_and]; exact fun _ both => other both.1

private theorem nodup_eraseAt (nodup : (lists c).Nodup) (a b : α) : (update lists a ((lists a).erase b) c).Nodup := by
  rw [update_apply]
  split
  · next same => exact (same ▸ nodup).erase b
  · exact nodup

end Lists

section Remove

/-- Some links have been removed. -/
structure Removed (po po' : Po α) (elements : Finset α) (gone : α → α → Prop) : Prop where
  bot : po'.bot = po.bot
  top : po'.top = po.top
  level : po'.level = po.level
  linked : Linked po' elements
  succs : ∀ a ∈ elements, ∀ b, b ∈ po'.isuccs a ↔ b ∈ po.isuccs a ∧ ¬ gone a b

variable {gone gone' : α → α → Prop}

omit [DecidableEq α] in
theorem Removed.refl (linked : Linked po elements) (never : ∀ a b, ¬ gone a b) : Removed po po elements gone :=
  ⟨rfl, rfl, rfl, linked, fun a _ b => (and_iff_left (never a b)).symm⟩

omit [DecidableEq α] in
theorem Removed.trans (first : Removed po po' elements gone) (second : Removed po' po'' elements gone') {both : α → α → Prop}
    (either : ∀ a b, both a b ↔ gone a b ∨ gone' a b) : Removed po po'' elements both := by
  refine ⟨second.bot.trans first.bot, second.top.trans first.top, second.level.trans first.level, second.linked, ?_⟩
  intro a inside b
  rw [second.succs a inside, first.succs a inside, either]
  tauto

theorem removeLink_spec (linked : Linked po elements) (inside : e ∈ elements) (inside' : succ ∈ elements) :
    Removed po { po with
        ipreds := update po.ipreds succ ((po.ipreds succ).erase e)
        isuccs := update po.isuccs e ((po.isuccs e).erase succ) } elements fun a b => a = e ∧ b = succ := by
  have memSucc := mem_eraseAt (linked.nodup e inside).1 succ
  have memPred := mem_eraseAt (linked.nodup succ inside').2 e
  refine ⟨rfl, rfl, rfl, ⟨linked.bot, linked.top, ?_, ?_, ?_, ?_⟩, fun a _ b => memSucc a b⟩
  · exact fun a isElement b mem => linked.succs a isElement b ((memSucc a b).mp mem).1
  · exact fun b isElement a mem => linked.preds b isElement a ((memPred b a).mp mem).1
  · intro a isElement b isElement'
    simp only [memSucc, memPred, linked.inverse a isElement b isElement', and_comm (a := a = e)]
  · exact fun a isElement =>
      ⟨nodup_eraseAt (linked.nodup a isElement).1 e succ, nodup_eraseAt (linked.nodup a isElement).2 succ e⟩

theorem removeSuccs_spec (linked : Linked po elements) (rm : Finset α) (inside : e ∈ elements)
    (members : ∀ succ ∈ list, succ ∈ elements) :
    Removed po (removeSuccs rm e list po) elements fun a b => a = e ∧ b ∈ list ∧ b ∈ rm := by
  induction list generalizing po with
  | nil => exact .refl linked fun a b gone => by simp at gone
  | cons succ rest ih =>
    obtain ⟨first, later⟩ := forall_mem_cons.mp members
    rw [removeSuccs]
    split
    · next removed =>
      have link := removeLink_spec linked inside first
      refine link.trans (ih link.linked later) fun a b => ?_
      rw [List.mem_cons]
      constructor
      · rintro ⟨rfl, rfl | inRest, inRm⟩
        · exact .inl ⟨rfl, rfl⟩
        · exact .inr ⟨rfl, inRest, inRm⟩
      · rintro (⟨rfl, rfl⟩ | ⟨rfl, inRest, inRm⟩)
        · exact ⟨rfl, .inl rfl, removed⟩
        · exact ⟨rfl, .inr inRest, inRm⟩
    · next kept =>
      have same : Removed po po elements fun _ _ => False := .refl linked fun _ _ gone => gone
      refine same.trans (ih linked later) fun a b => ?_
      rw [List.mem_cons, false_or]
      constructor
      · rintro ⟨rfl, rfl | inRest, inRm⟩
        · exact absurd inRm kept
        · exact ⟨rfl, inRest, inRm⟩
      · rintro ⟨rfl, inRest, inRm⟩
        exact ⟨rfl, .inr inRest, inRm⟩

private theorem removeSuccs_ipreds (rm : Finset α) (e : α) (list : List α) (po : Po α) (outside : a ∉ rm) :
    (removeSuccs rm e list po).ipreds a = po.ipreds a := by
  induction list generalizing po with
  | nil => rfl
  | cons succ rest ih =>
    rw [removeSuccs, ih]
    split
    · next removed => exact update_of_ne (ne_of_mem_of_not_mem removed outside).symm ..
    · rfl

theorem removeSuccsInPmap_spec (linked : Linked po elements) (rm : Finset α) (inside : e ∈ elements) :
    Removed po (removeSuccsInPmap rm e po) elements fun a b => a = e ∧ b ∈ rm := by
  have removed := removeSuccs_spec linked rm inside (linked.succs e inside)
  refine ⟨removed.bot, removed.top, removed.level, removed.linked, fun a isElement b => ?_⟩
  rw [removeSuccsInPmap, removed.succs a isElement]
  constructor
  · rintro ⟨mem, kept⟩
    refine ⟨mem, fun gone => kept ⟨gone.1, gone.1 ▸ mem, gone.2⟩⟩
  · rintro ⟨mem, kept⟩
    exact ⟨mem, fun gone => kept ⟨gone.1, gone.2.2⟩⟩

private theorem foldl_removeSuccsInPmap_spec (linked : Linked po elements) (rm : Finset α) {order : List α}
    (members : ∀ e ∈ order, e ∈ elements) :
    Removed po (order.foldl (fun po e => removeSuccsInPmap rm e po) po) elements fun a b => a ∈ order ∧ b ∈ rm := by
  induction order generalizing po with
  | nil => exact .refl linked fun a b gone => by simp at gone
  | cons e rest ih =>
    obtain ⟨first, later⟩ := forall_mem_cons.mp members
    have here := removeSuccsInPmap_spec linked rm first
    refine here.trans (ih here.linked later) fun a b => ?_
    rw [List.mem_cons, or_and_right]

private theorem forPreceqRemoveSuccsInPmap_spec (linked : Linked po elements) (leveled : Leveled po elements)
    (inside : e ∈ elements) (above : ∀ v ∈ rm, ¬ ReflTransGen (po.Link elements) v e) :
    ∃ po' lspan, Returns (fun fuel => forPreceqRemoveSuccsInPmap fuel po e rm ∅) (po', lspan) ∧
      Removed po po' elements fun a b => ReflTransGen (po.Link elements) a e ∧ b ∈ rm := by
  -- The lists of predecessors below `e` stay as they are.
  have frame {v : α} (low : ReflTransGen (po.Link elements) v e) (a : α) (state : Po α) :
      (removeSuccsInPmap rm a state).ipreds v = state.ipreds v :=
    removeSuccs_ipreds rm a _ state fun mem => above v mem low
  have removed := removeSuccsInPmap_spec linked rm inside
  have closed : ∀ a, a ∈ elements ∧ ReflTransGen (po.Link elements) a e → ∀ b ∈ po.ipreds a,
      b ∈ elements ∧ ReflTransGen (po.Link elements) b e := by
    rintro a ⟨isElement, path⟩ b step
    have before := linked.preds a isElement b step
    exact ⟨before, .head ⟨before, (linked.inverse b before a isElement).mpr step⟩ path⟩
  have first : ∀ a ∈ po.ipreds e, a ∈ elements ∧ ReflTransGen (po.Link elements) a e := closed e ⟨inside, .refl⟩
  have framed : Framed po.ipreds ipreds (removeSuccsInPmap rm)
      (fun state => Linked state elements ∧ ∀ a, ReflTransGen (po.Link elements) a e → state.ipreds a = po.ipreds a)
      fun a => a ∈ elements ∧ ReflTransGen (po.Link elements) a e :=
    ⟨fun state a stable low => ⟨(removeSuccsInPmap_spec stable.1 rm low.1).linked,
      fun v path => (frame path a state).trans (stable.2 v path)⟩, fun state a stable low => stable.2 a low.2, closed⟩
  obtain ⟨order, lspan, returns, _, visits⟩ := walk_spec framed
    (fun a step => linked.grounded_preds leveled (first a step).1) first
    ⟨removed.linked, fun v path => frame path e po⟩ (.empty _ _ _ _)
  refine ⟨_, lspan, returns.congr fun fuel => ?_, removed.trans (foldl_removeSuccsInPmap_spec removed.linked rm ?_) ?_⟩
  · rw [forPreceqRemoveSuccsInPmap, frame .refl e po]
  · intro a mem
    obtain ⟨c, step, reach⟩ := (visits.mem_order a).mp mem
    exact mem_of_path_to ((linked.reach_preds_iff (first c step).1).mp reach) (first c step).1
  · intro a b
    rw [← or_and_right, visits.mem_order, ← linked.reach_preds_iff inside]
    refine and_congr_left fun _ => ⟨fun reach => ?_, ?_⟩
    · exact reach.cases_head.imp_left Eq.symm
    · rintro (rfl | ⟨c, step, reach⟩)
      · exact .refl _ _
      · exact .head step reach

end Remove

/-- A partial order with more elements or other links. -/
structure Relinked (po po' : Po α) (elements' : Finset α) : Prop where
  bot : po'.bot = po.bot
  top : po'.top = po.top
  linked : Linked po' elements'
  leveled : Leveled po' elements'

omit [DecidableEq α] in
theorem Linked.withLevel (linked : Linked po elements) (level : α → Nat) : Linked { po with level } elements :=
  ⟨linked.bot, linked.top, linked.succs, linked.preds, linked.inverse, linked.nodup⟩

section Insert

variable (linked : Linked po elements) (leveled : Leveled po elements) (fresh : e ∉ elements)

include linked fresh

private theorem prependLinks_spec : Linked { po with
      isuccs := prepend (prepend (update po.isuccs e []) e po.top) po.bot e
      ipreds := prepend (prepend (update po.ipreds e []) e po.bot) po.top e } (insert e elements) ∧
    Inserted (po.Link elements) (Link { po with
      isuccs := prepend (prepend (update po.isuccs e []) e po.top) po.bot e
      ipreds := prepend (prepend (update po.ipreds e []) e po.bot) po.top e } (insert e elements))
        po.bot po.top e := by
  have notBot : po.bot ≠ e := ne_of_mem_of_not_mem linked.bot fresh
  have notTop : po.top ≠ e := ne_of_mem_of_not_mem linked.top fresh
  have old {a : α} (inside : a ∈ elements) : a ≠ e := ne_of_mem_of_not_mem inside fresh
  have memSucc (a b : α) : b ∈ prepend (prepend (update po.isuccs e []) e po.top) po.bot e a ↔
      (a = po.bot ∧ b = e) ∨ (a = e ∧ b = po.top) ∨ (a ≠ e ∧ b ∈ po.isuccs a) := by
    rw [mem_prepend, mem_prepend, update_apply]
    split <;> simp_all
  have memPred (b a : α) : a ∈ prepend (prepend (update po.ipreds e []) e po.bot) po.top e b ↔
      (b = po.top ∧ a = e) ∨ (b = e ∧ a = po.bot) ∨ (b ≠ e ∧ a ∈ po.ipreds b) := by
    rw [mem_prepend, mem_prepend, update_apply]
    split <;> simp_all
  refine ⟨⟨mem_insert_of_mem linked.bot, mem_insert_of_mem linked.top, ?_, ?_, ?_, ?_⟩, fun a b => ?_⟩
  · intro a inside b mem
    rcases (memSucc a b).mp mem with ⟨_, rfl⟩ | ⟨_, rfl⟩ | ⟨isOld, before⟩
    · exact mem_insert_self b elements
    · exact mem_insert_of_mem linked.top
    · exact mem_insert_of_mem (linked.succs a (mem_of_mem_insert_of_ne inside isOld) b before)
  · intro b inside a mem
    rcases (memPred b a).mp mem with ⟨_, rfl⟩ | ⟨_, rfl⟩ | ⟨isOld, before⟩
    · exact mem_insert_self a elements
    · exact mem_insert_of_mem linked.bot
    · exact mem_insert_of_mem (linked.preds b (mem_of_mem_insert_of_ne inside isOld) a before)
  · intro a insideA b insideB
    simp only [memSucc, memPred]
    rcases mem_insert.mp insideA with rfl | oldA
    · rcases mem_insert.mp insideB with rfl | oldB
      · simp [notBot.symm, notTop.symm]
      · have unlinked : a ∉ po.ipreds b := fun mem => fresh (linked.preds b oldB a mem)
        simp [notBot.symm, old oldB, unlinked]
    · rcases mem_insert.mp insideB with rfl | oldB
      · have unlinked : b ∉ po.isuccs a := fun mem => fresh (linked.succs a oldA b mem)
        simp [notTop.symm, old oldA, unlinked]
      · simp [old oldA, old oldB, linked.inverse a oldA b oldB]
  · intro a inside
    rcases mem_insert.mp inside with rfl | isOld
    · have empty {lists : α → List α} : (update lists a [] a).Nodup := by
        rw [update_self]
        exact nodup_nil
      constructor
      · refine nodup_prepend (nodup_prepend empty fun _ => ?_) fun same => absurd same.symm notBot
        rw [update_self]
        exact not_mem_nil
      · refine nodup_prepend (nodup_prepend empty fun _ => ?_) fun same => absurd same.symm notTop
        rw [update_self]
        exact not_mem_nil
    · have same (lists : α → List α) (b : α) : prepend (update lists e []) e b a = lists a := by
        rw [prepend, update_of_ne (old isOld), update_of_ne (old isOld)]
      constructor
      · refine nodup_prepend (by rw [same]; exact (linked.nodup a isOld).1) fun isBot => ?_
        rw [← isBot, same]
        exact fun mem => fresh (linked.succs a isOld e mem)
      · refine nodup_prepend (by rw [same]; exact (linked.nodup a isOld).2) fun isTop => ?_
        rw [← isTop, same]
        exact fun mem => fresh (linked.preds a isOld e mem)
  · simp only [Link, memSucc, mem_insert]
    constructor
    · rintro ⟨inside, both | both | ⟨isOld, mem⟩⟩
      · exact .inr (.inl both)
      · exact .inr (.inr both)
      · exact .inl ⟨inside.resolve_left isOld, mem⟩
    · rintro (⟨inside, mem⟩ | ⟨rfl, rfl⟩ | ⟨rfl, rfl⟩)
      · exact ⟨.inr inside, .inr (.inr ⟨old inside, mem⟩)⟩
      · exact ⟨.inr linked.bot, .inl ⟨rfl, rfl⟩⟩
      · exact ⟨.inl rfl, .inr (.inl ⟨rfl, rfl⟩)⟩

omit [DecidableEq α] in
theorem not_linked (a : α) : ¬ po.Link elements a e ∧ ¬ po.Link elements e a :=
  ⟨fun step => fresh (linked.succs a step.1 e step.2), fun step => fresh step.1⟩

include leveled

theorem insertCct_spec (bounds : TransGen (po.Link elements) po.bot po.top) :
    ∃ po', Returns (fun fuel => insertCct fuel po e) po' ∧ Relinked po po' (insert e elements) ∧
      Inserted (po.Link elements) (po'.Link (insert e elements)) po.bot po.top e := by
  obtain ⟨linked', inserted⟩ := prependLinks_spec linked fresh
  have irrefl := inserted.irrefl (not_linked linked fresh) leveled.irrefl bounds
  obtain ⟨po', returns, ⟨level, rfl⟩, leveled'⟩ := updateLevel_spec linked' irrefl (mem_insert_self e elements) fun a b step
      notFrom notTo => by
    rcases (inserted a b).mp step with isOld | ⟨_, into⟩ | ⟨from', _⟩
    · exact leveled a b isOld
    · exact absurd into notTo
    · exact absurd from' notFrom
  exact ⟨_, returns, ⟨rfl, rfl, linked'.withLevel level, leveled'⟩, inserted⟩

end Insert

section Constrain

variable (linked : Linked po elements) (leveled : Leveled po elements) {e0 e1 : α} (inside0 : e0 ∈ elements)
  (inside1 : e1 ∈ elements)

include linked

private theorem prependLink_spec (inside0 : e0 ∈ elements) (inside1 : e1 ∈ elements) (new : e1 ∉ po.isuccs e0) :
    Linked { po with isuccs := prepend po.isuccs e0 e1, ipreds := prepend po.ipreds e1 e0 } elements := by
  have memSucc := mem_prepend po.isuccs e0 e1
  have memPred := mem_prepend po.ipreds e1 e0
  refine ⟨linked.bot, linked.top, ?_, ?_, ?_, fun a inside => ⟨?_, ?_⟩⟩
  · intro a inside b mem
    rcases (memSucc a b).mp mem with ⟨_, rfl⟩ | before
    · exact inside1
    · exact linked.succs a inside b before
  · intro b inside a mem
    rcases (memPred b a).mp mem with ⟨_, rfl⟩ | before
    · exact inside0
    · exact linked.preds b inside a before
  · intro a insideA b insideB
    simp only [memSucc, memPred, linked.inverse a insideA b insideB, and_comm (a := a = e0)]
  · exact nodup_prepend (linked.nodup a inside).1 fun _ => new
  · exact nodup_prepend (linked.nodup a inside).2 fun _ mem => new ((linked.inverse e0 inside0 e1 inside1).mpr mem)

include leveled inside0 inside1

theorem constrainPrec_refused (contrary : e0 = e1 ∨ TransGen (po.Link elements) e1 e0) :
    Returns (fun fuel => constrainPrec fuel po e0 e1) (false, po) := by
  by_cases same : e0 = e1
  · exact (Returns.const _).congr fun _ => if_pos same
  have path := contrary.resolve_left same
  obtain ⟨known, searched, iff⟩ := prec_spec linked leveled inside0 e1
  obtain ⟨result, collected, outcome⟩ := precCollectUspan_spec linked leveled inside1 e0
  have unknown : known = false := by
    refine Bool.eq_false_iff.mpr fun isKnown => ?_
    exact leveled.irrefl e0 ((iff.mp isKnown).trans path)
  have found : result.1 = true := by
    rcases outcome with ⟨found, _⟩ | ⟨_, unordered, _⟩
    · exact found
    · exact absurd path unordered
  have rest : Returns (fun fuel => constrainUnknown fuel po e0 e1) (false, po) := by
    refine collected.andThen (.const _) fun fuel done => ?_
    rw [constrainUnknown, done]
    exact if_pos found
  refine searched.andThen rest fun fuel done => ?_
  rw [constrainPrec, if_neg same, done, unknown]
  rfl

theorem constrainPrec_known (path : TransGen (po.Link elements) e0 e1) :
    Returns (fun fuel => constrainPrec fuel po e0 e1) (true, po) := by
  have ne : e0 ≠ e1 := by
    rintro rfl
    exact leveled.irrefl e0 path
  obtain ⟨known, searched, iff⟩ := prec_spec linked leveled inside0 e1
  refine searched.andThen (.const _) fun fuel done => ?_
  rw [constrainPrec, if_neg ne, done, iff.mpr path]
  rfl

/-- A constraint of elements that are not ordered adds its link and removes those that it implies. -/
theorem constrainPrec_new (ne : e0 ≠ e1) (unordered : ¬ TransGen (po.Link elements) e0 e1)
    (unordered' : ¬ TransGen (po.Link elements) e1 e0) :
    ∃ po', Returns (fun fuel => constrainPrec fuel po e0 e1) (true, po') ∧ Relinked po po' elements ∧
      Constrained (po.Link elements) (po'.Link elements) e0 e1 := by
  have consistent : ¬ ReflTransGen (po.Link elements) e1 e0 := by
    intro path
    rcases reflTransGen_iff_eq_or_transGen.mp path with same | path
    · exact ne same
    · exact unordered' path
  obtain ⟨known, searched, iff⟩ := prec_spec linked leveled inside0 e1
  have unknown : known = false := Bool.eq_false_iff.mpr fun isKnown => unordered (iff.mp isKnown)
  obtain ⟨result, collected, outcome⟩ := precCollectUspan_spec linked leveled inside1 e0
  obtain ⟨missing, uspan⟩ : result.1 = false ∧ ∀ v, v ∈ result.2 ↔ TransGen (po.Link elements) e1 v := by
    rcases outcome with ⟨_, path⟩ | ⟨missing, _, uspan⟩
    · exact absurd path unordered'
    · exact ⟨missing, uspan⟩
  have above (v : α) : v ∈ insert e1 result.2 ↔ ReflTransGen (po.Link elements) e1 v := by
    rw [mem_insert, uspan, reflTransGen_iff_eq_or_transGen]
  obtain ⟨po1, lspan, walked, removed⟩ := forPreceqRemoveSuccsInPmap_spec linked leveled inside0
    fun v mem path => consistent (((above v).mp mem).trans path)
  have succs (a : α) (inside : a ∈ elements) (b : α) : b ∈ po1.isuccs a ↔
      b ∈ po.isuccs a ∧ ¬ (ReflTransGen (po.Link elements) a e0 ∧ ReflTransGen (po.Link elements) e1 b) := by
    rw [removed.succs a inside, above]
  have new : e1 ∉ po1.isuccs e0 := fun mem => ((succs e0 inside0 e1).mp mem).2 ⟨.refl, .refl⟩
  have linked2 := prependLink_spec removed.linked inside0 inside1 new
  have constrained : Constrained (po.Link elements)
      (Link { po1 with isuccs := prepend po1.isuccs e0 e1, ipreds := prepend po1.ipreds e1 e0 } elements) e0 e1 := by
    intro a b
    simp only [Link, mem_prepend]
    constructor
    · rintro ⟨inside, both | mem⟩
      · exact .inr both
      · obtain ⟨before, kept⟩ := (succs a inside b).mp mem
        exact .inl ⟨⟨inside, before⟩, kept⟩
    · rintro (⟨⟨inside, before⟩, kept⟩ | ⟨rfl, rfl⟩)
      · exact ⟨inside, .inr ((succs a inside b).mpr ⟨before, kept⟩)⟩
      · exact ⟨inside0, .inl ⟨rfl, rfl⟩⟩
  obtain ⟨po', updated, ⟨level, isLevel⟩, leveled'⟩ := updateLevel_spec linked2 (constrained.irrefl consistent
    leveled.irrefl) inside1
    fun a b step _ notTo => by
      rcases (constrained a b).mp step with ⟨isOld, _⟩ | ⟨_, into⟩
      · exact removed.level ▸ leveled a b isOld
      · exact absurd into notTo
  have added : Returns (fun fuel => addConstraint fuel po e0 e1 result.2) (true, po') := by
    refine walked.andThen (updated.map fun po => (true, po)) fun fuel done => ?_
    rw [addConstraint, done, map_eq_bind]
    rfl
  have rest : Returns (fun fuel => constrainUnknown fuel po e0 e1) (true, po') := by
    refine collected.andThen added fun fuel done => ?_
    rw [constrainUnknown, done]
    simp only [bind_eq_bind, bind_some, missing]
    rfl
  have returns : Returns (fun fuel => constrainPrec fuel po e0 e1) (true, po') := by
    refine searched.andThen rest fun fuel done => ?_
    rw [constrainPrec, if_neg ne, done, unknown]
    rfl
  subst isLevel
  exact ⟨_, returns, ⟨removed.bot, removed.top, linked2.withLevel level, leveled'⟩, constrained⟩

end Constrain

end Culibs.Cucon.Po
