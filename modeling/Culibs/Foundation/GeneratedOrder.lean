import Mathlib.Data.Finset.Card

/-! Strict orders generated by links, and what new links do to them. -/

namespace Culibs.GeneratedOrder

open Relation Finset

variable {α : Type*} {link link' : α → α → Prop} {a b e : α}

theorem transGen_of_left (path : ReflTransGen link a b) (step : TransGen link b e) : TransGen link a e :=
  TransGen.trans_right path step

theorem transGen_of_right (path : TransGen link a b) (step : ReflTransGen link b e) : TransGen link a e :=
  TransGen.trans_left path step

/-- Every relation between the ends of a path that has no element between is a link. -/
theorem link_of_covers (path : TransGen link a b) (covers : ∀ z, ¬ (TransGen link a z ∧ TransGen link z b)) :
    link a b := by
  rcases TransGen.head'_iff.mp path with ⟨c, first, rest⟩
  rcases reflTransGen_iff_eq_or_transGen.mp rest with rfl | later
  · exact first
  · exact absurd ⟨.single first, later⟩ (covers c)

theorem acc_of_finite (members : Finset α) (closed : ∀ a b, link a b → b ∈ members) (irrefl : ∀ a, ¬ TransGen link a a)
    (a : α) : Acc (fun b a => link a b) a := by
  classical
  have smaller {a b : α} (step : link a b) :
      (members.filter (TransGen link b)).card < (members.filter (TransGen link a)).card := by
    apply card_lt_card
    refine Finset.ssubset_iff_subset_ne.mpr ⟨fun c mem => ?_, fun same => ?_⟩
    · obtain ⟨inside, path⟩ := Finset.mem_filter.mp mem
      exact mem_filter.mpr ⟨inside, .head step path⟩
    · have mem : b ∈ members.filter (TransGen link a) := mem_filter.mpr ⟨closed a b step, .single step⟩
      rw [← same] at mem
      exact irrefl b (mem_filter.mp mem).2
  exact Subrelation.accessible smaller (InvImage.accessible _ (Nat.lt_wfRel.wf.apply _))

section Constrain

variable {e0 e1 : α}

/-- The links after a constraint `e0 ≺ e1`: those from what is up to `e0` to what is from `e1` on
are removed. -/
def Constrained (link link' : α → α → Prop) (e0 e1 : α) : Prop :=
  ∀ a b, link' a b ↔ (link a b ∧ ¬ (ReflTransGen link a e0 ∧ ReflTransGen link e1 b)) ∨ (a = e0 ∧ b = e1)

namespace Constrained

variable (constrained : Constrained link link' e0 e1) (consistent : ¬ ReflTransGen link e1 e0)

include constrained consistent

theorem below (path : ReflTransGen link a e0) : ReflTransGen link' a e0 := by
  induction path using ReflTransGen.head_induction_on with
  | refl => exact .refl
  | head step rest ih =>
    refine .head ((constrained _ _).mpr (.inl ⟨step, fun removed => consistent ?_⟩)) ih
    exact removed.2.trans rest

theorem above (path : ReflTransGen link e1 b) : ReflTransGen link' e1 b := by
  induction path with
  | refl => exact .refl
  | tail rest step ih =>
    refine ih.tail ((constrained _ _).mpr (.inl ⟨step, fun removed => consistent ?_⟩))
    exact rest.trans removed.1

theorem across (low : ReflTransGen link a e0) (high : ReflTransGen link e1 b) : TransGen link' a b := by
  have step : link' e0 e1 := (constrained e0 e1).mpr (.inr ⟨rfl, rfl⟩)
  exact transGen_of_left (constrained.below consistent low)
    (transGen_of_right (.single step) (constrained.above consistent high))

theorem keeps (path : TransGen link a b) : TransGen link' a b := by
  refine TransGen.closed (fun a b step => ?_) a b path
  by_cases removed : ReflTransGen link a e0 ∧ ReflTransGen link e1 b
  · exact constrained.across consistent removed.1 removed.2
  · exact .single ((constrained a b).mpr (.inl ⟨step, removed⟩))

theorem transGen_iff : TransGen link' a b ↔ TransGen link a b ∨ (ReflTransGen link a e0 ∧ ReflTransGen link e1 b) := by
  constructor
  · intro path
    induction path with
    | single step =>
      rcases (constrained _ _).mp step with ⟨old, _⟩ | ⟨rfl, rfl⟩
      · exact .inl (.single old)
      · exact .inr ⟨.refl, .refl⟩
    | tail _ step ih =>
      rcases (constrained _ _).mp step with ⟨old, _⟩ | ⟨rfl, rfl⟩
      · exact ih.imp (·.tail old) fun both => ⟨both.1, both.2.tail old⟩
      · rcases ih with path | ⟨_, high⟩
        · exact .inr ⟨path.to_reflTransGen, .refl⟩
        · exact absurd high consistent
  · rintro (path | ⟨low, high⟩)
    · exact constrained.keeps consistent path
    · exact constrained.across consistent low high

theorem irrefl (strict : ∀ a, ¬ TransGen link a a) (a : α) : ¬ TransGen link' a a := by
  intro cycle
  rcases (constrained.transGen_iff consistent).mp cycle with old | ⟨low, high⟩
  · exact strict a old
  · exact consistent (high.trans low)

/-- There is nothing between the ends of the links after the constraint, if that was so for the
links that are kept. -/
theorem covers (strict : ∀ a, ¬ TransGen link a a) (new : ¬ TransGen link e0 e1)
    (old : ∀ a b, link a b → ¬ (ReflTransGen link a e0 ∧ ReflTransGen link e1 b) →
      ∀ z, ¬ (TransGen link a z ∧ TransGen link z b)) (step : link' a b) (z : α) :
    ¬ (TransGen link' a z ∧ TransGen link' z b) := by
  rintro ⟨first, second⟩
  rw [constrained.transGen_iff consistent] at first second
  rcases (constrained a b).mp step with ⟨isOld, kept⟩ | ⟨rfl, rfl⟩
  · rcases first with path | ⟨low, high⟩
    · rcases second with path' | ⟨low', high'⟩
      · exact old a b isOld kept z ⟨path, path'⟩
      · exact kept ⟨path.to_reflTransGen.trans low', high'⟩
    · rcases second with path' | ⟨low', high'⟩
      · exact kept ⟨low, high.trans path'.to_reflTransGen⟩
      · exact kept ⟨low, high'⟩
  · rcases first with path | ⟨_, high⟩
    · rcases second with path' | ⟨low', _⟩
      · exact new (path.trans path')
      · exact strict a (transGen_of_right path low')
    · rcases second with path' | ⟨low', _⟩
      · exact strict b (transGen_of_left high path')
      · exact consistent (high.trans low')

end Constrained

end Constrain

section Insert

variable {bot top : α}

/-- The links after an element is inserted between two others. -/
def Inserted (link link' : α → α → Prop) (bot top e : α) : Prop :=
  ∀ a b, link' a b ↔ link a b ∨ (a = bot ∧ b = e) ∨ (a = e ∧ b = top)

namespace Inserted

variable (inserted : Inserted link link' bot top e) (fresh : ∀ a, ¬ link a e ∧ ¬ link e a)

include inserted

omit fresh in
theorem keeps (path : TransGen link a b) : TransGen link' a b :=
  TransGen.mono (fun a b step => (inserted a b).mpr (.inl step)) a b path

include fresh

omit inserted in
theorem not_from (path : TransGen link e a) : False := by
  obtain ⟨b, step, _⟩ := TransGen.head'_iff.mp path
  exact (fresh b).2 step

omit inserted in
theorem not_to (path : TransGen link a e) : False := by
  obtain ⟨b, _, step⟩ := TransGen.tail'_iff.mp path
  exact (fresh b).1 step

section

variable (strict : ∀ a, ¬ TransGen link a a) (bounds : TransGen link bot top)

include strict bounds

theorem transGen_iff :
    TransGen link' a b ↔ TransGen link a b ∨ (ReflTransGen link a bot ∧ b = e) ∨ (a = e ∧ ReflTransGen link top b) := by
  constructor
  · intro path
    induction path with
    | single step =>
      rcases (inserted _ _).mp step with old | ⟨rfl, rfl⟩ | ⟨rfl, rfl⟩
      · exact .inl (.single old)
      · exact .inr (.inl ⟨.refl, rfl⟩)
      · exact .inr (.inr ⟨rfl, .refl⟩)
    | tail _ step ih =>
      rcases (inserted _ _).mp step with old | ⟨rfl, rfl⟩ | ⟨rfl, rfl⟩
      · rcases ih with path | ⟨_, rfl⟩ | ⟨same, high⟩
        · exact .inl (path.tail old)
        · exact absurd old (fresh _).2
        · exact .inr (.inr ⟨same, high.tail old⟩)
      · rcases ih with path | ⟨low, same⟩ | ⟨same, high⟩
        · exact .inr (.inl ⟨path.to_reflTransGen, rfl⟩)
        · exact .inr (.inl ⟨low, rfl⟩)
        · exact absurd (transGen_of_right bounds high) (strict _)
      · rcases ih with path | ⟨low, _⟩ | ⟨same, high⟩
        · exact (not_to fresh path).elim
        · exact .inl (transGen_of_left low bounds)
        · exact .inr (.inr ⟨same, .refl⟩)
  · rintro (path | ⟨low, rfl⟩ | ⟨rfl, high⟩)
    · exact inserted.keeps path
    · have last : link' bot b := (inserted _ _).mpr (.inr (.inl ⟨rfl, rfl⟩))
      exact .tail' (ReflTransGen.mono (fun a b step => (inserted a b).mpr (.inl step)) a bot low) last
    · have first : link' a top := (inserted _ _).mpr (.inr (.inr ⟨rfl, rfl⟩))
      exact .head' first (ReflTransGen.mono (fun a b step => (inserted a b).mpr (.inl step)) top b high)

theorem irrefl (a : α) : ¬ TransGen link' a a := by
  intro cycle
  rcases (inserted.transGen_iff fresh strict bounds).mp cycle with old | ⟨low, rfl⟩ | ⟨rfl, high⟩
  · exact strict a old
  · exact not_from fresh (transGen_of_left low bounds)
  · exact not_to fresh (transGen_of_right bounds high)

/-- There is nothing between the ends of the links after the insertion, if that was so for all but
the one that is bridged. -/
theorem covers (old : ∀ a b, link a b → ¬ (a = bot ∧ b = top) → ∀ z, ¬ (TransGen link a z ∧ TransGen link z b))
    (step : link' a b) (other : ¬ (a = bot ∧ b = top)) (z : α) :
    ¬ (TransGen link' a z ∧ TransGen link' z b) := by
  rintro ⟨first, second⟩
  rw [inserted.transGen_iff fresh strict bounds] at first second
  rcases (inserted a b).mp step with isOld | ⟨rfl, rfl⟩ | ⟨rfl, rfl⟩
  · have nothing := old a b isOld other
    rcases first with path | ⟨low, rfl⟩ | ⟨rfl, _⟩
    · rcases second with path' | ⟨_, rfl⟩ | ⟨rfl, _⟩
      · exact nothing z ⟨path, path'⟩
      · exact (fresh _).1 isOld
      · exact not_to fresh path
    · rcases second with path' | ⟨_, rfl⟩ | ⟨_, high⟩
      · exact not_from fresh path'
      · exact (fresh _).1 isOld
      -- The ends are around both bounds, and one of these is between them.
      · rcases reflTransGen_iff_eq_or_transGen.mp low with rfl | below
        · rcases reflTransGen_iff_eq_or_transGen.mp high with rfl | above
          · exact other ⟨rfl, rfl⟩
          · exact nothing top ⟨bounds, above⟩
        · exact nothing bot ⟨below, transGen_of_right bounds high⟩
    · exact (fresh _).2 isOld
  · rcases second with path' | ⟨low', _⟩ | ⟨rfl, high⟩
    · exact not_to fresh path'
    · rcases first with path | ⟨_, rfl⟩ | ⟨rfl, _⟩
      · exact strict _ (transGen_of_right path low')
      · exact not_from fresh (transGen_of_left low' bounds)
      · exact not_from fresh bounds
    · exact not_to fresh (transGen_of_right bounds high)
  · rcases first with path | ⟨low, rfl⟩ | ⟨_, high⟩
    · exact not_from fresh path
    · exact not_from fresh (transGen_of_left low bounds)
    · rcases second with path' | ⟨_, rfl⟩ | ⟨rfl, _⟩
      · exact strict _ (transGen_of_left high path')
      · exact not_to fresh bounds
      · exact not_to fresh (transGen_of_right bounds high)

end

end Inserted

end Insert

end Culibs.GeneratedOrder
