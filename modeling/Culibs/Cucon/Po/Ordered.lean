import Culibs.Cucon.Po.Runs

namespace Culibs.Cucon.Po

open DepthFirst GeneratedOrder Relation

variable {α : Type}

/-- `a` precedes `b` in the order that the links generate. -/
abbrev Prec (po : Po α) (elements : Finset α) : α → α → Prop := TransGen (po.Link elements)

abbrev PrecEq (po : Po α) (elements : Finset α) : α → α → Prop := ReflTransGen (po.Link elements)

/-- The elements are between the bounds, and their lists and levels are those of an order. -/
structure Ordered (po : Po α) (elements : Finset α) : Prop where
  linked : Linked po elements
  leveled : Leveled po elements
  from_bot : ∀ a ∈ elements, po.PrecEq elements po.bot a
  to_top : ∀ a ∈ elements, po.PrecEq elements a po.top

/-- No element is between the ends of a link. -/
def Irredundant (po : Po α) (elements : Finset α) : Prop :=
  ∀ a b, po.Link elements a b → ∀ z, ¬ (po.Prec elements a z ∧ po.Prec elements z b)

variable {po : Po α} {order : Order α} {joined : Prop}

theorem Represents.ordered [DecidableEq α]
    (rep : Represents po order joined) : Ordered po order.elements :=
  ⟨rep.linked, rep.leveled, fun _ inside => rep.from_bot inside,
    fun _ inside => rep.to_top inside⟩

theorem Represents.irredundant [DecidableEq α]
    (rep : Represents po order joined) (hasse : Hasse po order) : Irredundant po order.elements := by
  rintro a b ⟨inside, step⟩ z between
  have inside' := rep.linked.succs a inside b step
  refine ((hasse a inside b inside').mp step).2 z ?_
  exact between.imp (rep.path_iff a z).mp (rep.path_iff z b).mp

/-- A fresh partial order of two numbers. -/
def pair : Po Nat := cct2eltCct 0 1 (fun _ => []) (fun _ => []) fun _ => 0

theorem pair_ordered : Ordered pair {0, 1} := (init_represents zero_ne_one _ _ _).ordered

/-- The bottom precedes 2 and 3, which precede 4, and that precedes 5. -/
def diamond (fuel : Nat) : Option (Po Nat) := do
  let po ← insertCct fuel pair 2
  let po ← insertCct fuel po 3
  let po ← insertCct fuel po 4
  let po ← insertCct fuel po 5
  let (_, po) ← constrainPrec fuel po 2 4
  let (_, po) ← constrainPrec fuel po 3 4
  let (_, po) ← constrainPrec fuel po 4 5
  return po

/-- The order that is the result of these calls. -/
def diamondPo : Po Nat := (diamond 20).get rfl

theorem diamond_ordered : Ordered diamondPo {0, 1, 2, 3, 4, 5} := by
  have rising : ∀ a ∈ ({0, 1, 2, 3, 4, 5} : Finset Nat), ∀ b ∈ diamondPo.isuccs a,
      diamondPo.level a < diamondPo.level b := by decide
  have two : diamondPo.Link {0, 1, 2, 3, 4, 5} 0 2 := ⟨by decide, by decide⟩
  have three : diamondPo.Link {0, 1, 2, 3, 4, 5} 0 3 := ⟨by decide, by decide⟩
  have twoFour : diamondPo.Link {0, 1, 2, 3, 4, 5} 2 4 := ⟨by decide, by decide⟩
  have threeFour : diamondPo.Link {0, 1, 2, 3, 4, 5} 3 4 := ⟨by decide, by decide⟩
  have five : diamondPo.PrecEq {0, 1, 2, 3, 4, 5} 4 5 := .single ⟨by decide, by decide⟩
  have top : diamondPo.PrecEq {0, 1, 2, 3, 4, 5} 5 1 := .single ⟨by decide, by decide⟩
  have four : diamondPo.PrecEq {0, 1, 2, 3, 4, 5} 0 4 := (ReflTransGen.single two).tail twoFour
  have fourTop := five.trans top
  refine ⟨⟨by decide, by decide, by decide, by decide, by decide, by decide⟩, fun a b step => rising a step.1 b step.2,
    fun a inside => ?_, fun a inside => ?_⟩
  · simp only [Finset.mem_insert, Finset.mem_singleton] at inside
    rcases inside with rfl | rfl | rfl | rfl | rfl | rfl
    exacts [.refl, four.trans fourTop, .single two, .single three, four, four.trans five]
  · simp only [Finset.mem_insert, Finset.mem_singleton] at inside
    rcases inside with rfl | rfl | rfl | rfl | rfl | rfl
    exacts [four.trans fourTop, .refl, fourTop.head twoFour, fourTop.head threeFour, fourTop, top]

theorem diamond_irredundant : Irredundant diamondPo {0, 1, 2, 3, 4, 5} := by
  have graded : ∀ a ∈ ({0, 1, 2, 3, 4, 5} : Finset Nat), ∀ b ∈ diamondPo.isuccs a,
      diamondPo.level b = diamondPo.level a + 1 := by decide
  rintro a b ⟨inside, step⟩ z ⟨first, second⟩
  have below := diamond_ordered.leveled.lt first
  have above := diamond_ordered.leveled.lt second
  have next := graded a inside b step
  omega

variable {po : Po α} {elements : Finset α} {a b c : α}

theorem prec_of_precEq (first : po.PrecEq elements a b) (second : po.Prec elements b c) : po.Prec elements a c :=
  transGen_of_left first second

theorem prec_of_prec (first : po.Prec elements a b) (second : po.PrecEq elements b c) : po.Prec elements a c :=
  transGen_of_right first second

theorem precEq_iff : po.PrecEq elements a b ↔ a = b ∨ po.Prec elements a b :=
  reflTransGen_iff_eq_or_transGen.trans (or_congr_left eq_comm)

theorem Linked.mem_left (path : po.Prec elements a b) : a ∈ elements := by
  obtain ⟨_, step, _⟩ := TransGen.head'_iff.mp path
  exact step.1

section

variable (linked : Linked po elements)

include linked

theorem Linked.link_of_pred (inside : b ∈ elements) (pred : a ∈ po.ipreds b) : po.Link elements a b := by
  have before := linked.preds b inside a pred
  exact ⟨before, (linked.inverse a before b inside).mpr pred⟩

theorem Linked.pred_of_link (link : po.Link elements a b) : a ∈ po.ipreds b :=
  (linked.inverse a link.1 b (linked.succs a link.1 b link.2)).mp link.2

theorem Linked.up_iff (inside : a ∈ elements) : Reach po.isuccs a b ↔ po.PrecEq elements a b :=
  linked.reach_iff inside

theorem Linked.down_iff (inside : b ∈ elements) : Reach po.ipreds b a ↔ po.PrecEq elements a b :=
  linked.reach_preds_iff inside

theorem Linked.above_iff (inside : a ∈ elements) :
    (∃ c ∈ po.isuccs a, Reach po.isuccs c b) ↔ po.Prec elements a b :=
  linked.reach_succs_iff inside

theorem Linked.succ_iff (inside : a ∈ elements) :
    (∃ c ∈ po.isuccs a, po.PrecEq elements c b) ↔ po.Prec elements a b := by
  refine Iff.trans (exists_congr fun c => and_congr_right fun step => ?_) (linked.reach_succs_iff inside)
  exact (linked.reach_iff (linked.succs a inside c step)).symm

theorem Linked.pred_iff (inside : b ∈ elements) :
    (∃ c ∈ po.ipreds b, po.PrecEq elements a c) ↔ po.Prec elements a b := by
  constructor
  · rintro ⟨c, pred, path⟩
    exact .tail' path (linked.link_of_pred inside pred)
  · intro path
    obtain ⟨c, path, step⟩ := TransGen.tail'_iff.mp path
    exact ⟨c, linked.pred_of_link step, path⟩

end

theorem Leveled.not_back (leveled : Leveled po elements) (path : po.Prec elements a b) : ¬ po.PrecEq elements b a :=
  fun back => leveled.irrefl a (prec_of_prec path back)

theorem Leveled.ne (leveled : Leveled po elements) (path : po.Prec elements a b) : a ≠ b := by
  rintro rfl
  exact leveled.irrefl a path

end Culibs.Cucon.Po
