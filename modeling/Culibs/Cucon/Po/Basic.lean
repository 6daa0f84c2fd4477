import Culibs.Foundation.DepthFirst
import Culibs.Foundation.GeneratedOrder

/-! Strict partial orders that grow by elements and constraints, `cucon/po.c`. Levels and counters are not taken
modulo the range of their types, and assertions are left out. -/

namespace Culibs.Cucon

open DepthFirst Function

variable {α : Type} [DecidableEq α]

/-- A partial order and the fields of all elements, those that have not been inserted included. -/
structure Po (α : Type) where
  bot : α
  top : α
  isuccs : α → List α
  ipreds : α → List α
  level : α → Nat

namespace Po

/-- `cucon_list_prepend_ptr(&a->isuccs, b)`, or the same of `ipreds` -/
def prepend (lists : α → List α) (a b : α) : α → List α := update lists a (b :: lists a)

def cct2eltCct (bot top : α) (isuccs ipreds : α → List α) (level : α → Nat) : Po α :=
  { bot, top
    level := update (update level bot 0) top 1
    isuccs := update (prepend (update isuccs bot []) bot top) top []
    ipreds := prepend (update (update ipreds bot []) top []) top bot }

/-- The first loop takes the greatest level of the immediate predecessors. The second one and
`_po_update_level_to`, which it calls, are `raise`. -/
def updateLevel (fuel : Nat) (po : Po α) (e : α) : Option (Po α) :=
  let level := (po.ipreds e).foldl (fun level pred => if po.level pred > level then po.level pred else level) 0
  let level := level + 1
  (raise po.isuccs fuel (po.isuccs e) (level + 1) (update po.level e level)).map fun levels =>
    { po with level := levels }

/-- `cucon_po_insert_cct`, which is also called for new memory by `cucon_po_insert_mem` and
`cucon_po_insert_ptr`. -/
def insertCct (fuel : Nat) (po : Po α) (e : α) : Option (Po α) :=
  let ipreds := prepend (update po.ipreds e []) e po.bot
  let isuccs := prepend (update po.isuccs e []) e po.top
  updateLevel fuel { po with isuccs := prepend isuccs po.bot e, ipreds := prepend ipreds po.top e } e

/-- `_po_prec_collect_uspan` -/
def precCollectUspan (fuel : Nat) (po : Po α) (e0 e1 : α) (uspan0 : Finset α) : Option (Bool × Finset α) :=
  search po.isuccs (fun _ => false) e1 fuel (po.isuccs e0) uspan0

/-- `cucon_po_prec`. An element is left without a search if its level is not below that of `e1`. -/
def prec (fuel : Nat) (po : Po α) (e0 e1 : α) : Option Bool :=
  if po.level e0 ≥ po.level e1 then some false
  else (search po.isuccs (fun e => po.level e ≥ po.level e1) e1 fuel (po.isuccs e0) ∅).map Prod.fst

/-- The first loop of `_po_for_preceq_remove_succs_in_pmap`, on the rest of the immediate successors. -/
def removeSuccs (rm : Finset α) (e : α) : List α → Po α → Po α
  | [], po => po
  | succ :: rest, po => removeSuccs rm e rest <|
    if succ ∈ rm then
      { po with
        ipreds := update po.ipreds succ ((po.ipreds succ).erase e)
        isuccs := update po.isuccs e ((po.isuccs e).erase succ) }
    else po

def removeSuccsInPmap (rm : Finset α) (e : α) (po : Po α) : Po α := removeSuccs rm e (po.isuccs e) po

/-- `_po_for_preceq_remove_succs_in_pmap` -/
def forPreceqRemoveSuccsInPmap (fuel : Nat) (po : Po α) (e : α) (rm lspan : Finset α) : Option (Po α × Finset α) :=
  let po := removeSuccsInPmap rm e po
  walk ipreds (removeSuccsInPmap rm) fuel (po.ipreds e) po lspan

/-- The end of `cucon_po_constrain_prec`, for elements that are not ordered. -/
def addConstraint (fuel : Nat) (po : Po α) (e0 e1 : α) (uspan1 : Finset α) : Option (Bool × Po α) := do
  let (po, _) ← forPreceqRemoveSuccsInPmap fuel po e0 (insert e1 uspan1) ∅
  let po ← updateLevel fuel { po with isuccs := prepend po.isuccs e0 e1, ipreds := prepend po.ipreds e1 e0 } e1
  return (true, po)

/-- The part of `cucon_po_constrain_prec` after `cucon_po_prec`. -/
def constrainUnknown (fuel : Nat) (po : Po α) (e0 e1 : α) : Option (Bool × Po α) := do
  let (found, uspan1) ← precCollectUspan fuel po e1 e0 ∅
  if found then return (false, po) else addConstraint fuel po e0 e1 uspan1

def constrainPrec (fuel : Nat) (po : Po α) (e0 e1 : α) : Option (Bool × Po α) :=
  if e0 = e1 then some (false, po)
  else do
    let known ← prec fuel po e0 e1
    if known then return (true, po) else constrainUnknown fuel po e0 e1

end Po

end Culibs.Cucon

namespace Culibs.Cucon.Po

open DepthFirst GeneratedOrder Relation Function

variable {α : Type} [DecidableEq α] {po po' : Po α} {elements : Finset α} {a b e : α}

/-- The lists of the elements have elements, none twice, and are inverse to each other. -/
structure Linked (po : Po α) (elements : Finset α) : Prop where
  bot : po.bot ∈ elements
  top : po.top ∈ elements
  succs : ∀ a ∈ elements, ∀ b ∈ po.isuccs a, b ∈ elements
  preds : ∀ b ∈ elements, ∀ a ∈ po.ipreds b, a ∈ elements
  inverse : ∀ a ∈ elements, ∀ b ∈ elements, b ∈ po.isuccs a ↔ a ∈ po.ipreds b
  nodup : ∀ a ∈ elements, (po.isuccs a).Nodup ∧ (po.ipreds a).Nodup

def Link (po : Po α) (elements : Finset α) (a b : α) : Prop := a ∈ elements ∧ b ∈ po.isuccs a

/-- The level increases along the links. -/
def Leveled (po : Po α) (elements : Finset α) : Prop := ∀ a b, po.Link elements a b → po.level a < po.level b

omit [DecidableEq α] in
theorem Leveled.lt (leveled : Leveled po elements) (path : TransGen (po.Link elements) a b) : po.level a < po.level b := by
  induction path with
  | single step => exact leveled _ _ step
  | tail _ step ih => exact lt_trans ih (leveled _ _ step)

omit [DecidableEq α] in
theorem Leveled.irrefl (leveled : Leveled po elements) (a : α) : ¬ TransGen (po.Link elements) a a :=
  fun cycle => lt_irrefl _ (leveled.lt cycle)

section Graph

omit [DecidableEq α]

variable (linked : Linked po elements)

include linked

theorem Linked.mem_of_path (path : ReflTransGen (po.Link elements) a b) (inside : a ∈ elements) : b ∈ elements := by
  induction path with
  | refl => exact inside
  | tail _ step _ => exact linked.succs _ step.1 _ step.2

omit linked in
theorem mem_of_path_to (path : ReflTransGen (po.Link elements) a b) (inside : b ∈ elements) : a ∈ elements := by
  rcases path.cases_head with rfl | ⟨_, step, _⟩
  · exact inside
  · exact step.1

theorem Linked.reach_iff (inside : a ∈ elements) : Reach po.isuccs a b ↔ ReflTransGen (po.Link elements) a b := by
  constructor
  · intro reach
    induction reach with
    | refl => exact .refl
    | tail _ step ih => exact ih.tail ⟨linked.mem_of_path ih inside, step⟩
  · intro path
    exact ReflTransGen.mono (fun _ _ step => step.2) a b path

theorem Linked.reach_succs_iff (inside : a ∈ elements) :
    (∃ c ∈ po.isuccs a, Reach po.isuccs c b) ↔ TransGen (po.Link elements) a b := by
  constructor
  · rintro ⟨c, step, reach⟩
    exact .head' ⟨inside, step⟩ ((linked.reach_iff (linked.succs a inside c step)).mp reach)
  · intro path
    obtain ⟨c, step, rest⟩ := TransGen.head'_iff.mp path
    exact ⟨c, step.2, (linked.reach_iff (linked.succs a inside c step.2)).mpr rest⟩

theorem Linked.reach_preds_iff (inside : b ∈ elements) : Reach po.ipreds b a ↔ ReflTransGen (po.Link elements) a b := by
  constructor
  · intro reach
    induction reach with
    | refl => exact .refl
    | tail _ step ih =>
      have mem := mem_of_path_to ih inside
      have before := linked.preds _ mem _ step
      exact .head ⟨before, (linked.inverse _ before _ mem).mpr step⟩ ih
  · intro path
    induction path using ReflTransGen.head_induction_on with
    | refl => exact .refl po.ipreds b
    | head step rest ih =>
      have after := mem_of_path_to rest inside
      exact ReflTransGen.tail ih ((linked.inverse _ step.1 _ after).mp step.2)

theorem Linked.grounded_succs (irrefl : ∀ a, ¬ TransGen (po.Link elements) a a) (inside : a ∈ elements) :
    Grounded po.isuccs a := by
  have paths : Acc (fun b a => po.Link elements a b) a :=
    acc_of_finite elements (fun a b step => linked.succs a step.1 b step.2) irrefl a
  induction paths with
  | intro a _ ih => exact Acc.intro a fun b step => ih b ⟨inside, step⟩ (linked.succs a inside b step)

theorem Linked.grounded_preds (leveled : Leveled po elements) (inside : a ∈ elements) : Grounded po.ipreds a := by
  induction level : po.level a using Nat.strong_induction_on generalizing a with
  | _ level ih =>
    refine Acc.intro a fun b step => ?_
    have before := linked.preds a inside b step
    have lower := leveled b a ⟨before, (linked.inverse b before a inside).mpr step⟩
    exact ih (po.level b) (level ▸ lower) before rfl

end Graph

section Searches

variable (linked : Linked po elements) (leveled : Leveled po elements) {e0 e1 : α} (inside0 : e0 ∈ elements)

include linked leveled inside0

theorem prec_spec (e1 : α) : ∃ found, Returns (fun fuel => prec fuel po e0 e1) found ∧
    (found = true ↔ TransGen (po.Link elements) e0 e1) := by
  by_cases low : po.level e0 ≥ po.level e1
  · refine ⟨false, (Returns.const false).congr fun _ => if_pos low, ?_⟩
    constructor
    · intro impossible
      cases impossible
    · intro path
      exact absurd (leveled.lt path) (Nat.not_lt_of_le low)
  · have skipped : ∀ a, a ∈ elements → decide (po.level a ≥ po.level e1) = true → a ≠ e1 → ¬ Reach po.isuccs a e1 := by
      intro a inside high ne reach
      have path := (linked.reach_iff inside).mp reach
      rcases reflTransGen_iff_eq_or_transGen.mp path with same | path
      · exact ne same.symm
      · exact Nat.not_lt_of_le (of_decide_eq_true high) (leveled.lt path)
    obtain ⟨result, returns, searched⟩ := search_spec linked.succs skipped
      (fun a step => linked.grounded_succs leveled.irrefl (linked.succs e0 inside0 a step)) (linked.succs e0 inside0)
      (.empty po.isuccs (fun e => po.level e ≥ po.level e1) _ _)
    refine ⟨result.1, (returns.map Prod.fst).congr fun _ => if_neg low, ?_⟩
    rw [← linked.reach_succs_iff inside0]
    rcases searched with ⟨found, path⟩ | ⟨missing, _, _, explored⟩
    · exact ⟨fun _ => path, fun _ => found⟩
    · constructor
      · intro found
        rw [missing] at found
        cases found
      · rintro ⟨c, step, reach⟩
        exact absurd rfl (explored c step e1 reach).1

/-- `_po_prec_collect_uspan` finds `e1` or collects all that is above `e0`. -/
theorem precCollectUspan_spec (e1 : α) : ∃ result, Returns (fun fuel => precCollectUspan fuel po e0 e1 ∅) result ∧
    (result.1 = true ∧ TransGen (po.Link elements) e0 e1 ∨
      result.1 = false ∧ ¬ TransGen (po.Link elements) e0 e1 ∧
        ∀ v, v ∈ result.2 ↔ TransGen (po.Link elements) e0 v) := by
  have skipped : ∀ a, a ∈ elements → false = true → a ≠ e1 → ¬ Reach po.isuccs a e1 := by
    intro _ _ impossible
    cases impossible
  obtain ⟨result, returns, searched⟩ := search_spec linked.succs skipped
    (fun a step => linked.grounded_succs leveled.irrefl (linked.succs e0 inside0 a step)) (linked.succs e0 inside0)
    (.empty po.isuccs (fun _ => false) _ _)
  refine ⟨result, returns, ?_⟩
  simp only [← linked.reach_succs_iff inside0]
  rcases searched with ⟨found, path⟩ | ⟨missing, _, new, explored⟩
  · exact .inl ⟨found, path⟩
  · refine .inr ⟨missing, ?_, fun v => ⟨fun mem => ?_, ?_⟩⟩
    · rintro ⟨c, step, reach⟩
      exact (explored c step e1 reach).1 rfl
    · exact (new v mem).resolve_left (Finset.notMem_empty v)
    · rintro ⟨c, step, reach⟩
      exact (explored c step v reach).2 fun _ => rfl

end Searches

section Levels

omit [DecidableEq α] in
private theorem le_foldl_level (level : α → Nat) (list : List α) (start : Nat) :
    start ≤ list.foldl (fun l pred => if level pred > l then level pred else l) start ∧
      ∀ a ∈ list, level a ≤ list.foldl (fun l pred => if level pred > l then level pred else l) start := by
  induction list generalizing start with
  | nil => exact ⟨le_refl start, by simp⟩
  | cons a rest ih =>
    obtain ⟨grows, above⟩ := ih (if level a > start then level a else start)
    refine ⟨le_trans ?_ grows, fun b mem => ?_⟩
    · split <;> omega
    · rcases List.mem_cons.mp mem with rfl | later
      · refine le_trans ?_ grows
        split <;> omega
      · exact above b later

theorem updateLevel_spec (linked : Linked po elements) (irrefl : ∀ a, ¬ TransGen (po.Link elements) a a)
    (inside : e ∈ elements) (others : ∀ a b, po.Link elements a b → a ≠ e → b ≠ e → po.level a < po.level b) :
    ∃ po', Returns (fun fuel => updateLevel fuel po e) po' ∧ (∃ level, po' = { po with level }) ∧ Leveled po' elements := by
  obtain ⟨_, above⟩ := le_foldl_level po.level (po.ipreds e) 0
  revert above
  generalize isGreatest : (po.ipreds e).foldl (fun l pred => if po.level pred > l then po.level pred else l) 0 = greatest
  intro above
  have grounded : ∀ a ∈ po.isuccs e, Grounded po.isuccs a := fun a step =>
    linked.grounded_succs irrefl (linked.succs e inside a step)
  obtain ⟨levels, returns, raises, high, changed⟩ := raise_spec grounded (greatest + 1 + 1)
    (update po.level e (greatest + 1))
  have here : levels e = greatest + 1 := by
    by_contra moved
    obtain ⟨b, step, reach⟩ := changed e (by rwa [update_self])
    exact (linked.grounded_succs irrefl inside).acyclic step reach
  refine ⟨_, (returns.map fun levels => { po with level := levels }).congr fun fuel => ?_, ⟨levels, rfl⟩,
    fun a b step => ?_⟩
  · rw [updateLevel, isGreatest]
  change levels a < levels b
  by_cases from' : a = e
  · rw [from', here]
    exact high b (from' ▸ step.2)
  · refine raises.2 a b step.2 (.inl ?_)
    rw [update_of_ne from', update_apply]
    split
    · next into =>
      have isPred := (linked.inverse a step.1 e inside).mp (into ▸ step.2)
      exact Nat.lt_succ_of_le (above a isPred)
    · next other => exact others a b step from' other

end Levels

end Culibs.Cucon.Po
