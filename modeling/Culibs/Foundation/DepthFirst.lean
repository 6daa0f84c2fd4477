import Culibs.Foundation.Fuel
import Mathlib.Data.Finset.Basic

/-! Depth-first searches of acyclic graphs that are given by the successors of each node. -/

namespace Culibs.DepthFirst

open Relation Function List Finset Option

variable {α : Type*}

/-- A path of any length. -/
def Reach (next : α → List α) : α → α → Prop := ReflTransGen fun a b => b ∈ next a

/-- Only finitely long paths start at a node. -/
def Grounded (next : α → List α) : α → Prop := Acc fun b a => b ∈ next a

section Search

variable [DecidableEq α]

/-- Search for a node from those of a list on. The set has the nodes that have been seen, and the
successors of some nodes are skipped. -/
def search (next : α → List α) (skip : α → Bool) (target : α) : Nat → List α → Finset α → Option (Bool × Finset α)
  | 0, _, _ => none
  | _ + 1, [], seen => some (false, seen)
  | fuel + 1, a :: rest, seen =>
    if a = target then some (true, seen)
    else if a ∈ seen then search next skip target fuel rest seen
    else
      (if skip a then some (false, insert a seen) else search next skip target fuel (next a) (insert a seen)).bind
        fun result => if result.1 then some result else search next skip target fuel rest result.2

/-- Visit all nodes that are reachable from those of a list and have not been seen. -/
def walk {σ : Type*} (next : σ → α → List α) (enter : α → σ → σ) : Nat → List α → σ → Finset α → Option (σ × Finset α)
  | 0, _, _, _ => none
  | _ + 1, [], state, seen => some (state, seen)
  | fuel + 1, a :: rest, state, seen =>
    if a ∈ seen then walk next enter fuel rest state seen
    else
      (walk next enter fuel (next (enter a state) a) (enter a state) (insert a seen)).bind
        fun result => walk next enter fuel rest result.1 result.2

/-- Raise the levels of the nodes of a list, and of those after them, where they are too low. -/
def raise (next : α → List α) : Nat → List α → Nat → (α → Nat) → Option (α → Nat)
  | 0, _, _, _ => none
  | _ + 1, [], _, levels => some levels
  | fuel + 1, a :: rest, level, levels =>
    if levels a < level then
      (raise next fuel (next a) (level + 1) (update levels a level)).bind
        fun levels => raise next fuel rest level levels
    else raise next fuel rest level levels

end Search

variable {next : α → List α} {a b c : α}

theorem Reach.refl (next : α → List α) (a : α) : Reach next a a := ReflTransGen.refl

theorem Reach.head (link : b ∈ next a) (reach : Reach next b c) : Reach next a c := ReflTransGen.head link reach

theorem Reach.trans (reach : Reach next a b) (reach' : Reach next b c) : Reach next a c := ReflTransGen.trans reach reach'

theorem Reach.cases_head (reach : Reach next a c) : a = c ∨ ∃ b ∈ next a, Reach next b c :=
  ReflTransGen.cases_head reach

theorem Grounded.after (grounded : Grounded next a) (link : b ∈ next a) : Grounded next b :=
  Acc.inv grounded link

theorem Grounded.reach (grounded : Grounded next a) (reach : Reach next a b) : Grounded next b := by
  induction reach with
  | refl => exact grounded
  | tail _ link ih => exact ih.after link

theorem Grounded.acyclic (grounded : Grounded next a) (link : b ∈ next a) : ¬ Reach next b a := by
  induction grounded generalizing b with
  | intro a _ ih =>
    intro reach
    rcases reach.cases_head with rfl | ⟨c, link', reach'⟩
    · exact ih b link link (.refl next b)
    · exact ih b link link' (reach'.trans (.head link (.refl next b)))

variable {list : List α}

/-- A property of all finite lists of nodes, from the lists of the successors of their nodes. -/
theorem Grounded.list_induction {P : List α → Prop} (nil : P [])
    (cons : ∀ a rest, Grounded next a → P (next a) → P rest → P (a :: rest))
    (grounded : ∀ a ∈ list, Grounded next a) : P list := by
  have lists {list : List α} (each : ∀ a ∈ list, Grounded next a ∧ P (next a)) : P list := by
    induction list with
    | nil => exact nil
    | cons a rest ih =>
      obtain ⟨first, later⟩ := forall_mem_cons.mp each
      exact cons a rest first.1 first.2 (ih later)
  have nodes {a : α} (grounded : Grounded next a) : P (next a) := by
    induction grounded with
    | intro a before ih => exact lists fun b link => ⟨before b link, ih b link⟩
  exact lists fun a mem => ⟨grounded a mem, nodes (grounded a mem)⟩

section Searches

variable {skip : α → Bool} {goal : α → Prop}

/-- There is no goal after a node, and nothing is left to see there unless some nodes are skipped. -/
def Explored (next : α → List α) (skip : α → Bool) (goal : α → Prop) (seen : Finset α) (a : α) : Prop :=
  ∀ b, Reach next a b → ¬ goal b ∧ ((∀ c, skip c = false) → b ∈ seen)

/-- The nodes that are both seen and ahead have been explored. -/
def Ahead (next : α → List α) (skip : α → Bool) (goal : α → Prop) (list : List α) (seen : Finset α) : Prop :=
  ∀ v ∈ seen, ∀ a ∈ list, Reach next a v → Explored next skip goal seen v

/-- All nodes of a list have been explored. -/
def Explores (next : α → List α) (skip : α → Bool) (goal : α → Prop) (list : List α) (seen seen' : Finset α) : Prop :=
  seen ⊆ seen' ∧ (∀ v ∈ seen', v ∈ seen ∨ ∃ a ∈ list, Reach next a v) ∧ ∀ a ∈ list, Explored next skip goal seen' a

variable {seen seen' seen1 : Finset α} {rest : List α}

theorem Explored.mono (explored : Explored next skip goal seen a) (grows : seen ⊆ seen') :
    Explored next skip goal seen' a :=
  fun b reach => ⟨(explored b reach).1, fun never => grows ((explored b reach).2 never)⟩

theorem Explored.reach (explored : Explored next skip goal seen a) (reach : Reach next a b) :
    Explored next skip goal seen b :=
  fun c further => explored c (reach.trans further)

theorem Explored.node (mem : a ∈ seen) (ne : ¬ goal a)
    (after : ∀ b ∈ next a, Explored next skip goal seen b) : Explored next skip goal seen a := by
  intro b reach
  rcases reach.cases_head with rfl | ⟨c, link, reach⟩
  · exact ⟨ne, fun _ => mem⟩
  · exact after c link b reach

theorem Explores.nil (next : α → List α) (skip : α → Bool) (goal : α → Prop) (seen : Finset α) :
    Explores next skip goal [] seen seen :=
  ⟨subset_rfl, fun _ mem => .inl mem, fun _ mem => by cases mem⟩

/-- What one node of a list does: it and what is seen with it has been explored. -/
def ExploresNode (next : α → List α) (skip : α → Bool) (goal : α → Prop) (a : α) (seen seen' : Finset α) : Prop :=
  seen ⊆ seen' ∧ (∀ v ∈ seen', v ∈ seen ∨ Reach next a v) ∧ Explored next skip goal seen' a

theorem ExploresNode.cons (node : ExploresNode next skip goal a seen seen1)
    (explores : Explores next skip goal rest seen1 seen') : Explores next skip goal (a :: rest) seen seen' := by
  obtain ⟨grows, new, explored⟩ := node
  obtain ⟨grows', new', explored'⟩ := explores
  refine ⟨grows.trans grows', fun v mem => ?_, fun b mem => ?_⟩
  · rcases new' v mem with before | ⟨b, inRest, reach⟩
    · rcases new v before with already | reach
      · exact .inl already
      · exact .inr ⟨a, .head _, reach⟩
    · exact .inr ⟨b, mem_cons_of_mem a inRest, reach⟩
  · rcases mem_cons.mp mem with rfl | inRest
    · exact explored.mono grows'
    · exact explored' b inRest

theorem ExploresNode.ahead (node : ExploresNode next skip goal a seen seen1) (ahead : Ahead next skip goal (a :: rest) seen) :
    Ahead next skip goal rest seen1 := by
  obtain ⟨grows, new, explored⟩ := node
  intro v mem b inRest reach
  rcases new v mem with before | fromFirst
  · exact (ahead v before b (mem_cons_of_mem a inRest) reach).mono grows
  · exact explored.reach fromFirst

theorem Ahead.empty (next : α → List α) (skip : α → Bool) (goal : α → Prop) (list : List α) :
    Ahead next skip goal list ∅ :=
  fun v mem => absurd mem (notMem_empty v)

theorem Ahead.seenNode (ahead : Ahead next skip goal (a :: rest) seen) (isSeen : a ∈ seen) :
    ExploresNode next skip goal a seen seen :=
  ⟨subset_rfl, fun _ mem => .inl mem, ahead a isSeen a mem_cons_self (.refl next a)⟩

variable [DecidableEq α]

/-- A node that is seen before its successors cannot be reached from them. -/
theorem Ahead.inside (ahead : Ahead next skip goal (a :: rest) seen) (grounded : Grounded next a) :
    Ahead next skip goal (next a) (insert a seen) := by
  intro v mem b link reach
  rcases mem_insert.mp mem with rfl | before
  · exact absurd reach (grounded.acyclic link)
  · exact (ahead v before a mem_cons_self (.head link reach)).mono (subset_insert a seen)

theorem Explores.node (explores : Explores next skip goal (next a) (insert a seen) seen1) (ne : ¬ goal a) :
    ExploresNode next skip goal a seen seen1 := by
  obtain ⟨grows, new, explored⟩ := explores
  refine ⟨(subset_insert a seen).trans grows, fun v mem => ?_,
    .node (grows (mem_insert_self a seen)) ne explored⟩
  rcases new v mem with before | ⟨b, link, reach⟩
  · rcases mem_insert.mp before with rfl | before
    · exact .inr (.refl next v)
    · exact .inl before
  · exact .inr (.head link reach)

variable {target : α}

/-- The target has been found or all nodes of a list have been explored. -/
def Searched (next : α → List α) (skip : α → Bool) (target : α) (list : List α) (seen : Finset α)
    (result : Bool × Finset α) : Prop :=
  (result.1 = true ∧ ∃ a ∈ list, Reach next a target) ∨
    (result.1 = false ∧ Explores next skip (· = target) list seen result.2)

omit [DecidableEq α] in
theorem ExploresNode.searched (node : ExploresNode next skip (· = target) a seen seen1)
    (searched : Searched next skip target rest seen1 result) : Searched next skip target (a :: rest) seen result := by
  rcases searched with ⟨found, b, mem, reach⟩ | ⟨missing, explores⟩
  · exact .inl ⟨found, b, mem_cons_of_mem a mem, reach⟩
  · exact .inr ⟨missing, node.cons explores⟩

theorem search_spec {low : α → Prop} (closed : ∀ a, low a → ∀ b ∈ next a, low b)
    (skipped : ∀ a, low a → skip a = true → a ≠ target → ¬ Reach next a target)
    (grounded : ∀ a ∈ list, Grounded next a) (inside : ∀ a ∈ list, low a)
    (ahead : Ahead next skip (· = target) list seen) :
    ∃ result, Returns (fun fuel => search next skip target fuel list seen) result ∧
      Searched next skip target list seen result := by
  refine Grounded.list_induction (P := fun list => (∀ a ∈ list, low a) → ∀ seen, Ahead next skip (· = target) list seen →
    ∃ result, Returns (fun fuel => search next skip target fuel list seen) result ∧
      Searched next skip target list seen result) ?_ ?_ grounded inside seen ahead
  · intro _ seen _
    exact ⟨_, .step (.const (false, seen)), .inr ⟨rfl, .nil next skip _ seen⟩⟩
  intro a rest grounded ihNext ihRest inside seen ahead
  obtain ⟨isLow, restLow⟩ := forall_mem_cons.mp inside
  by_cases isTarget : a = target
  · refine ⟨(true, seen), .step ?_, .inl ⟨rfl, a, .head _, isTarget ▸ .refl next a⟩⟩
    exact (Returns.const _).congr fun _ => if_pos isTarget
  by_cases isSeen : a ∈ seen
  · have node := ahead.seenNode isSeen
    obtain ⟨result, returns, searched⟩ := ihRest restLow seen (node.ahead ahead)
    refine ⟨result, .step (returns.congr fun _ => ?_), node.searched searched⟩
    exact (if_neg isTarget).trans (if_pos isSeen)
  by_cases isSkipped : skip a = true
  · have node : ExploresNode next skip (· = target) a seen (insert a seen) := by
      refine ⟨subset_insert a seen, fun v mem => ?_, fun b reach => ⟨fun same => ?_, fun never => ?_⟩⟩
      · exact (mem_insert.mp mem).elim (fun same => .inr (same ▸ .refl next a)) .inl
      · exact skipped a isLow isSkipped isTarget (same ▸ reach)
      · rw [never a] at isSkipped
        cases isSkipped
    obtain ⟨result, returns, searched⟩ := ihRest restLow _ (node.ahead ahead)
    refine ⟨result, .step (returns.congr fun fuel => ?_), node.searched searched⟩
    simp only [search, if_neg isTarget, if_neg isSeen, if_pos isSkipped, bind_some]
    rfl
  obtain ⟨result1, returns1, searched1⟩ := ihNext (closed a isLow) _ (ahead.inside grounded)
  rcases searched1 with ⟨found, b, link, reach⟩ | ⟨missing, explores⟩
  · refine ⟨result1, .step (returns1.andThen (.const result1) fun fuel done => ?_), .inl ⟨found, a, .head _,
      .head link reach⟩⟩
    simp only [search, if_neg isTarget, if_neg isSeen, if_neg isSkipped, done, bind_some, if_pos found]
  · have node := explores.node isTarget
    obtain ⟨result, returns, searched⟩ := ihRest restLow _ (node.ahead ahead)
    refine ⟨result, .step (returns1.andThen returns fun fuel done => ?_), node.searched searched⟩
    simp only [search, if_neg isTarget, if_neg isSeen, if_neg isSkipped, done, bind_some, missing]
    rfl

section Walk

/-- The nodes that a walk enters, in their order. -/
structure Visits (next : α → List α) (list : List α) (seen seen' : Finset α) (order : List α) : Prop where
  members : ∀ v, v ∈ seen' ↔ v ∈ seen ∨ v ∈ order
  fresh : ∀ v ∈ order, v ∉ seen
  nodup : order.Nodup
  explores : Explores next (fun _ => false) (fun _ => False) list seen seen'

omit [DecidableEq α] in
theorem Visits.nil (next : α → List α) (seen : Finset α) : Visits next [] seen seen [] :=
  ⟨by simp, by simp, nodup_nil, .nil next _ _ seen⟩

variable {order : List α}

omit [DecidableEq α] in
theorem Visits.already (visits : Visits next rest seen seen' order)
    (node : ExploresNode next (fun _ => false) (fun _ => False) a seen seen) : Visits next (a :: rest) seen seen' order :=
  ⟨visits.members, visits.fresh, visits.nodup, node.cons visits.explores⟩

theorem Visits.cons (visits : Visits next (next a) (insert a seen) seen1 order)
    (visits' : Visits next rest seen1 seen' order') (isNew : a ∉ seen) :
    Visits next (a :: rest) seen seen' (a :: (order ++ order')) := by
  have node := visits.explores.node (fun goal : False => goal)
  refine ⟨fun v => ?_, fun v mem => ?_, nodup_cons.mpr ⟨fun later => ?_, ?_⟩, node.cons visits'.explores⟩
  · rw [visits'.members, visits.members, mem_insert, List.mem_cons, mem_append]
    tauto
  · rcases mem_cons.mp mem with rfl | later
    · exact isNew
    · rcases mem_append.mp later with first | second
      · exact fun before => visits.fresh v first (mem_insert_of_mem before)
      · exact fun before => visits'.fresh v second (node.1 before)
  · rcases mem_append.mp later with first | second
    · exact visits.fresh a first (mem_insert_self a seen)
    · exact visits'.fresh a second (visits.explores.1 (mem_insert_self a seen))
  · refine nodup_append.mpr ⟨visits.nodup, visits'.nodup, ?_⟩
    rintro v first w second rfl
    exact visits'.fresh v second ((visits.members v).mpr (.inr first))

omit [DecidableEq α] in
theorem Visits.mem_order (visits : Visits next list ∅ seen' order) (v : α) :
    v ∈ order ↔ ∃ a ∈ list, Reach next a v := by
  have mem : v ∈ seen' ↔ v ∈ order := by
    rw [visits.members]
    simp
  rw [← mem]
  constructor
  · intro isSeen
    exact (visits.explores.2.1 v isSeen).resolve_left (notMem_empty v)
  · rintro ⟨a, inList, reach⟩
    exact (visits.explores.2.2 a inList v reach).2 fun _ => rfl

variable {σ : Type*} {nextOf : σ → α → List α} {enter : α → σ → σ} {stable : σ → Prop} {low : α → Prop}

/-- Entering a node changes the successors of no node where a walk goes. -/
structure Framed (next : α → List α) (nextOf : σ → α → List α) (enter : α → σ → σ) (stable : σ → Prop)
    (low : α → Prop) : Prop where
  kept : ∀ state a, stable state → low a → stable (enter a state)
  agrees : ∀ state a, stable state → low a → nextOf state a = next a
  closed : ∀ a, low a → ∀ b ∈ next a, low b

theorem walk_spec (framed : Framed next nextOf enter stable low) (grounded : ∀ a ∈ list, Grounded next a)
    (inside : ∀ a ∈ list, low a) {state : σ} (start : stable state)
    (ahead : Ahead next (fun _ => false) (fun _ => False) list seen) :
    ∃ (order : List α) (seen' : Finset α), Returns (fun fuel => walk nextOf enter fuel list state seen)
        (order.foldl (fun state a => enter a state) state, seen') ∧
      stable (order.foldl (fun state a => enter a state) state) ∧ Visits next list seen seen' order := by
  refine Grounded.list_induction (P := fun list => (∀ a ∈ list, low a) → ∀ state seen, stable state →
    Ahead next (fun _ => false) (fun _ => False) list seen →
    ∃ (order : List α) (seen' : Finset α), Returns (fun fuel => walk nextOf enter fuel list state seen)
        (order.foldl (fun state a => enter a state) state, seen') ∧
      stable (order.foldl (fun state a => enter a state) state) ∧ Visits next list seen seen' order)
    ?_ ?_ grounded inside state seen start ahead
  · intro _ state seen start _
    exact ⟨[], seen, .step (.const (state, seen)), start, .nil next seen⟩
  intro a rest grounded ihNext ihRest inside state seen start ahead
  obtain ⟨isLow, restLow⟩ := forall_mem_cons.mp inside
  by_cases isSeen : a ∈ seen
  · have node := ahead.seenNode isSeen
    obtain ⟨order, seen', returns, final, visits⟩ := ihRest restLow state seen start (node.ahead ahead)
    exact ⟨order, seen', .step (returns.congr fun _ => if_pos isSeen), final, visits.already node⟩
  have nextLow : ∀ b ∈ next a, low b := framed.closed a isLow
  have entered : stable (enter a state) := framed.kept state a start isLow
  obtain ⟨order1, seen1, returns1, final1, visits1⟩ := ihNext nextLow _ _ entered (ahead.inside grounded)
  have node := visits1.explores.node (fun goal : False => goal)
  obtain ⟨order2, seen2, returns2, final2, visits2⟩ := ihRest restLow _ seen1 final1 (node.ahead ahead)
  refine ⟨a :: (order1 ++ order2), seen2, ?_, ?_, visits1.cons visits2 isSeen⟩
  · rw [foldl_cons, foldl_append]
    refine .step (returns1.andThen returns2 fun fuel done => ?_)
    simp only [walk, if_neg isSeen, framed.agrees _ a entered isLow, done, bind_some]
  · rwa [foldl_cons, foldl_append]

end Walk

end Searches

section Raise

variable [DecidableEq α]

/-- Levels have been raised: links along which they increased still do, and those from nodes that
have been changed. -/
def Raises (next : α → List α) (levels levels' : α → Nat) : Prop :=
  (∀ a, levels a ≤ levels' a) ∧
    ∀ a, ∀ b ∈ next a, levels a < levels b ∨ levels' a ≠ levels a → levels' a < levels' b

variable {levels levels1 levels2 : α → Nat}

omit [DecidableEq α] in
theorem Raises.trans (first : Raises next levels levels1) (second : Raises next levels1 levels2) :
    Raises next levels levels2 := by
  refine ⟨fun a => le_trans (first.1 a) (second.1 a), fun a b link cause => second.2 a b link ?_⟩
  by_cases same : levels2 a = levels1 a
  · left
    refine first.2 a b link (cause.imp_right fun changed => ?_)
    rwa [← same]
  · exact .inr same

/-- The nodes of a list are as high as they should be, and only nodes after them are raised. -/
theorem raise_spec (grounded : ∀ a ∈ list, Grounded next a) (level : Nat) (levels : α → Nat) :
    ∃ levels', Returns (fun fuel => raise next fuel list level levels) levels' ∧ Raises next levels levels' ∧
      (∀ a ∈ list, level ≤ levels' a) ∧ ∀ v, levels' v ≠ levels v → ∃ a ∈ list, Reach next a v := by
  refine Grounded.list_induction (P := fun list => ∀ level levels,
    ∃ levels', Returns (fun fuel => raise next fuel list level levels) levels' ∧ Raises next levels levels' ∧
      (∀ a ∈ list, level ≤ levels' a) ∧ ∀ v, levels' v ≠ levels v → ∃ a ∈ list, Reach next a v)
    ?_ ?_ grounded level levels
  · intro level levels
    refine ⟨levels, .step (.const levels), ⟨fun _ => le_rfl, fun a b _ cause => ?_⟩, ?_, ?_⟩
    · exact cause.resolve_right fun changed => changed rfl
    · intro a mem
      cases mem
    · exact fun v changed => absurd rfl changed
  · intro a rest grounded ihNext ihRest level levels
    by_cases low : levels a < level
    · obtain ⟨levels1, returns1, raises1, high1, changed1⟩ := ihNext (level + 1) (update levels a level)
      have here : levels1 a = level := by
        by_contra moved
        obtain ⟨b, link, reach⟩ := changed1 a (by rwa [update_self])
        exact grounded.acyclic link reach
      -- Raising the node itself keeps the links to it, and the call keeps those from it.
      have raised : Raises next levels levels1 := by
        refine ⟨fun v => le_trans ?_ (raises1.1 v), fun v b link cause => ?_⟩
        · rw [update_apply]
          split
          · next same => exact same ▸ le_of_lt low
          · exact le_rfl
        by_cases same : v = a
        · subst same
          rw [here]
          exact high1 b link
        · refine raises1.2 v b link (cause.imp (fun lower => ?_) fun changed => ?_)
          · rw [update_of_ne same, update_apply]
            split
            · next same' => exact lt_trans (same' ▸ lower) low
            · exact lower
          · rwa [update_of_ne same]
      obtain ⟨levels2, returns2, raises2, high2, changed2⟩ := ihRest level levels1
      refine ⟨levels2, .step (returns1.andThen returns2 fun fuel done => ?_), raised.trans raises2, ?_, ?_⟩
      · simp only [raise, if_pos low, done, bind_some]
      · intro b mem
        rcases mem_cons.mp mem with rfl | inRest
        · exact here ▸ raises2.1 b
        · exact high2 b inRest
      intro v changed
      by_cases later : levels2 v = levels1 v
      · by_cases same : v = a
        · exact ⟨a, .head _, same ▸ .refl next a⟩
        · obtain ⟨b, link, reach⟩ := changed1 v (by rwa [update_of_ne same, ← later])
          exact ⟨a, .head _, .head link reach⟩
      · obtain ⟨b, inRest, reach⟩ := changed2 v later
        exact ⟨b, mem_cons_of_mem a inRest, reach⟩
    · obtain ⟨levels', returns, raises, high, changed⟩ := ihRest level levels
      refine ⟨levels', .step (returns.congr fun _ => if_neg low), raises, ?_, fun v moved => ?_⟩
      · intro b mem
        rcases mem_cons.mp mem with rfl | inRest
        · exact le_trans (Nat.le_of_not_lt low) (raises.1 b)
        · exact high b inRest
      · obtain ⟨b, inRest, reach⟩ := changed v moved
        exact ⟨b, mem_cons_of_mem a inRest, reach⟩

end Raise

end Culibs.DepthFirst
