import Culibs.Foundation.DepthFirst

/-! Traversals that go on with a node of the least level among those that are next to earlier ones. -/

namespace Culibs.BestFirst

open DepthFirst Relation List Finset

variable {α : Type*}

/-- There is a path of some length. -/
abbrev Leads (next : α → List α) : α → α → Prop := TransGen fun a b => b ∈ next a

/-- No node stands before one that leads to it. -/
def Topological (next : α → List α) (order : List α) : Prop := order.Pairwise fun a b => ¬ Leads next b a

/-- An order of all that is reachable from a node. Each node is next to an earlier one, and none of
those that are left and next to an earlier one has a lower level. -/
structure Traverses (next : α → List α) (level : α → Nat) (root : α) (order : List α) : Prop where
  nodup : order.Nodup
  mem : ∀ a, a ∈ order ↔ Reach next root a
  origin : ∀ before a after, order = before ++ a :: after → a = root ∨ ∃ p ∈ before, a ∈ next p
  least : ∀ before a after, order = before ++ a :: after → ∀ p ∈ before, ∀ b ∈ after, b ∈ next p → level a ≤ level b

section Drain

variable [DecidableEq α] {next : α → List α} {level : α → Nat} {seen frontier : Finset α}
  {order before after : List α} {a b : α}

/-- The rest of a traversal, from the nodes that have been seen and those of them that are left. -/
def Drains (next : α → List α) (level : α → Nat) : Finset α → Finset α → List α → Prop
  | _, frontier, [] => frontier = ∅
  | seen, frontier, a :: rest => a ∈ frontier ∧ (∀ b ∈ frontier, level a ≤ level b) ∧
      Drains next level (seen ∪ (next a).toFinset) (frontier.erase a ∪ ((next a).toFinset \ seen)) rest

theorem frontier_subset (inSeen : frontier ⊆ seen) (a : α) :
    frontier.erase a ∪ ((next a).toFinset \ seen) ⊆ seen ∪ (next a).toFinset := by
  intro b mem
  rcases mem_union.mp mem with old | new
  · exact mem_union_left _ (inSeen (mem_of_mem_erase old))
  · exact mem_union_right _ (mem_sdiff.mp new).1

section

variable (drains : Drains next level seen frontier order)

include drains

theorem Drains.fresh (inSeen : frontier ⊆ seen) (mem : a ∈ order) : a ∈ frontier ∨ a ∉ seen := by
  induction order generalizing seen frontier with
  | nil => cases mem
  | cons c rest ih =>
    obtain ⟨isLeft, _, drains⟩ := drains
    rcases mem_cons.mp mem with rfl | mem
    · exact .inl isLeft
    · rcases ih drains (frontier_subset inSeen c) mem with left | unseen
      · rcases mem_union.mp left with old | new
        · exact .inl (mem_of_mem_erase old)
        · exact .inr (mem_sdiff.mp new).2
      · exact .inr fun isSeen => unseen (mem_union_left _ isSeen)

theorem Drains.nodup (inSeen : frontier ⊆ seen) : order.Nodup := by
  induction order generalizing seen frontier with
  | nil => exact nodup_nil
  | cons c rest ih =>
    obtain ⟨isLeft, _, drains⟩ := drains
    refine nodup_cons.mpr ⟨fun again => ?_, ih drains (frontier_subset inSeen c)⟩
    rcases drains.fresh (frontier_subset inSeen c) again with left | unseen
    · rcases mem_union.mp left with old | new
      · exact notMem_erase c frontier old
      · exact (mem_sdiff.mp new).2 (inSeen isLeft)
    · exact unseen (mem_union_left _ (inSeen isLeft))

theorem Drains.frontier_mem (isLeft : a ∈ frontier) : a ∈ order := by
  induction order generalizing seen frontier with
  | nil =>
    obtain rfl : frontier = ∅ := drains
    cases isLeft
  | cons c rest ih =>
    by_cases same : a = c
    · exact same ▸ .head _
    · exact mem_cons_of_mem c (ih drains.2.2 (mem_union_left _ (mem_erase.mpr ⟨same, isLeft⟩)))

theorem Drains.closed (mem : a ∈ order) (step : b ∈ next a) : b ∈ order ∨ b ∈ seen ∧ b ∉ frontier := by
  induction order generalizing seen frontier with
  | nil => cases mem
  | cons c rest ih =>
    have ⟨_, _, after⟩ := drains
    by_cases isLeft : b ∈ frontier
    · exact .inl (drains.frontier_mem isLeft)
    by_cases isSeen : b ∈ seen
    · exact .inr ⟨isSeen, isLeft⟩
    rcases mem_cons.mp mem with rfl | mem
    · refine .inl (mem_cons_of_mem a (after.frontier_mem ?_))
      exact mem_union_right _ (mem_sdiff.mpr ⟨mem_toFinset.mpr step, isSeen⟩)
    · rcases ih after mem with inRest | ⟨isSeen', notLeft⟩
      · exact .inl (mem_cons_of_mem c inRest)
      · have isNew := (mem_union.mp isSeen').resolve_left isSeen
        exact absurd (mem_union_right _ (mem_sdiff.mpr ⟨isNew, isSeen⟩)) notLeft

theorem Drains.origin (split : order = before ++ a :: after) : a ∈ frontier ∨ ∃ p ∈ before, a ∈ next p := by
  induction before generalizing seen frontier order with
  | nil =>
    subst split
    exact .inl drains.1
  | cons c before ih =>
    subst split
    rcases ih drains.2.2 rfl with left | ⟨p, mem, step⟩
    · rcases mem_union.mp left with old | new
      · exact .inl (mem_of_mem_erase old)
      · exact .inr ⟨c, .head _, mem_toFinset.mp (mem_sdiff.mp new).1⟩
    · exact .inr ⟨p, mem_cons_of_mem c mem, step⟩

theorem Drains.least (inSeen : frontier ⊆ seen) (split : order = before ++ a :: after) (mem : b ∈ after)
    (isNext : b ∈ frontier ∨ ∃ p ∈ before, b ∈ next p) : level a ≤ level b := by
  induction before generalizing seen frontier order with
  | nil =>
    subst split
    refine drains.2.1 b (isNext.resolve_right ?_)
    rintro ⟨_, isEarlier, _⟩
    cases isEarlier
  | cons c before ih =>
    subst split
    have inOrder : b ∈ before ++ a :: after := mem_append_right _ (mem_cons_of_mem a mem)
    have other : b ≠ c := by
      rintro rfl
      exact (nodup_cons.mp (drains.nodup inSeen)).1 inOrder
    refine ih drains.2.2 (frontier_subset inSeen c) rfl ?_
    by_cases isLeft : b ∈ frontier
    · exact .inl (mem_union_left _ (mem_erase.mpr ⟨other, isLeft⟩))
    have unseen := (drains.fresh inSeen (mem_cons_of_mem c inOrder)).resolve_left isLeft
    obtain ⟨p, isEarlier, step⟩ := isNext.resolve_left isLeft
    rcases mem_cons.mp isEarlier with rfl | isEarlier
    · exact .inl (mem_union_right _ (mem_sdiff.mpr ⟨mem_toFinset.mpr step, unseen⟩))
    · exact .inr ⟨p, isEarlier, step⟩

end

theorem Drains.traverses (grounded : Grounded next root)
    (drains : Drains next level (next root).toFinset (next root).toFinset order) :
    Traverses next level root (root :: order) := by
  have inSeen : (next root).toFinset ⊆ (next root).toFinset := Finset.Subset.refl _
  have reached (a : α) (mem : a ∈ order) : ∃ b ∈ next root, Reach next b a := by
    -- Each node is next to one that comes before it, from the frontier on.
    have earlier (n : Nat) : ∀ before a after, before.length = n → order = before ++ a :: after →
        ∃ b ∈ next root, Reach next b a := by
      induction n using Nat.strong_induction_on with
      | _ n ih =>
        intro before a after length split
        rcases drains.origin split with first | ⟨p, mem, step⟩
        · exact ⟨a, mem_toFinset.mp first, .refl next a⟩
        · obtain ⟨left, right, rfl⟩ := append_of_mem mem
          obtain ⟨b, first, path⟩ := ih left.length
            (by simp only [length_append, length_cons] at length; omega)
            left p (right ++ a :: after) rfl (by rw [split]; simp)
          exact ⟨b, first, path.tail step⟩
    obtain ⟨before, after, split⟩ := append_of_mem mem
    exact earlier before.length before a after rfl split
  have notRoot : root ∉ order := by
    intro mem
    obtain ⟨b, step, path⟩ := reached root mem
    exact grounded.acyclic step path
  refine ⟨nodup_cons.mpr ⟨notRoot, drains.nodup inSeen⟩, fun a => ⟨fun mem => ?_, fun path => ?_⟩,
    fun before a after split => ?_, fun before a after split p mem b isLater step => ?_⟩
  · rcases mem_cons.mp mem with rfl | mem
    · exact .refl next a
    · obtain ⟨b, step, path⟩ := reached a mem
      exact .head step path
  · induction path with
    | refl => exact .head _
    | tail _ step ih =>
      refine mem_cons_of_mem root ?_
      rcases mem_cons.mp ih with rfl | mem
      · exact drains.frontier_mem (mem_toFinset.mpr step)
      · exact (drains.closed mem step).resolve_right fun both => both.2 both.1
  · cases before with
    | nil => exact .inl (cons.inj split).1.symm
    | cons c before =>
      obtain ⟨rfl, rest⟩ := cons.inj split
      rcases drains.origin rest with first | ⟨p, mem, step⟩
      · exact .inr ⟨root, .head _, mem_toFinset.mp first⟩
      · exact .inr ⟨p, mem_cons_of_mem root mem, step⟩
  · cases before with
    | nil => cases mem
    | cons c before =>
      obtain ⟨rfl, rest⟩ := cons.inj split
      refine drains.least inSeen rest isLater ?_
      rcases mem_cons.mp mem with rfl | mem
      · exact .inl (mem_toFinset.mpr step)
      · exact .inr ⟨p, mem, step⟩

end Drain

section Order

variable {next : α → List α} {level : α → Nat} {root : α} {order : List α} {a b : α}

variable {before after : List α}

theorem Traverses.split_mem (traverses : Traverses next level root order)
    (split : order = before ++ a :: after) (path : Reach next root b) : b ∈ before ∨ b = a ∨ b ∈ after := by
  have mem := (traverses.mem b).mpr path
  rw [split, mem_append, List.mem_cons] at mem
  exact mem

theorem topological_of_splits
    (apart : ∀ before a after, order = before ++ a :: after → ∀ b ∈ after, ¬ Leads next b a) :
      Topological next order := by
  induction order with
  | nil => exact Pairwise.nil
  | cons a rest ih =>
    refine pairwise_cons.mpr ⟨apart [] a rest rfl, ih fun before b after split => ?_⟩
    exact apart (a :: before) b after (by rw [split]; rfl)

theorem Topological.apart (topological : Topological next order)
    (split : order = before ++ a :: after) (later : b ∈ after) : ¬ Leads next b a := by
  rw [split] at topological
  exact (pairwise_cons.mp (pairwise_append.mp topological).2.1).1 b later

theorem Topological.apart_before (topological : Topological next order)
    (split : order = before ++ a :: after) (earlier : b ∈ before) : ¬ Leads next a b := by
  rw [split] at topological
  exact (pairwise_append.mp topological).2.2 b earlier a mem_cons_self

theorem level_lt (increasing : ∀ a, Reach next root a → ∀ b ∈ next a, level a < level b) (path : Reach next root a)
    (leads : Leads next a b) : level a < level b := by
  induction leads with
  | single step => exact increasing a path _ step
  | tail leads step ih => exact lt_trans ih (increasing _ (path.trans leads.to_reflTransGen) _ step)

theorem Traverses.root_first (traverses : Traverses next level root order)
    (split : order = before ++ a :: after) : a = root ∨ root ∈ before := by
  cases before with
  | nil => exact .inl ((traverses.origin [] a after split).resolve_right (by simp))
  | cons c before =>
    have isRoot := (traverses.origin [] c (before ++ a :: after) split).resolve_right (by simp)
    exact .inr (isRoot ▸ .head _)

/-- The first node on a path that is not among the earlier ones is next to one of them. -/
theorem exists_frontier (first : root ∈ before) (path : Reach next root b) (outside : b ∉ before) :
    ∃ p ∈ before, ∃ w ∈ next p, w ∉ before ∧ Reach next w b := by
  induction path with
  | refl => exact absurd first outside
  | @tail b c _ step ih =>
    by_cases earlier : b ∈ before
    · exact ⟨b, earlier, c, step, outside, .refl next c⟩
    · obtain ⟨p, mem, w, isNext, notIn, path⟩ := ih earlier
      exact ⟨p, mem, w, isNext, notIn, path.tail step⟩

theorem Traverses.topological (traverses : Traverses next level root order)
    (increasing : ∀ a, Reach next root a → ∀ b ∈ next a, level a < level b) : Topological next order := by
  refine topological_of_splits fun before y after split x later leads => ?_
  have isNode : Reach next root x := (traverses.mem x).mp (by rw [split]; simp [later])
  have acyclic {v : α} (path : Reach next root v) : ¬ Leads next v v := fun cycle =>
    lt_irrefl _ (level_lt increasing path cycle)
  rcases traverses.root_first split with rfl | first
  · exact acyclic isNode (TransGen.trans_left leads isNode)
  have nodup := traverses.nodup
  rw [split, nodup_append] at nodup
  have outside : x ∉ before := fun earlier => nodup.2.2 x earlier x (mem_cons_of_mem y later) rfl
  obtain ⟨p, isEarlier, w, step, notIn, path⟩ := exists_frontier first isNode outside
  have reached : Reach next root w := ((traverses.mem p).mp (by rw [split]; simp [isEarlier])).tail step
  have leads' : Leads next w y := TransGen.trans_right path leads
  rcases (traverses.split_mem split reached).resolve_left notIn with rfl | isLater
  · exact acyclic reached leads'
  · have lower := traverses.least before y after split p isEarlier w isLater step
    exact lt_irrefl _ (lt_of_lt_of_le (level_lt increasing reached leads') lower)

section Decreasing

variable {bottom : α}

/-- The levels decrease, and all paths can be continued to one node. -/
structure Descends (next : α → List α) (level : α → Nat) (root bottom : α) : Prop where
  decreases : ∀ a, Reach next root a → ∀ b ∈ next a, level b < level a
  to_bottom : ∀ a, Reach next root a → Reach next a bottom
  nodup : ∀ a, Reach next root a → (next a).Nodup

theorem Descends.level_lt (descends : Descends next level root bottom) (path : Reach next root a)
    (leads : Leads next a b) : level b < level a := by
  induction leads with
  | single step => exact descends.decreases a path _ step
  | tail leads step ih => exact lt_trans (descends.decreases _ (path.trans leads.to_reflTransGen) _ step) ih

theorem Descends.acyclic (descends : Descends next level root bottom) (path : Reach next root a) : ¬ Leads next a a :=
  fun cycle => lt_irrefl _ (descends.level_lt path cycle)

/-- The lowest node is taken before one that has a lower one beside it. -/
theorem Traverses.bottom_first (traverses : Traverses next level root order) (topological : Topological next order)
    (descends : Descends next level root bottom) (split : order = before ++ after)
    (low : c ∈ after) (isNext : ∃ p ∈ before, c ∈ next p) (high : d ∈ after) (isNext' : ∃ p ∈ before, d ∈ next p)
    (lower : level c < level d) : ∃ left right, after = left ++ bottom :: right ∧ d ∈ right := by
  induction after generalizing before c with
  | nil => cases low
  | cons y rest ih =>
    obtain ⟨p, isEarlier, step⟩ := isNext
    have isLower : level y ≤ level c := by
      rcases mem_cons.mp low with rfl | later
      · exact le_rfl
      · exact traverses.least before y rest split p isEarlier c later step
    have later : d ∈ rest := by
      rcases mem_cons.mp high with rfl | later
      · omega
      · exact later
    by_cases isBottom : y = bottom
    · exact ⟨[], rest, by rw [isBottom]; rfl, later⟩
    have reached : Reach next root y := (traverses.mem y).mp (by rw [split]; simp)
    rcases (descends.to_bottom y reached).cases_head with same | ⟨z, step', _⟩
    · exact absurd same isBottom
    have isLater : z ∈ rest := by
      rcases traverses.split_mem split (reached.tail step') with earlier | rfl | isLater
      · exact absurd (.single step') (topological.apart_before split earlier)
      · exact absurd (.single step') (descends.acyclic reached)
      · exact isLater
    have split' : order = (before ++ [y]) ++ rest := by rw [split]; simp
    obtain ⟨left, right, isRest, last⟩ := ih split' isLater ⟨y, by simp, step'⟩ later
      (isNext'.imp fun q both => ⟨mem_append_left _ both.1, both.2⟩)
      (lt_of_lt_of_le (descends.decreases y reached z step') (le_trans isLower (le_of_lt lower)))
    exact ⟨y :: left, right, by rw [isRest]; rfl, last⟩

theorem Topological.bottom_last (topological : Topological next order) (traverses : Traverses next level root order)
    (descends : Descends next level root bottom) (split : order = before ++ bottom :: after) :
    after = [] := by
  refine eq_nil_iff_forall_not_mem.mpr fun d later => topological.apart split later ?_
  have reached : Reach next root d := (traverses.mem d).mp (by rw [split]; simp [later])
  rcases reflTransGen_iff_eq_or_transGen.mp (descends.to_bottom d reached) with rfl | leads
  · have nodup := traverses.nodup
    rw [split, nodup_append] at nodup
    exact absurd later (nodup_cons.mp nodup.2.1).1
  · exact leads

theorem Traverses.single (traverses : Traverses next level root order) (topological : Topological next order)
    (descends : Descends next level root bottom) (path : Reach next root a) (first : b ∈ next a)
    (second : c ∈ next a) :
    b = c := by
  by_contra ne
  obtain ⟨before, after, split⟩ := append_of_mem ((traverses.mem a).mpr path)
  have isLater {v : α} (step : v ∈ next a) : v ∈ after := by
    rcases traverses.split_mem split (path.tail step) with earlier | rfl | later
    · exact absurd (.single step) (topological.apart_before split earlier)
    · exact absurd (.single step) (descends.acyclic path)
    · exact later
  have split' : order = (before ++ [a]) ++ after := by rw [split]; simp
  cases shape : after with
  | nil => exact absurd (shape ▸ isLater first) not_mem_nil
  | cons z rest =>
    rw [shape] at split'
    -- One of the two is not the next one.
    obtain ⟨d, step, later⟩ : ∃ d ∈ next a, d ∈ rest := by
      have firstLater := shape ▸ isLater first
      have secondLater := shape ▸ isLater second
      rcases mem_cons.mp firstLater with rfl | later
      · exact ⟨c, second, (mem_cons.mp secondLater).resolve_left (Ne.symm ne)⟩
      · exact ⟨b, first, later⟩
    have lower : level z ≤ level d := traverses.least (before ++ [a]) z rest split' a (by simp) d later step
    have reached : Reach next root z := (traverses.mem z).mp (by rw [split']; simp)
    rcases (descends.to_bottom z reached).cases_head with rfl | ⟨w, step', _⟩
    · rw [topological.bottom_last traverses descends split'] at later
      cases later
    have isLaterW : w ∈ rest := by
      rcases traverses.split_mem split' (reached.tail step') with earlier | rfl | isLater
      · exact absurd (.single step') (topological.apart_before split' earlier)
      · exact absurd (.single step') (descends.acyclic reached)
      · exact isLater
    have split'' : order = (before ++ [a] ++ [z]) ++ rest := by rw [split']; simp
    obtain ⟨left, right, isRest, last⟩ := traverses.bottom_first topological descends split'' isLaterW
      ⟨z, by simp, step'⟩ later ⟨a, by simp, step⟩ (lt_of_lt_of_le (descends.decreases z reached w step') lower)
    rw [isRest, ← append_assoc] at split''
    rw [topological.bottom_last traverses descends split''] at last
    cases last

/-- Where the levels decrease, the order is right exactly when no node has two next ones. -/
theorem Traverses.topological_iff (traverses : Traverses next level root order)
    (descends : Descends next level root bottom) :
    Topological next order ↔ ∀ a, Reach next root a → (next a).length ≤ 1 := by
  constructor
  · intro topological a path
    have nodup := descends.nodup a path
    by_contra! long
    rcases shape : next a with _ | ⟨b, _ | ⟨c, rest⟩⟩
    · simp [shape] at long
    · simp [shape] at long
    · have same := traverses.single topological descends path (b := b) (c := c) (by simp [shape]) (by simp [shape])
      rw [shape] at nodup
      exact (nodup_cons.mp nodup).1 (same ▸ .head _)
  · intro short
    have unique {a b c : α} (path : Reach next root a) (first : b ∈ next a) (second : c ∈ next a) : b = c := by
      obtain ⟨v, isOnly⟩ := length_eq_one_iff.mp (le_antisymm (short a path) (length_pos_of_mem first))
      rw [isOnly, List.mem_singleton] at first second
      rw [first, second]
    have total {p q : α} (left : Reach next root p) (right : Reach next root q) : Reach next p q ∨ Reach next q p := by
      induction right with
      | refl => exact .inr left
      | tail path step ih =>
        rcases ih with forth | back
        · exact .inl (forth.tail step)
        · rcases back.cases_head with rfl | ⟨v, step', back⟩
          · exact .inl (.head step (.refl next _))
          · exact .inr (unique path step' step ▸ back)
    have noCycle {p q y : α} (left : Reach next root p) (first : y ∈ next p) (second : y ∈ next q)
      (path : Reach next p q) :
        p = q := by
      rcases path.cases_head with same | ⟨v, step, path⟩
      · exact same
      · obtain rfl := unique left first step
        exact absurd (.tail' path second) (descends.acyclic (left.tail first))
    refine topological_of_splits fun before y after split => ?_
    induction length : before.length using Nat.strong_induction_on generalizing before y after with
    | _ n ih =>
      intro x later leads
      have reachedX : Reach next root x := (traverses.mem x).mp (by rw [split]; simp [later])
      obtain ⟨q, path, second⟩ := TransGen.tail'_iff.mp leads
      rcases traverses.origin before y after split with rfl | ⟨p, earlier, first⟩
      · exact descends.acyclic reachedX (TransGen.trans_left leads reachedX)
      have reachedP : Reach next root p := (traverses.mem p).mp (by rw [split]; simp [earlier])
      have same : p = q := by
        rcases total reachedP (reachedX.trans path) with forth | back
        · exact noCycle reachedP first second forth
        · exact (noCycle (reachedX.trans path) second first back).symm
      obtain ⟨left, right, isBefore⟩ := append_of_mem earlier
      have split' : order = left ++ p :: (right ++ y :: after) := by rw [split, isBefore]; simp
      have laterThanP : x ∈ right ++ y :: after := mem_append_right _ (mem_cons_of_mem y later)
      rcases reflTransGen_iff_eq_or_transGen.mp path with rfl | leads'
      · have nodup := traverses.nodup
        rw [split', nodup_append] at nodup
        exact (nodup_cons.mp nodup.2.1).1 (same ▸ laterThanP)
      · refine ih left.length ?_ left p _ split' rfl x laterThanP (same ▸ leads')
        rw [← length, isBefore, length_append, length_cons]
        omega

end Decreasing

end Order

end Culibs.BestFirst
