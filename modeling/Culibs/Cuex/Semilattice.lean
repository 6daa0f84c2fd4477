import Culibs.Cuex.Ex
import Culibs.Cuex.Atree.Order

/-! Free semilattices of `cuex/semilattice.c`: a generator, or a tree of any other
number of generators, keyed by their addresses. -/

namespace Culibs.Cuex.Semilattice

open Cu Atree
open Atree (WfTree elements)

variable {α : Type} {meetOpr : Word} {x y z g : Ex α}

/-- The tree of an object `x` with `meta == sl_meta && SL(x)->meet == meet`. -/
def slAtree (meetOpr : Word) (x : Ex α) : Option (Option (Atree (Ex α))) :=
  match x with
  | .semilattice opr atree => if opr = meetOpr then some atree else none
  | _ => none

def slNew (meetOpr : Word) (atree : Option (Atree (Ex α))) : Ex α :=
  match atree with
  | some (.leaf x) => x
  | atree => .semilattice meetOpr atree

def top (meetOpr : Word) : Ex α := .semilattice meetOpr none

section Functions

variable [DecidableEq α]

/-- `cuex_meetlattice_meet`, where `semilattice_key` is the address of an expression. -/
def meet (address : Ex α → Word) (meetOpr : Word) (x0 x1 : Ex α) : Ex α :=
  if x0 = x1 then x0
  else
    match slAtree meetOpr x0, slAtree meetOpr x1 with
    | some tree0, some tree1 => slNew meetOpr (Atree.leftUnion address tree0 tree1)
    | some tree0, none => slNew meetOpr (Atree.insert address tree0 x1)
    | none, some tree1 => slNew meetOpr (Atree.insert address tree1 x0)
    | none, none => slNew meetOpr (Atree.insert address (some (.leaf x0)) x1)

def semijoin (address : Ex α → Word) (meetOpr : Word) (x0 x1 : Ex α) : Ex α :=
  if x0 = x1 then x0
  else
    match slAtree meetOpr x0, slAtree meetOpr x1 with
    | some tree0, some tree1 => slNew meetOpr (Atree.leftIsecn address tree0 tree1)
    | some tree0, none => slNew meetOpr ((Atree.find address tree0 (address x1)).map .leaf)
    | none, some tree1 => slNew meetOpr ((Atree.find address tree1 (address x0)).map .leaf)
    | none, none => slNew meetOpr Atree.empty

def order (address : Ex α → Word) (meetOpr : Word) (x0 x1 : Ex α) : Order :=
  if x0 = x1 then .eq
  else
    match slAtree meetOpr x0, slAtree meetOpr x1 with
    | some tree0, some tree1 => Atree.order address tree1 tree0
    | some tree0, none => if (Atree.find address tree0 (address x1)).isSome then .lt else .none
    | none, some tree1 => if (Atree.find address tree1 (address x0)).isSome then .gt else .none
    | none, none => .none

def leq (address : Ex α → Word) (meetOpr : Word) (x0 x1 : Ex α) : Bool :=
  if x0 = x1 then true
  else
    match slAtree meetOpr x0, slAtree meetOpr x1 with
    | some tree0, some tree1 => Atree.subseteq address tree1 tree0
    | some tree0, none => (Atree.find address tree0 (address x1)).isSome
    | none, some tree1 => tree1.isNone
    | none, none => false

end Functions

/-- An element as a tree of generators. -/
def asAtree (meetOpr : Word) (x : Ex α) : Option (Atree (Ex α)) := (slAtree meetOpr x).getD (some (.leaf x))

def generators (meetOpr : Word) (x : Ex α) : List (Ex α) := elements (asAtree meetOpr x)

/-- A tree of generators. -/
structure GenTree (address : Ex α → Word) (live : Ex α → Prop) (meetOpr : Word) (tree : Option (Atree (Ex α))) :
    Prop where
  wf : WfTree address tree 0 (2 ^ 63)
  live : ∀ g ∈ elements tree, live g
  atomic : ∀ g ∈ elements tree, slAtree meetOpr g = none

/-- What is built from generators. -/
inductive Built [DecidableEq α] (address : Ex α → Word) (live : Ex α → Prop) (meetOpr : Word) : Ex α → Prop where
  | generator {x : Ex α} (alive : live x) (atomic : slAtree meetOpr x = none) : Built address live meetOpr x
  | top : Built address live meetOpr (top meetOpr)
  | meet {x y : Ex α} (left : Built address live meetOpr x) (right : Built address live meetOpr y) :
    Built address live meetOpr (meet address meetOpr x y)
  | semijoin {x y : Ex α} (left : Built address live meetOpr x) (right : Built address live meetOpr y) :
    Built address live meetOpr (semijoin address meetOpr x y)

section Trees

variable {address : Ex α → Word} {live : Ex α → Prop} {tree tree0 tree1 : Option (Atree (Ex α))}

theorem GenTree.none : GenTree address live meetOpr Option.none := ⟨nofun, by simp [elements], by simp [elements]⟩

theorem GenTree.leaf (addresses : Addresses address live) (alive : live g) (atomic : slAtree meetOpr g = Option.none) :
    GenTree address live meetOpr (some (.leaf g)) := by
  refine ⟨?_, by simpa [elements, Atree.toList] using alive, by simpa [elements, Atree.toList] using atomic⟩
  intro t same
  cases same
  exact low_bounds (addresses.low g alive)

theorem GenTree.find_eq_some_iff (gen : GenTree address live meetOpr tree) (addresses : Addresses address live)
    (alive : live g) : Atree.find address tree (address g) = some x ↔ x = g ∧ g ∈ elements tree := by
  constructor
  · intro found
    have mem : x ∈ elements tree := by
      rw [gen.wf.mem_elements_iff, key_of_find found]
      exact found
    obtain rfl := addresses.injective x g (gen.live x mem) alive (key_of_find found)
    exact ⟨rfl, mem⟩
  · rintro ⟨rfl, mem⟩
    exact (gen.wf.mem_elements_iff x).mp mem

theorem GenTree.isSome_find (gen : GenTree address live meetOpr tree) (addresses : Addresses address live)
    (alive : live g) : (Atree.find address tree (address g)).isSome = true ↔ g ∈ elements tree := by
  simp [Option.isSome_iff_exists, gen.find_eq_some_iff addresses alive]

section

variable (gen0 : GenTree address live meetOpr tree0) (gen1 : GenTree address live meetOpr tree1)

include gen0 gen1

theorem GenTree.ext (same : ∀ g, g ∈ elements tree0 ↔ g ∈ elements tree1) : tree0 = tree1 :=
  gen0.wf.eq_of_elements gen1.wf same

theorem GenTree.of_subset (wf : WfTree address result 0 (2 ^ 63))
    (sub : ∀ g ∈ elements result, g ∈ elements tree0 ∨ g ∈ elements tree1) : GenTree address live meetOpr result := by
  refine ⟨wf, ?_, ?_⟩
  · intro g mem
    exact (sub g mem).elim (gen0.live g) (gen1.live g)
  · intro g mem
    exact (sub g mem).elim (gen0.atomic g) (gen1.atomic g)

theorem GenTree.mem_leftUnion (addresses : Addresses address live) :
    g ∈ elements (Atree.leftUnion address tree0 tree1) ↔ g ∈ elements tree0 ∨ g ∈ elements tree1 := by
  have wf : WfTree address (Atree.leftUnion address tree0 tree1) 0 (2 ^ 63) :=
    deepUnion_wf gen0.wf gen1.wf (keepsKey_mergeAsFirst _ _)
  rw [wf.mem_elements_iff, leftUnion_find gen0.wf gen1.wf, gen0.wf.mem_elements_iff, gen1.wf.mem_elements_iff,
    Option.or_eq_some_iff]
  constructor
  · rintro (first | ⟨_, second⟩)
    · exact .inl first
    · exact .inr second
  rintro (first | second)
  · exact .inl first
  · have alive := gen1.live g ((gen1.wf.mem_elements_iff g).mpr second)
    cases found : Atree.find address tree0 (address g) with
    | none => exact .inr ⟨rfl, second⟩
    | some x =>
      obtain ⟨rfl, _⟩ := (gen0.find_eq_some_iff addresses alive).mp found
      exact .inl rfl

theorem GenTree.leftUnion (addresses : Addresses address live) :
    GenTree address live meetOpr (Atree.leftUnion address tree0 tree1) :=
  gen0.of_subset gen1 (deepUnion_wf gen0.wf gen1.wf (keepsKey_mergeAsFirst _ _))
    fun _ mem => (gen0.mem_leftUnion gen1 addresses).mp mem

end

theorem GenTree.insert_eq (gen : GenTree address live meetOpr tree) (addresses : Addresses address live)
    (alive : live g) (atomic : slAtree meetOpr g = Option.none) :
    Atree.insert address tree g = Atree.leftUnion address tree (some (.leaf g)) := by
  have single := GenTree.leaf addresses alive atomic
  have inserted := insert_find Atree.Half.lower gen.wf (low_bounds (addresses.low g alive))
  apply inserted.1.unique (gen.leftUnion single addresses).wf
  intro key
  rw [inserted.2, leftUnion_find gen.wf single.wf, find_some, findLoop_leaf]

section

variable (gen0 : GenTree address live meetOpr tree0) (gen1 : GenTree address live meetOpr tree1)
  (addresses : Addresses address live)

include gen0 gen1 addresses

theorem GenTree.leftUnion_comm : Atree.leftUnion address tree0 tree1 = Atree.leftUnion address tree1 tree0 := by
  apply (gen0.leftUnion gen1 addresses).ext (gen1.leftUnion gen0 addresses)
  intro g
  rw [gen0.mem_leftUnion gen1 addresses, gen1.mem_leftUnion gen0 addresses, or_comm]

theorem GenTree.mem_leftIsecn :
    g ∈ elements (Atree.leftIsecn address tree0 tree1) ↔ g ∈ elements tree0 ∧ g ∈ elements tree1 := by
  have meets := deepIsecn_meets gen0.wf gen1.wf (keepsKey_mergeAsFirst tree0 tree1)
  rw [Atree.leftIsecn, meets.wf.mem_elements_iff, meets.find_eq, gen0.wf.mem_elements_iff, gen1.wf.mem_elements_iff]
  constructor
  · intro found
    obtain ⟨value0, found0, rest⟩ := Option.bind_eq_some_iff.mp found
    obtain ⟨value1, found1, merged⟩ := Option.bind_eq_some_iff.mp rest
    cases merged
    have alive := gen0.live g ((gen0.wf.mem_elements_iff g).mpr found0)
    obtain ⟨rfl, _⟩ := (gen1.find_eq_some_iff addresses alive).mp found1
    exact ⟨found0, found1⟩
  · rintro ⟨found0, found1⟩
    rw [found0, found1]
    rfl

theorem GenTree.leftIsecn : GenTree address live meetOpr (Atree.leftIsecn address tree0 tree1) :=
  gen0.of_subset gen1 (deepIsecn_meets gen0.wf gen1.wf (keepsKey_mergeAsFirst _ _)).wf
    fun _ mem => .inl ((gen0.mem_leftIsecn gen1 addresses).mp mem).1

end

theorem GenTree.find_map_leaf (gen : GenTree address live meetOpr tree) (addresses : Addresses address live)
    (alive : live g) (atomic : slAtree meetOpr g = Option.none) :
    (Atree.find address tree (address g)).map .leaf = Atree.leftIsecn address tree (some (.leaf g)) := by
  have single := GenTree.leaf addresses alive atomic
  have isecn := gen.leftIsecn single addresses
  have members (x : Ex α) : x ∈ elements (Atree.leftIsecn address tree (some (.leaf g))) ↔ x ∈ elements tree ∧ x = g := by
    rw [gen.mem_leftIsecn single addresses]
    simp [elements, Atree.toList]
  cases found : Atree.find address tree (address g) with
  | none =>
    apply GenTree.none.ext isecn
    intro x
    rw [members]
    refine iff_of_false (by simp [elements]) ?_
    rintro ⟨mem, rfl⟩
    rw [(gen.wf.mem_elements_iff x).mp mem] at found
    cases found
  | some x =>
    obtain ⟨rfl, mem⟩ := (gen.find_eq_some_iff addresses alive).mp found
    apply single.ext isecn
    intro y
    rw [members]
    constructor
    · intro same
      obtain rfl : y = x := by simpa [elements, Atree.toList] using same
      exact ⟨mem, rfl⟩
    · rintro ⟨_, rfl⟩
      simp [elements, Atree.toList]

theorem GenTree.leftIsecn_comm (gen0 : GenTree address live meetOpr tree0) (gen1 : GenTree address live meetOpr tree1)
    (addresses : Addresses address live) :
    Atree.leftIsecn address tree0 tree1 = Atree.leftIsecn address tree1 tree0 := by
  apply (gen0.leftIsecn gen1 addresses).ext (gen1.leftIsecn gen0 addresses)
  intro g
  rw [gen0.mem_leftIsecn gen1 addresses, gen1.mem_leftIsecn gen0 addresses, and_comm]

theorem GenTree.subkeys_iff (gen0 : GenTree address live meetOpr tree0) (gen1 : GenTree address live meetOpr tree1)
    (addresses : Addresses address live) :
    Atree.SubkeysTree address tree0 tree1 ↔ ∀ g ∈ elements tree0, g ∈ elements tree1 := by
  constructor
  · intro included g mem
    obtain ⟨x, found⟩ := included _ g ((gen0.wf.mem_elements_iff g).mp mem)
    exact ((gen1.find_eq_some_iff addresses (gen0.live g mem)).mp found).2
  · intro included key g found
    obtain rfl := key_of_find found
    have mem := included g ((gen0.wf.mem_elements_iff g).mpr found)
    exact ⟨g, (gen1.wf.mem_elements_iff g).mp mem⟩

theorem GenTree.even (gen : GenTree address live meetOpr tree) (addresses : Addresses address live) :
    Atree.EvenTree address tree := by
  intro key g found
  obtain rfl := key_of_find found
  exact addresses.aligned g (gen.live g ((gen.wf.mem_elements_iff g).mpr found))

theorem asAtree_slNew (gen : GenTree address live meetOpr tree) : asAtree meetOpr (slNew meetOpr tree) = tree := by
  match tree, gen with
  | Option.none, _ => simp [slNew, asAtree, slAtree]
  | some (.leaf g), gen => simp [slNew, asAtree, gen.atomic g (by simp [elements, Atree.toList])]
  | some (.anode ..), _ => simp [slNew, asAtree, slAtree]

end Trees

/-- The representation of an element by its tree of generators. -/
structure Normal (address : Ex α → Word) (live : Ex α → Prop) (meetOpr : Word) (x : Ex α) : Prop where
  tree : GenTree address live meetOpr (asAtree meetOpr x)
  eq : slNew meetOpr (asAtree meetOpr x) = x

section Elements

variable [DecidableEq α] {address : Ex α → Word} {live : Ex α → Prop}

section

omit [DecidableEq α]

variable {tree : Option (Atree (Ex α))}

theorem GenTree.normal (gen : GenTree address live meetOpr tree) :
    Normal address live meetOpr (slNew meetOpr tree) := by
  have same := asAtree_slNew gen
  exact ⟨by rwa [same], by rw [same]⟩

theorem Normal.ext (normalX : Normal address live meetOpr x) (normalY : Normal address live meetOpr y)
    (same : ∀ g, g ∈ generators meetOpr x ↔ g ∈ generators meetOpr y) : x = y := by
  rw [← normalX.eq, ← normalY.eq, normalX.tree.ext normalY.tree same]

theorem asAtree_atomic (atomic : slAtree meetOpr x = none) : asAtree meetOpr x = some (.leaf x) := by
  rw [asAtree, atomic]
  rfl

theorem asAtree_nongen (wrapped : slAtree meetOpr x = some tree) :
    asAtree meetOpr x = tree := by
  rw [asAtree, wrapped]
  rfl

theorem Normal.alive (normal : Normal address live meetOpr x) (atomic : slAtree meetOpr x = none) : live x := by
  apply normal.tree.live
  simp [asAtree_atomic atomic, elements, Atree.toList]

end

section

variable (addresses : Addresses address live)

include addresses

theorem meet_eq (normalX : Normal address live meetOpr x) (normalY : Normal address live meetOpr y) :
    meet address meetOpr x y =
      slNew meetOpr (Atree.leftUnion address (asAtree meetOpr x) (asAtree meetOpr y)) := by
  rw [meet]
  split
  · next same =>
    subst same
    have union := normalX.tree.leftUnion normalX.tree addresses
    have idempotent : Atree.leftUnion address (asAtree meetOpr x) (asAtree meetOpr x) = asAtree meetOpr x := by
      apply union.ext normalX.tree
      intro g
      rw [normalX.tree.mem_leftUnion normalX.tree addresses, or_self]
    rw [idempotent, normalX.eq]
  · have treeX := normalX.tree
    have treeY := normalY.tree
    split
    · next wrappedX wrappedY => rw [asAtree_nongen wrappedX, asAtree_nongen wrappedY]
    · next wrappedX atomicY =>
      rw [asAtree_nongen wrappedX] at treeX ⊢
      rw [asAtree_atomic atomicY, treeX.insert_eq addresses (normalY.alive atomicY) atomicY]
    · next atomicX wrappedY =>
      rw [asAtree_nongen wrappedY] at treeY ⊢
      rw [asAtree_atomic atomicX] at treeX ⊢
      rw [treeY.insert_eq addresses (normalX.alive atomicX) atomicX, treeY.leftUnion_comm treeX addresses]
    · next atomicX atomicY =>
      rw [asAtree_atomic atomicX] at treeX ⊢
      rw [asAtree_atomic atomicY, treeX.insert_eq addresses (normalY.alive atomicY) atomicY]

theorem semijoin_eq (normalX : Normal address live meetOpr x) (normalY : Normal address live meetOpr y) :
    semijoin address meetOpr x y =
      slNew meetOpr (Atree.leftIsecn address (asAtree meetOpr x) (asAtree meetOpr y)) := by
  rw [semijoin]
  split
  · next same =>
    subst same
    have isecn := normalX.tree.leftIsecn normalX.tree addresses
    have idempotent : Atree.leftIsecn address (asAtree meetOpr x) (asAtree meetOpr x) = asAtree meetOpr x := by
      apply isecn.ext normalX.tree
      intro g
      rw [normalX.tree.mem_leftIsecn normalX.tree addresses, and_self]
    rw [idempotent, normalX.eq]
  · next ne =>
    have treeX := normalX.tree
    have treeY := normalY.tree
    split
    · next wrappedX wrappedY => rw [asAtree_nongen wrappedX, asAtree_nongen wrappedY]
    · next wrappedX atomicY =>
      rw [asAtree_nongen wrappedX] at treeX ⊢
      rw [asAtree_atomic atomicY, treeX.find_map_leaf addresses (normalY.alive atomicY) atomicY]
    · next atomicX wrappedY =>
      rw [asAtree_nongen wrappedY] at treeY ⊢
      rw [asAtree_atomic atomicX] at treeX ⊢
      rw [treeY.find_map_leaf addresses (normalX.alive atomicX) atomicX, treeY.leftIsecn_comm treeX addresses]
    · next atomicX atomicY =>
      rw [asAtree_atomic atomicX] at treeX ⊢
      rw [asAtree_atomic atomicY] at treeY ⊢
      congr 1
      apply GenTree.none.ext (treeX.leftIsecn treeY addresses)
      intro g
      rw [treeX.mem_leftIsecn treeY addresses]
      refine iff_of_false (by simp [elements]) ?_
      rintro ⟨isX, isY⟩
      obtain rfl : g = x := by simpa [elements, Atree.toList] using isX
      exact ne (by simpa [elements, Atree.toList] using isY)

theorem Built.normal (built : Built address live meetOpr x) : Normal address live meetOpr x := by
  induction built with
  | @generator x alive atomic =>
    have same := asAtree_atomic atomic
    refine ⟨?_, by rw [same, slNew]⟩
    rw [same]
    exact GenTree.leaf addresses alive atomic
  | top => exact GenTree.none.normal
  | meet _ _ left right =>
    rw [meet_eq addresses left right]
    exact (left.tree.leftUnion right.tree addresses).normal
  | semijoin _ _ left right =>
    rw [semijoin_eq addresses left right]
    exact (left.tree.leftIsecn right.tree addresses).normal

private theorem mem_generators_meet (normalX : Normal address live meetOpr x) (normalY : Normal address live meetOpr y) :
    g ∈ generators meetOpr (meet address meetOpr x y) ↔ g ∈ generators meetOpr x ∨ g ∈ generators meetOpr y := by
  rw [meet_eq addresses normalX normalY, generators, asAtree_slNew (normalX.tree.leftUnion normalY.tree addresses)]
  exact normalX.tree.mem_leftUnion normalY.tree addresses

private theorem mem_generators_semijoin (normalX : Normal address live meetOpr x)
    (normalY : Normal address live meetOpr y) :
    g ∈ generators meetOpr (semijoin address meetOpr x y) ↔ g ∈ generators meetOpr x ∧ g ∈ generators meetOpr y := by
  rw [semijoin_eq addresses normalX normalY, generators, asAtree_slNew (normalX.tree.leftIsecn normalY.tree addresses)]
  exact normalX.tree.mem_leftIsecn normalY.tree addresses

end

omit [DecidableEq α] in
theorem generators_top : generators meetOpr (top meetOpr : Ex α) = [] := by
  simp [generators, asAtree, slAtree, top, elements]

omit [DecidableEq α] in
theorem Normal.eq_top_of_subset (normal : Normal address live meetOpr x) (addresses : Addresses address live)
    {tree : Option (Atree (Ex α))} (wrapped : slAtree meetOpr x = some tree) (alive : live y)
    (atomic : slAtree meetOpr y = none) (sub : ∀ g ∈ elements tree, g = y) : tree = none := by
  have gen := normal.tree
  have same := normal.eq
  rw [asAtree_nongen wrapped] at gen same
  cases tree with
  | none => rfl
  | some t =>
    have single : some t = some (.leaf y) := by
      apply gen.ext (GenTree.leaf addresses alive atomic)
      intro g
      obtain ⟨key, value, found⟩ := (gen.wf t rfl).exists_find
      have mem : value ∈ elements (some t) := by
        rw [gen.wf.mem_elements_iff, key_of_findLoop found]
        exact found
      simp only [elements, Atree.toList, List.mem_singleton]
      constructor
      · exact sub g
      · rintro rfl
        rwa [sub value mem] at mem
    rw [single, slNew] at same
    rw [← same, atomic] at wrapped
    cases wrapped

theorem leq_iff (addresses : Addresses address live) (normalX : Normal address live meetOpr x)
    (normalY : Normal address live meetOpr y) :
    leq address meetOpr x y = true ↔ ∀ g ∈ generators meetOpr y, g ∈ generators meetOpr x := by
  have treeX := normalX.tree
  have treeY := normalY.tree
  rw [leq]
  split
  · next same => simp [same]
  · next ne =>
    rw [generators, generators]
    split
    · next wrappedX wrappedY =>
      rw [asAtree_nongen wrappedX] at treeX ⊢
      rw [asAtree_nongen wrappedY] at treeY ⊢
      rw [((exact_of_even treeY.wf treeX.wf (treeY.even addresses) (treeX.even addresses)).1.trans included_true_iff),
        treeY.subkeys_iff treeX addresses]
    · next wrappedX atomicY =>
      rw [asAtree_nongen wrappedX] at treeX ⊢
      rw [asAtree_atomic atomicY, treeX.isSome_find addresses (normalY.alive atomicY)]
      simp [elements, Atree.toList]
    · next atomicX wrappedY =>
      rw [asAtree_nongen wrappedY, asAtree_atomic atomicX]
      constructor
      · intro empty
        simp [Option.isNone_iff_eq_none.mp empty, elements]
      · intro sub
        have single : ∀ g ∈ elements _, g = x := fun g mem => by simpa [elements, Atree.toList] using sub g mem
        rw [normalY.eq_top_of_subset addresses wrappedY (normalX.alive atomicX) atomicX single]
        rfl
    · next atomicX atomicY =>
      simp [asAtree_atomic atomicX, asAtree_atomic atomicY, elements, Atree.toList, Ne.symm ne]

omit [DecidableEq α] in
private theorem slAtree_top : slAtree meetOpr (top meetOpr : Ex α) = some none := by simp [slAtree, top]

omit [DecidableEq α] in
private theorem eq_top_iff : x = top meetOpr ↔ slAtree meetOpr x = some none := by
  constructor
  · intro same
    rw [same, slAtree_top]
  intro wrapped
  cases x with
  | semilattice opr tree =>
    rw [slAtree] at wrapped
    split at wrapped
    · next same =>
      cases wrapped
      rw [same, top]
    · cases wrapped
  | _ => cases wrapped

private theorem not_leq_of_atomic (addresses : Addresses address live) (normalX : Normal address live meetOpr x)
    (normalY : Normal address live meetOpr y) {t : Atree (Ex α)} (wrapped : slAtree meetOpr x = some (some t))
    (atomic : slAtree meetOpr y = none) : leq address meetOpr y x ≠ true := by
  intro less
  have sub := (leq_iff addresses normalY normalX).mp less
  rw [generators, generators, asAtree_nongen wrapped, asAtree_atomic atomic] at sub
  have single : ∀ g ∈ elements (some t), g = y := fun g mem => by simpa [elements, Atree.toList] using sub g mem
  cases normalX.eq_top_of_subset addresses wrapped (normalY.alive atomic) atomic single

/-- The order is right for all elements but the top and a single generator. -/
theorem order_describes_iff (addresses : Addresses address live) (normalX : Normal address live meetOpr x)
    (normalY : Normal address live meetOpr y) :
    Atree.Describes (order address meetOpr x y) (leq address meetOpr x y = true) (leq address meetOpr y x = true) ↔
      ¬((x = top meetOpr ∧ slAtree meetOpr y = none) ∨ (slAtree meetOpr x = none ∧ y = top meetOpr)) := by
  have treeX := normalX.tree
  have treeY := normalY.tree
  have below := leq_iff addresses normalX normalY
  have above := leq_iff addresses normalY normalX
  rw [eq_top_iff, eq_top_iff]
  rw [order]
  split
  · next same =>
    subst same
    refine iff_of_true ⟨by simp [leq], by simp [leq]⟩ ?_
    rintro (⟨wrapped, atomic⟩ | ⟨atomic, wrapped⟩) <;> simp [wrapped] at atomic
  · next ne =>
    match wrappedX : slAtree meetOpr x, wrappedY : slAtree meetOpr y with
    | some tree0, some tree1 =>
      rw [asAtree_nongen wrappedX] at treeX
      rw [asAtree_nongen wrappedY] at treeY
      rw [generators, generators, asAtree_nongen wrappedX, asAtree_nongen wrappedY] at below above
      refine iff_of_true ?_ (by simp)
      apply ((exact_of_even treeY.wf treeX.wf (treeY.even addresses) (treeX.even addresses)).2.2.congr
        included_true_iff included_true_iff).congr
      · rw [below, treeY.subkeys_iff treeX addresses]
      · rw [above, treeX.subkeys_iff treeY addresses]
    | some (some t), none =>
      have notAbove := not_leq_of_atomic addresses normalX normalY wrappedX wrappedY
      refine iff_of_true ?_ (by simp)
      have found : leq address meetOpr x y = true ↔ (Atree.find address (some t) (address y)).isSome = true := by
        rw [leq, if_neg ne, wrappedX, wrappedY]
      dsimp only
      split
      · next stored => exact ⟨found.mpr stored, notAbove⟩
      · next absent => exact ⟨fun less => absent (found.mp less), notAbove⟩
    | none, some (some t) =>
      have notBelow := not_leq_of_atomic addresses normalY normalX wrappedY wrappedX
      refine iff_of_true ?_ (by simp)
      have found : leq address meetOpr y x = true ↔ (Atree.find address (some t) (address x)).isSome = true := by
        rw [leq, if_neg (Ne.symm ne), wrappedX, wrappedY]
      dsimp only
      split
      · next stored => exact ⟨notBelow, found.mpr stored⟩
      · next absent => exact ⟨notBelow, fun less => absent (found.mp less)⟩
    | some none, none =>
      have less : leq address meetOpr y x = true := by
        rw [leq, if_neg (Ne.symm ne), wrappedX, wrappedY]
        rfl
      exact iff_of_false (fun describes => describes.2 less) (by simp)
    | none, some none =>
      have less : leq address meetOpr x y = true := by
        rw [leq, if_neg ne, wrappedX, wrappedY]
        rfl
      exact iff_of_false (fun describes => describes.1 less) (by simp)
    | none, none =>
      refine iff_of_true ⟨?_, ?_⟩ (by simp)
      · simp [leq, ne, wrappedX, wrappedY]
      · simp [leq, Ne.symm ne, wrappedX, wrappedY]

/-- The laws of a free semilattice for elements built from generators. The order of the top and a single
generator is reported as none. -/
theorem free_semilattice (addresses : Addresses address live) (builtX : Built address live meetOpr x)
    (builtY : Built address live meetOpr y) (builtZ : Built address live meetOpr z) :
    meet address meetOpr x y = meet address meetOpr y x ∧
    meet address meetOpr (meet address meetOpr x y) z = meet address meetOpr x (meet address meetOpr y z) ∧
    meet address meetOpr x x = x ∧
    meet address meetOpr (top meetOpr) x = x ∧
    (x = y ↔ ∀ g, g ∈ generators meetOpr x ↔ g ∈ generators meetOpr y) ∧
    (∀ g, g ∈ generators meetOpr (meet address meetOpr x y) ↔ g ∈ generators meetOpr x ∨ g ∈ generators meetOpr y) ∧
    (∀ g, g ∈ generators meetOpr (semijoin address meetOpr x y) ↔
      g ∈ generators meetOpr x ∧ g ∈ generators meetOpr y) ∧
    generators meetOpr (top meetOpr : Ex α) = [] ∧
    (leq address meetOpr x y = true ↔ meet address meetOpr x y = x) ∧
    (Atree.Describes (order address meetOpr x y) (leq address meetOpr x y = true) (leq address meetOpr y x = true) ↔
      ¬((x = top meetOpr ∧ slAtree meetOpr y = none) ∨ (slAtree meetOpr x = none ∧ y = top meetOpr))) := by
  have normalX := builtX.normal addresses
  have normalY := builtY.normal addresses
  have normalXY := (builtX.meet builtY).normal addresses
  refine ⟨?_, ?_, if_pos rfl, ?_, ⟨fun same => by simp [same], normalX.ext normalY⟩,
    fun g => mem_generators_meet addresses normalX normalY, fun g => mem_generators_semijoin addresses normalX normalY,
    generators_top, ?_, order_describes_iff addresses normalX normalY⟩
  · apply normalXY.ext ((builtY.meet builtX).normal addresses)
    intro g
    rw [mem_generators_meet addresses normalX normalY, mem_generators_meet addresses normalY normalX, or_comm]
  · have normalZ := builtZ.normal addresses
    have normalYZ := (builtY.meet builtZ).normal addresses
    apply ((builtX.meet builtY).meet builtZ |>.normal addresses).ext ((builtX.meet (builtY.meet builtZ)).normal addresses)
    intro g
    rw [mem_generators_meet addresses normalXY normalZ, mem_generators_meet addresses normalX normalY,
      mem_generators_meet addresses normalX normalYZ, mem_generators_meet addresses normalY normalZ, or_assoc]
  · have normalTop : Normal address live meetOpr (top meetOpr) := Built.top.normal addresses
    apply ((Built.top.meet builtX).normal addresses).ext normalX
    intro g
    rw [mem_generators_meet addresses normalTop normalX, generators_top]
    simp
  · rw [leq_iff addresses normalX normalY]
    constructor
    · intro sub
      apply normalXY.ext normalX
      intro g
      rw [mem_generators_meet addresses normalX normalY]
      exact or_iff_left_of_imp (sub g)
    · intro same g member
      rw [← same, mem_generators_meet addresses normalX normalY]
      exact .inr member

end Elements

/-- Two objects at the addresses 8 and 16. -/
def smallAddress : Ex Bool → Word
  | .object false => 8
  | _ => 16

def smallLive (x : Ex Bool) : Prop := x = .object false ∨ x = .object true

private theorem smallAddresses : Addresses smallAddress smallLive := by
  refine ⟨?_, ?_, ?_, ?_⟩
  · rintro x y (rfl | rfl) (rfl | rfl) same
    · rfl
    · exact absurd same (by decide)
    · exact absurd same (by decide)
    · rfl
  · rintro x (rfl | rfl) <;> decide
  · rintro x (rfl | rfl) <;> decide
  · rintro x (rfl | rfl) <;> decide

theorem free_semilattice_small :
    meet smallAddress 0 (.object false) (.object true) = meet smallAddress 0 (.object true) (.object false) :=
  (free_semilattice smallAddresses (.generator (.inl rfl) rfl) (.generator (.inr rfl) rfl) .top).1

/-- The top is greater than a generator, which the order does not say. -/
theorem order_top_none :
    leq smallAddress 0 (.object false) (top 0) = true ∧ leq smallAddress 0 (top 0) (.object false) = false ∧
      order smallAddress 0 (.object false) (top 0) = .none ∧ order smallAddress 0 (top 0) (.object false) = .none := by
  decide

end Culibs.Cuex.Semilattice
