import Culibs.Cuex.Ex
import Culibs.Cuex.Atree.Position

/-! Labellings of `cuex/labelling.c`: an associative tree of pairs of a label and a
value, keyed by the addresses of the labels. -/

namespace Culibs.Cuex.Labelling

variable {α : Type}

/-- What the code finds in memory: the addresses of expressions, and the first operand's word and the second
operand that `cuex_opn_at` reads from an object that is not such an operation. `o2Metapair` is the operator
`CUEX_O2_METAPAIR`. -/
structure Memory (α : Type) where
  address : Ex α → Word
  firstWord : Ex α → Word
  secondOperand : Ex α → Option (Ex α)
  o2Metapair : Word

variable (memory : Memory α)

/-- The key `(cu_word_t)cuex_opn_at(e, 0)`. In an object of a labelling, the tree is in the place of the
first operand. -/
def getKey (e : Ex α) : Word :=
  match e with
  | .opn _ (l :: _) => memory.address l
  | .labelling none => 0
  | .labelling (some (.leaf x)) => memory.address x
  | e => memory.firstWord e

/-- `cuex_opn_at(e, 1)`. -/
def opnAt1 (e : Ex α) : Option (Ex α) :=
  match e with
  | .opn _ (_ :: v :: _) => some v
  | e => memory.secondOperand e

def lO2Label (l e : Ex α) : Ex α := .opn memory.o2Metapair [l, e]

/-- The tree of an object for which `cuex_is_labelling` is true. -/
def labellingAtree (L : Ex α) : Option (Option (Atree (Ex α))) :=
  match L with
  | .labelling atree => some atree
  | _ => none

/-! Functions return `none` where they call `cu_bugf`. -/

def insert (L l e : Ex α) : Option (Ex α) := do
  let atree ← labellingAtree L
  some (.labelling (Atree.insert (getKey memory) atree (lO2Label memory l e)))

/-- `cuex_labelling_deep_insert`, which passes `L` for its tree. -/
def deepInsert (merge : Ex α → Ex α → Option (Ex α)) (L l e : Ex α) : Option (Ex α) := do
  let _ ← labellingAtree L
  some (.labelling (Atree.deepInsert (getKey memory) merge (some (.leaf L)) (lO2Label memory l e)))

/-- `cuex_labelling_find`, where the inner option is `NULL`. -/
def find (L l : Ex α) : Option (Option (Ex α)) := do
  let atree ← labellingAtree L
  match Atree.find (getKey memory) atree (memory.address l) with
  | some e => some (opnAt1 memory e)
  | none => some none

def erase (L l : Ex α) : Option (Ex α) := do
  let atree ← labellingAtree L
  some (.labelling (Atree.erase (getKey memory) atree (memory.address l)))

def leftUnion (L0 L1 : Ex α) : Option (Ex α) := do
  let atree0 ← labellingAtree L0
  let atree1 ← labellingAtree L1
  some (.labelling (Atree.leftUnion (getKey memory) atree0 atree1))

/-- `cuex_labelling_disjoint_union`, where the inner option is `NULL`. -/
def disjointUnion (L0 L1 : Ex α) : Option (Option (Ex α)) := do
  let atree0 ← labellingAtree L0
  let atree1 ← labellingAtree L1
  match atree0 with
  | none => some (some L1)
  | some _ =>
    match Atree.disjointUnion (getKey memory) atree0 atree1 with
    | none => some none
    | some tree => some (some (.labelling (some tree)))

/-- `_merge_iv_adaptor` for the values. -/
def mergeIvAdaptor (valueMerge : Ex α → Ex α → Option (Ex α)) (e0 e1 : Ex α) : Option (Ex α) := do
  let v0 ← opnAt1 memory e0
  let v1 ← opnAt1 memory e1
  valueMerge v0 v1

def deepUnion (merge : Ex α → Ex α → Option (Ex α)) (L0 L1 : Ex α) : Option (Ex α) := do
  let atree0 ← labellingAtree L0
  let atree1 ← labellingAtree L1
  some (.labelling (Atree.deepUnion (getKey memory) (mergeIvAdaptor memory merge) atree0 atree1))

def leftIsecn (L0 L1 : Ex α) : Option (Ex α) := do
  let atree0 ← labellingAtree L0
  let atree1 ← labellingAtree L1
  some (.labelling (Atree.leftIsecn (getKey memory) atree0 atree1))

def deepIsecn (merge : Ex α → Ex α → Option (Ex α)) (L0 L1 : Ex α) : Option (Ex α) := do
  let atree0 ← labellingAtree L0
  let atree1 ← labellingAtree L1
  some (.labelling (Atree.deepIsecn (getKey memory) (mergeIvAdaptor memory merge) atree0 atree1))

/-- Labels at distinct addresses, none of them at the address of a pair of itself or of a node of a tree. -/
structure Heap (live : Ex α → Prop) : Prop extends Addresses memory.address live where
  pairs : ∀ l v, live l → memory.address (lO2Label memory l v) ≠ memory.address l
  anodes : ∀ l centre left right, live l →
    memory.firstWord (.labelling (some (.anode centre left right))) ≠ memory.address l

/-- The tree of a labelling: its elements are pairs in the order of their labels. -/
structure PairTree (live : Ex α → Prop) (atree : Option (Atree (Ex α))) : Prop where
  wf : Atree.WfTree (getKey memory) atree 0 (2 ^ 63)
  pairs : ∀ e ∈ Atree.elements atree, ∃ l v, live l ∧ e = lO2Label memory l v

/-- A map of live labels to expressions. -/
def IsLabelling (live : Ex α → Prop) (L : Ex α) : Prop := ∃ atree, L = .labelling atree ∧ PairTree memory live atree

/-- The value of a label, or none if it is not bound. -/
def value (L l : Ex α) : Option (Ex α) := (find memory L l).join

/-- A function returns a labelling, and the map of it. -/
def Binds (live : Ex α → Prop) (result : Option (Ex α)) (expected : Ex α → Option (Ex α)) : Prop :=
  ∃ L, result = some L ∧ IsLabelling memory live L ∧ ∀ l, live l → find memory L l = some (expected l)

/-- A function returns a labelling of certain labels. -/
def BindsExactly (live : Ex α → Prop) (result : Option (Ex α)) (labels : Ex α → Prop) : Prop :=
  ∃ L, result = some L ∧ IsLabelling memory live L ∧ ∀ l, live l → ((value memory L l).isSome = true ↔ labels l)

/-- The functions that return a new labelling. -/
inductive Operation (α : Type) where
  | insert (l e : Ex α)
  | deepInsert (merge : Ex α → Ex α → Option (Ex α)) (l e : Ex α)
  | erase (l : Ex α)
  | leftUnion
  | disjointUnion
  | deepUnion (merge : Ex α → Ex α → Option (Ex α))
  | leftIsecn
  | deepIsecn (merge : Ex α → Ex α → Option (Ex α))

/-- The label of an operation is a live object. -/
def Operation.Legal (live : Ex α → Prop) : Operation α → Prop
  | insert l _ | deepInsert _ l _ | erase l => live l
  | _ => True

/-- What the operations are for. -/
def Operation.Law [DecidableEq α] (live : Ex α → Prop) (L0 L1 : Ex α) : Operation α → Prop
  | insert l e =>
    Binds memory live (Labelling.insert memory L0 l e)
      (Function.update (value memory L0) l ((value memory L0 l).or (some e)))
  | deepInsert merge l e =>
    Binds memory live (Labelling.deepInsert memory merge L0 l e)
      (Function.update (value memory L0) l (Atree.joinAt merge (value memory L0 l) (some e)))
  | erase l => Binds memory live (Labelling.erase memory L0 l) (Function.update (value memory L0) l none)
  | leftUnion =>
    Binds memory live (Labelling.leftUnion memory L0 L1) fun l => (value memory L0 l).or (value memory L1 l)
  | disjointUnion =>
    (Labelling.disjointUnion memory L0 L1 = some none ↔
      ∃ l, live l ∧ (value memory L0 l).isSome = true ∧ (value memory L1 l).isSome = true) ∧
    (Labelling.disjointUnion memory L0 L1 ≠ some none →
      Binds memory live (Labelling.disjointUnion memory L0 L1).join fun l => (value memory L0 l).or (value memory L1 l))
  | deepUnion merge =>
    Binds memory live (Labelling.deepUnion memory merge L0 L1) fun l =>
      Atree.joinAt merge (value memory L0 l) (value memory L1 l)
  | leftIsecn =>
    Binds memory live (Labelling.leftIsecn memory L0 L1) fun l =>
      if (value memory L1 l).isSome then value memory L0 l else none
  | deepIsecn merge =>
    BindsExactly memory live (Labelling.deepIsecn memory merge L0 L1) fun l =>
      (value memory L0 l).isSome = true ∧ (value memory L1 l).isSome = true

/-- When the functions do it. -/
def Operation.Sound (live : Ex α → Prop) (L0 L1 : Ex α) : Operation α → Prop
  | deepInsert .. => False
  | deepUnion merge =>
    (∀ l, live l → ¬((value memory L0 l).isSome = true ∧ (value memory L1 l).isSome = true)) ∨
      ∀ l, live l → Atree.joinAt merge (value memory L0 l) (value memory L1 l) = none
  | deepIsecn merge =>
    ∀ l v0 v1, live l → value memory L0 l = some v0 → value memory L1 l = some v1 →
      ∃ w, merge v0 v1 = some (lO2Label memory l w)
  | _ => True

end Culibs.Cuex.Labelling
