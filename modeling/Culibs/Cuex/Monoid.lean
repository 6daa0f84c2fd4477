import Culibs.Cuex.Ex
import Culibs.Cuex.Ltree.Append

/-! Monoid expressions of `cuex/monoid.c`: a generator, or a left-packed tree of
any other number of generators. -/

namespace Culibs.Cuex.Monoid

open List Ltree

open Ltree (EndsEarly Sized elements)

variable {α : Type} {mult : Word} {x y z g : Ex α} {l xs ys : List (Ex α)}

/-- The tree of an element for which `cuex_is_monoid_nongen` is true. -/
def nongenLtree (mult : Word) (x : Ex α) : Option (Option (Ltree (Ex α))) :=
  match x with
  | .monoid opr ltree => if opr = mult then some ltree else none
  | _ => none

def identity (mult : Word) : Ex α := .monoid mult none

/-- `cuex_monoid_product`, undefined where the concatenation is. -/
def product (mult : Word) (x y : Ex α) : Option (Ex α) :=
  match nongenLtree mult x with
  | some none => some y
  | some (some s) =>
    match nongenLtree mult y with
    | some none => some x
    | some (some t) => (Ltree.concat (some s) (some t)).map (.monoid mult)
    | none => (Ltree.concat (some s) (some (.leaf y))).map (.monoid mult)
  | none =>
    match nongenLtree mult y with
    | some none => some x
    | some (some t) => (Ltree.concat (some (.leaf x)) (some t)).map (.monoid mult)
    | none => (Ltree.concat (some (.leaf x)) (some (.leaf y))).map (.monoid mult)

def rightmult (mult : Word) (x y : Ex α) : Option (Ex α) :=
  match nongenLtree mult x with
  | some none => some y
  | some (some s) => (Ltree.concat (some s) (some (.leaf y))).map (.monoid mult)
  | none => (Ltree.concat (some (.leaf x)) (some (.leaf y))).map (.monoid mult)

def fromArray (mult : Word) (array : List (Ex α)) : Ex α :=
  match array with
  | [x] => x
  | array => .monoid mult (Ltree.fromArray array)

/-- A tree as an expression: a singleton is its element. -/
def unwrapSingleton (mult : Word) (ltree : Option (Ltree (Ex α))) : Ex α :=
  match ltree with
  | some (.leaf x) => x
  | ltree => .monoid mult ltree

def fromSource (mult : Word) (source : List (Ex α)) : Ex α := unwrapSingleton mult (Ltree.fromArray source)

def rightmultSource (mult : Word) (x : Ex α) (ySource : List (Ex α)) : Ex α :=
  match nongenLtree mult x with
  | some none => fromSource mult ySource
  | some (some s) => .monoid mult (Ltree.appendFromSource (some s) ySource)
  | none => unwrapSingleton mult (Ltree.appendFromSource (some (.leaf x)) ySource)

def rightmultArray (mult : Word) (x : Ex α) (array : List (Ex α)) : Ex α := rightmultSource mult x array

/-- The factors as `cuex_monoid_length` and `cuex_monoid_factor_at` give them. -/
def factors (mult : Word) (x : Ex α) : List (Ex α) :=
  match nongenLtree mult x with
  | some ltree => elements ltree
  | none => [x]

def Generators (mult : Word) (l : List (Ex α)) : Prop := ∀ g ∈ l, nongenLtree mult g = none

/-- What is built by the functions of the module. -/
inductive Built (mult : Word) : Ex α → Prop where
  | generator {x : Ex α} (atomic : nongenLtree mult x = none) : Built mult x
  | identity : Built mult (identity mult)
  | fromArray {l : List (Ex α)} (generators : Generators mult l) : Built mult (fromArray mult l)
  | fromSource {l : List (Ex α)} (generators : Generators mult l) : Built mult (fromSource mult l)
  | product {x y z : Ex α} (left : Built mult x) (right : Built mult y) (result : product mult x y = some z) :
    Built mult z
  | rightmult {x y z : Ex α} (left : Built mult x) (right : nongenLtree mult y = none)
    (result : rightmult mult x y = some z) : Built mult z
  | rightmultArray {x : Ex α} {ys : List (Ex α)} (left : Built mult x) (right : Generators mult ys)
    (goesOn : ¬EndsEarly (factors mult x).length ((factors mult x).length + ys.length)) :
    Built mult (rightmultArray mult x ys)

theorem fromArray_of_ne (other : l.length ≠ 1) : fromArray mult l = .monoid mult (Ltree.fromArray l) := by
  match l, other with
  | [], _ => rfl
  | _ :: _ :: _, _ => rfl

theorem nongenLtree_fromArray (other : l.length ≠ 1) : nongenLtree mult (fromArray mult l) = some (Ltree.fromArray l) := by
  rw [fromArray_of_ne other, nongenLtree, if_pos rfl]

private theorem fromArray_nil : fromArray mult ([] : List (Ex α)) = identity mult := rfl

theorem fromArray_singleton : fromArray mult [x] = x := rfl

theorem generators_append (left : Generators mult xs) (right : Generators mult ys) : Generators mult (xs ++ ys) := by
  intro g mem
  rcases mem_append.mp mem with inLeft | inRight
  · exact left g inLeft
  · exact right g inRight

theorem factors_fromArray (generators : Generators mult l) : factors mult (fromArray mult l) = l := by
  by_cases one : l.length = 1
  · obtain ⟨g, rfl⟩ := length_eq_one_iff.mp one
    rw [fromArray_singleton, factors, generators g (mem_singleton_self g)]
  · rw [factors, nongenLtree_fromArray one]
    exact elements_fromArray l

/-- An expression is its tree of factors, with a generator standing for itself. -/
theorem unwrapSingleton_fromArray : unwrapSingleton mult (Ltree.fromArray l) = fromArray mult l := by
  by_cases one : l.length = 1
  · obtain ⟨g, rfl⟩ := length_eq_one_iff.mp one
    rfl
  rw [fromArray_of_ne one]
  match same : Ltree.fromArray l with
  | none => rfl
  | some (.node ..) => rfl
  | some (.leaf a) =>
    have sequence := elements_fromArray l
    rw [same] at sequence
    simp [← sequence, elements, Ltree.visited] at one

private theorem eq_identity_of_nongenLtree (empty : nongenLtree mult x = some none) : x = identity mult := by
  cases x with
  | monoid opr ltree =>
    rw [nongenLtree] at empty
    split at empty
    · next same =>
      cases empty
      rw [same, identity]
    · cases empty
  | _ => cases empty

theorem product_identity_left : product mult (identity mult) y = some y := by
  simp [product, nongenLtree, identity]

theorem product_identity_right : product mult x (identity mult) = some x := by
  have empty : nongenLtree mult (identity mult : Ex α) = some none := by simp [nongenLtree, identity]
  rw [product, empty]
  split
  · next same => rw [eq_identity_of_nongenLtree same]
  · rfl
  · rfl

/-- An element as the operand of `cuex_ltree_concat`. -/
def asLtree (mult : Word) (x : Ex α) : Option (Ltree (Ex α)) := (nongenLtree mult x).getD (some (.leaf x))

theorem product_eq_concat (left : nongenLtree mult x ≠ some none) (right : nongenLtree mult y ≠ some none) :
    product mult x y = (Ltree.concat (asLtree mult x) (asLtree mult y)).map (.monoid mult) := by
  rw [product, asLtree, asLtree]
  split
  · next same => exact absurd same left
  all_goals
    next same =>
    rw [same]
    split
    · next same => exact absurd same right
    · next same => rw [same]; rfl
    · next same => rw [same]; rfl

private theorem rightmult_eq_product (atomic : nongenLtree mult y = none) : rightmult mult x y = product mult x y := by
  rw [rightmult, product]
  split <;> simp only [atomic]

private theorem asLtree_fromArray (generators : Generators mult l) : asLtree mult (fromArray mult l) = Ltree.fromArray l := by
  by_cases one : l.length = 1
  · obtain ⟨g, rfl⟩ := length_eq_one_iff.mp one
    rw [fromArray_singleton, asLtree, generators g (mem_singleton_self g)]
    rfl
  · rw [asLtree, nongenLtree_fromArray one]
    rfl

private theorem nongenLtree_fromArray_ne (generators : Generators mult l) (nonempty : l ≠ []) :
    nongenLtree mult (fromArray mult l) ≠ some none := by
  by_cases one : l.length = 1
  · obtain ⟨g, rfl⟩ := length_eq_one_iff.mp one
    rw [fromArray_singleton, generators g (mem_singleton_self g)]
    nofun
  · obtain ⟨t, _, packed⟩ := fromArray_ne_none nonempty
    rw [nongenLtree_fromArray one, packed]
    nofun

theorem product_eq_some_iff (left : Generators mult xs) (right : Generators mult ys) :
    product mult (fromArray mult xs) (fromArray mult ys) = some z ↔ Sized xs ys ∧ fromArray mult (xs ++ ys) = z := by
  by_cases emptyX : xs = []
  · subst emptyX
    rw [fromArray_nil, product_identity_left, nil_append, Option.some.injEq, and_iff_right (.inl rfl)]
  by_cases emptyY : ys = []
  · subst emptyY
    rw [fromArray_nil, product_identity_right, append_nil, Option.some.injEq, and_iff_right (.inr (Nat.zero_le _))]
  have several : (xs ++ ys).length ≠ 1 := by
    have := length_pos_iff.mpr emptyX
    have := length_pos_iff.mpr emptyY
    rw [length_append]
    omega
  rw [product_eq_concat (nongenLtree_fromArray_ne left emptyX) (nongenLtree_fromArray_ne right emptyY),
    asLtree_fromArray left, asLtree_fromArray right, fromArray_of_ne several, Option.map_eq_some_iff]
  simp only [concat_eq_some_iff]
  constructor
  · rintro ⟨_, ⟨sized, rfl⟩, rfl⟩
    exact ⟨sized, rfl⟩
  · rintro ⟨sized, rfl⟩
    exact ⟨_, ⟨sized, rfl⟩, rfl⟩

theorem rightmultArray_eq_iff (left : Generators mult xs) :
    rightmultArray mult (fromArray mult xs) ys = fromArray mult (xs ++ ys) ↔
      ¬EndsEarly xs.length (xs.length + ys.length) := by
  by_cases one : xs.length = 1
  · obtain ⟨g, rfl⟩ := length_eq_one_iff.mp one
    have goesOn : ¬EndsEarly [g].length ([g].length + ys.length) := endsEarly_of_le_one (by simp)
    have appended : Ltree.appendFromSource (some (.leaf g)) ys = Ltree.fromArray ([g] ++ ys) :=
      appendFromSource_eq_iff.mpr goesOn
    refine iff_of_true ?_ goesOn
    rw [fromArray_singleton, rightmultArray, rightmultSource, left g (mem_singleton_self g)]
    dsimp only
    rw [appended, unwrapSingleton_fromArray]
  · rw [rightmultArray, rightmultSource, nongenLtree_fromArray one]
    by_cases empty : xs = []
    · subst empty
      exact iff_of_true unwrapSingleton_fromArray (endsEarly_of_le_one (by simp))
    · obtain ⟨t, _, packed⟩ := fromArray_ne_none empty
      have several : (xs ++ ys).length ≠ 1 := by
        have := length_pos_iff.mpr empty
        rw [length_append]
        omega
      rw [← appendFromSource_eq_iff, packed, fromArray_of_ne several]
      simp

theorem Built.normal (built : Built mult x) :
    Generators mult (factors mult x) ∧ Monoid.fromArray mult (factors mult x) = x := by
  have canonical {l : List (Ex α)} (generators : Generators mult l) :
      Generators mult (factors mult (Monoid.fromArray mult l)) ∧
        Monoid.fromArray mult (factors mult (Monoid.fromArray mult l)) = Monoid.fromArray mult l := by
    rw [factors_fromArray generators]
    exact ⟨generators, rfl⟩
  induction built with
  | @generator x atomic => exact canonical (l := [x]) (by simpa [Generators] using atomic)
  | identity => exact canonical (l := []) (by simp [Generators])
  | fromArray generators => exact canonical generators
  | fromSource generators =>
    rw [Monoid.fromSource, unwrapSingleton_fromArray]
    exact canonical generators
  | product _ _ result left right =>
    rw [← left.2, ← right.2] at result
    obtain ⟨_, rfl⟩ := (product_eq_some_iff left.1 right.1).mp result
    exact canonical (generators_append left.1 right.1)
  | @rightmult x y z _ atomic result left =>
    have single : Generators mult [y] := by simpa [Generators] using atomic
    have atom : Monoid.fromArray mult [y] = y := rfl
    rw [rightmult_eq_product atomic, ← left.2] at result
    obtain ⟨_, rfl⟩ := (product_eq_some_iff left.1 single).mp result
    exact canonical (generators_append left.1 single)
  | rightmultArray _ generators goesOn left =>
    have appended := (rightmultArray_eq_iff left.1).mpr goesOn
    rw [left.2] at appended
    rw [appended]
    exact canonical (generators_append left.1 generators)

theorem foldlM_product (left : Generators mult xs) (right : Generators mult ys) :
    ys.foldlM (product mult) (fromArray mult xs) = some (fromArray mult (xs ++ ys)) := by
  induction ys generalizing xs with
  | nil =>
    rw [append_nil]
    rfl
  | cons y ys ih =>
    have single : Generators mult [y] := by simpa [Generators] using right y mem_cons_self
    have next : product mult (fromArray mult xs) y = some (fromArray mult (xs ++ [y])) := by
      have := (product_eq_some_iff left single).mpr ⟨.inr (by simp), rfl⟩
      rwa [fromArray_singleton] at this
    have split : xs ++ y :: ys = xs ++ [y] ++ ys := by simp
    rw [foldlM_cons, next, split]
    exact ih (generators_append left single) fun g mem => right g (.tail _ mem)

/-- The laws of a free monoid in normal form, with the sizes for which the products are defined, and
the arrays for which `cuex_monoid_rightmult_array` is the product from left to right. -/
theorem product_laws (builtX : Built mult x) (builtY : Built mult y) (builtZ : Built mult z)
    (generators : Generators mult ys) :
    ((∃ p, (product mult x y).bind (product mult · z) = some p ∧
        (product mult y z).bind (product mult x) = some p) ↔
      (Sized (factors mult x) (factors mult y) ∧ Sized (factors mult x ++ factors mult y) (factors mult z)) ∧
        (Sized (factors mult y) (factors mult z) ∧ Sized (factors mult x) (factors mult y ++ factors mult z))) ∧
    (product mult (identity mult) x = some x ∧ product mult x (identity mult) = some x) ∧
    ((∃ p, product mult x y = some p ∧ factors mult p = factors mult x ++ factors mult y) ↔
      Sized (factors mult x) (factors mult y)) ∧
    ((factors mult x).length = 1 → nongenLtree mult x = none) ∧
    (ys.foldlM (product mult) x = some (rightmultArray mult x ys) ↔
      ¬EndsEarly (factors mult x).length ((factors mult x).length + ys.length)) := by
  obtain ⟨generatorsX, normalX⟩ := builtX.normal
  obtain ⟨generatorsY, normalY⟩ := builtY.normal
  obtain ⟨generatorsZ, normalZ⟩ := builtZ.normal
  generalize factors mult x = xs at *
  generalize factors mult y = ys' at *
  generalize factors mult z = zs at *
  subst normalX normalY normalZ
  refine ⟨?_, ⟨product_identity_left, product_identity_right⟩, ?_, ?_, ?_⟩
  · simp only [Option.bind_eq_some_iff, product_eq_some_iff generatorsX generatorsY,
      product_eq_some_iff generatorsY generatorsZ]
    constructor
    · rintro ⟨p, ⟨_, ⟨sizedXY, rfl⟩, left⟩, _, ⟨sizedYZ, rfl⟩, right⟩
      have left := (product_eq_some_iff (generators_append generatorsX generatorsY) generatorsZ).mp left
      have right := (product_eq_some_iff generatorsX (generators_append generatorsY generatorsZ)).mp right
      exact ⟨⟨sizedXY, left.1⟩, sizedYZ, right.1⟩
    · rintro ⟨⟨sizedXY, sizedLeft⟩, sizedYZ, sizedRight⟩
      refine ⟨fromArray mult (xs ++ ys' ++ zs), ⟨_, ⟨sizedXY, rfl⟩, ?_⟩, _, ⟨sizedYZ, rfl⟩, ?_⟩
      · exact (product_eq_some_iff (generators_append generatorsX generatorsY) generatorsZ).mpr ⟨sizedLeft, rfl⟩
      · rw [append_assoc]
        exact (product_eq_some_iff generatorsX (generators_append generatorsY generatorsZ)).mpr ⟨sizedRight, rfl⟩
  · simp only [product_eq_some_iff generatorsX generatorsY]
    constructor
    · rintro ⟨p, ⟨sized, _⟩, _⟩
      exact sized
    · intro sized
      exact ⟨_, ⟨sized, rfl⟩, factors_fromArray (generators_append generatorsX generatorsY)⟩
  · intro one
    obtain ⟨g, rfl⟩ := length_eq_one_iff.mp one
    exact generatorsX g (mem_singleton_self g)
  · rw [foldlM_product generatorsX generators, Option.some.injEq, eq_comm]
    exact rightmultArray_eq_iff generatorsX

theorem product_laws_small :
    (∃ p, (product 0 (.object 1) (.object 2)).bind (product 0 · (.object 3)) = some p) ∧
      [.object 2, .object 3].foldlM (product 0) (.object 1) =
        some (rightmultArray 0 (.object 1) [.object 2, .object 3] : Ex Nat) := by
  have generator (a : Nat) : Built 0 (.object a) := .generator rfl
  have generators : Generators 0 [(.object 2 : Ex Nat), .object 3] := by simp [Generators, nongenLtree]
  have laws := product_laws (generator 1) (generator 2) (generator 3) generators
  constructor
  · obtain ⟨p, left, _⟩ := laws.1.mpr (by simp [Sized, factors, nongenLtree])
    exact ⟨p, left⟩
  · exact laws.2.2.2.2.mpr (endsEarly_of_le_one (by simp [factors, nongenLtree]))

/-- With an empty array, the product of five generators is rebuilt with a chain of single operands. -/
theorem rightmultArray_nil_ne :
    Built 0 (fromArray 0 (replicate 5 (.object ())) : Ex Unit) ∧
      [].foldlM (product 0) (fromArray 0 (replicate 5 (.object ())) : Ex Unit) ≠
        some (rightmultArray 0 (fromArray 0 (replicate 5 (.object ()))) []) := by
  have generators : Generators 0 (replicate 5 (.object () : Ex Unit)) := by simp [Generators, nongenLtree]
  refine ⟨.fromArray generators, ?_⟩
  have early : EndsEarly (replicate 5 (.object () : Ex Unit)).length 5 := ⟨0, 1, by simp [Ltree.Ends]⟩
  intro same
  rw [foldlM_product generators (by simp [Generators]), Option.some.injEq, eq_comm] at same
  exact (rightmultArray_eq_iff generators).mp same early

end Culibs.Cuex.Monoid
