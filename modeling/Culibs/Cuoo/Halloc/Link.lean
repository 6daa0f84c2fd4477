import Mathlib.Data.List.Perm.Basic

/-! The chains of the hash-consing sets of `cuoo/halloc_disclaim.c`. A link is a null pointer,
an object, a pair of objects, or three objects with another link, told apart by pointer tags.
An object stands for its metadata and key words, which `_obj_eq` compares. -/

namespace Culibs.Cuoo.Halloc

open List

variable {Obj : Type}

/-- `_link_t` with what it points to. -/
inductive Link (Obj : Type) where
  | null
  | obj (obj0 : Obj)
  | pair (obj0 obj1 : Obj)
  | quad (obj0 obj1 obj2 : Obj) (link : Link Obj)
deriving DecidableEq

namespace Link

/-- The objects of a chain. -/
def objs : Link Obj → List Obj
  | null => []
  | obj obj0 => [obj0]
  | pair obj0 obj1 => [obj0, obj1]
  | quad obj0 obj1 obj2 link => obj0 :: obj1 :: obj2 :: link.objs

/-- `_merge_obj`, which inserts an object. -/
def mergeObj (o : Obj) : Link Obj → Link Obj
  | null => obj o
  | obj obj0 => pair obj0 o
  | pair obj0 obj1 => quad obj0 obj1 o null
  | quad obj0 obj1 obj2 link => quad obj0 obj1 obj2 (link.mergeObj o)

/-- `_merge_pair` -/
def mergePair (src0 src1 : Obj) : Link Obj → Link Obj
  | null => pair src0 src1
  | obj obj0 => quad src0 src1 obj0 null
  | pair obj0 obj1 => quad src0 src1 obj0 (obj obj1)
  | quad obj0 obj1 obj2 link => quad obj0 obj1 obj2 (link.mergePair src0 src1)

/-- `!link` -/
def isNull : Link Obj → Bool
  | null => true
  | _ => false

/-- `_merge_quad`, for a quad with the objects and the link that are given. -/
def mergeQuad (src0 src1 src2 : Obj) (srcLink : Link Obj) : Link Obj → Link Obj
  | null => quad src0 src1 src2 srcLink
  | obj obj0 => quad src0 src1 src2 (if srcLink.isNull then obj obj0 else srcLink.mergeObj obj0)
  | pair obj0 obj1 =>
    quad src0 src1 src2 (if srcLink.isNull then pair obj0 obj1 else srcLink.mergePair obj0 obj1)
  | quad obj0 obj1 obj2 link =>
    if srcLink.isNull then quad src0 src1 src2 (quad obj0 obj1 obj2 link)
    else quad obj0 obj1 obj2 (mergeQuad src0 src1 src2 srcLink link)

/-- The body of the inner loop of `_hset_shrink`. -/
def merge (dst src : Link Obj) : Link Obj :=
  match src, dst with
  | null, dst => dst
  | src, null => src
  | obj obj0, dst => dst.mergeObj obj0
  | pair obj0 obj1, dst => dst.mergePair obj0 obj1
  | quad obj0 obj1 obj2 link, dst => mergeQuad obj0 obj1 obj2 link dst

/-- `_hset_link_pop`: an object and the chain without it. -/
def pop : Link Obj → Option (Obj × Link Obj)
  | null => none
  | obj obj0 => some (obj0, null)
  | pair obj0 obj1 => some (obj1, obj obj0)
  | quad obj0 obj1 obj2 link =>
    if link.isNull then some (obj2, pair obj0 obj1)
    else link.pop.map fun popped => (popped.1, quad obj0 obj1 obj2 popped.2)

/-- What `_hset_erase` leaves of a quad, given the others of its objects and where an object
from its link goes. -/
def refill (link rest : Link Obj) (replaced : Obj → Link Obj → Link Obj) : Option (Link Obj) :=
  if link.isNull then some rest else link.pop.map fun popped => replaced popped.1 popped.2

variable {link : Link Obj}

theorem objs_of_isNull (isNull : link.isNull = true) : link.objs = [] := by
  cases link with
  | null => rfl
  | _ => cases isNull

theorem objs_mergeObj (o : Obj) (link : Link Obj) : (link.mergeObj o).objs = link.objs ++ [o] := by
  induction link with
  | null => rfl
  | obj obj0 => rfl
  | pair obj0 obj1 => rfl
  | quad obj0 obj1 obj2 link ih => simp only [mergeObj, objs, ih, cons_append]

theorem objs_mergePair (src0 src1 : Obj) (link : Link Obj) :
    (link.mergePair src0 src1).objs.Perm (link.objs ++ [src0, src1]) := by
  induction link with
  | null => exact .refl _
  | obj obj0 => exact @perm_append_comm _ [src0, src1] [obj0]
  | pair obj0 obj1 => exact @perm_append_comm _ [src0, src1] [obj0, obj1]
  | quad obj0 obj1 obj2 link ih => exact ((ih.cons obj2).cons obj1).cons obj0

private theorem objs_mergeQuad (src0 src1 src2 : Obj) (srcLink link : Link Obj) :
    (link.objs ++ src0 :: src1 :: src2 :: srcLink.objs).Perm (mergeQuad src0 src1 src2 srcLink link).objs := by
  induction link with
  | null => exact .refl _
  | obj obj0 =>
    rw [mergeQuad]
    split
    · next isNull =>
      rw [objs_of_isNull isNull]
      exact perm_append_comm
    · rw [objs, objs, objs_mergeObj]
      exact @perm_append_comm _ [obj0] _
  | pair obj0 obj1 =>
    rw [mergeQuad]
    split
    · next isNull =>
      rw [objs_of_isNull isNull]
      exact perm_append_comm
    · refine .trans ?_ ((((objs_mergePair obj0 obj1 srcLink).symm.cons src2).cons src1).cons src0)
      exact @perm_append_comm _ [obj0, obj1] _
  | quad obj0 obj1 obj2 link ih =>
    rw [mergeQuad]
    split
    · next isNull =>
      rw [objs_of_isNull isNull]
      exact perm_append_comm
    · exact ((ih.cons obj2).cons obj1).cons obj0

theorem objs_merge (dst src : Link Obj) : (dst.merge src).objs.Perm (dst.objs ++ src.objs) := by
  cases src with
  | null =>
    rw [merge, objs, append_nil]
  | obj obj0 =>
    cases dst with
    | null => exact .refl _
    | _ => exact .of_eq (objs_mergeObj obj0 _)
  | pair obj0 obj1 =>
    cases dst with
    | null => exact .refl _
    | _ => exact objs_mergePair obj0 obj1 _
  | quad obj0 obj1 obj2 link =>
    cases dst with
    | null => exact .refl _
    | _ => exact (objs_mergeQuad obj0 obj1 obj2 link _).symm

theorem pop_spec (nonnull : link.isNull = false) :
    ∃ o rest, link.pop = some (o, rest) ∧ link.objs.Perm (o :: rest.objs) := by
  induction link with
  | null => cases nonnull
  | obj obj0 => exact ⟨obj0, null, rfl, .refl _⟩
  | pair obj0 obj1 => exact ⟨obj1, obj obj0, rfl, .swap ..⟩
  | quad obj0 obj1 obj2 link ih =>
    rw [pop]
    by_cases isNull : link.isNull = true
    · refine ⟨obj2, pair obj0 obj1, if_pos isNull, ?_⟩
      have empty := objs_of_isNull isNull
      simp only [objs, empty]
      exact @perm_append_comm _ [obj0, obj1] _
    · obtain ⟨o, rest, popped, perm⟩ := ih (Bool.eq_false_iff.mpr isNull)
      refine ⟨o, quad obj0 obj1 obj2 rest, ?_, ?_⟩
      · rw [if_neg isNull, popped]
        rfl
      · exact (((perm.cons obj2).cons obj1).cons obj0).trans (@perm_append_comm _ [obj0, obj1, obj2] [o]
          |>.append_right rest.objs)

variable {rest : Link Obj}

private theorem refill_spec
    (places : ∀ popped left, (replaced popped left).objs.Perm (rest.objs ++ popped :: left.objs)) :
    ∃ refilled, link.refill rest replaced = some refilled ∧ (rest.objs ++ link.objs).Perm refilled.objs := by
  rw [refill]
  by_cases isNull : link.isNull = true
  · refine ⟨rest, if_pos isNull, ?_⟩
    rw [objs_of_isNull isNull, append_nil]
  · obtain ⟨o, left, popped, perm⟩ := pop_spec (Bool.eq_false_iff.mpr isNull)
    refine ⟨replaced o left, ?_, (perm.append_left rest.objs).trans (places o left).symm⟩
    rw [if_neg isNull, popped]
    rfl

variable [DecidableEq Obj]

/-- The search of `cuexP_halloc_raw` in a chain: whether the object is there, and the chain with it. -/
def halloc (o : Obj) : Link Obj → Bool × Link Obj
  | null => (false, obj o)
  | obj obj0 => if o = obj0 then (true, obj obj0) else (false, pair obj0 o)
  | pair obj0 obj1 =>
    if o = obj0 ∨ o = obj1 then (true, pair obj0 obj1) else (false, quad obj0 obj1 o null)
  | quad obj0 obj1 obj2 link =>
    if o = obj0 ∨ o = obj1 ∨ o = obj2 then (true, quad obj0 obj1 obj2 link)
    else
      let searched := link.halloc o
      (searched.1, quad obj0 obj1 obj2 searched.2)

/-- The search of `_hset_erase` in a chain. The assertions fail if the object is missing. -/
def erase (o : Obj) : Link Obj → Option (Link Obj)
  | null => none
  | obj obj0 => if o = obj0 then some null else none
  | pair obj0 obj1 => if obj0 = o then some (obj obj1) else if obj1 = o then some (obj obj0) else none
  | quad obj0 obj1 obj2 link =>
    if obj0 = o then link.refill (pair obj1 obj2) fun popped link => quad popped obj1 obj2 link
    else if obj1 = o then link.refill (pair obj2 obj0) fun popped link => quad obj0 popped obj2 link
    else if obj2 = o then link.refill (pair obj0 obj1) fun popped link => quad obj0 obj1 popped link
    else (link.erase o).map (quad obj0 obj1 obj2)

theorem halloc_spec (o : Obj) (link : Link Obj) : (link.halloc o).1 = decide (o ∈ link.objs) ∧
    (link.halloc o).2.objs = if o ∈ link.objs then link.objs else link.objs ++ [o] := by
  induction link with
  | null => simp [halloc, objs]
  | obj obj0 =>
    by_cases same : o = obj0
    · simp [halloc, objs, same]
    · simp [halloc, objs, same]
  | pair obj0 obj1 =>
    by_cases same : o = obj0 ∨ o = obj1
    · simp [halloc, objs, same]
    · simp [halloc, objs, same]
  | quad obj0 obj1 obj2 link ih =>
    by_cases same : o = obj0 ∨ o = obj1 ∨ o = obj2
    · have mem : o = obj0 ∨ o = obj1 ∨ o = obj2 ∨ o ∈ link.objs := by tauto
      simp [halloc, objs, same, mem]
    · have mem : (o = obj0 ∨ o = obj1 ∨ o = obj2 ∨ o ∈ link.objs) ↔ o ∈ link.objs := by tauto
      simp only [halloc, objs, if_neg same, ih, mem_cons, mem, true_and]
      split <;> rfl

theorem erase_spec (o : Obj) (link : Link Obj) (mem : o ∈ link.objs) :
    ∃ rest, link.erase o = some rest ∧ link.objs.Perm (o :: rest.objs) := by
  induction link with
  | null => cases mem
  | obj obj0 =>
    obtain rfl := mem_singleton.mp mem
    exact ⟨null, if_pos rfl, .refl _⟩
  | pair obj0 obj1 =>
    rw [erase]
    by_cases first : obj0 = o
    · exact ⟨obj obj1, if_pos first, by rw [← first]; exact .refl _⟩
    · obtain rfl : o = obj1 := by simpa [objs, Ne.symm first] using mem
      exact ⟨obj obj0, by rw [if_neg first, if_pos rfl], .swap ..⟩
  | quad obj0 obj1 obj2 link ih =>
    rw [erase]
    have rotated (x y z : Obj) (rest : List Obj) : (x :: y :: z :: rest).Perm (y :: z :: x :: rest) :=
      @perm_append_comm _ [x] [y, z] |>.append_right rest
    by_cases first : obj0 = o
    · have places (popped : Obj) (left : Link Obj) :
          (quad popped obj1 obj2 left).objs.Perm ((pair obj1 obj2).objs ++ popped :: left.objs) := rotated ..
      obtain ⟨refilled, made, perm⟩ := @refill_spec _ link _ _ places
      refine ⟨refilled, by rw [if_pos first]; exact made, ?_⟩
      rw [objs, first]
      exact perm.cons o
    · by_cases second : obj1 = o
      · have places (popped : Obj) (left : Link Obj) :
            (quad obj0 popped obj2 left).objs.Perm ((pair obj2 obj0).objs ++ popped :: left.objs) :=
          (rotated obj0 popped obj2 left.objs).trans (rotated popped obj2 obj0 left.objs)
        obtain ⟨refilled, made, perm⟩ := @refill_spec _ link _ _ places
        refine ⟨refilled, by rw [if_neg first, if_pos second]; exact made, ?_⟩
        rw [objs, second]
        exact (rotated obj0 o obj2 link.objs).trans (perm.cons o)
      · by_cases third : obj2 = o
        · have places (popped : Obj) (left : Link Obj) :
              (quad obj0 obj1 popped left).objs.Perm ((pair obj0 obj1).objs ++ popped :: left.objs) := .refl _
          obtain ⟨refilled, made, perm⟩ := @refill_spec _ link _ _ places
          refine ⟨refilled, by rw [if_neg first, if_neg second, if_pos third]; exact made, ?_⟩
          rw [objs, third]
          exact (rotated o obj0 obj1 link.objs).symm.trans (perm.cons o)
        · have later : o ∈ link.objs := by simpa [objs, Ne.symm first, Ne.symm second, Ne.symm third] using mem
          obtain ⟨rest, made, perm⟩ := ih later
          refine ⟨quad obj0 obj1 obj2 rest, ?_, ?_⟩
          · rw [if_neg first, if_neg second, if_neg third, made]
            rfl
          · exact (((perm.cons obj2).cons obj1).cons obj0).trans
              (@perm_append_comm _ [obj0, obj1, obj2] [o] |>.append_right rest.objs)

theorem mem_of_erase (erased : link.erase o = some rest) : o ∈ link.objs := by
  induction link generalizing rest with
  | null => cases erased
  | obj obj0 =>
    rw [erase] at erased
    split at erased
    · next same => exact mem_singleton.mpr same
    · cases erased
  | pair obj0 obj1 =>
    rw [erase] at erased
    split at erased
    · next same => simp [objs, same]
    · split at erased
      · next same => simp [objs, same]
      · cases erased
  | quad obj0 obj1 obj2 link ih =>
    rw [objs]
    by_cases here : obj0 = o ∨ obj1 = o ∨ obj2 = o
    · rcases here with rfl | rfl | rfl <;> simp
    · simp only [not_or] at here
      rw [erase, if_neg here.1, if_neg here.2.1, if_neg here.2.2, Option.map_eq_some_iff] at erased
      obtain ⟨rest, found, _⟩ := erased
      simp [ih found]

end Link

end Culibs.Cuoo.Halloc
