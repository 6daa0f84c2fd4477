import Culibs.Cu.Int
import Culibs.Cuoo.Halloc.Link
import Mathlib.Data.List.Nodup

/-! The hash-consing sets of `cuoo/halloc_disclaim.c`, without their locks and free lists. -/

namespace Culibs.Cuoo.Halloc

open Cu List Nat

variable {Obj : Type}

def minCapacity : Nat := 8

def minLoadNumer : Nat := 3

def minLoadDenom : Nat := 8

def maxLoadNumer : Nat := 3

def maxLoadDenom : Nat := 2

/-- `struct _hset` -/
structure Hset (Obj : Type) where
  size : Nat
  mask : Nat
  arr : List (Link Obj)
deriving DecidableEq

namespace Hset

/-- `_hset_init` -/
def init : Hset Obj :=
  { size := 0, mask := minCapacity - 1, arr := replicate minCapacity .null }

/-- `_unewarrz_atomic(_link_t, count)`. A word cannot count the bytes of a larger array. -/
def unewarrz (count : Nat) : Option (List (Link Obj)) :=
  if 8 * count < 2 ^ 64 then some (replicate count .null) else none

/-- The outer loop of `_hset_shrink`, with the number of rounds, the new array and the rest of the old one. -/
def shrinkRounds (dstCap : Nat) : Nat → List (Link Obj) → List (Link Obj) → List (Link Obj)
  | 0, dst, _ => dst
  | rounds + 1, dst, src =>
    shrinkRounds dstCap rounds (zipWith Link.merge dst (src.take dstCap)) (src.drop dstCap)

/-- `_hset_shrink`, which asserts that the capacity is reduced. -/
def shrink (hset : Hset Obj) (dstCap : Nat) : Option (Hset Obj) :=
  let srcCap := hset.mask + 1
  if srcCap > dstCap then
    some { hset with
      mask := dstCap - 1
      arr := shrinkRounds dstCap (srcCap / dstCap - 1) (hset.arr.take dstCap) (hset.arr.drop dstCap) }
  else none

/-- The load below which `_hset_erase` calls `_hset_shrink`, and the new capacity. -/
def shrinkTo (size mask : Nat) : Option Nat :=
  if size * minLoadDenom < mask * minLoadNumer ∧ mask > minCapacity then
    let newCap := (sizeExp2ceil (BitVec.ofNat 64 (size * maxLoadDenom / maxLoadNumer))).toNat
    some (if newCap < minCapacity then minCapacity else newCap)
  else none

/-- The load above which `cuexP_halloc_raw` calls `_hset_grow`. -/
def overloaded (size mask : Nat) : Bool := size * maxLoadDenom > mask * maxLoadNumer

section Hash

variable (hash : Obj → Word)

/-- `hash & mask` -/
def slot (mask : Nat) (o : Obj) : Nat := (hash o).toNat &&& mask

/-- `_hset_reinsert` -/
def reinsert (mask : Nat) (arr : List (Link Obj)) (o : Obj) : List (Link Obj) :=
  arr.modify (slot hash mask o) (Link.mergeObj o)

/-- The loop of `_hset_grow` over the links of a slot. -/
def growSlot (mask : Nat) (arr : List (Link Obj)) : Link Obj → List (Link Obj)
  | .null => arr
  | .obj obj0 => reinsert hash mask arr obj0
  | .pair obj0 obj1 => reinsert hash mask (reinsert hash mask arr obj0) obj1
  | .quad obj0 obj1 obj2 link =>
    growSlot mask (reinsert hash mask (reinsert hash mask (reinsert hash mask arr obj0) obj1) obj2) link

/-- `_hset_grow` -/
def grow (hset : Hset Obj) (dstCap : Nat) : Option (Hset Obj) :=
  (unewarrz dstCap).map fun dst =>
    { hset with mask := dstCap - 1, arr := hset.arr.foldl (growSlot hash (dstCap - 1)) dst }

variable [DecidableEq Obj]

/-- `cuexP_halloc_raw` -/
def halloc (hset : Hset Obj) (o : Obj) : Option (Hset Obj) :=
  match hset.arr[slot hash hset.mask o]? with
  | none => none
  | some link =>
    let (found, link) := link.halloc o
    if found then some hset
    else
      let hset' := { hset with size := hset.size + 1, arr := hset.arr.set (slot hash hset.mask o) link }
      if overloaded hset'.size hset.mask then grow hash hset' ((hset.mask + 1) * 2) else some hset'

/-- `_hset_erase` -/
def erase (hset : Hset Obj) (o : Obj) : Option (Hset Obj) :=
  match (hset.arr[slot hash hset.mask o]?).bind (Link.erase o) with
  | none => none
  | some link =>
    let hset' := { hset with size := hset.size - 1, arr := hset.arr.set (slot hash hset.mask o) link }
    match shrinkTo hset'.size hset.mask with
    | none => some hset'
    | some newCap => hset'.shrink newCap

end Hash

/-- The objects in an array of links. -/
def stored (arr : List (Link Obj)) : List Obj := arr.flatMap Link.objs

theorem stored_replicate (count : Nat) : stored (replicate count (.null : Link Obj)) = [] := by
  induction count with
  | zero => rfl
  | succ count ih => exact ih

theorem stored_append (arr arr' : List (Link Obj)) : stored (arr ++ arr') = stored arr ++ stored arr' :=
  flatMap_append ..

variable {arr : List (Link Obj)}
variable {o : Obj}

theorem mem_stored :
    o ∈ stored arr ↔ ∃ link ∈ arr, o ∈ link.objs := mem_flatMap

variable {link : Link Obj}

theorem stored_set (held : arr[i]? = some link)
    (link' : Link Obj) {more : List Obj} (perm : link'.objs.Perm (more ++ link.objs)) :
    (stored (arr.set i link')).Perm (more ++ stored arr) := by
  induction arr generalizing i with
  | nil => cases held
  | cons first arr ih =>
    cases i with
    | zero =>
      obtain rfl : first = link := Option.some.inj held
      have moved := perm.append_right (stored arr)
      rwa [append_assoc] at moved
    | succ i =>
      have later := (ih held).append_left first.objs
      exact later.trans (perm_append_comm_assoc ..)

theorem stored_set_erase (held : arr[i]? = some link) (perm : link.objs.Perm (o :: link'.objs)) : (stored arr).Perm
    (o :: stored (arr.set i link')) := by
  induction arr generalizing i with
  | nil => cases held
  | cons first arr ih =>
    cases i with
    | zero =>
      obtain rfl : first = link := Option.some.inj held
      exact perm.append_right (stored arr)
    | succ i => exact ((ih held).append_left first.objs).trans perm_middle

/-- Each object is in the slot of its hash. -/
def Placed (hash : Obj → Word) (cap : Nat) (arr : List (Link Obj)) : Prop :=
  ∀ j link, arr[j]? = some link → ∀ o ∈ link.objs, (hash o).toNat % cap = j % cap

variable {hash : Obj → Word} {cap : Nat}

theorem Placed.set (placed : Placed hash cap arr) (i : Nat) (here : ∀ o ∈ link.objs, (hash o).toNat % cap = i %
    cap) : Placed hash cap (arr.set i link) := by
  intro j link' held
  by_cases same : i = j
  · subst same
    rw [getElem?_set] at held
    simp only [if_true] at held
    split at held
    · cases held
      exact here
    · cases held
  · rw [getElem?_set_ne same] at held
    exact placed j link' held

theorem placed_replicate (count : Nat) :
    Placed hash cap (replicate count (.null : Link Obj)) := by
  intro j link held o mem
  obtain rfl := eq_of_mem_replicate (mem_of_getElem? held)
  cases mem

section Grow

variable {hash : Obj → Word} {k : Nat}

theorem slot_eq (o : Obj) : slot hash (2 ^ k - 1) o = (hash o).toNat % 2 ^ k := and_two_pow_sub_one_eq_mod ..

theorem length_reinsert (mask : Nat) (arr : List (Link Obj)) (o : Obj) :
    (reinsert hash mask arr o).length = arr.length := length_modify ..

variable {arr : List (Link Obj)}

private theorem reinsert_spec (length : arr.length = 2 ^ k) (placed : Placed hash (2 ^ k) arr) (o : Obj) :
    (stored (reinsert hash (2 ^ k - 1) arr o)).Perm (o :: stored arr) ∧
      Placed hash (2 ^ k) (reinsert hash (2 ^ k - 1) arr o) := by
  have bound : (hash o).toNat % 2 ^ k < arr.length := by
    rw [length]
    exact Nat.mod_lt _ (Nat.two_pow_pos k)
  have held := getElem?_eq_getElem bound
  have stores : reinsert hash (2 ^ k - 1) arr o =
      arr.set ((hash o).toNat % 2 ^ k) ((arr[(hash o).toNat % 2 ^ k]).mergeObj o) := by
    rw [reinsert, slot_eq, modify_eq_set_getElem?, held]
    rfl
  have objs := Link.objs_mergeObj o arr[(hash o).toNat % 2 ^ k]
  rw [stores]
  refine ⟨?_, placed.set _ fun o' mem => ?_⟩
  · refine @stored_set _ _ _ _ held _ [o] ?_
    rw [objs]
    exact perm_append_comm
  · rw [objs, mem_append, mem_singleton] at mem
    rcases mem with old | rfl
    · exact placed _ _ held o' old
    · rw [mod_mod]

theorem growSlot_eq (mask : Nat) (arr : List (Link Obj)) (link : Link Obj) :
    growSlot hash mask arr link = link.objs.foldl (reinsert hash mask) arr := by
  induction link generalizing arr with
  | quad obj0 obj1 obj2 link ih => exact ih _
  | _ => rfl

theorem foldl_growSlot (mask : Nat) (src dst : List (Link Obj)) :
    src.foldl (growSlot hash mask) dst = (stored src).foldl (reinsert hash mask) dst := by
  induction src generalizing dst with
  | nil => rfl
  | cons link src ih =>
    rw [foldl_cons, growSlot_eq, ih]
    exact (foldl_append ..).symm

theorem foldl_reinsert (objs : List Obj) (length : arr.length = 2 ^ k)
    (placed : Placed hash (2 ^ k) arr) :
    let grown := objs.foldl (reinsert hash (2 ^ k - 1)) arr
    grown.length = 2 ^ k ∧ (stored grown).Perm (objs ++ stored arr) ∧ Placed hash (2 ^ k) grown := by
  induction objs generalizing arr with
  | nil => exact ⟨length, .refl _, placed⟩
  | cons o objs ih =>
    have added := reinsert_spec length placed o
    obtain ⟨length', perm, placed'⟩ := ih ((length_reinsert ..).trans length) added.2
    refine ⟨length', perm.trans ?_, placed'⟩
    exact (added.1.append_left objs).trans perm_middle

end Grow

section Shrink

variable {hash : Obj → Word} {cap : Nat}
variable {dst src : List (Link Obj)}

private theorem stored_zipWith (same : dst.length = src.length) :
    (stored (zipWith Link.merge dst src)).Perm (stored dst ++ stored src) := by
  induction dst generalizing src with
  | nil =>
    obtain rfl := length_eq_zero_iff.mp same.symm
    exact .refl _
  | cons link dst ih =>
    cases src with
    | nil => cases same
    | cons link' src =>
      have rest := ih (succ.inj same)
      have merged := (Link.objs_merge link link').append rest
      refine merged.trans ?_
      simp only [stored, flatMap_cons, append_assoc]
      exact (perm_append_comm_assoc ..).append_left _

private theorem placed_zipWith (placed : Placed hash cap dst) (placed' : Placed hash cap src) :
    Placed hash cap (zipWith Link.merge dst src) := by
  intro j link held o mem
  rw [getElem?_zipWith] at held
  split at held
  · next link0 link1 held0 held1 =>
    cases held
    rcases mem_append.mp ((Link.objs_merge link0 link1).mem_iff.mp mem) with old | moved
    · exact placed j link0 held0 o old
    · exact placed' j link1 held1 o moved
  · cases held

theorem Placed.take (placed : Placed hash cap arr) (count : Nat) :
    Placed hash cap (arr.take count) := by
  intro j link held
  rw [getElem?_take] at held
  split at held
  · exact placed j link held
  · cases held

theorem Placed.drop (placed : Placed hash cap arr) : Placed hash cap (arr.drop cap) := by
  intro j link held o mem
  rw [getElem?_drop] at held
  rw [placed _ link held o mem, add_mod_left]

theorem shrinkRounds_spec (rounds : Nat) (length : dst.length = cap)
    (rest : src.length = rounds * cap) (placed : Placed hash cap dst) (placed' : Placed hash cap src) :
    let merged := shrinkRounds cap rounds dst src
    merged.length = cap ∧ (stored merged).Perm (stored dst ++ stored src) ∧ Placed hash cap merged := by
  induction rounds generalizing dst src with
  | zero =>
    rw [zero_mul] at rest
    obtain rfl := length_eq_zero_iff.mp rest
    exact ⟨length, by simp [shrinkRounds, stored], placed⟩
  | succ rounds ih =>
    rw [succ_mul] at rest
    have chunk : (src.take cap).length = cap := by
      rw [length_take]
      omega
    have left : (src.drop cap).length = rounds * cap := by
      rw [length_drop]
      omega
    have zipped : (zipWith Link.merge dst (src.take cap)).length = cap := by
      rw [length_zipWith, length, chunk, min_self]
    obtain ⟨length', perm, placed''⟩ := ih zipped left (placed_zipWith placed (placed'.take cap)) placed'.drop
    refine ⟨length', perm.trans ?_, placed''⟩
    refine ((stored_zipWith (length.trans chunk.symm)).append_right _).trans ?_
    rw [append_assoc, ← stored_append, take_append_drop]

end Shrink

end Hset

end Culibs.Cuoo.Halloc
