import Culibs.Cuoo.Halloc.Hset

namespace Culibs.Cuoo.Halloc

open Cu List Option Nat

variable {Obj : Type} [DecidableEq Obj] {hash : Obj → Word}

namespace Hset

/-- What `_hset_validate` checks of the slots, and the arrays that fit in memory. -/
structure Valid (hash : Obj → Word) (hset : Hset Obj) (k : Nat) : Prop where
  mask : hset.mask = 2 ^ k - 1
  least : 3 ≤ k
  memory : 8 * 2 ^ k < 2 ^ 64
  length : hset.arr.length = 2 ^ k
  placed : Placed hash (2 ^ k) hset.arr
  distinct : (stored hset.arr).Nodup
  size : hset.size = (stored hset.arr).length

/-- The two assertions of `_hset_validate` on the load. -/
structure Loaded (hset : Hset Obj) : Prop where
  lower : hset.size * minLoadDenom ≥ hset.mask * minLoadNumer ∨ hset.mask + 1 = minCapacity
  upper : hset.size * maxLoadDenom ≤ hset.mask * maxLoadNumer

/-- The load that every run keeps: one object more than allowed may be there after shrinking. -/
structure NearlyLoaded (hset : Hset Obj) : Prop where
  lower : hset.size * minLoadDenom ≥ hset.mask * minLoadNumer ∨ hset.mask + 1 = minCapacity
  upper : hset.size * maxLoadDenom ≤ hset.mask * maxLoadNumer + 1

variable {hset hset' : Hset Obj} {k : Nat}

omit [DecidableEq Obj] in
theorem Valid.slot_bound (valid : Valid hash hset k) (o : Obj) :
    ∃ link, hset.arr[slot hash hset.mask o]? = some link ∧
      slot hash hset.mask o = (hash o).toNat % 2 ^ k ∧ (o ∈ stored hset.arr ↔ o ∈ link.objs) := by
  have isSlot : slot hash hset.mask o = (hash o).toNat % 2 ^ k := by rw [valid.mask, slot_eq]
  have bound : slot hash hset.mask o < hset.arr.length := by
    rw [isSlot, valid.length]
    exact Nat.mod_lt _ (Nat.two_pow_pos k)
  have held := getElem?_eq_getElem bound
  refine ⟨_, held, isSlot, fun mem => ?_, fun mem => mem_stored.mpr ⟨_, getElem_mem bound, mem⟩⟩
  obtain ⟨link, inArr, inLink⟩ := mem_stored.mp mem
  obtain ⟨j, _, held'⟩ := mem_iff_getElem.mp inArr
  have held' : hset.arr[j]? = some link := List.getElem?_eq_some_iff.mpr ⟨_, held'⟩
  have below : j < 2 ^ k := by
    rw [← valid.length]
    exact (List.getElem?_eq_some_iff.mp held').1
  have same := valid.placed j link held' o inLink
  rw [mod_eq_of_lt below, ← isSlot] at same
  rw [← same] at held'
  rwa [some.inj (held.symm.trans held')]

variable {o : Obj}

/-- Allocation of an object that is found changes nothing. Otherwise the object is added, and the capacity is
doubled if the load is too high, as long as there is memory. -/
theorem Valid.halloc (valid : Valid hash hset k) (made : hset.halloc hash o = some hset') :
    hset' = hset ∧ o ∈ stored hset.arr ∨
      o ∉ stored hset.arr ∧ (stored hset'.arr).Perm (o :: stored hset.arr) ∧
        if overloaded (hset.size + 1) hset.mask then Valid hash hset' (k + 1) else Valid hash hset' k := by
  obtain ⟨link, held, isSlot, here⟩ := valid.slot_bound o
  obtain ⟨found, objs⟩ := Link.halloc_spec o link
  rw [Hset.halloc, held] at made
  simp only [found] at made
  by_cases mem : o ∈ link.objs
  · rw [if_pos (decide_eq_true mem)] at made
    exact .inl ⟨(some.inj made).symm, here.mpr mem⟩
  rw [if_neg (by simpa using mem)] at made
  rw [if_neg mem] at objs
  have absent : o ∉ stored hset.arr := fun inside => mem (here.mp inside)
  refine .inr ⟨absent, ?_⟩
  have added : (stored (hset.arr.set (slot hash hset.mask o) (link.halloc o).2)).Perm (o :: stored hset.arr) := by
    refine @stored_set _ _ _ _ held _ [o] ?_
    rw [objs]
    exact perm_append_comm
  have distinct := added.nodup_iff.mpr (nodup_cons.mpr ⟨absent, valid.distinct⟩)
  have size := added.length_eq
  have placed : Placed hash (2 ^ k) (hset.arr.set (slot hash hset.mask o) (link.halloc o).2) := by
    refine valid.placed.set _ fun o' member' => ?_
    rw [objs, mem_append, mem_singleton] at member'
    rcases member' with old | rfl
    · exact valid.placed _ _ held o' old
    · rw [isSlot, mod_mod]
  split at made
  · next full =>
    rw [if_pos full]
    have doubled : (hset.mask + 1) * 2 = 2 ^ (k + 1) := by
      rw [valid.mask, Nat.sub_add_cancel (Nat.two_pow_pos k), Nat.pow_succ]
    obtain ⟨dst, allocated, rfl⟩ := map_eq_some_iff.mp made
    rw [unewarrz, doubled] at allocated
    split at allocated
    · next memory =>
      cases allocated
      have empty : Placed hash (2 ^ (k + 1)) (replicate (2 ^ (k + 1)) (.null : Link Obj)) := placed_replicate _
      obtain ⟨length, perm, placed'⟩ := foldl_reinsert
        (stored (hset.arr.set (slot hash hset.mask o) (link.halloc o).2)) length_replicate empty
      rw [stored_replicate, append_nil] at perm
      simp only [doubled, foldl_growSlot]
      refine ⟨perm.trans added, rfl, le_succ_of_le valid.least, memory, length, placed',
        perm.nodup_iff.mpr distinct, ?_⟩
      rw [perm.length_eq, size, length_cons, valid.size]
    · cases allocated
  · next room =>
    rw [if_neg room]
    cases made
    refine ⟨added, valid.mask, valid.least, valid.memory, ?_, placed, distinct, ?_⟩
    · rw [length_set, valid.length]
    · rw [size, length_cons, valid.size]

omit [DecidableEq Obj] in
/-- The new capacity when the load falls below the limit: a quarter of the old one, or the least one. -/
theorem shrinkTo_eq {size : Nat} (least : 3 ≤ k) (memory : 8 * 2 ^ k < 2 ^ 64)
    (lower : (size + 1) * minLoadDenom ≥ (2 ^ k - 1) * minLoadNumer ∨ 2 ^ k = minCapacity) :
    shrinkTo size (2 ^ k - 1) = none ∧ (size * minLoadDenom ≥ (2 ^ k - 1) * minLoadNumer ∨ k = 3) ∨
      4 ≤ k ∧ shrinkTo size (2 ^ k - 1) = some (2 ^ max 3 (k - 2)) ∧ 8 * size + 8 = 3 * 2 ^ k := by
  simp only [minLoadDenom, minLoadNumer, minCapacity] at lower ⊢
  rcases lt_or_ge k 4 with few | many
  · obtain rfl : k = 3 := by omega
    refine .inl ⟨if_neg ?_, .inr rfl⟩
    rintro ⟨_, large⟩
    simp [minCapacity] at large
  by_cases low : size * 8 < (2 ^ k - 1) * 3
  · refine .inr ⟨many, ?_⟩
    -- A quarter of the capacity is twice another power of two.
    obtain ⟨j, rfl⟩ : ∃ j, k = j + 3 := ⟨k - 3, by omega⟩
    have half : 2 ≤ 2 ^ j := le_self_pow (by omega) 2
    have whole : 2 ^ (j + 3) = 8 * 2 ^ j := by rw [Nat.pow_add, Nat.mul_comm]
    have target : size * maxLoadDenom / maxLoadNumer = 2 * 2 ^ j - 1 := by
      rw [maxLoadDenom, maxLoadNumer]
      omega
    have value : (BitVec.ofNat 64 (2 * 2 ^ j - 1)).toNat = 2 * 2 ^ j - 1 := by
      rw [BitVec.toNat_ofNat, mod_eq_of_lt (by omega)]
    have log : (2 * 2 ^ j - 1 - 1).log2 = j := by
      rw [log2_eq_iff (by omega)]
      omega
    have ceil : (sizeExp2ceil (BitVec.ofNat 64 (2 * 2 ^ j - 1))).toNat = 2 ^ (j + 1) := by
      rw [toNat_sizeExp2ceil (by omega) (by omega), value, log]
    refine ⟨?_, by omega⟩
    rw [shrinkTo, if_pos ⟨low, by rw [minCapacity]; omega⟩, target]
    have quarter : max 3 (j + 3 - 2) = if 2 ^ (j + 1) < 8 then 3 else j + 1 := by
      by_cases small : 2 ≤ j
      · have large : 2 ^ 3 ≤ 2 ^ (j + 1) := Nat.pow_le_pow_right (by omega) (by omega)
        rw [if_neg (by omega)]
        omega
      · obtain rfl : j = 1 := by omega
        rfl
    simp only [ceil, minCapacity, quarter]
    split <;> rfl
  · exact .inl ⟨if_neg fun both => low both.1, .inl (by omega)⟩

omit [DecidableEq Obj] in
theorem shrink_spec {j : Nat} (mask : hset.mask = 2 ^ k - 1) (smaller : j < k) (length : hset.arr.length = 2 ^ k)
    (placed : Placed hash (2 ^ k) hset.arr) :
    ∃ arr, hset.shrink (2 ^ j) = some { hset with mask := 2 ^ j - 1, arr } ∧ arr.length = 2 ^ j ∧
      (stored arr).Perm (stored hset.arr) ∧ Placed hash (2 ^ j) arr := by
  have cap : hset.mask + 1 = 2 ^ k := by rw [mask, Nat.sub_add_cancel (Nat.two_pow_pos k)]
  have less : 2 ^ j < 2 ^ k := Nat.pow_lt_pow_right (by omega) smaller
  have divides : 2 ^ j ∣ 2 ^ k := pow_dvd_pow 2 (le_of_lt smaller)
  have coarse : Placed hash (2 ^ j) hset.arr := by
    intro i link held o mem
    have same := congrArg (· % 2 ^ j) (placed i link held o mem)
    simpa only [mod_mod_of_dvd _ divides] using same
  have first : (hset.arr.take (2 ^ j)).length = 2 ^ j := by
    rw [length_take, length]
    omega
  have rest : (hset.arr.drop (2 ^ j)).length = (2 ^ k / 2 ^ j - 1) * 2 ^ j := by
    rw [length_drop, length, Nat.sub_mul, Nat.div_mul_cancel divides, Nat.one_mul]
  obtain ⟨length', perm, placed'⟩ := shrinkRounds_spec _ first rest (coarse.take _) coarse.drop
  refine ⟨_, ?_, length', perm.trans ?_, placed'⟩
  · rw [shrink, cap]
    exact if_pos less
  · rw [← stored_append, take_append_drop]

theorem Valid.erase (valid : Valid hash hset k) (mem : o ∈ stored hset.arr)
    (lower : hset.size * minLoadDenom ≥ hset.mask * minLoadNumer ∨ hset.mask + 1 = minCapacity) :
    ∃ hset', hset.erase hash o = some hset' ∧ hset'.size + 1 = hset.size ∧
      (stored hset.arr).Perm (o :: stored hset'.arr) ∧
      (shrinkTo (hset.size - 1) hset.mask = none ∧ Valid hash hset' k ∨
        4 ≤ k ∧ shrinkTo (hset.size - 1) hset.mask = some (2 ^ max 3 (k - 2)) ∧ Valid hash hset' (max 3 (k - 2))) := by
  obtain ⟨link, held, isSlot, here⟩ := valid.slot_bound o
  obtain ⟨link', erased, perm⟩ := Link.erase_spec o link (here.mp mem)
  have rest := stored_set_erase held perm
  have size := rest.length_eq
  rw [← valid.size, length_cons] at size
  have distinct := (nodup_cons.mp (rest.nodup_iff.mp valid.distinct)).2
  have placed : Placed hash (2 ^ k) (hset.arr.set (slot hash hset.mask o) link') :=
    valid.placed.set _ fun o' inside => by
      rw [valid.placed _ _ held o' (perm.mem_iff.mpr (List.mem_cons_of_mem o inside)), isSlot]
  have length : (hset.arr.set (slot hash hset.mask o) link').length = 2 ^ k := by rw [length_set, valid.length]
  have fewer : hset.size - 1 + 1 = hset.size := by omega
  rw [← fewer, valid.mask, Nat.sub_add_cancel (Nat.two_pow_pos k)] at lower
  rw [Hset.erase, held, bind_some, erased]
  rcases shrinkTo_eq valid.least valid.memory lower with ⟨keeps, _⟩ | ⟨large, shrinks, _⟩
  · rw [← valid.mask] at keeps
    simp only [keeps]
    exact ⟨_, rfl, fewer, rest, .inl ⟨trivial, valid.mask, valid.least, valid.memory, length, placed, distinct, by
      simp only [size, Nat.add_sub_cancel]⟩⟩
  rw [← valid.mask] at shrinks
  simp only [shrinks]
  obtain ⟨arr, made, length', perm', placed'⟩ := @shrink_spec _ _
    { hset with size := hset.size - 1, arr := hset.arr.set (slot hash hset.mask o) link' } _ _ valid.mask
    (by omega : max 3 (k - 2) < k) length placed
  have memory : 2 ^ max 3 (k - 2) ≤ 2 ^ k := Nat.pow_le_pow_right (by omega) (by omega)
  have memory' := valid.memory
  refine ⟨_, made, fewer, rest.trans (perm'.symm.cons o), .inr ⟨large, trivial, rfl, Nat.le_max_left .., by omega, length',
    placed', perm'.nodup_iff.mpr distinct, ?_⟩⟩
  simp only [perm'.length_eq, size, Nat.add_sub_cancel]

theorem Valid.mem_of_erase (valid : Valid hash hset k) (made : hset.erase hash o = some hset') :
    o ∈ stored hset.arr := by
  obtain ⟨link, held, _, here⟩ := valid.slot_bound o
  rw [Hset.erase, held, bind_some] at made
  cases erased : link.erase o with
  | none => simp [erased] at made
  | some link' => exact here.mpr (Link.mem_of_erase erased)

end Hset

/-- A call of one of the operations. -/
inductive Op (Obj : Type) where
  | halloc (o : Obj)
  | erase (o : Obj)

def Op.apply (hash : Obj → Word) (hset : Hset Obj) : Op Obj → Option (Hset Obj)
  | halloc o => hset.halloc hash o
  | erase o => hset.erase hash o

/-- A call with the sets before and after it. -/
structure Call (Obj : Type) where
  before : Hset Obj
  op : Op Obj
  after : Hset Obj

/-- The calls of a run from `_hset_init`, and the set after them. -/
inductive Run (hash : Obj → Word) : List (Call Obj) → Hset Obj → Prop
  | init : Run hash [] Hset.init
  | call {calls : List (Call Obj)} {hset hset' : Hset Obj} (op : Op Obj) : Run hash calls hset →
      op.apply hash hset = some hset' → Run hash (calls ++ [⟨hset, op, hset'⟩]) hset'

namespace Call

/-- The new capacity if `_hset_shrink` is called. -/
def shrinksTo (call : Call Obj) : Option Nat :=
  match call.op with
  | .halloc _ => none
  | .erase _ => Hset.shrinkTo (call.before.size - 1) call.before.mask

/-- The load is within its bounds after a call. If it shrinks the set, the new capacity is a smaller power of two,
and an allocation that comes next does not grow the set. -/
structure Correct (call : Call Obj) : Prop where
  loaded : call.after.Loaded
  shrinks : ∀ newCap, call.shrinksTo = some newCap →
    (∃ j, newCap = 2 ^ j) ∧ newCap < call.before.mask + 1 ∧ minCapacity ≤ newCap ∧
      Hset.overloaded (call.after.size + 1) call.after.mask = false

/-- The call shrinks a set with at least 32 slots. -/
def ShrinksLarge (call : Call Obj) : Prop := call.shrinksTo ≠ none ∧ 32 ≤ call.before.mask + 1

end Call

/-- What every run keeps. -/
def Hset.Kept (hash : Obj → Word) (hset : Hset Obj) : Prop := ∃ k, hset.Valid hash k ∧ hset.NearlyLoaded

omit [DecidableEq Obj] in
theorem Hset.kept_init : (Hset.init : Hset Obj).Kept hash := by
  refine ⟨3, ⟨rfl, le_refl 3, by decide, rfl, placed_replicate _, ?_, ?_⟩, .inr rfl, zero_le _⟩
  · rw [init, stored_replicate]
    exact nodup_nil
  · rw [init, stored_replicate]
    rfl

/-- A call keeps the invariant. Shrinking a set with at least 32 slots leaves more objects than allowed, and the
other calls are correct. -/
structure Hset.Keeps (hash : Obj → Word) (call : Call Obj) : Prop where
  kept : call.after.Kept hash
  breaks : call.ShrinksLarge → ¬ call.after.Loaded
  correct : call.before.Loaded → ¬ call.ShrinksLarge → call.Correct

variable {hset hset' : Hset Obj}

theorem Hset.Kept.halloc (kept : hset.Kept hash)
    (made : hset.halloc hash o = some hset') : Keeps hash ⟨hset, .halloc o, hset'⟩ := by
  obtain ⟨k, valid, nearly⟩ := kept
  have noShrink : (⟨hset, .halloc o, hset'⟩ : Call Obj).shrinksTo = none := rfl
  suffices kept' : hset'.Kept hash ∧ (hset.Loaded → hset'.Loaded) by
    refine ⟨kept'.1, fun large => (large.1 noShrink).elim, fun loaded _ => ⟨kept'.2 loaded, fun newCap shrinks => ?_⟩⟩
    cases shrinks
  rcases valid.halloc made with ⟨rfl, _⟩ | ⟨_, perm, valid'⟩
  · exact ⟨⟨k, valid, nearly⟩, id⟩
  have pos := Nat.two_pow_pos k
  have size := perm.length_eq
  rw [length_cons, ← valid.size] at size
  have mask := valid.mask
  obtain ⟨lower, upper⟩ := nearly
  simp only [minLoadDenom, minLoadNumer, maxLoadDenom, maxLoadNumer, minCapacity] at lower upper
  split at valid'
  · next full =>
    rw [overloaded, decide_eq_true_iff, maxLoadDenom, maxLoadNumer] at full
    have size' := valid'.size.trans size
    have mask' := valid'.mask
    refine ⟨⟨k + 1, valid', .inl ?_, ?_⟩, fun _ => ⟨.inl ?_, ?_⟩⟩ <;>
      simp only [minLoadDenom, minLoadNumer, maxLoadDenom, maxLoadNumer] <;> omega
  · next room =>
    rw [overloaded, decide_eq_true_iff, maxLoadDenom, maxLoadNumer] at room
    have size' := valid'.size.trans size
    have mask' := valid'.mask
    refine ⟨⟨k, valid', ?_, ?_⟩, fun _ => ⟨?_, ?_⟩⟩ <;>
      simp only [minLoadDenom, minLoadNumer, maxLoadDenom, maxLoadNumer, minCapacity] <;> omega

theorem Hset.Kept.erase (kept : hset.Kept hash) {o : Obj}
    (made : hset.erase hash o = some hset') : Keeps hash ⟨hset, .erase o, hset'⟩ := by
  obtain ⟨k, valid, nearly⟩ := kept
  obtain ⟨after, erased, size, _, outcome⟩ := valid.erase (valid.mem_of_erase made) nearly.lower
  rw [erased] at made
  obtain rfl := Option.some.inj made
  have fewer : hset.size - 1 = after.size := by omega
  have mask := valid.mask
  have pos := Nat.two_pow_pos k
  have shrinksTo : (⟨hset, .erase o, after⟩ : Call Obj).shrinksTo = shrinkTo (hset.size - 1) hset.mask := rfl
  have lower := nearly.lower
  rw [← size, mask, Nat.sub_add_cancel pos] at lower
  rw [fewer] at shrinksTo outcome
  rcases outcome with ⟨none, valid'⟩ | ⟨large, some, valid'⟩
  · have mask' := valid'.mask
    have inBounds := shrinkTo_eq valid.least valid.memory lower
    rw [← mask, none] at inBounds
    have lower' : after.size * minLoadDenom ≥ after.mask * minLoadNumer ∨ after.mask + 1 = minCapacity := by
      rcases inBounds with ⟨_, bound | rfl⟩ | ⟨_, impossible, _⟩
      · exact .inl (by rw [mask', ← mask]; exact bound)
      · exact .inr (by rw [mask']; rfl)
      · cases impossible
    refine ⟨⟨k, valid', lower', ?_⟩, fun shrinks => (shrinks.1 (shrinksTo.trans none)).elim,
      fun loaded _ => ⟨⟨lower', ?_⟩, fun newCap shrinks => ?_⟩⟩
    · have upper := nearly.upper
      simp only [maxLoadDenom, maxLoadNumer] at upper ⊢
      omega
    · have upper := loaded.upper
      simp only [maxLoadDenom, maxLoadNumer] at upper ⊢
      omega
    · rw [shrinksTo, none] at shrinks
      cases shrinks
  · have mask' := valid'.mask
    have exact : 8 * after.size + 8 = 3 * 2 ^ k := by
      rcases shrinkTo_eq valid.least valid.memory lower with ⟨impossible, _⟩ | ⟨_, _, exact⟩
      · rw [← mask, some] at impossible
        cases impossible
      · exact exact
    rcases lt_or_ge k 5 with few | many
    · obtain rfl : k = 4 := by omega
      have isMask : after.mask = 7 := mask'
      have isSize : after.size = 5 := by omega
      have loaded : after.Loaded := ⟨.inr (by rw [isMask]; rfl), by rw [isMask, isSize]; decide⟩
      refine ⟨⟨3, valid', loaded.lower, Nat.le_succ_of_le loaded.upper⟩, fun shrinks => ?_,
        fun _ _ => ⟨loaded, fun newCap shrinks => ?_⟩⟩
      · have wide : 32 ≤ hset.mask + 1 := shrinks.2
        rw [mask] at wide
        exact absurd wide (by decide)
      · rw [shrinksTo, some] at shrinks
        cases shrinks
        exact ⟨⟨3, rfl⟩, by simp only [mask]; decide, by decide, by simp only [isMask, isSize]; decide⟩
    · -- The new capacity is a quarter of the old one, and the size is 3/2 of it less one.
      obtain ⟨j, rfl⟩ : ∃ j, k = j + 2 := ⟨k - 2, by omega⟩
      have large : 2 ^ 3 ≤ 2 ^ j := Nat.pow_le_pow_right (by omega) (by omega)
      have whole : 2 ^ (j + 2) = 4 * 2 ^ j := by rw [Nat.pow_add, Nat.mul_comm]
      rw [show max 3 (j + 2 - 2) = j by omega] at mask' valid'
      have overfull : after.size * maxLoadDenom = after.mask * maxLoadNumer + 1 := by
        rw [maxLoadDenom, maxLoadNumer]
        omega
      have tooMany : ¬ after.Loaded := fun loaded => by
        have upper := loaded.upper
        omega
      have lower' : after.size * minLoadDenom ≥ after.mask * minLoadNumer := by
        rw [minLoadDenom, minLoadNumer]
        omega
      refine ⟨⟨j, valid', .inl lower', le_of_eq overfull⟩, fun _ => tooMany, fun _ small => (small ⟨?_, ?_⟩).elim⟩
      · rw [shrinksTo, some]
        exact some_ne_none _
      · simp only
        omega

theorem Hset.Kept.call (kept : hset.Kept hash)
    (applied : op.apply hash hset = some hset') : Keeps hash ⟨hset, op, hset'⟩ := by
  cases op with
  | halloc o => exact kept.halloc applied
  | erase o => exact kept.erase applied

variable {calls : List (Call Obj)}

/-- Every set of a run is valid, holds its objects in their slots and is nearly within the bounds. -/
theorem Run.kept (run : Run hash calls hset) : hset.Kept hash := by
  induction run with
  | init => exact Hset.kept_init
  | call op _ applied ih => exact (ih.call applied).kept

/-- The load stays within its bounds in exactly the runs that never shrink a set with at least 32 slots. -/
theorem Run.correct_iff {hset : Hset Obj} (run : Run hash calls hset) :
    (∀ call ∈ calls, call.Correct) ↔ ∀ call ∈ calls, ¬ call.ShrinksLarge := by
  suffices both : ((∀ call ∈ calls, call.Correct) ↔ ∀ call ∈ calls, ¬ call.ShrinksLarge) ∧
      ((∀ call ∈ calls, call.Correct) → hset.Loaded) from both.1
  induction run with
  | init => exact ⟨by simp, fun _ => ⟨.inr rfl, zero_le _⟩⟩
  | @call calls hset hset' op run applied ih =>
    have keeps := run.kept.call applied
    simp only [mem_append, mem_singleton, or_imp, forall_and, forall_eq]
    refine ⟨⟨fun correct => ⟨ih.1.mp correct.1, fun large => keeps.breaks large correct.2.loaded⟩, fun safe => ?_⟩,
      fun correct => correct.2.loaded⟩
    have before := ih.1.mpr safe.1
    exact ⟨before, keeps.correct (ih.2 before) safe.2⟩

theorem Run.of_list (ops : List (Op Obj)) (run : Run hash calls hset)
    (applied : ops.foldlM (Op.apply hash) hset = some hset') :
    ∃ calls', Run hash calls' hset' ∧ calls'.map Call.op = calls.map Call.op ++ ops := by
  induction ops generalizing calls hset with
  | nil =>
    cases applied
    exact ⟨calls, run, (append_nil _).symm⟩
  | cons op ops ih =>
    rw [foldlM_cons] at applied
    obtain ⟨next, first, rest⟩ := bind_eq_some_iff.mp applied
    obtain ⟨calls', run', same⟩ := ih (run.call op first) rest
    exact ⟨calls', run', by rw [same, map_append, append_assoc]; rfl⟩

/-- Of 23 objects 12 are erased. -/
def growThenShrink : List (Op Nat) := (range 23).map .halloc ++ (range 12).map .erase

/-- The other 11 are left in 8 slots. -/
theorem growThenShrink_run : ∃ calls hset, Run (BitVec.ofNat 64) calls hset ∧ calls.map Call.op = growThenShrink ∧
    hset.size = 11 ∧ hset.mask = 7 := by
  have final : (growThenShrink.foldlM (Op.apply (BitVec.ofNat 64)) Hset.init).map (fun hset => (hset.size, hset.mask)) =
      some (11, 7) := by decide +kernel
  obtain ⟨hset, applied, same⟩ := map_eq_some_iff.mp final
  obtain ⟨calls, run, ops⟩ := Run.init.of_list _ applied
  exact ⟨calls, hset, run, ops, Prod.mk.inj same⟩

theorem Run.correct_iff_growThenShrink : ∃ calls hset, Run (BitVec.ofNat 64) calls hset ∧
    calls.map Call.op = growThenShrink ∧ ((∀ call ∈ calls, call.Correct) ↔ ∀ call ∈ calls, ¬ call.ShrinksLarge) := by
  obtain ⟨calls, hset, run, ops, _⟩ := growThenShrink_run
  exact ⟨calls, hset, run, ops, run.correct_iff⟩

theorem not_loaded : ¬ ∀ (calls : List (Call Nat)) (hset : Hset Nat), Run (BitVec.ofNat 64) calls hset → hset.Loaded := by
  intro always
  obtain ⟨calls, hset, run, _, size, mask⟩ := growThenShrink_run
  have upper := (always calls hset run).upper
  rw [size, mask] at upper
  exact absurd upper (by decide)

end Culibs.Cuoo.Halloc
