import Culibs.Cucon.Frame.Basic

namespace Culibs.Cucon.Frame

open Cu List Option Nat BitVec

variable {heap : Heap} {a : Addr}
variable {n bit : Nat}

theorem testBit_of_dvd (divides : 2 ^ bit ∣ n) :
    (n.testBit bit = true → 2 ^ bit ≤ n ∧ 2 ^ (bit + 1) ∣ n - 2 ^ bit) ∧ (n.testBit bit = false → 2 ^ (bit + 1) ∣ n) := by
  obtain ⟨q, rfl⟩ := divides
  have bit_q : (2 ^ bit * q).testBit bit = q.testBit 0 := by
    rw [Nat.testBit_two_pow_mul, decide_eq_true (Nat.le_refl bit), Bool.true_and, Nat.sub_self]
  rw [bit_q, testBit_zero, decide_eq_true_iff, decide_eq_false_iff_not, pow_succ]
  constructor
  · intro odd
    refine ⟨Nat.le_mul_of_pos_right _ (by omega), q / 2, ?_⟩
    obtain ⟨h, rfl⟩ : ∃ h, q = 2 * h + 1 := ⟨q / 2, by omega⟩
    rw [show (2 * h + 1) / 2 = h by omega, Nat.mul_add, Nat.mul_one, Nat.add_sub_cancel, Nat.mul_assoc]
  · intro even
    refine ⟨q / 2, ?_⟩
    rw [mul_assoc, show 2 * (q / 2) = q by omega]

private theorem testBit_of_lt (less : n < 2 ^ (bit + 1)) : n.testBit bit = decide (2 ^ bit ≤ n) := by
  rw [Nat.testBit_eq_decide_div_mod_eq]
  have pos := Nat.two_pow_pos bit
  congr 1
  rw [eq_iff_iff]
  have small : n / 2 ^ bit < 2 := (div_lt_iff_lt_mul pos).mpr (by omega)
  rw [mod_eq_of_lt small]
  constructor
  · intro one
    have := div_mul_le_self n (2 ^ bit)
    rw [one, one_mul] at this
    exact this
  · intro atLeast
    have := (one_le_div_iff pos).mpr atLeast
    omega

namespace WellFormed

section

variable (wf : WellFormed heap)

include wf

theorem descend_eq (word : bit ≤ 64) (bound : a ≤ heap.length)
    (divides : 2 ^ bit ∣ level heap a) (some_left : frameCnt.toNat ≠ 0) (below : frameCnt.toNat < 2 ^ bit)
    (within : frameCnt.toNat < level heap a) :
    descend heap bit a frameCnt = some (ancestor heap frameCnt.toNat a) := by
  induction bit generalizing a frameCnt with
  | zero =>
    omega
  | succ bit ih =>
    have inWord : bit < 64 := word
    have divides' : 2 ^ bit ∣ level heap a := dvd_trans (pow_dvd_pow 2 (le_succ bit)) divides
    have isSet := testBit_of_lt below
    have cleared := toNat_clear_bit frameCnt inWord
    have held := toNat_and_bit frameCnt inWord
    have pos := Nat.two_pow_pos bit
    rw [BitVec.and_comm] at held
    by_cases set : 2 ^ bit ≤ frameCnt.toNat
    · rw [isSet, decide_eq_true set, if_pos rfl] at cleared held
      have nonzero : ((1 : Word) <<< bit) &&& frameCnt ≠ 0 := by
        intro zero
        rw [zero] at held
        exact absurd held.symm (ne_of_gt pos)
      have link := wf.linkSlot_eq bound (by omega) divides'
      rw [descend, if_pos nonzero, link]
      simp only
      split
      · next done =>
        rw [done] at cleared
        have whole : 2 ^ bit = frameCnt.toNat := by simpa using cleared
        rw [whole]
      · next more =>
        have left : (frameCnt &&& ~~~((1 : Word) <<< bit)).toNat ≠ 0 := fun zero => more (eq_of_toNat_eq zero)
        have level' := wf.level_ancestor bound (2 ^ bit)
        rw [ih (le_of_lt inWord) (wf.ancestor_le bound _) (by rw [level']; exact dvd_sub divides' (dvd_refl _))
          left (by omega) (by omega), ← ancestor_add, cleared]
    · rw [isSet, decide_eq_false set, if_neg Bool.false_ne_true] at held
      have zero : ((1 : Word) <<< bit) &&& frameCnt = 0 := eq_of_toNat_eq held
      rw [descend, if_neg (not_not.mpr zero)]
      exact ih (le_of_lt inWord) bound divides' some_left (by omega) within

/-- The way up clears the low bits of the depth as long as it stays at or above the destination. -/
theorem climb_eq (word : bit + fuel = 64) (bound : a ≤ heap.length)
    (isLevel : curDepth.toNat = level heap a) (divides : 2 ^ bit ∣ level heap a) (pos : 0 < dstDepth.toNat)
    (above : dstDepth.toNat < curDepth.toNat) :
    climb heap dstDepth fuel bit a curDepth = some (ancestor heap (curDepth.toNat - dstDepth.toNat) a) := by
  induction fuel generalizing bit a curDepth with
  | zero =>
    have atLeast := le_of_dvd (by omega) divides
    rw [← isLevel, show bit = 64 by omega] at atLeast
    omega
  | succ fuel ih =>
    have inWord : bit < 64 := by omega
    have cleared := toNat_clear_bit curDepth inWord
    rw [← isLevel] at divides
    obtain ⟨whenSet, whenClear⟩ := testBit_of_dvd divides
    rw [climb]
    generalize curDepth &&& ~~~((1 : Word) <<< bit) = nextDepth at cleared ⊢
    simp only [lt_def]
    by_cases set : curDepth.toNat.testBit bit = true
    · obtain ⟨atLeast, divides'⟩ := whenSet set
      rw [if_pos set] at cleared
      have changed : nextDepth ≠ curDepth := by
        rintro rfl
        omega
      have link := wf.linkSlot_eq bound (by omega) (isLevel ▸ divides)
      have level' := wf.level_ancestor bound (2 ^ bit)
      split
      · next beyond =>
        have distance : (curDepth - dstDepth).toNat = curDepth.toNat - dstDepth.toNat :=
          toNat_sub_of_le (le_def.mpr (le_of_lt above))
        rw [wf.descend_eq (le_of_lt inWord) bound (isLevel ▸ divides) (by omega) (by omega) (by omega), distance]
      · next reaches =>
        rw [link]
        simp only
        split
        · next done =>
          rw [show curDepth.toNat - dstDepth.toNat = 2 ^ bit by rw [← done]; omega]
        · next more =>
          have apart : nextDepth.toNat ≠ dstDepth.toNat := fun same => more (eq_of_toNat_eq same)
          rw [ih (by omega) (wf.ancestor_le bound _) (by omega) (by rw [level', ← isLevel]; exact divides') (by omega),
            ← ancestor_add]
          congr 2
          omega
    · rw [if_neg set, add_zero] at cleared
      obtain rfl := eq_of_toNat_eq cleared
      rw [if_neg (by omega), if_neg (not_not.mpr rfl)]
      exact ih (by omega) bound isLevel (isLevel ▸ whenClear (Bool.eq_false_iff.mpr set)) above

theorem frameAt_eq (bound : a ≤ heap.length) (frameCnt : Word) :
    frameAt heap a frameCnt = some (ancestor heap frameCnt.toNat a) := by
  obtain ⟨curDepth, held, isLevel⟩ := depth_eq bound
  rw [frameAt, held]
  split
  · next none =>
    rw [none]
    rfl
  · next some_left =>
    have nonzero : frameCnt.toNat ≠ 0 := fun zero => some_left (eq_of_toNat_eq zero)
    simp only [ge_iff_le, le_def]
    split
    · next deep => rw [wf.ancestor_null bound (by omega)]
    · next shallow =>
      have dstDepth : (curDepth - frameCnt).toNat = curDepth.toNat - frameCnt.toNat :=
        toNat_sub_of_le (le_def.mpr (by omega))
      rw [wf.climb_eq rfl bound isLevel (one_dvd _) (by omega) (by omega)]
      congr 2
      omega

theorem fillLinks_eq (bound : a ≤ heap.length) {newDepth depth : Word}
    (isNew : newDepth.toNat = level heap a + 1) (deep : depth.toNat ≤ level heap a)
    (reached : frame = ancestor heap (level heap a - depth.toNat) a)
    (near : newDepth.toNat ≤ 2 ^ i + depth.toNat) (word : i + left ≤ 64)
    (divides : ∀ j < left, 2 ^ (i + j) ≤ newDepth.toNat) :
    fillLinks heap newDepth left i frame depth =
      some ((range left).map fun j => ancestor heap (2 ^ (i + j) - 1) a) := by
  induction left generalizing i frame depth with
  | zero => rfl
  | succ left ih =>
    have inWord : i < 64 := by omega
    have power := toNat_one_shiftLeft inWord
    have within := divides 0 (succ_pos left)
    rw [add_zero] at within
    have count : (((1 : Word) <<< i) + depth - newDepth).toNat = 2 ^ i + depth.toNat - newDepth.toNat := by
      rw [toNat_sub, toNat_add]
      omega
    have rest : (newDepth - ((1 : Word) <<< i)).toNat = newDepth.toNat - 2 ^ i := by
      rw [toNat_sub_of_le (by rw [le_def, power]; exact within), power]
    subst reached
    have target : ancestor heap (((1 : Word) <<< i) + depth - newDepth).toNat
        (ancestor heap (level heap a - depth.toNat) a) = ancestor heap (2 ^ i - 1) a := by
      rw [← ancestor_add]
      congr 1
      omega
    rw [fillLinks, wf.frameAt_eq (wf.ancestor_le bound _), target]
    simp only
    rw [ih (by omega) (by rw [rest]; congr 1; omega) (by rw [rest]; omega) (by omega) fun j less => by
      rw [add_right_comm]
      exact divides (j + 1) (succ_lt_succ less)]
    rw [range_succ_eq_map]
    simp [Function.comp_def, succ_eq_add_one, add_assoc, add_comm 1]

theorem push_eq (bound : a ≤ heap.length) (small : level heap a + 1 < 2 ^ 32) :
    ∃ newDepth : Word, newDepth.toNat = level heap a + 1 ∧
      push heap a = some (heap.length + 1, heap ++ [{
        depth := newDepth
        links := (range (log2Lowbit newDepth + 1)).map fun j => ancestor heap (2 ^ j - 1) a }]) := by
  by_cases isNull : a = 0
  · subst isNull
    exact ⟨1, rfl, if_pos rfl⟩
  obtain ⟨depth, held, isLevel⟩ := depth_eq bound
  have isNew : (depth + 1).toNat = level heap a + 1 := by
    have one : (1 : Word).toNat = 1 := rfl
    rw [toNat_add, isLevel]
    exact mod_eq_of_lt (by omega)
  have nonzero : (depth + 1).toNat ≠ 0 := by omega
  have word := (log2Lowbit_spec (depth + 1) fun zero => nonzero (congrArg BitVec.toNat zero)).1
  have first : a = ancestor heap (level heap a - depth.toNat) a := by
    rw [isLevel, Nat.sub_self]
    rfl
  have links := wf.fillLinks_eq (i := 0) bound isNew (le_of_eq isLevel) first (by omega)
    (by omega : 0 + (log2Lowbit (depth + 1) + 1) ≤ 64) fun j less => by
      rw [zero_add]
      exact le_of_dvd (by omega) ((two_pow_dvd_iff nonzero j).mpr (le_of_lt_succ less))
  refine ⟨depth + 1, isNew, ?_⟩
  rw [push, if_neg isNull, held]
  simp only [uintLog2Lowbit_setWidth nonzero (by rw [isNew]; exact small), links, map_some, zero_add]

end

end WellFormed

section Append

variable {frame : Hidden}

theorem parent_append (bound : a ≤ heap.length) : parent (heap ++ [frame]) a = parent heap a := by
  rw [parent, parent, pop, pop, linkSlot, linkSlot, frame?_append bound]

theorem level_append (bound : a ≤ heap.length) : level (heap ++ [frame]) a = level heap a := by
  rw [level, level, depth, depth, frame?_append bound]

theorem WellFormed.ancestor_append (wf : WellFormed heap) (bound : a ≤ heap.length) (n : Nat) :
    ancestor (heap ++ [frame]) n a = ancestor heap n a := by
  induction n generalizing a with
  | zero => rfl
  | succ n ih => rw [ancestor_succ, ancestor_succ, parent_append bound, ih (wf.parent_le bound)]

end Append

theorem WellFormed.push (wf : WellFormed heap) (bound : a ≤ heap.length) (small : level heap a + 1 < 2 ^ 32) :
    ∃ new heap', push heap a = some (new, heap') ∧ WellFormed heap' ∧ new ≤ heap'.length ∧
      level heap' new = level heap a + 1 ∧ parent heap' new = a ∧ ∃ frame, heap' = heap ++ [frame] := by
  obtain ⟨newDepth, isNew, pushed⟩ := wf.push_eq bound small
  have nonzero : newDepth.toNat ≠ 0 := by omega
  generalize isFrame : ({
    depth := newDepth
    links := (range (log2Lowbit newDepth + 1)).map fun j => ancestor heap (2 ^ j - 1) a } : Hidden) = frame at pushed
  have held : Heap.frame? (heap ++ [frame]) (heap.length + 1) = some frame := List.getElem?_concat_length
  have isParent : parent (heap ++ [frame]) (heap.length + 1) = a := by
    rw [parent, pop, linkSlot, held, ← isFrame, range_succ_eq_map]
    rfl
  have isLevel : level (heap ++ [frame]) (heap.length + 1) = level heap a + 1 := by
    rw [level, depth, held, ← isFrame]
    exact isNew
  refine ⟨heap.length + 1, heap ++ [frame], pushed, fun b frame' held' => ?_, by simp, isLevel, isParent, frame, rfl⟩
  by_cases isOld : b ≤ heap.length
  · rw [frame?_append isOld] at held'
    obtain ⟨below, deeper, little, slots⟩ := wf b frame' held'
    refine ⟨?_, ?_, little, fun i target => ?_⟩
    · rwa [parent_append isOld]
    · rwa [parent_append isOld, level_append (wf.parent_le isOld)]
    · rw [wf.ancestor_append isOld]
      exact slots i target
  · have isLast : b = heap.length + 1 := by
      have inside := (frame?_bound held').2
      rw [length_append] at inside
      exact le_antisymm inside (Nat.lt_of_not_le isOld)
    subst isLast
    rw [held] at held'
    cases held'
    refine ⟨by rw [isParent]; exact lt_succ_of_le bound, ?_, ?_, fun i target => ?_⟩
    · rw [isParent, level_append bound, ← isFrame]
      exact isNew
    · rw [← isFrame, isNew]
      exact small
    have pos := Nat.two_pow_pos i
    have target_eq : ancestor (heap ++ [frame]) (2 ^ i) (heap.length + 1) = ancestor heap (2 ^ i - 1) a := by
      rw [show 2 ^ i = 2 ^ i - 1 + 1 by omega, ancestor_succ, isParent, wf.ancestor_append bound]
      rfl
    rw [target_eq, ← isFrame, two_pow_dvd_iff nonzero, List.getElem?_map, map_eq_some_iff]
    constructor
    · rintro ⟨j, inRange, rfl⟩
      obtain ⟨less, rfl⟩ := List.getElem?_eq_some_iff.mp inRange
      rw [length_range] at less
      rw [getElem_range]
      exact ⟨le_of_lt_succ less, rfl⟩
    · rintro ⟨less, rfl⟩
      exact ⟨i, by rw [List.getElem?_range (lt_succ_of_le less)], rfl⟩

/-- Memory with the frames of a number of pushes. -/
inductive Built : Heap → Prop
  | empty : Built []
  | push {heap heap' : Heap} {frame new : Addr} : Built heap → frame ≤ heap.length → level heap frame + 1 < 2 ^ 32 →
      Frame.push heap frame = some (new, heap') → Built heap'

theorem Built.wellFormed (built : Built heap) : WellFormed heap := by
  induction built with
  | empty =>
    intro a frame held
    obtain ⟨nonnull, bound⟩ := frame?_bound held
    exact absurd (le_zero.mp bound) nonnull
  | push _ bound small pushed ih =>
    obtain ⟨_, _, made, wf, _⟩ := ih.push bound small
    rw [pushed] at made
    obtain ⟨-, rfl⟩ := Prod.mk.inj (some.inj made)
    exact wf

/-- Access to a frame below is popping as often, a frame has the link slots of the powers of two up to the lowest
bit of its depth, each to the frame that many levels below, and pushing finds the slots that it reads. -/
theorem Built.constructive (built : Built heap) {f : Addr} {frame : Hidden} (held : heap.frame? f = some frame) :
    (∀ n : Word, n.toNat ≤ frame.depth.toNat →
      ∃ target, frameAt heap f n = some target ∧ popTimes heap n.toNat f = some target) ∧
      (∀ n : Word, frame.depth.toNat ≤ n.toNat → frameAt heap f n = some 0) ∧
      (∀ i, i ≤ log2Lowbit frame.depth → linkSlot heap f i = popTimes heap (2 ^ i) f ∧
        ∃ target, linkSlot heap f i = some target ∧ level heap target = frame.depth.toNat - 2 ^ i) ∧
      (∀ i, log2Lowbit frame.depth < i → linkSlot heap f i = none) ∧
      (frame.depth.toNat + 1 < 2 ^ 32 → ∃ new heap', Frame.push heap f = some (new, heap') ∧ pop heap' new = some f) := by
  have wf := built.wellFormed
  obtain ⟨nonnull, bound⟩ := frame?_bound held
  have sound := wf f frame held
  have isLevel : level heap f = frame.depth.toNat := by simp [level, depth, nonnull, held]
  have nonzero : frame.depth.toNat ≠ 0 := by
    rw [sound.deeper]
    omega
  refine ⟨fun n within => ?_, fun n deep => ?_, fun i within => ?_, fun i beyond => ?_, fun small => ?_⟩
  · exact ⟨_, wf.frameAt_eq bound n, wf.popTimes_eq bound (by omega)⟩
  · rw [wf.frameAt_eq bound, wf.ancestor_null bound (by omega)]
  · have divides := (two_pow_dvd_iff nonzero i).mpr within
    have atMost := le_of_dvd (by omega) divides
    have link := wf.linkSlot_eq bound (by omega) (isLevel ▸ divides)
    refine ⟨by rw [link, wf.popTimes_eq bound (by omega)], _, link, ?_⟩
    rw [wf.level_ancestor bound, isLevel]
  · rw [linkSlot, held]
    refine eq_none_iff_forall_ne_some.mpr fun target slot => ?_
    have within := (two_pow_dvd_iff nonzero i).mp ((sound.slots i target).mp slot).1
    omega
  · obtain ⟨new, heap', pushed, wf', bound', deep, isParent, _⟩ := wf.push bound (by omega)
    refine ⟨new, heap', pushed, ?_⟩
    rw [wf'.pop_eq bound' (by omega), isParent]

/-- Three frames on top of each other. -/
def tower : Heap := [⟨1, [0]⟩, ⟨2, [1, 0]⟩, ⟨3, [2]⟩]

theorem Built.tower : Built tower := by
  have one : Built [⟨1, [0]⟩] := .push .empty (le_refl 0) (by decide) (by decide : Frame.push [] 0 = some (1, _))
  have two : Built [⟨1, [0]⟩, ⟨2, [1, 0]⟩] :=
    .push one (le_refl 1) (by decide) (by decide : Frame.push [⟨1, [0]⟩] 1 = some (2, _))
  exact .push two (le_refl 2) (by decide) (by decide : Frame.push [⟨1, [0]⟩, ⟨2, [1, 0]⟩] 2 = some (3, _))

theorem Built.constructive_tower : Built Frame.tower ∧ Heap.frame? Frame.tower 2 = some ⟨2, [1, 0]⟩ ∧
    (∀ n : Word, n.toNat ≤ 2 →
      ∃ target, frameAt Frame.tower 2 n = some target ∧ popTimes Frame.tower n.toNat 2 = some target) :=
  ⟨Built.tower, by decide, (Built.constructive Built.tower (by decide : Heap.frame? Frame.tower 2 = some ⟨2, [1, 0]⟩)).1⟩

end Culibs.Cucon.Frame
