import Culibs.Cu.Int

/-! The constructive stack of `cucon/frame.c`. Frames are never changed, so memory only grows. -/

namespace Culibs.Cucon.Frame

open Cu

/-- The address of a frame, 0 for `NULL`. -/
abbrev Addr := Nat

/-- The hidden part of a frame: its depth and its link slots, as many as have been allocated. -/
structure Hidden where
  depth : Word
  links : List Addr
deriving DecidableEq

/-- The frames at the addresses from 1 on. -/
abbrev Heap := List Hidden

def Heap.frame? (heap : Heap) : Addr → Option Hidden
  | 0 => none
  | a + 1 => heap[a]?

/-- The content of `cuconP_frame_link_slot(frame, i)`, unless there is no such slot. -/
def linkSlot (heap : Heap) (frame : Addr) (i : Nat) : Option Addr :=
  (heap.frame? frame).bind fun held => held.links[i]?

/-- `cucon_frame_depth` -/
def depth (heap : Heap) (frame : Addr) : Option Word :=
  if frame = 0 then some 0 else (heap.frame? frame).map (·.depth)

/-- `cucon_frame_pop` -/
def pop (heap : Heap) (frame : Addr) : Option Addr := linkSlot heap frame 0

/-- The second loop of `cucon_frame_at`, before it halves `pow2_bit` and decrements `bit`. -/
def descend (heap : Heap) : Nat → Addr → Word → Option Addr
  | 0, _, _ => none
  | bit + 1, frame, frameCnt =>
    if ((1 : Word) <<< bit) &&& frameCnt ≠ 0 then
      match linkSlot heap frame bit with
      | none => none
      | some frame =>
        let frameCnt := frameCnt &&& ~~~((1 : Word) <<< bit)
        if frameCnt = 0 then some frame else descend heap bit frame frameCnt
    else descend heap bit frame frameCnt

/-- The first loop of `cucon_frame_at`, with fuel for its rounds, and what comes after it. -/
def climb (heap : Heap) (dstDepth : Word) : Nat → Nat → Addr → Word → Option Addr
  | 0, _, _, _ => none
  | fuel + 1, bit, frame, curDepth =>
    let nextDepth := curDepth &&& ~~~((1 : Word) <<< bit)
    if nextDepth < dstDepth then descend heap bit frame (curDepth - dstDepth)
    else if nextDepth ≠ curDepth then
      match linkSlot heap frame bit with
      | none => none
      | some frame =>
        if nextDepth = dstDepth then some frame else climb heap dstDepth fuel (bit + 1) frame nextDepth
    else climb heap dstDepth fuel (bit + 1) frame curDepth

/-- `cucon_frame_at` -/
def frameAt (heap : Heap) (frame : Addr) (frameCnt : Word) : Option Addr :=
  if frameCnt = 0 then some frame
  else
    match depth heap frame with
    | none => none
    | some curDepth =>
      if frameCnt ≥ curDepth then some 0
      else climb heap (curDepth - frameCnt) 64 0 frame curDepth

/-- The loop of `cucon_frame_push`, with the number of slots that are left to fill. -/
def fillLinks (heap : Heap) (newDepth : Word) : Nat → Nat → Addr → Word → Option (List Addr)
  | 0, _, _, _ => some []
  | left + 1, i, frame, depth =>
    match frameAt heap frame (((1 : Word) <<< i) + depth - newDepth) with
    | none => none
    | some frame => (fillLinks heap newDepth left (i + 1) frame (newDepth - ((1 : Word) <<< i))).map (frame :: ·)

/-- `cucon_frame_push`: the new frame, and memory with it. -/
def push (heap : Heap) (frame : Addr) : Option (Addr × Heap) :=
  if frame = 0 then some (heap.length + 1, heap ++ [{ depth := 1, links := [0] }])
  else
    match depth heap frame with
    | none => none
    | some depth =>
      let newDepth := depth + 1
      let nLink := uintLog2Lowbit (newDepth.setWidth 32) + 1
      (fillLinks heap newDepth nLink 0 frame depth).map fun links =>
        (heap.length + 1, heap ++ [{ depth := newDepth, links }])

/-- Pops a number of times. -/
def popTimes (heap : Heap) : Nat → Addr → Option Addr
  | 0, frame => some frame
  | n + 1, frame => (pop heap frame).bind (popTimes heap n)

/-- The frame below, `NULL` below `NULL`. -/
def parent (heap : Heap) (a : Addr) : Addr := (pop heap a).getD 0

/-- The frame a number of levels below. -/
def ancestor (heap : Heap) (n : Nat) (a : Addr) : Addr := (parent heap)^[n] a

/-- The depth as a number. -/
def level (heap : Heap) (a : Addr) : Nat := ((depth heap a).getD 0).toNat

variable {heap : Heap} {a : Addr}

theorem frame?_append (bound : a ≤ heap.length) (more : Heap) :
    Heap.frame? (heap ++ more) a = heap.frame? a := by
  cases a with
  | zero => rfl
  | succ a => exact List.getElem?_append_left bound

theorem frame?_some (nonnull : a ≠ 0) (bound : a ≤ heap.length) :
    ∃ frame, heap.frame? a = some frame := by
  cases a with
  | zero => exact absurd rfl nonnull
  | succ a => exact ⟨heap[a], List.getElem?_eq_getElem bound⟩

theorem frame?_bound (held : heap.frame? a = some frame) :
    a ≠ 0 ∧ a ≤ heap.length := by
  cases a with
  | zero => cases held
  | succ a => exact ⟨Nat.succ_ne_zero a, (List.getElem?_eq_some_iff.mp held).1⟩

theorem ancestor_succ (heap : Heap) (n : Nat) (a : Addr) : ancestor heap (n + 1) a = ancestor heap n (parent heap a) :=
  Function.iterate_succ_apply (parent heap) n a

theorem ancestor_add (heap : Heap) (m n : Nat) (a : Addr) :
    ancestor heap (m + n) a = ancestor heap m (ancestor heap n a) := Function.iterate_add_apply (parent heap) m n a

theorem depth_eq (bound : a ≤ heap.length) :
    ∃ d, depth heap a = some d ∧ d.toNat = level heap a := by
  by_cases isNull : a = 0
  · subst isNull
    exact ⟨0, rfl, rfl⟩
  · obtain ⟨frame, held⟩ := frame?_some isNull bound
    refine ⟨frame.depth, ?_, ?_⟩ <;> simp [level, depth, isNull, held]

/-- A frame is one deeper than the one below, and has a link slot for each power of two that divides its depth,
which points to the frame that many levels below. -/
structure Sound (heap : Heap) (a : Addr) (frame : Hidden) : Prop where
  below : parent heap a < a
  deeper : frame.depth.toNat = level heap (parent heap a) + 1
  small : frame.depth.toNat < 2 ^ 32
  slots : ∀ i target, frame.links[i]? = some target ↔ 2 ^ i ∣ frame.depth.toNat ∧ target = ancestor heap (2 ^ i) a

/-- All frames are sound. -/
def WellFormed (heap : Heap) : Prop := ∀ a frame, heap.frame? a = some frame → Sound heap a frame

variable {heap : Heap} {a : Addr}

namespace WellFormed

section

variable (wf : WellFormed heap) (bound : a ≤ heap.length)

include wf bound

theorem parent_le : parent heap a ≤ heap.length := by
  by_cases isNull : a = 0
  · subst isNull
    exact Nat.zero_le _
  · obtain ⟨frame, held⟩ := frame?_some isNull bound
    exact le_trans (le_of_lt (wf a frame held).below) bound

theorem level_parent : level heap (parent heap a) = level heap a - 1 := by
  by_cases isNull : a = 0
  · subst isNull
    rfl
  · obtain ⟨frame, held⟩ := frame?_some isNull bound
    have deeper := (wf a frame held).deeper
    have isDepth : level heap a = frame.depth.toNat := by simp [level, depth, isNull, held]
    omega

theorem ancestor_le (n : Nat) : ancestor heap n a ≤ heap.length := by
  induction n generalizing a with
  | zero => exact bound
  | succ n ih =>
    exact ih (wf.parent_le bound)

theorem level_ancestor (n : Nat) : level heap (ancestor heap n a) = level heap a - n := by
  induction n generalizing a with
  | zero => rfl
  | succ n ih =>
    rw [ancestor_succ, ih (wf.parent_le bound), wf.level_parent bound]
    omega

private theorem level_eq_zero : level heap a = 0 ↔ a = 0 := by
  constructor
  · intro shallow
    by_contra nonnull
    obtain ⟨frame, held⟩ := frame?_some nonnull bound
    have deeper := (wf a frame held).deeper
    have isDepth : level heap a = frame.depth.toNat := by simp [level, depth, nonnull, held]
    omega
  · rintro rfl
    rfl

theorem ancestor_null (deep : level heap a ≤ n) : ancestor heap n a = 0 := by
  refine (wf.level_eq_zero (wf.ancestor_le bound n)).mp ?_
  rw [wf.level_ancestor bound]
  omega

theorem linkSlot_eq (pos : 0 < level heap a) (divides : 2 ^ i ∣ level heap a) :
    linkSlot heap a i = some (ancestor heap (2 ^ i) a) := by
  have nonnull : a ≠ 0 := by
    rintro rfl
    exact absurd pos (lt_irrefl 0)
  obtain ⟨frame, held⟩ := frame?_some nonnull bound
  have isDepth : level heap a = frame.depth.toNat := by simp [level, depth, nonnull, held]
  rw [linkSlot, held]
  exact ((wf a frame held).slots i _).mpr ⟨isDepth ▸ divides, rfl⟩

theorem pop_eq (pos : 0 < level heap a) :
    pop heap a = some (parent heap a) := wf.linkSlot_eq (i := 0) bound pos (one_dvd _)

theorem popTimes_eq (within : n ≤ level heap a) : popTimes heap n a = some (ancestor heap n a) := by
  induction n generalizing a with
  | zero => rfl
  | succ n ih =>
    rw [popTimes, wf.pop_eq bound (by omega)]
    refine ih (wf.parent_le bound) ?_
    rw [wf.level_parent bound]
    omega

end

end WellFormed

end Culibs.Cucon.Frame
