import Mathlib.Data.List.ReduceOption

/-! The queues of pending tasks of `cuflow/workq.c`, chains of segments of 32 tasks. -/

namespace Culibs.Cuflow

open List Nat

abbrev workqsegSize : Nat := 32

/-- The `fn_arr` of a segment. A slot that was not written is `none`, like the null pointer. -/
abbrev Workqseg (Fn : Type) := Nat → Option Fn

/-- The segments are those from `head_seg` to `tail_seg`, none as long as both are null. The cursors are
positions in the first and in the last of them. Segments are never reused, so `last_seg` is `tail_seg`. -/
structure Workq (Fn : Type) where
  segs : List (Workqseg Fn)
  headCur : Nat
  headEnd : Nat
  tailCur : Nat
  tailEnd : Nat

namespace Workq

variable {Fn : Type}

def init : Workq Fn := { segs := [], headCur := 0, headEnd := 0, tailCur := 0, tailEnd := 0 }

def advanceTail (wq : Workq Fn) : Workq Fn :=
  let wq := match wq.segs with
    | [] => { wq with segs := [fun _ => none], headCur := 0, headEnd := 0 }
    | segs => { wq with segs := segs ++ [fun _ => none] }
  { wq with tailCur := 0, tailEnd := workqsegSize }

/-- The write `*wq->tail_cur = fn` to the last segment. -/
def store (i : Nat) (fn : Fn) : List (Workqseg Fn) → List (Workqseg Fn)
  | [] => []
  | [seg] => [Function.update seg i (some fn)]
  | seg :: segs => seg :: store i fn segs

def append (wq : Workq Fn) (fn : Fn) : Workq Fn :=
  let wq := if wq.tailCur = wq.tailEnd then wq.advanceTail else wq
  { wq with segs := store wq.tailCur fn wq.segs, tailCur := wq.tailCur + 1 }

/-- The read `*wq->head_cur++` of the first segment. -/
def fetch (wq : Workq Fn) : Option Fn × Workq Fn :=
  ((wq.segs.head?.bind fun seg => seg wq.headCur), { wq with headCur := wq.headCur + 1 })

/-- The part of the pop behind the end of the known tasks. -/
def popFrontSlow (wq : Workq Fn) : Option Fn × Workq Fn :=
  match wq.segs with
  | _ :: seg :: segs =>
    if wq.headEnd ≠ workqsegSize then fetch { wq with headEnd := workqsegSize }
    else
      let headEnd := if segs.isEmpty then wq.tailCur else workqsegSize
      fetch { wq with segs := seg :: segs, headCur := 0, headEnd := headEnd }
  | _ => if wq.headEnd ≠ wq.tailCur then fetch { wq with headEnd := wq.tailCur } else (none, wq)

def popFront (wq : Workq Fn) : Option Fn × Workq Fn :=
  if wq.headCur = wq.headEnd then wq.popFrontSlow else wq.fetch

/-- The slots from the position `i` of the first segment to the position `tail` of the last one. -/
def slots (tail : Nat) : Nat → List (Workqseg Fn) → List (Option Fn)
  | _, [] => []
  | i, [seg] => (range' i (tail - i)).map seg
  | i, seg :: segs => (range' i (workqsegSize - i)).map seg ++ slots tail 0 segs

def pending (wq : Workq Fn) : List (Option Fn) := slots wq.tailCur wq.headCur wq.segs

/-- The cursors are in order, and only the pending slots are between them. -/
structure Valid (wq : Workq Fn) : Prop where
  unused : wq.segs = [] → wq.headCur = 0 ∧ wq.headEnd = 0 ∧ wq.tailCur = 0 ∧ wq.tailEnd = 0
  known : wq.headCur ≤ wq.headEnd
  single : wq.segs.length = 1 → wq.headEnd ≤ wq.tailCur
  several : 2 ≤ wq.segs.length → wq.headEnd ≤ workqsegSize ∧ 0 < wq.tailCur
  tail : wq.segs ≠ [] → wq.tailCur ≤ workqsegSize ∧ wq.tailEnd = workqsegSize
  filled : ∀ slot ∈ wq.pending, slot.isSome

private theorem valid_init : (init : Workq Fn).Valid := by
  constructor <;> simp [init, pending, slots]

variable {i tail : Nat} {segs : List (Workqseg Fn)}

private theorem slots_cons_of_lt (seg : Workqseg Fn) (below : i < if segs.isEmpty then tail else workqsegSize) :
    slots tail i (seg :: segs) = seg i :: slots tail (i + 1) (seg :: segs) := by
  cases segs with
  | nil =>
    have split : tail - i = tail - (i + 1) + 1 := by simp at below; omega
    simp only [slots]
    rw [split, range'_succ, map_cons]
  | cons next segs =>
    have split : workqsegSize - i = workqsegSize - (i + 1) + 1 := by simp at below; omega
    simp only [slots]
    rw [split, range'_succ, map_cons, cons_append]

theorem slots_consumed {seg next : Workqseg Fn} :
    slots tail workqsegSize (seg :: next :: segs) = slots tail 0 (next :: segs) := by
  simp [slots]

theorem slots_store (used : segs ≠ []) (order : segs.length = 1 → i ≤ tail) :
    slots (tail + 1) i (store tail fn segs) = slots tail i segs ++ [some fn] := by
  induction segs generalizing i with
  | nil => exact absurd rfl used
  | cons seg segs ih =>
    cases segs with
    | nil =>
      have below : i ≤ tail := order rfl
      have split : tail + 1 - i = (tail - i) + 1 := by omega
      have last : i + (tail - i) = tail := by omega
      simp only [store, slots]
      rw [split, range'_concat, map_append, Nat.one_mul, last, List.map_singleton, Function.update_self]
      congr 1
      refine map_congr_left fun k mem => Function.update_of_ne ?_ ..
      have := (mem_range'_1.mp mem).2
      omega
    | cons next segs =>
      have rest := ih (i := 0) (by simp) (fun _ => zero_le _)
      cases stored : store tail fn (next :: segs) with
      | nil => cases segs <;> simp [store] at stored
      | cons seg' segs' =>
        rw [stored] at rest
        rw [store, stored]
        · simp only [slots]
          rw [rest, append_assoc]
        · simp

theorem store_length : (store tail fn segs).length = segs.length := by
  fun_induction store tail fn segs with
  | case1 => rfl
  | case2 seg => rfl
  | case3 seg segs _ ih => rw [length_cons, ih, length_cons]

theorem slots_fresh (used : segs ≠ []) :
    slots 0 i (segs ++ [fresh]) = slots workqsegSize i segs := by
  induction segs generalizing i with
  | nil => exact absurd rfl used
  | cons seg segs ih =>
    cases segs with
    | nil => simp [slots]
    | cons next segs =>
      have rest := ih (i := 0) (by simp)
      rw [cons_append, cons_append] at *
      simp only [slots]
      rw [rest]

variable {wq : Workq Fn}

theorem Valid.fetch (valid : wq.Valid) (below : wq.headCur < wq.headEnd) :
    ∃ fn, wq.fetch.1 = some fn ∧ wq.pending = some fn :: wq.fetch.2.pending ∧ wq.fetch.2.Valid := by
  obtain ⟨segs, headCur, headEnd, tailCur, tailEnd⟩ := wq
  cases segs with
  | nil =>
    have unused := valid.unused rfl
    omega
  | cons seg segs =>
    have inside : headCur < if segs.isEmpty then tailCur else workqsegSize := by
      cases segs with
      | nil => exact Nat.lt_of_lt_of_le below (valid.single rfl)
      | cons next segs => exact Nat.lt_of_lt_of_le below (valid.several (by simp)).1
    have split := slots_cons_of_lt seg inside
    have filled := valid.filled
    rw [pending, split] at filled
    obtain ⟨fn, isFn⟩ := Option.isSome_iff_exists.mp (filled _ (mem_cons_self ..))
    refine ⟨fn, isFn, ?_, ?_, below, valid.single, valid.several, valid.tail, ?_⟩
    · rw [pending, split, isFn]
      rfl
    · exact fun none => absurd none (cons_ne_nil _ _)
    · exact fun slot mem => filled slot (.tail _ mem)

theorem Valid.room (valid : wq.Valid) :
    ∃ wq' : Workq Fn, wq' = (if wq.tailCur = wq.tailEnd then wq.advanceTail else wq) ∧ wq'.segs ≠ [] ∧
      wq'.pending = wq.pending ∧ wq'.headCur ≤ wq'.headEnd ∧ (wq'.segs.length = 1 → wq'.headEnd ≤ wq'.tailCur) ∧
      (2 ≤ wq'.segs.length → wq'.headEnd ≤ workqsegSize) ∧ wq'.tailCur < workqsegSize ∧
      wq'.tailEnd = workqsegSize := by
  obtain ⟨segs, headCur, headEnd, tailCur, tailEnd⟩ := wq
  refine ⟨_, rfl, ?_⟩
  cases segs with
  | nil =>
    obtain ⟨rfl, rfl, rfl, rfl⟩ := valid.unused rfl
    simp [advanceTail, pending, slots]
  | cons seg segs =>
    obtain ⟨bound, isEnd⟩ := valid.tail (cons_ne_nil _ _)
    split
    · next filled =>
      have full : tailCur = workqsegSize := Eq.trans filled isEnd
      have fresh : slots 0 headCur ((seg :: segs) ++ [fun _ => none]) = slots workqsegSize headCur (seg :: segs) :=
        slots_fresh (cons_ne_nil _ _)
      refine ⟨by simp [advanceTail], ?_, valid.known, ?_, fun _ => ?_, by simp [advanceTail], rfl⟩
      · simp only [advanceTail, pending]
        rw [fresh, full]
      · simp [advanceTail]
      · cases segs with
        | nil => exact Nat.le_trans (valid.single rfl) bound
        | cons next segs => exact (valid.several (by simp)).1
    · next space =>
      exact ⟨cons_ne_nil _ _, rfl, valid.known, valid.single, fun several => (valid.several several).1,
        Nat.lt_of_le_of_ne bound fun full => space (Eq.trans full isEnd.symm), isEnd⟩

theorem Valid.append (valid : wq.Valid) (fn : Fn) :
    (wq.append fn).Valid ∧ (wq.append fn).pending = wq.pending ++ [some fn] := by
  obtain ⟨wq', isRoom, used, same, known, single, several, space, isEnd⟩ := valid.room
  have stored : (wq.append fn).pending = wq.pending ++ [some fn] := by
    rw [Workq.append, ← isRoom, ← same]
    exact slots_store used fun one => Nat.le_trans known (single one)
  refine ⟨⟨fun none => ?_, ?_, ?_, ?_, fun _ => ?_, ?_⟩, stored⟩
  · rw [Workq.append, ← isRoom] at none
    exact absurd (length_eq_zero_iff.mp ((store_length).symm.trans (congrArg length none))) used
  · rw [Workq.append, ← isRoom]
    exact known
  · rw [Workq.append, ← isRoom]
    intro one
    rw [store_length] at one
    exact le_succ_of_le (single one)
  · rw [Workq.append, ← isRoom]
    intro many
    rw [store_length] at many
    exact ⟨several many, succ_pos _⟩
  · rw [Workq.append, ← isRoom]
    exact ⟨space, isEnd⟩
  · rw [stored]
    intro slot mem
    rcases mem_append.mp mem with old | new
    · exact valid.filled slot old
    · rw [mem_singleton.mp new]
      rfl

theorem Valid.popFront (valid : wq.Valid) :
    wq.pending = [] ∧ wq.popFront = (none, wq) ∨
      ∃ fn, wq.popFront.1 = some fn ∧ wq.pending = some fn :: wq.popFront.2.pending ∧ wq.popFront.2.Valid := by
  unfold Workq.popFront
  split
  · next reached =>
    obtain ⟨segs, headCur, headEnd, tailCur, tailEnd⟩ := wq
    simp only at reached
    subst reached
    match segs with
    | [] =>
      obtain ⟨rfl, _, rfl, rfl⟩ := valid.unused rfl
      exact .inl ⟨rfl, rfl⟩
    | [seg] =>
      have bound : headCur ≤ tailCur := valid.single rfl
      by_cases more : headCur ≠ tailCur
      · right
        rw [popFrontSlow]
        · simp only [if_pos more]
          have known : (⟨[seg], headCur, tailCur, tailCur, tailEnd⟩ : Workq Fn).Valid :=
            ⟨by simp, bound, fun _ => Nat.le_refl _, by simp, valid.tail, valid.filled⟩
          exact known.fetch (Nat.lt_of_le_of_ne bound more)
      · left
        rw [popFrontSlow]
        · simp only [if_neg more]
          rw [not_not] at more
          subst more
          simp [pending, slots]
    | seg :: next :: segs =>
      obtain ⟨bound, nonempty⟩ := valid.several (by simp)
      have tail := valid.tail (by simp)
      right
      simp only [popFrontSlow]
      by_cases more : headCur ≠ workqsegSize
      · rw [if_pos more]
        have known : (⟨seg :: next :: segs, headCur, workqsegSize, tailCur, tailEnd⟩ : Workq Fn).Valid :=
          ⟨by simp, bound, by simp, fun _ => ⟨Nat.le_refl _, nonempty⟩, valid.tail, valid.filled⟩
        exact known.fetch (Nat.lt_of_le_of_ne bound more)
      rw [not_not] at more
      subst more
      have filled := valid.filled
      have known : (⟨next :: segs, 0, if segs.isEmpty then tailCur else workqsegSize, tailCur, tailEnd⟩ :
          Workq Fn).Valid := by
        refine ⟨by simp, zero_le _, ?_, ?_, fun _ => tail, filled⟩
        · cases segs <;> simp
        · cases segs <;> simp [nonempty]
      refine known.fetch ?_
      cases segs <;> simp [nonempty]
  · next ne => exact .inr (valid.fetch (Nat.lt_of_le_of_ne valid.known ne))

end Workq

/-- A queue whose cursors are in order. -/
structure Fifo (Fn : Type) where
  wq : Workq Fn
  valid : wq.Valid

namespace Fifo

variable {Fn : Type}

def init : Fifo Fn := ⟨.init, Workq.valid_init⟩

def append (fifo : Fifo Fn) (fn : Fn) : Fifo Fn := ⟨fifo.wq.append fn, (fifo.valid.append fn).1⟩

theorem valid_popFront (fifo : Fifo Fn) : fifo.wq.popFront.2.Valid := by
  rcases fifo.valid.popFront with ⟨_, popped⟩ | ⟨_, _, _, valid⟩
  · rw [popped]
    exact fifo.valid
  · exact valid

def popFront (fifo : Fifo Fn) : Option Fn × Fifo Fn := (fifo.wq.popFront.1, ⟨fifo.wq.popFront.2, fifo.valid_popFront⟩)

/-- The tasks on the queue, the next one first. -/
def tasks (fifo : Fifo Fn) : List Fn := fifo.wq.pending.filterMap id

@[simp] theorem tasks_append (fifo : Fifo Fn) (fn : Fn) : (fifo.append fn).tasks = fifo.tasks ++ [fn] := by
  unfold tasks append
  rw [(fifo.valid.append fn).2, filterMap_append]
  rfl

theorem popFront_spec (fifo : Fifo Fn) :
    fifo.popFront.1 = fifo.tasks.head? ∧ fifo.popFront.2.tasks = fifo.tasks.tail := by
  unfold popFront tasks
  rcases fifo.valid.popFront with ⟨empty, popped⟩ | ⟨fn, taken, split, _⟩
  · simp [popped, empty]
  · simp [taken, split]

/-- `cuflow_workq_size`. -/
def size (fifo : Fifo Fn) : Nat :=
  match fifo.wq.segs with
  | [] => 0
  | [_] => fifo.wq.tailCur - fifo.wq.headCur
  | _ :: _ :: segs =>
    segs.foldl (fun size _ => size + workqsegSize) (workqsegSize - fifo.wq.headCur) + fifo.wq.tailCur

theorem length_slots (tail : Nat) (seg : Workqseg Fn) (segs : List (Workqseg Fn)) :
    (Workq.slots tail 0 (seg :: segs)).length = workqsegSize * segs.length + tail := by
  induction segs generalizing seg with
  | nil => simp [Workq.slots]
  | cons next segs ih =>
    rw [Workq.slots, length_append, ih, length_map, length_range', length_cons, mul_succ]
    · omega
    · nofun

theorem size_eq (fifo : Fifo Fn) : fifo.size = fifo.tasks.length := by
  have all : fifo.tasks.length = fifo.wq.pending.length := filterMap_length_eq_length.mpr fifo.valid.filled
  rw [all, size, Workq.pending]
  match fifo.wq.segs with
  | [] => rfl
  | [_] => simp [Workq.slots]
  | _ :: seg :: segs => simp [Workq.slots, length_slots, Nat.add_assoc]

/-- Appends or, at `none`, pops, with the tasks that are popped. -/
def run (fifo : Fifo Fn) : List (Option Fn) → List Fn × Fifo Fn
  | [] => ([], fifo)
  | some fn :: ops => run (fifo.append fn) ops
  | none :: ops => (fifo.popFront.1.toList ++ (run fifo.popFront.2 ops).1, (run fifo.popFront.2 ops).2)

private theorem run_tasks (fifo : Fifo Fn) (ops : List (Option Fn)) :
    (fifo.run ops).1 ++ (fifo.run ops).2.tasks = fifo.tasks ++ ops.reduceOption := by
  induction ops generalizing fifo with
  | nil => simp [run]
  | cons op ops ih =>
    cases op with
    | some fn => simp [run, ih]
    | none =>
      obtain ⟨first, rest⟩ := fifo.popFront_spec
      cases pending : fifo.tasks <;> simp [run, ih, first, rest, pending]

/-- Tasks are popped in their order, a pop returns null if there is none left, and the size is right. -/
theorem run_init (ops : List (Option Fn)) :
    (init.run ops).1 ++ (init.run ops).2.tasks = ops.reduceOption ∧
      ((init.run ops).2.popFront.1 = none ↔ (init.run ops).1 = ops.reduceOption) ∧
      (init.run ops).1.length + (init.run ops).2.size = ops.reduceOption.length := by
  have split : (init.run ops).1 ++ (init.run ops).2.tasks = ops.reduceOption := run_tasks init ops
  rw [(popFront_spec _).1, head?_eq_none_iff, size_eq, ← split, length_append, self_eq_append_right]
  exact ⟨rfl, Iff.rfl, rfl⟩

end Fifo

end Culibs.Cuflow
