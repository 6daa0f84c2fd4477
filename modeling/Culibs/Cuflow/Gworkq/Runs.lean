import Culibs.Cuflow.Gworkq.Covered

namespace Culibs.Cuflow

open List

namespace System

open Gworkq

variable {Thread Flex Fn : Type} [DecidableEq Thread] [DecidableEq Flex] {sys sys' : System Thread Flex Fn}
  {thread : Thread} {action : Action Flex Fn} {seen : List (Observation Thread Flex Fn)} {fuel : Nat}

/-- A task that was scheduled on a queue. -/
def scheduledOn (gflexq : Gflexq Flex) : Observation Thread Flex Fn → Option Fn
  | .scheduled node fn => if node = gflexq then some fn else none
  | _ => none

/-- A task of a queue that was run. -/
def ranFrom (gflexq : Gflexq Flex) : Observation Thread Flex Fn → Option Fn
  | .ran node fn => if node = gflexq then some fn else none
  | _ => none

/-- The steps after which the cell is right if it was before. A task is scheduled when the cell does not hold −1,
or on a linked queue whose priority it covers, and nothing is pending above the priority that a thread has read
when the thread takes the lock. -/
def Timely (sys : System Thread Flex Fn) (thread : Thread) : Action Flex Fn → Prop
  | .schedAt _ _ => 0 ≤ cellInt sys.gworkq.gworkqPriority
  | .gflexqSched g _ =>
    if sys.gworkq.next (.flex g) = .null then 0 ≤ cellInt sys.gworkq.gworkqPriority
    else (sys.gworkq.priority g : Int) ≤ cellInt sys.gworkq.gworkqPriority
  | .yieldLocked => ∀ cutoff gwqPriority outer, sys.frames thread = .loaded cutoff gwqPriority :: outer →
      ∀ q, sys.gworkq.Pending q → (q : Int) ≤ gwqPriority
  | _ => True

/-- What every step keeps. -/
structure Sound (sys : System Thread Flex Fn) : Prop where
  gworkq : sys.gworkq.Sound
  loaded : ∀ thread cutoff gwqPriority, .loaded cutoff gwqPriority ∈ sys.frames thread →
    -1 ≤ gwqPriority ∧ gwqPriority < 16

theorem step_cases (stepped : sys.step fuel thread action = some (seen, sys')) :
    (∃ fn p, action = .schedAt fn p ∧ seen = [.scheduled (.head p) fn] ∧ sys'.gworkq = sys.gworkq.schedAt fn p) ∨
    (∃ g fn, action = .gflexqSched g fn ∧ seen = [.scheduled (.flex g) fn] ∧
      sys'.gworkq = sys.gworkq.gflexqSchedGlck g fn) ∨
    (∃ g pri, action = .raiseLocked ∧ seen = [] ∧
      sys.gworkq.gflexqRaisePriorityGlck pri fuel g = some sys'.gworkq) ∨
    (∃ cutoff gwqPriority outer left, action = .yieldLocked ∧
      sys.frames thread = .loaded cutoff gwqPriority :: outer ∧
      sys.gworkq.yieldLoop cutoff fuel gwqPriority = some left ∧ (seen, sys') = sys.leaveYield thread outer left) ∨
    (sys.Timely thread action ∧ sys'.gworkq = sys.gworkq ∧
      ∀ node, seen.filterMap (scheduledOn node) = [] ∧ seen.filterMap (ranFrom node) = []) := by
  cases action with
  | schedAt fn p =>
    simp only [step] at stepped
    split at stepped <;> cases stepped
    exact .inl ⟨fn, p, rfl, rfl, rfl⟩
  | gflexqSched g fn =>
    simp only [step] at stepped
    split at stepped <;> cases stepped
    exact .inr (.inl ⟨g, fn, rfl, rfl, rfl⟩)
  | raisePriority g pri =>
    simp only [step] at stepped
    split at stepped <;> cases stepped
    refine .inr (.inr (.inr (.inr ⟨trivial, ?_, fun _ => ⟨rfl, rfl⟩⟩)))
    split <;> rfl
  | raiseLocked =>
    simp only [step] at stepped
    split at stepped
    · next g pri outer _ =>
      split at stepped <;> cases stepped
      next raised => exact .inr (.inr (.inl ⟨g, pri, rfl, rfl, raised⟩))
    · cases stepped
  | yieldAt cutoff =>
    simp only [step] at stepped
    split at stepped
    · split at stepped <;> cases stepped
      · exact .inr (.inr (.inr (.inr ⟨trivial, rfl, fun _ => ⟨rfl, rfl⟩⟩)))
      · exact .inr (.inr (.inr (.inr ⟨trivial, rfl, fun _ => ⟨rfl, rfl⟩⟩)))
    · cases stepped
  | yieldLoad =>
    simp only [step] at stepped
    split at stepped <;> cases stepped
    exact .inr (.inr (.inr (.inr ⟨trivial, rfl, fun _ => ⟨rfl, rfl⟩⟩)))
  | yieldLocked =>
    simp only [step] at stepped
    split at stepped
    · next cutoff gwqPriority outer top =>
      split at stepped
      · next left isLeft =>
        exact .inr (.inr (.inr (.inl ⟨cutoff, gwqPriority, outer, left, rfl, top, isLeft, (Option.some.inj stepped).symm⟩)))
      · cases stepped
    · cases stepped
  | taskDone =>
    simp only [step] at stepped
    split at stepped <;> cases stepped
    exact .inr (.inr (.inr (.inr ⟨trivial, rfl, fun _ => ⟨rfl, rfl⟩⟩)))

variable {cutoff : Priority} {gwqPriority : Int}

private theorem step_loaded (stepped : sys.step fuel thread action = some (seen, sys'))
    (mem : .loaded cutoff gwqPriority ∈ sys'.frames t) :
    .loaded cutoff gwqPriority ∈ sys.frames t ∨ gwqPriority = cellInt sys.gworkq.gworkqPriority := by
  have set : ∀ (gwq : Gworkq Flex Fn) frames,
      .loaded cutoff gwqPriority ∈ (setFrames { sys with gworkq := gwq } thread frames).frames t →
        .loaded cutoff gwqPriority ∈ sys.frames t ∨ t = thread ∧ .loaded cutoff gwqPriority ∈ frames := by
    intro gwq frames inNew
    unfold setFrames at inNew
    by_cases same : t = thread
    · subst same
      simp only [Function.update_self] at inNew
      exact .inr ⟨rfl, inNew⟩
    · simp only [Function.update_of_ne same] at inNew
      exact .inl inNew
  have tail : ∀ {frame outer}, sys.frames thread = frame :: outer → t = thread ∧ .loaded cutoff gwqPriority ∈ outer →
      .loaded cutoff gwqPriority ∈ sys.frames t := by
    rintro frame outer top ⟨rfl, inOuter⟩
    rw [top]
    exact .tail _ inOuter
  cases action with
  | schedAt fn p =>
    simp only [step] at stepped
    split at stepped <;> cases stepped
    exact .inl mem
  | gflexqSched g fn =>
    simp only [step] at stepped
    split at stepped <;> cases stepped
    exact .inl mem
  | raisePriority g pri =>
    simp only [step] at stepped
    split at stepped <;> cases stepped
    split at mem
    · exact .inl ((set _ _ mem).elim id fun ⟨same, pushed⟩ => same ▸ by simpa using pushed)
    · exact .inl mem
  | raiseLocked =>
    simp only [step] at stepped
    split at stepped
    · next top =>
      split at stepped <;> cases stepped
      exact .inl ((set _ _ mem).elim id (tail top))
    · cases stepped
  | yieldAt cutoff =>
    simp only [step] at stepped
    split at stepped
    · split at stepped <;> cases stepped
      · exact .inl ((set _ _ mem).elim id fun ⟨same, pushed⟩ => same ▸ by simpa using pushed)
      · exact .inl mem
    · cases stepped
  | yieldLoad =>
    simp only [step] at stepped
    split at stepped
    · next top =>
      cases stepped
      refine (set _ _ mem).elim .inl fun ⟨same, inFrames⟩ => ?_
      rcases mem_cons.mp inFrames with isNew | inOuter
      · cases isNew
        exact .inr rfl
      · exact .inl (tail top ⟨same, inOuter⟩)
    · cases stepped
  | yieldLocked =>
    simp only [step] at stepped
    split at stepped
    · next top =>
      split at stepped
      · next left _ =>
        obtain ⟨_ | ⟨fn, node⟩, gwq⟩ := left <;> cases stepped
        · exact .inl ((set _ _ mem).elim id (tail top))
        · refine .inl ((set _ _ mem).elim id fun ⟨same, inFrames⟩ => tail top ⟨same, ?_⟩)
          simpa using inFrames
      · cases stepped
    · cases stepped
  | taskDone =>
    simp only [step] at stepped
    split at stepped
    · next top =>
      cases stepped
      exact .inl ((set _ _ mem).elim id (tail top))
    · cases stepped

omit [DecidableEq Flex] in
theorem leaveYield_gworkq (sys : System Thread Flex Fn) (thread : Thread) (outer : List (Frame Flex Fn))
    (left : Option (Fn × Gflexq Flex) × Gworkq Flex Fn) :
    (sys.leaveYield thread outer left).2.gworkq = left.2 := by
  obtain ⟨_ | ⟨fn, node⟩, gwq⟩ := left <;> rfl

omit [DecidableEq Thread] in
theorem Sound.yielded (sound : sys.Sound) (top : sys.frames thread = .loaded cutoff gwqPriority :: outer)
    (ends : sys.gworkq.yieldLoop cutoff fuel gwqPriority = some left) :
    -1 ≤ gwqPriority ∧ gwqPriority < 16 ∧
      ∃ lists, sys.gworkq.Linked lists ∧ Yielded sys.gworkq lists cutoff gwqPriority left := by
  obtain ⟨least, most⟩ := sound.loaded thread cutoff gwqPriority (by rw [top]; exact .head _ ..)
  obtain ⟨lists, linked⟩ := sound.gworkq.linked
  obtain ⟨found, ⟨only, _⟩, yielded⟩ := yieldLoop_reaches cutoff linked most
  have isFound : left = found := by
    rcases only fuel with stuck | reached
    · exact absurd (ends.symm.trans stuck) (by simp)
    · exact Option.some.inj (ends.symm.trans reached)
  exact ⟨least, most, lists, linked, isFound ▸ yielded⟩

theorem Sound.step (sound : sys.Sound) (stepped : sys.step fuel thread action = some (seen, sys')) : sys'.Sound := by
  refine ⟨?_, fun t cutoff gwqPriority mem => ?_⟩
  · rcases step_cases stepped with ⟨fn, p, _, _, after⟩ | ⟨g, fn, _, _, after⟩ | ⟨g, pri, _, _, raised⟩ |
      ⟨cutoff, gwqPriority, outer, left, _, top, ends, after⟩ | ⟨_, after, _⟩
    · rw [after]
      exact sound.gworkq.schedAt fn p
    · rw [after]
      exact sound.gworkq.gflexqSchedGlck g fn
    · exact gflexqRaisePriorityGlck_keeps (fun gwq g kept => kept.gflexqSetPriorityGlck g pri) fuel sound.gworkq raised
    · obtain ⟨least, most, lists, linked, yielded⟩ := sound.yielded top ends
      have same : sys'.gworkq = left.2 := by
        rw [← leaveYield_gworkq sys thread outer left, ← after]
      rw [same]
      exact yielded.sound least most
    · rw [after]
      exact sound.gworkq
  · rcases step_loaded stepped mem with before | isCell
    · exact sound.loaded t cutoff gwqPriority before
    · rw [isCell]
      exact sound.gworkq.range.cellInt

theorem Sound.step_covered_iff (sound : sys.Sound) (covered : sys.gworkq.Covered)
    (stepped : sys.step fuel thread action = some (seen, sys')) :
    sys'.gworkq.Covered ↔ sys.Timely thread action := by
  rcases step_cases stepped with ⟨fn, p, rfl, _, after⟩ | ⟨g, fn, rfl, _, after⟩ | ⟨g, pri, rfl, _, raised⟩ |
    ⟨cutoff, gwqPriority, outer, left, rfl, top, ends, after⟩ | ⟨timely, after, _⟩
  · rw [after]
    exact schedAt_covered_iff sound.gworkq covered fn p
  · rw [after]
    exact gflexqSchedGlck_covered_iff sound.gworkq covered g fn
  · refine ⟨fun _ => trivial, fun _ => ?_⟩
    exact (gflexqRaisePriorityGlck_keeps (P := fun gwq => gwq.Sound ∧ gwq.Covered)
      (fun gwq g kept => ⟨kept.1.gflexqSetPriorityGlck g pri, kept.2.gflexqSetPriorityGlck kept.1 g pri⟩) fuel
      ⟨sound.gworkq, covered⟩ raised).2
  · obtain ⟨least, most, lists, linked, yielded⟩ := sound.yielded top ends
    have same : sys'.gworkq = left.2 := by
      rw [← leaveYield_gworkq sys thread outer left, ← after]
    rw [same, yielded.covered_iff linked least most]
    constructor
    · intro above cutoff' gwqPriority' outer' top'
      rw [top] at top'
      cases top'
      exact above
    · exact fun timely => timely cutoff gwqPriority outer top
  · rw [after]
    exact ⟨fun _ => timely, fun _ => covered⟩

/-- The tasks before a step and those it schedules are the tasks it runs and those after it. -/
theorem Sound.step_tasks (sound : sys.Sound) (stepped : sys.step fuel thread action = some (seen, sys'))
    (node : Gflexq Flex) : sys.gworkq.tasks node ++ seen.filterMap (scheduledOn node) =
      seen.filterMap (ranFrom node) ++ sys'.gworkq.tasks node := by
  have scheduled : ∀ (at' : Gflexq Flex) (fn : Fn), Added sys.gworkq sys'.gworkq at' fn →
      sys.gworkq.tasks node ++ [(.scheduled at' fn : Observation Thread Flex Fn)].filterMap (scheduledOn node) =
        [(.scheduled at' fn : Observation Thread Flex Fn)].filterMap (ranFrom node) ++ sys'.gworkq.tasks node := by
    intro at' fn added
    rw [added node]
    by_cases same : node = at'
    · subst same
      simp [scheduledOn, ranFrom]
    · simp [scheduledOn, ranFrom, same, Ne.symm same]
  rcases step_cases stepped with ⟨fn, p, rfl, rfl, after⟩ | ⟨g, fn, rfl, rfl, after⟩ | ⟨g, pri, rfl, rfl, raised⟩ |
    ⟨cutoff, gwqPriority, outer, left, rfl, top, ends, after⟩ | ⟨_, after, quiet⟩
  · refine scheduled _ _ ?_
    rw [after]
    exact schedAt_added fn p
  · obtain ⟨lists, linked⟩ := sound.gworkq.linked
    refine scheduled _ _ ?_
    rw [after]
    exact gflexqSchedGlck_added linked g fn
  · have same := gflexqRaisePriorityGlck_keeps
      (P := fun gwq => (∃ lists, gwq.Linked lists) ∧ gwq.tasks node = sys.gworkq.tasks node)
      (fun gwq g kept => by
        obtain ⟨⟨lists, linked⟩, same⟩ := kept
        exact ⟨linked.gflexqSetPriorityGlck g pri, (gflexqSetPriorityGlck_tasks linked g pri node).trans same⟩) fuel
      ⟨sound.gworkq.linked, rfl⟩ raised
    rw [same.2]
    exact append_nil _
  · obtain ⟨_, _, lists, linked, yielded⟩ := sound.yielded top ends
    obtain ⟨found, gwq⟩ := left
    rcases yielded.outcome with ⟨level, fn, from', rfl, _, _, _, ⟨_, first⟩, taken, _⟩ | ⟨rfl, _, same, _⟩
    · obtain ⟨rfl, rfl⟩ := Prod.mk.inj after
      have tasks : gwq.tasks node = if node = from' then (sys.gworkq.tasks from').tail else sys.gworkq.tasks node :=
        taken node
      have isAfter : (setFrames { sys with gworkq := gwq } thread (.running from' fn :: outer)).gworkq.tasks node =
          gwq.tasks node := rfl
      rw [isAfter, tasks]
      by_cases isFrom : node = from'
      · subst isFrom
        obtain ⟨rest, split⟩ := head?_eq_some_iff.mp first
        simp [scheduledOn, ranFrom, split]
      · simp [scheduledOn, ranFrom, isFrom, Ne.symm isFrom]
    · obtain ⟨rfl, rfl⟩ := Prod.mk.inj after
      have isAfter : (setFrames { sys with gworkq := gwq } thread outer).gworkq.tasks node = gwq.tasks node := rfl
      rw [isAfter, same node]
      exact append_nil _
  · rw [after, (quiet node).1, (quiet node).2, append_nil, nil_append]

/-- The states that threads reach from `start`, and what they did. With `timely`, by steps that are timely. -/
inductive Run (timely : Prop) (start : System Thread Flex Fn) :
    List (Observation Thread Flex Fn) → System Thread Flex Fn → Prop
  | start : Run timely start [] start
  | step {seen seen' : List (Observation Thread Flex Fn)} {sys sys' : System Thread Flex Fn}
      (run : Run timely start seen sys) (fuel : Nat) (thread : Thread) (action : Action Flex Fn)
      (stepped : sys.step fuel thread action = some (seen', sys')) (inTime : timely → sys.Timely thread action) :
      Run timely start (seen ++ seen') sys'

/-- No thread is in a call, and no task was scheduled. -/
def init (priority : Flex → Priority) (subqueueList : Flex → List Flex) : System Thread Flex Fn where
  gworkq := .init priority subqueueList
  frames _ := []

omit [DecidableEq Thread] [DecidableEq Flex] in
private theorem linked_init (priority : Flex → Priority) (subqueueList : Flex → List Flex) :
    (Gworkq.init priority subqueueList : Gworkq Flex Fn).Linked fun _ => [] := by
  refine ⟨⟨fun p => ⟨?_, by simp⟩, by simp⟩, by simp, fun _ _ => rfl, fun g nonempty => absurd rfl nonempty⟩
  exact isChain_pair.mpr ⟨rfl, rfl⟩

omit [DecidableEq Thread] [DecidableEq Flex] in
/-- A thread that yields alone runs the first task of the highest priority with tasks, and the call returns true. -/
def YieldsHighest (sys : System Thread Flex Fn) (thread : Thread) (cutoff : Priority) : Prop :=
  ∃ (level : Priority) (lists : Priority → List Flex) (node : Gflexq Flex) (fn : Fn) (bound : Nat),
    cutoff ≤ level ∧ (∀ q, sys.gworkq.Pending q → q ≤ level) ∧
      sys.gworkq.Linked lists ∧ sys.gworkq.FirstTask lists level node fn ∧
      ∀ fuel, bound ≤ fuel → ∃ sys', sys.run fuel
        [(thread, .yieldAt cutoff), (thread, .yieldLoad), (thread, .yieldLocked), (thread, .taskDone)] =
          some ([.ran node fn, .yielded thread true], sys') ∧ sys.gworkq.Taken sys'.gworkq node

theorem Sound.yieldsHighest (sound : sys.Sound) (covered : sys.gworkq.Covered) (ready : sys.ready thread)
    (least : cutoff ≤ p) (pending : sys.gworkq.Pending p) : sys.YieldsHighest thread cutoff := by
  obtain ⟨lists, linked⟩ := sound.gworkq.linked
  obtain ⟨_, most⟩ := sound.gworkq.range.cellInt
  obtain ⟨⟨taken, gwq⟩, ⟨_, bound, enough⟩, yielded⟩ := yieldLoop_reaches cutoff linked most
  have top := covered p pending
  rcases yielded.outcome with ⟨level, fn, node, isTaken, above, inside, none, first, tasks, _⟩ | ⟨_, none, _⟩
  · simp only at isTaken
    subst isTaken
    refine ⟨level, lists, node, fn, bound, above, fun q isPending => ?_, linked, first, fun fuel more => ?_⟩
    · by_contra higher
      exact none q (Fin.not_le.mp higher) (covered q isPending) isPending
    have below : (cutoff : Int) ≤ cellInt sys.gworkq.gworkqPriority := by
      rw [Fin.le_def] at least
      omega
    have section' := enough fuel more
    let called := sys.push thread (.yielding cutoff)
    let loaded := called.setFrames thread (.loaded cutoff (cellInt sys.gworkq.gworkqPriority) :: sys.frames thread)
    let running := setFrames { loaded with gworkq := gwq } thread (.running node fn :: sys.frames thread)
    refine ⟨running.setFrames thread (sys.frames thread), ?_, tasks⟩
    simp [run, System.step, ready, below, push, setFrames, section', leaveYield, called, loaded, running]
  · exact absurd pending (none p least top)

/-- Each queue runs its tasks in the order in which they were scheduled and each at most once. When all steps are
timely the cell is at least every pending priority, and a thread that yields alone finds the highest of them. -/
theorem run_interleaves {timely : Prop} {priority : Flex → Priority} {subqueueList : Flex → List Flex}
    (run : Run timely (init priority subqueueList) seen sys) :
    (∀ node, seen.filterMap (scheduledOn node) = seen.filterMap (ranFrom node) ++ sys.gworkq.tasks node) ∧
      (timely → sys.gworkq.Covered ∧ ∀ thread cutoff p, sys.ready thread → cutoff ≤ p → sys.gworkq.Pending p →
        sys.YieldsHighest thread cutoff) := by
  have kept : sys.Sound ∧
      (∀ node, seen.filterMap (scheduledOn node) = seen.filterMap (ranFrom node) ++ sys.gworkq.tasks node) ∧
      (timely → sys.gworkq.Covered) := by
    induction run with
    | start =>
      refine ⟨(⟨⟨⟨_, linked_init priority subqueueList⟩, ⟨0, by decide, by decide, rfl⟩⟩, fun _ _ _ mem => absurd
        mem (by simp [init])⟩), fun _ => rfl, fun _ p pending => ?_⟩
      obtain ⟨node, _, nonempty⟩ := pending
      exact absurd rfl nonempty
    | step run fuel thread action stepped inTime ih =>
      obtain ⟨sound, history, covered⟩ := ih
      refine ⟨sound.step stepped, fun node => ?_, fun isTimely => ?_⟩
      · rw [filterMap_append, filterMap_append, history node, append_assoc,
          sound.step_tasks stepped node, append_assoc]
      · exact (sound.step_covered_iff (covered isTimely) stepped).mpr (inTime isTimely)
  obtain ⟨sound, history, covered⟩ := kept
  exact ⟨history, fun isTimely => ⟨covered isTimely, fun thread cutoff p ready least pending =>
    sound.yieldsHighest (covered isTimely) ready least pending⟩⟩

/-- One thread schedules on a fixed queue and begins to yield, the other schedules on a flexible queue of higher
priority, whose task the first thread then runs. -/
theorem run_interleaves_two : ∃ sys : System Bool Unit Bool,
    Run True (init (fun _ => 3) fun _ => [])
      [.scheduled (.head 2) true, .scheduled (.flex ()) false, .ran (.flex ()) false, .yielded false true] sys ∧
      sys.gworkq.Covered ∧ sys.YieldsHighest true 1 := by
  have began : Run True (init (fun _ => 3) (fun _ => []) : System Bool Unit Bool) [] _ := .start
  have sched := began.step 0 false (.schedAt true 2) rfl fun _ => by
    unfold Timely
    decide
  have yielding := sched.step 0 false (.yieldAt 1) rfl fun _ => trivial
  have flexSched := yielding.step 0 true (.gflexqSched () false) rfl fun _ => by
    unfold Timely
    decide
  have loaded := flexSched.step 0 false .yieldLoad rfl fun _ => trivial
  have taken := loaded.step 9 false .yieldLocked rfl fun _ => by
    rintro _ _ _ ⟨⟩
    exact ((run_interleaves loaded).2 trivial).1
  have run := taken.step 0 false .taskDone rfl fun _ => trivial
  obtain ⟨covered, highest⟩ := (run_interleaves run).2 trivial
  exact ⟨_, run, covered, highest true 1 2 rfl (by decide) ⟨.head 2, rfl, by decide⟩⟩

variable {start : System Thread Flex Fn}

theorem Run.of_run (before : Run False start seen sys)
    (ran : sys.run fuel actions = some (seen', sys')) : Run False start (seen ++ seen') sys' := by
  induction actions generalizing seen seen' sys with
  | nil =>
    cases ran
    simpa using before
  | cons next actions ih =>
    obtain ⟨thread, action⟩ := next
    simp only [System.run] at ran
    split at ran
    · next first sys1 stepped =>
      split at ran
      · next rest sys2 later =>
        cases ran
        rw [← append_assoc]
        exact ih (before.step fuel thread action stepped False.elim) later
      · cases ran
    · cases ran

/-- A task is pending above the cell, and a thread that asks for it gets the answer that there is none. -/
def Lost (sys : System Thread Flex Fn) (thread : Thread) : Prop :=
  ∃ p : Priority, sys.gworkq.Pending p ∧ ¬ (p : Int) ≤ cellInt sys.gworkq.gworkqPriority ∧
    sys.step 0 thread (.yieldAt p) = some ([.yielded thread false], sys)

theorem Run.lost (fuel : Nat) (actions : List (Thread × Action Flex Fn)) (cell : Word)
    (fn : Fn) (p : Priority) (ran : (start.run fuel actions).map (fun result => (result.2.gworkq.gworkqPriority,
      result.2.gworkq.tasks (.head p), result.2.ready thread)) = some (cell, [fn], true))
    (above : ¬ (p : Int) ≤ cellInt cell) :
    ∃ seen sys, Run False start seen sys ∧ sys.gworkq.gworkqPriority = cell ∧ sys.Lost thread := by
  obtain ⟨⟨seen, sys⟩, reached, found⟩ := Option.map_eq_some_iff.mp ran
  simp only [Prod.mk.injEq] at found
  obtain ⟨rfl, tasks, ready⟩ := found
  refine ⟨_, sys, Run.start.of_run reached, rfl, p, ⟨.head p, rfl, by simp [tasks]⟩, above, ?_⟩
  simp only [System.step]
  rw [if_pos ready, if_neg above]

/-- A thread writes a priority back that it has read before another thread scheduled a task, and a search down to
priority 0 that finds nothing leaves −1. In both states a pending task is not found. -/
theorem priority_lost :
    (∃ seen, ∃ sys : System Bool Unit Bool, Run False (init (fun _ => 3) fun _ => []) seen sys ∧
      sys.gworkq.gworkqPriority = 2 ∧ sys.Lost false) ∧
    ∃ seen, ∃ sys : System Bool Unit Bool, Run False (init (fun _ => 3) fun _ => []) seen sys ∧
      sys.gworkq.gworkqPriority = BitVec.allOnes 64 ∧ sys.Lost false := by
  constructor
  · exact Run.lost 9 [(false, .schedAt false 2), (false, .yieldAt 1), (false, .yieldLoad), (true, .schedAt true 9),
      (false, .yieldLocked), (false, .taskDone)] 2 true 9 (by decide) (by decide)
  · exact Run.lost 18 [(false, .yieldAt 0), (false, .yieldLoad), (false, .yieldLocked), (true, .schedAt true 9)]
      (BitVec.allOnes 64) true 9 (by decide) (by decide)

end System

end Culibs.Cuflow
