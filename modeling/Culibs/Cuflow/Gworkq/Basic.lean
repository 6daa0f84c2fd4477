import Culibs.Cu.Int
import Culibs.Cuflow.Workq
import Culibs.Foundation.Ring

/-! The global work queue of `cuflow/gworkq.c`: the sections under its lock, and the threads
that run them and read the priority cell without the lock. -/

namespace Culibs.Cuflow

open Function

abbrev priorityPostmax : Nat := 16

abbrev Priority := Fin priorityPostmax

/-- A `cuflow_gflexq_t`: null, the queue inside of `gworkq[priority]`, or a flexible queue. -/
inductive Gflexq (Flex : Type) where
  | null
  | head (priority : Priority)
  | flex (id : Flex)
deriving DecidableEq

/-- What the lock protects. -/
structure Gworkq (Flex Fn : Type) where
  links : Links (Gflexq Flex)
  workq : Gflexq Flex → Fifo Fn
  priority : Flex → Priority
  subqueueList : Flex → List Flex
  gworkqPriority : Word

/-- The conversion from `AO_t` to `int`. -/
def cellInt (cell : Word) : Int := (cell.setWidth 32).toInt

namespace Gworkq

variable {Flex Fn : Type} [DecidableEq Flex]

/-- After `cuflowP_gworkq_init` and a `cuflow_gflexq_init` of every flexible queue. -/
def init (priority : Flex → Priority) (subqueueList : Flex → List Flex) : Gworkq Flex Fn where
  links :=
    let self : Gflexq Flex → Gflexq Flex
      | .head priority => .head priority
      | _ => .null
    { next := self, prev := self }
  workq _ := Fifo.init
  priority := priority
  subqueueList := subqueueList
  gworkqPriority := 0

def next (gwq : Gworkq Flex Fn) (node : Gflexq Flex) : Gflexq Flex := gwq.links.next node

def prev (gwq : Gworkq Flex Fn) (node : Gflexq Flex) : Gflexq Flex := gwq.links.prev node

def setNext (gwq : Gworkq Flex Fn) (node target : Gflexq Flex) : Gworkq Flex Fn :=
  { gwq with links := { gwq.links with next := update gwq.links.next node target } }

def setPrev (gwq : Gworkq Flex Fn) (node target : Gflexq Flex) : Gworkq Flex Fn :=
  { gwq with links := { gwq.links with prev := update gwq.links.prev node target } }

def append (gwq : Gworkq Flex Fn) (node : Gflexq Flex) (fn : Fn) : Gworkq Flex Fn :=
  { gwq with workq := update gwq.workq node ((gwq.workq node).append fn) }

def popFront (gwq : Gworkq Flex Fn) (node : Gflexq Flex) : Option Fn × Gworkq Flex Fn :=
  ((gwq.workq node).popFront.1, { gwq with workq := update gwq.workq node (gwq.workq node).popFront.2 })

/-- `if (priority > gworkq_priority) gworkq_priority = priority`, a comparison of unsigned words. -/
def raiseCell (gwq : Gworkq Flex Fn) (priority : Priority) : Gworkq Flex Fn :=
  if BitVec.ofNat 64 priority > gwq.gworkqPriority then { gwq with gworkqPriority := BitVec.ofNat 64 priority }
  else gwq

def schedAt (gwq : Gworkq Flex Fn) (fn : Fn) (priority : Priority) : Gworkq Flex Fn :=
  (gwq.append (.head priority) fn).raiseCell priority

/-- The four writes that link a queue at the end of a priority. -/
def linkLast (gwq : Gworkq Flex Fn) (node : Gflexq Flex) (priority : Priority) : Gworkq Flex Fn :=
  let gwq := gwq.setNext node (.head priority)
  let gwq := gwq.setPrev node (gwq.prev (.head priority))
  let gwq := gwq.setPrev (.head priority) node
  gwq.setNext (gwq.prev node) node

def gflexqSchedGlck (gwq : Gworkq Flex Fn) (gflexq : Flex) (fn : Fn) : Gworkq Flex Fn :=
  let gwq := gwq.append (.flex gflexq) fn
  if gwq.next (.flex gflexq) = .null then
    (gwq.linkLast (.flex gflexq) (gwq.priority gflexq)).raiseCell (gwq.priority gflexq)
  else gwq

/-- The two writes that join the neighbours of a queue. -/
def unlink (gwq : Gworkq Flex Fn) (node : Gflexq Flex) : Gworkq Flex Fn :=
  let gwq := gwq.setNext (gwq.prev node) (gwq.next node)
  gwq.setPrev (gwq.next node) (gwq.prev node)

def gflexqSetPriorityGlck (gwq : Gworkq Flex Fn) (gflexq : Flex) (priority : Priority) : Gworkq Flex Fn :=
  let gwq :=
    if gwq.next (.flex gflexq) ≠ .null then
      ((gwq.unlink (.flex gflexq)).linkLast (.flex gflexq) priority).raiseCell priority
    else gwq
  { gwq with priority := update gwq.priority gflexq priority }

/-- The loop of `cuflow_gflexq_raise_priority_glck` over the list of `gflexq`. It assigns each subqueue to the
variable whose list end it compares with, so it only stops if the last subqueue is `gflexq` itself. -/
def raiseLoop (raise : Gworkq Flex Fn → Flex → Option (Gworkq Flex Fn)) (gflexq : Flex) (pri : Priority) :
    Flex → List Flex → Gworkq Flex Fn → Option (Gworkq Flex Fn)
  | current, [], gwq => if current = gflexq then some gwq else none
  | _, sub :: its, gwq =>
    if gwq.priority sub < pri then (raise gwq sub).bind (raiseLoop raise gflexq pri sub its)
    else raiseLoop raise gflexq pri sub its gwq

def gflexqRaisePriorityGlck (pri : Priority) : Nat → Gworkq Flex Fn → Flex → Option (Gworkq Flex Fn)
  | 0, _, _ => none
  | fuel + 1, gwq, gflexq =>
    raiseLoop (gflexqRaisePriorityGlck pri fuel) gflexq pri gflexq (gwq.subqueueList gflexq)
      (gwq.gflexqSetPriorityGlck gflexq pri)

/-- The unlinking of the first queue of a priority. -/
def unlinkFirst (gwq : Gworkq Flex Fn) (head gflexq : Gflexq Flex) : Gworkq Flex Fn :=
  let gwq := gwq.setNext head (gwq.next gflexq)
  let gwq := gwq.setPrev (gwq.next gflexq) head
  let gwq := gwq.setPrev gflexq .null
  gwq.setNext gflexq .null

/-- The inner loop of `gworkq_yield_at`, from the pop before it on. -/
def popLevel (head : Gflexq Flex) : Nat → Gworkq Flex Fn → Gflexq Flex → Option (Option Fn × Gflexq Flex × Gworkq Flex Fn)
  | 0, _, _ => none
  | fuel + 1, gwq, gflexq =>
    let popped := gwq.popFront gflexq
    if popped.1.isNone ∧ gflexq ≠ head then
      let gwq := popped.2.unlinkFirst head gflexq
      popLevel head fuel gwq (gwq.next head)
    else some (popped.1, gflexq, popped.2)

/-- The section of `gworkq_yield_at` under the lock, which ends with the task to run and its queue.
A priority without a queue would be outside of the array. -/
def yieldLoop (cutoff : Priority) : Nat → Gworkq Flex Fn → Int → Option (Option (Fn × Gflexq Flex) × Gworkq Flex Fn)
  | 0, _, _ => none
  | fuel + 1, gwq, gwqPriority =>
    if (cutoff : Int) ≤ gwqPriority then
      if bound : gwqPriority.toNat < priorityPostmax then
        let head := Gflexq.head ⟨gwqPriority.toNat, bound⟩
        match popLevel head fuel gwq (gwq.next head) with
        | none => none
        | some (some fn, gflexq, gwq) => some (some (fn, gflexq), { gwq with gworkqPriority := BitVec.ofInt 64 gwqPriority })
        | some (none, _, gwq) => yieldLoop cutoff fuel gwq (gwqPriority - 1)
      else none
    else some (none, { gwq with gworkqPriority := BitVec.ofInt 64 gwqPriority })

end Gworkq

/-- A call in progress: in `gworkq_yield_at` before and after its read of the cell, running a task of a queue, and
in `cuflow_gflexq_raise_priority` before the lock. -/
inductive Frame (Flex Fn : Type) where
  | yielding (cutoff : Priority)
  | loaded (cutoff : Priority) (gwqPriority : Int)
  | running (gflexq : Gflexq Flex) (fn : Fn)
  | raising (gflexq : Flex) (pri : Priority)

/-- The threads, each with the calls it is in, the innermost first. -/
structure System (Thread Flex Fn : Type) where
  gworkq : Gworkq Flex Fn
  frames : Thread → List (Frame Flex Fn)

/-- The steps of a thread. A section under the lock is one step, and so is each read without the lock. -/
inductive Action (Flex Fn : Type) where
  | schedAt (fn : Fn) (priority : Priority)
  | gflexqSched (gflexq : Flex) (fn : Fn)
  | raisePriority (gflexq : Flex) (pri : Priority)
  | raiseLocked
  | yieldAt (cutoff : Priority)
  | yieldLoad
  | yieldLocked
  | taskDone

/-- What can be seen of a step. -/
inductive Observation (Thread Flex Fn : Type) where
  | scheduled (gflexq : Gflexq Flex) (fn : Fn)
  | ran (gflexq : Gflexq Flex) (fn : Fn)
  | yielded (thread : Thread) (result : Bool)

namespace System

variable {Thread Flex Fn : Type} [DecidableEq Thread] [DecidableEq Flex]

/-- A thread calls functions as long as it is in none, and from the tasks it runs. -/
def ready (sys : System Thread Flex Fn) (thread : Thread) : Bool :=
  match sys.frames thread with
  | [] => true
  | .running _ _ :: _ => true
  | _ => false

def setFrames (sys : System Thread Flex Fn) (thread : Thread) (frames : List (Frame Flex Fn)) :
    System Thread Flex Fn :=
  { sys with frames := update sys.frames thread frames }

def push (sys : System Thread Flex Fn) (thread : Thread) (frame : Frame Flex Fn) : System Thread Flex Fn :=
  sys.setFrames thread (frame :: sys.frames thread)

/-- The end of the section of `gworkq_yield_at`. -/
def leaveYield (sys : System Thread Flex Fn) (thread : Thread) (outer : List (Frame Flex Fn)) :
    Option (Fn × Gflexq Flex) × Gworkq Flex Fn → List (Observation Thread Flex Fn) × System Thread Flex Fn
  | (some (fn, gflexq), gwq) =>
    ([.ran gflexq fn], setFrames { sys with gworkq := gwq } thread (.running gflexq fn :: outer))
  | (none, gwq) => ([.yielded thread false], setFrames { sys with gworkq := gwq } thread outer)

/-- One step of a thread, with fuel for the loops of its section. The reads of `cuflow_gworkq_yield_at` and of
`cuflow_gflexq_raise_priority` decide whether the call goes on. -/
def step (fuel : Nat) (sys : System Thread Flex Fn) (thread : Thread) :
    Action Flex Fn → Option (List (Observation Thread Flex Fn) × System Thread Flex Fn)
  | .schedAt fn priority =>
    if sys.ready thread then
      some ([.scheduled (.head priority) fn], { sys with gworkq := sys.gworkq.schedAt fn priority })
    else none
  | .gflexqSched gflexq fn =>
    if sys.ready thread then
      some ([.scheduled (.flex gflexq) fn], { sys with gworkq := sys.gworkq.gflexqSchedGlck gflexq fn })
    else none
  | .raisePriority gflexq pri =>
    if sys.ready thread then
      some ([], if sys.gworkq.priority gflexq < pri then sys.push thread (.raising gflexq pri) else sys)
    else none
  | .raiseLocked =>
    match sys.frames thread with
    | .raising gflexq pri :: outer =>
      match sys.gworkq.gflexqRaisePriorityGlck pri fuel gflexq with
      | some gwq => some ([], setFrames { sys with gworkq := gwq } thread outer)
      | none => none
    | _ => none
  | .yieldAt cutoff =>
    if sys.ready thread then
      if (cutoff : Int) ≤ cellInt sys.gworkq.gworkqPriority then some ([], sys.push thread (.yielding cutoff))
      else some ([.yielded thread false], sys)
    else none
  | .yieldLoad =>
    match sys.frames thread with
    | .yielding cutoff :: outer =>
      some ([], sys.setFrames thread (.loaded cutoff (cellInt sys.gworkq.gworkqPriority) :: outer))
    | _ => none
  | .yieldLocked =>
    match sys.frames thread with
    | .loaded cutoff gwqPriority :: outer =>
      match sys.gworkq.yieldLoop cutoff fuel gwqPriority with
      | some left => some (sys.leaveYield thread outer left)
      | none => none
    | _ => none
  | .taskDone =>
    match sys.frames thread with
    | .running _ _ :: outer => some ([.yielded thread true], sys.setFrames thread outer)
    | _ => none

/-- The threads take steps in any order. -/
def run (fuel : Nat) (sys : System Thread Flex Fn) :
    List (Thread × Action Flex Fn) → Option (List (Observation Thread Flex Fn) × System Thread Flex Fn)
  | [] => some ([], sys)
  | (thread, action) :: actions =>
    match sys.step fuel thread action with
    | some (seen, sys) =>
      match run fuel sys actions with
      | some (rest, sys) => some (seen ++ rest, sys)
      | none => none
    | none => none

end System

end Culibs.Cuflow
