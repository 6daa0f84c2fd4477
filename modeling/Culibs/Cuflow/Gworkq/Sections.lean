import Culibs.Cuflow.Gworkq.Linked

namespace Culibs.Cuflow

open Function

namespace Gworkq

variable {Flex Fn : Type} [DecidableEq Flex] {gwq gwq' : Gworkq Flex Fn} {lists : Priority → List Flex}
  {p q : Priority} {g : Flex}

/-- The first task of the first queue with tasks at a priority. -/
def FirstTask (gwq : Gworkq Flex Fn) (lists : Priority → List Flex) (p : Priority) (node : Gflexq Flex) (fn : Fn) :
    Prop :=
  (served lists p).find? (fun node => !(gwq.tasks node).isEmpty) = some node ∧ (gwq.tasks node).head? = some fn

/-- The tasks after `fn` was added to a queue. -/
def Added (gwq gwq' : Gworkq Flex Fn) (node : Gflexq Flex) (fn : Fn) : Prop :=
  ∀ node', gwq'.tasks node' = if node' = node then gwq.tasks node ++ [fn] else gwq.tasks node'

/-- The tasks after the first one of a queue was taken. -/
def Taken (gwq gwq' : Gworkq Flex Fn) (node : Gflexq Flex) : Prop :=
  ∀ node', gwq'.tasks node' = if node' = node then (gwq.tasks node).tail else gwq.tasks node'

theorem schedAt_added (fn : Fn) (p : Priority) : Added gwq (gwq.schedAt fn p) (.head p) fn := by
  intro node
  unfold schedAt
  rw [raiseCell_eq]
  exact tasks_append (.head p) node fn

theorem schedAt_priority (fn : Fn) (p : Priority) : (gwq.schedAt fn p).priority = gwq.priority := by
  unfold schedAt
  rw [raiseCell_eq]
  rfl

theorem schedAt_cell (fn : Fn) (p : Priority) :
    (gwq.schedAt fn p).gworkqPriority = raisedCell gwq.gworkqPriority p := by
  unfold schedAt
  rw [raiseCell_eq]
  rfl

section

variable (linked : gwq.Linked lists) (g : Flex)

include linked

theorem gflexqSchedGlck_added (fn : Fn) : Added gwq (gwq.gflexqSchedGlck g fn) (.flex g) fn := by
  intro node
  by_cases mem : g ∈ lists (gwq.priority g)
  · rw [gflexqSchedGlck_linked linked fn mem]
    exact tasks_append (.flex g) node fn
  · rw [gflexqSchedGlck_free linked fn mem]
    exact tasks_append (.flex g) node fn

theorem gflexqSchedGlck_priority (fn : Fn) : (gwq.gflexqSchedGlck g fn).priority = gwq.priority := by
  by_cases mem : g ∈ lists (gwq.priority g)
  · rw [gflexqSchedGlck_linked linked fn mem]
    rfl
  · rw [gflexqSchedGlck_free linked fn mem]
    rfl

theorem gflexqSchedGlck_cell (fn : Fn) :
    (gwq.gflexqSchedGlck g fn).gworkqPriority =
      if gwq.next (.flex g) = .null then raisedCell gwq.gworkqPriority (gwq.priority g) else gwq.gworkqPriority := by
  by_cases mem : g ∈ lists (gwq.priority g)
  · have linkedNode : gwq.next (.flex g) ≠ .null := linked.rings.next_ne_null mem
    rw [gflexqSchedGlck_linked linked fn mem, if_neg linkedNode]
    rfl
  · have null : gwq.next (.flex g) = .null := linked.unlinked g mem
    rw [gflexqSchedGlck_free linked fn mem, if_pos null]

theorem gflexqSetPriorityGlck_tasks (p : Priority) (node : Gflexq Flex) :
    (gwq.gflexqSetPriorityGlck g p).tasks node = gwq.tasks node := by
  by_cases mem : g ∈ lists (gwq.priority g)
  · rw [gflexqSetPriorityGlck_linked linked mem]
    rfl
  · rw [gflexqSetPriorityGlck_free linked mem]
    rfl

theorem gflexqSetPriorityGlck_priority (p : Priority) :
    (gwq.gflexqSetPriorityGlck g p).priority = update gwq.priority g p := by
  by_cases mem : g ∈ lists (gwq.priority g)
  · rw [gflexqSetPriorityGlck_linked linked mem]
  · rw [gflexqSetPriorityGlck_free linked mem]

theorem gflexqSetPriorityGlck_cell (p : Priority) :
    g ∈ lists (gwq.priority g) ∧
        (gwq.gflexqSetPriorityGlck g p).gworkqPriority = raisedCell gwq.gworkqPriority p ∨
      g ∉ lists (gwq.priority g) ∧ (gwq.gflexqSetPriorityGlck g p).gworkqPriority = gwq.gworkqPriority := by
  by_cases mem : g ∈ lists (gwq.priority g)
  · rw [gflexqSetPriorityGlck_linked linked mem]
    exact .inl ⟨mem, rfl⟩
  · rw [gflexqSetPriorityGlck_free linked mem]
    exact .inr ⟨mem, rfl⟩

end

/-- A property that every change of a priority keeps holds after a recursive raise. -/
theorem gflexqRaisePriorityGlck_keeps {P : Gworkq Flex Fn → Prop}
    (keeps : ∀ gwq g, P gwq → P (gwq.gflexqSetPriorityGlck g pri)) (fuel : Nat) (holds : P gwq)
    (raised : gwq.gflexqRaisePriorityGlck pri fuel g = some gwq') : P gwq' := by
  induction fuel generalizing gwq gwq' g with
  | zero => cases raised
  | succ fuel ih =>
    have loop : ∀ subs current gwq, P gwq →
        raiseLoop (gflexqRaisePriorityGlck pri fuel) g pri current subs gwq = some gwq' → P gwq' := by
      intro subs
      induction subs with
      | nil =>
        intro current gwq holds ends
        unfold raiseLoop at ends
        split at ends
        · cases ends
          exact holds
        · cases ends
      | cons sub subs loop =>
        intro current gwq holds ends
        unfold raiseLoop at ends
        split at ends
        · obtain ⟨gwq1, first, rest⟩ := Option.bind_eq_some_iff.mp ends
          exact loop sub gwq1 (ih holds first) rest
        · exact loop sub gwq holds ends
    exact loop _ _ _ (keeps gwq g holds) raised

omit [DecidableEq Flex] in
theorem Linked.of_tasks (linked : gwq.Linked lists) (links : gwq'.links = gwq.links)
    (priority : gwq'.priority = gwq.priority) (fewer : ∀ g, gwq'.tasks (.flex g) ≠ [] → gwq.tasks (.flex g) ≠ []) :
    gwq'.Linked lists := by
  refine ⟨?_, ?_, ?_, ?_⟩
  · rw [links]
    exact linked.rings
  · rw [priority]
    exact linked.level
  · rw [priority, links]
    exact linked.unlinked
  · rw [priority]
    exact fun g nonempty => linked.queued g (fewer g nonempty)

theorem Linked.popFront (linked : gwq.Linked lists) (node : Gflexq Flex) : (gwq.popFront node).2.Linked lists := by
  refine linked.of_tasks rfl rfl fun g nonempty empty => ?_
  rw [tasks_popFront] at nonempty
  split at nonempty
  · next same =>
    rw [← same, empty] at nonempty
    exact nonempty rfl
  · exact nonempty empty

/-- The loop gives `result` as soon as it has fuel enough. -/
def Reaches {α : Type} (loop : Nat → Option α) (result : α) : Prop :=
  (∀ fuel, loop fuel = none ∨ loop fuel = some result) ∧ ∃ bound, ∀ fuel, bound ≤ fuel → loop fuel = some result

variable {α : Type} {loop : Nat → Option α}

theorem Reaches.succ (zero : loop 0 = none)
    (succ : ∀ fuel, loop (fuel + 1) = rest fuel) (reaches : Reaches rest result) : Reaches loop result := by
  obtain ⟨only, bound, enough⟩ := reaches
  refine ⟨fun fuel => ?_, bound + 1, fun fuel more => ?_⟩
  · cases fuel with
    | zero => exact .inl zero
    | succ fuel =>
      rw [succ]
      exact only fuel
  · cases fuel with
    | zero => omega
    | succ fuel =>
      rw [succ]
      exact enough fuel (Nat.le_of_succ_le_succ more)

theorem Reaches.const (result : α) : Reaches (fun _ => some result) result :=
  ⟨fun _ => .inr rfl, 0, fun _ _ => rfl⟩

theorem Reaches.bind {rest : α → Nat → Option β} {result : β}
    (first : Reaches loop middle) (second : Reaches (rest middle) result) :
    Reaches (fun fuel => (loop fuel).bind fun found => rest found fuel) result := by
  obtain ⟨only, bound, enough⟩ := first
  obtain ⟨only', bound', enough'⟩ := second
  refine ⟨fun fuel => ?_, max bound bound', fun fuel more => ?_⟩ <;> dsimp only
  · rcases only fuel with stuck | found
    · exact .inl (by rw [stuck]; rfl)
    · rw [found]
      exact only' fuel
  · rw [enough fuel (by omega)]
    exact enough' fuel (by omega)

/-- What the inner loop of `gworkq_yield_at` finds at a priority. -/
structure Popped (gwq : Gworkq Flex Fn) (lists : Priority → List Flex) (p : Priority)
    (found : Option Fn × Gflexq Flex × Gworkq Flex Fn) : Prop where
  linked : ∃ lists', found.2.2.Linked lists' ∧ ∀ q ≠ p, lists' q = lists q
  priority : found.2.2.priority = gwq.priority
  outcome : (∃ fn, found.1 = some fn ∧ FirstTask gwq lists p found.2.1 fn ∧ Taken gwq found.2.2 found.2.1) ∨
    found.1 = none ∧ (∀ node ∈ served lists p, gwq.tasks node = []) ∧ ∀ node, found.2.2.tasks node = gwq.tasks node

omit [DecidableEq Flex] in
private theorem served_cons (split : lists p = g :: rest) :
    served lists p = .flex g :: (rest.map .flex ++ [.head p]) := by
  rw [served, split]
  rfl

variable {node : Gflexq Flex}

theorem Popped.of_head (linked : gwq.Linked lists)
    (split : served lists p = node :: others) (stops : (gwq.tasks node).head? ≠ none ∨ others = []) :
    Popped gwq lists p ((gwq.popFront node).1, node, (gwq.popFront node).2) := by
  refine ⟨⟨lists, linked.popFront node, fun _ _ => rfl⟩, rfl, ?_⟩
  rw [popFront_fst]
  cases first : (gwq.tasks node).head? with
  | some fn =>
    refine .inl ⟨fn, rfl, ⟨?_, first⟩, fun node' => tasks_popFront node node'⟩
    rw [split, List.find?_cons_of_pos]
    cases isTasks : gwq.tasks node with
    | nil => simp [isTasks] at first
    | cons fn fns => rfl
  | none =>
    have empty := List.head?_eq_none_iff.mp first
    rw [first] at stops
    refine .inr ⟨rfl, fun node' mem => ?_, fun node' => ?_⟩
    · rw [split, stops.resolve_left (fun ne => ne rfl), List.mem_singleton] at mem
      rwa [mem]
    · rw [tasks_popFront]
      split
      · next same => rw [same, empty]; rfl
      · rfl

/-- Empty queues are unlinked until a task is found, in the fixed queue at last. -/
theorem popLevel_reaches (linked : gwq.Linked lists) :
    ∃ found, Reaches (fun fuel => popLevel (.head p) fuel gwq (gwq.next (.head p))) found ∧
      Popped gwq lists p found := by
  generalize queues : lists p = rest
  induction rest generalizing gwq lists with
  | nil =>
    have atHead : gwq.next (.head p) = .head p := by
      have ring := (linked.rings.ring p).next_eol
      rwa [queues] at ring
    have single : served lists p = [.head p] := by
      rw [served, queues]
      rfl
    have found := Popped.of_head linked single (.inr rfl)
    refine ⟨_, Reaches.succ rfl (fun fuel => ?_) (Reaches.const _), found⟩
    rw [atHead, popLevel, if_neg (fun stuck => stuck.2 rfl)]
  | cons g rest ih =>
    have atFirst : gwq.next (.head p) = .flex g := by
      have ring := (linked.rings.ring p).next_eol
      rwa [queues] at ring
    cases first : (gwq.tasks (.flex g)).head? with
    | some fn =>
      have found := Popped.of_head linked (served_cons queues) (.inl (by simp [first]))
      refine ⟨_, Reaches.succ rfl (fun fuel => ?_) (Reaches.const _), found⟩
      rw [atFirst, popLevel, if_neg (by simp [popFront_fst, first])]
    | none =>
      have empty := List.head?_eq_none_iff.mp first
      have kept : ∀ node, (gwq.popFront (.flex g)).2.tasks node = gwq.tasks node := by
        intro node
        rw [tasks_popFront]
        split
        · next same => rw [same, empty]; rfl
        · rfl
      have unlinked := (linked.popFront (.flex g)).unlinkFirst queues ((kept _).trans empty)
      obtain ⟨found, reaches, popped⟩ := ih unlinked (update_self ..)
      have same : ∀ node, ((gwq.popFront (.flex g)).2.unlinkFirst (.head p) (.flex g)).tasks node = gwq.tasks node := kept
      refine ⟨found, Reaches.succ rfl (fun fuel => ?_) reaches, ?_, popped.priority, ?_⟩
      · rw [atFirst, popLevel, if_pos ⟨by simp [popFront_fst, first], by simp⟩]
      · obtain ⟨lists', linked', others⟩ := popped.linked
        exact ⟨lists', linked', fun q ne => (others q ne).trans (update_of_ne ne ..)⟩
      have fewer : served lists p = .flex g :: served (update lists p rest) p := by
        rw [served_cons queues, served, update_self]
      rcases popped.outcome with ⟨fn, isFn, ⟨isFirst, head⟩, taken⟩ | ⟨isNone, allEmpty, unchanged⟩
      · refine .inl ⟨fn, isFn, ⟨?_, (same _).symm ▸ head⟩, fun node => ?_⟩
        · simp only [same] at isFirst
          rw [fewer, List.find?_cons_of_neg (by simp [empty])]
          exact isFirst
        · rw [taken node, same, same]
      · refine .inr ⟨isNone, fun node mem => ?_, fun node => (unchanged node).trans (same node)⟩
        rw [fewer] at mem
        rcases List.mem_cons.mp mem with rfl | later
        · exact empty
        · exact (same node).symm.trans (allEmpty node later)

/-- What the section of `gworkq_yield_at` does when it starts at the priority `gwqPriority`. -/
structure Yielded (gwq : Gworkq Flex Fn) (lists : Priority → List Flex) (cutoff : Priority) (gwqPriority : Int)
    (found : Option (Fn × Gflexq Flex) × Gworkq Flex Fn) : Prop where
  linked : ∃ lists', found.2.Linked lists'
  priority : found.2.priority = gwq.priority
  outcome : (∃ (level : Priority) (fn : Fn) (node : Gflexq Flex), found.1 = some (fn, node) ∧ cutoff ≤ level ∧
      (level : Int) ≤ gwqPriority ∧ (∀ q : Priority, level < q → (q : Int) ≤ gwqPriority → ¬ gwq.Pending q) ∧
      FirstTask gwq lists level node fn ∧ Taken gwq found.2 node ∧
      found.2.gworkqPriority = BitVec.ofInt 64 level) ∨
    found.1 = none ∧ (∀ q : Priority, cutoff ≤ q → (q : Int) ≤ gwqPriority → ¬ gwq.Pending q) ∧
      (∀ node, found.2.tasks node = gwq.tasks node) ∧
      found.2.gworkqPriority = BitVec.ofInt 64 (min gwqPriority (cutoff - 1))

section

omit [DecidableEq Flex]

theorem levelOf_congr (priority : gwq'.priority = gwq.priority) (node : Gflexq Flex) :
    gwq'.levelOf node = gwq.levelOf node := by
  cases node with
  | null => rfl
  | head p => rfl
  | flex g => exact congrArg some (congrFun priority g)

theorem pending_congr (priority : gwq'.priority = gwq.priority) (tasks : ∀ node, gwq'.tasks node = gwq.tasks node) :
    gwq'.Pending q ↔ gwq.Pending q := by
  unfold Pending
  simp only [levelOf_congr priority, tasks]

theorem firstTask_congr (same : lists' q = lists q)
    (tasks : ∀ node, gwq'.tasks node = gwq.tasks node) :
    FirstTask gwq' lists' q node fn ↔ FirstTask gwq lists q node fn := by
  unfold FirstTask served
  simp only [same, tasks]

end

/-- The priorities are searched from the one that was read down to the cutoff. -/
theorem yieldLoop_reaches (cutoff : Priority) {gwqPriority : Int} (linked : gwq.Linked lists) (bound : gwqPriority < 16) :
    ∃ found, Reaches (fun fuel => yieldLoop cutoff fuel gwq gwqPriority) found ∧
      Yielded gwq lists cutoff gwqPriority found := by
  generalize measure : (gwqPriority - cutoff + 1).toNat = n
  induction n generalizing gwq lists gwqPriority with
  | zero =>
    have below : ¬ (cutoff : Int) ≤ gwqPriority := by omega
    refine ⟨(none, { gwq with gworkqPriority := BitVec.ofInt 64 gwqPriority }), ?_,
      ⟨lists, linked.of_tasks rfl rfl fun _ nonempty => nonempty⟩, rfl, .inr ⟨rfl, ?_, fun _ => rfl, ?_⟩⟩
    · refine Reaches.succ rfl (fun fuel => ?_) (Reaches.const _)
      rw [yieldLoop, if_neg below]
    · intro q above inside
      rw [Fin.le_def] at above
      omega
    · have least : min gwqPriority (cutoff - 1) = gwqPriority := by omega
      rw [least]
  | succ n ih =>
    have above : (cutoff : Int) ≤ gwqPriority := by omega
    have inArray : gwqPriority.toNat < priorityPostmax := by
      unfold priorityPostmax
      omega
    obtain ⟨level, isLevel⟩ : ∃ level : Priority, level = ⟨gwqPriority.toNat, inArray⟩ := ⟨_, rfl⟩
    have value : (level : Int) = gwqPriority := by
      rw [isLevel]
      simp only
      omega
    obtain ⟨⟨taken, node, gwq1⟩, reaches, ⟨lists1, linked1, others⟩, priority, outcome⟩ :=
      popLevel_reaches (p := level) linked
    have unfolds : ∀ fuel, yieldLoop cutoff (fuel + 1) gwq gwqPriority =
        (popLevel (.head level) fuel gwq (gwq.next (.head level))).bind fun found =>
          found.1.elim (yieldLoop cutoff fuel found.2.2 (gwqPriority - 1)) fun fn =>
            some (some (fn, found.2.1), { found.2.2 with gworkqPriority := BitVec.ofInt 64 gwqPriority }) := by
      intro fuel
      rw [yieldLoop, if_pos above, dif_pos inArray, ← isLevel]
      simp only
      cases popLevel (.head level) fuel gwq (gwq.next (.head level)) with
      | none => rfl
      | some found =>
        obtain ⟨_ | fn, node, gwq'⟩ := found <;> rfl
    rcases outcome with ⟨fn, rfl, first, isTaken⟩ | ⟨rfl, empty, unchanged⟩
    · refine ⟨_, Reaches.succ rfl unfolds (reaches.bind (Reaches.const _)), ⟨lists1, ?_⟩, priority, .inl ?_⟩
      · exact linked1.of_tasks rfl rfl fun _ nonempty => nonempty
      · refine ⟨level, fn, node, rfl, ?_, value.le, ?_, first, isTaken, by rw [value]⟩
        · rw [Fin.le_def]
          omega
        · intro q higher inside
          rw [Fin.lt_def] at higher
          omega
    · obtain ⟨found, reaches', ⟨lists', linked'⟩, priority', outcome'⟩ :=
        ih linked1 (by omega : gwqPriority - 1 < 16) (by omega)
      have notHere : ¬ gwq.Pending level := by
        rw [linked.pending_iff]
        rintro ⟨node, mem, nonempty⟩
        exact nonempty (empty node mem)
      have split : ∀ q : Priority, (q : Int) ≤ gwqPriority → q ≠ level → (q : Int) ≤ gwqPriority - 1 := by
        intro q inside ne
        have := mt Fin.ext ne
        omega
      refine ⟨found, Reaches.succ rfl unfolds (reaches.bind reaches'), ⟨lists', linked'⟩, priority'.trans priority, ?_⟩
      rcases outcome' with ⟨lower, fn, node', isFound, least, inside, none, first, isTaken, cell⟩ |
        ⟨isNone, none, same, cell⟩
      · have ne : lower ≠ level := by
          rintro rfl
          omega
        refine .inl ⟨lower, fn, node', isFound, least, by omega, fun q higher top => ?_, ?_, fun x => ?_, cell⟩
        · by_cases here : q = level
          · rw [here]
            exact notHere
          · rw [← pending_congr priority unchanged]
            exact none q higher (split q top here)
        · exact (firstTask_congr (others lower ne) unchanged).mp first
        · rw [isTaken x, unchanged, unchanged]
      · refine .inr ⟨isNone, fun q least top => ?_, fun x => (same x).trans (unchanged x), ?_⟩
        · by_cases here : q = level
          · rw [here]
            exact notHere
          · rw [← pending_congr priority unchanged]
            exact none q least (split q top here)
        · have least : min (gwqPriority - 1) ((cutoff : Int) - 1) = min gwqPriority (cutoff - 1) := by omega
          rw [cell, least]

end Gworkq

end Culibs.Cuflow
