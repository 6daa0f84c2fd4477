import Culibs.Cuflow.Gworkq.Basic

namespace Culibs.Cuflow

open Function List

variable {Flex Fn : Type} {links : Links (Gflexq Flex)} {lists : Priority → List Flex} {p q : Priority} {g : Flex}

/-- At each priority a ring through its head. -/
structure Rings (links : Links (Gflexq Flex)) (lists : Priority → List Flex) : Prop where
  ring : ∀ p, links.Ring (.head p) ((lists p).map .flex)
  apart : ∀ p q g, g ∈ lists p → g ∈ lists q → p = q

/-- The nodes of a ring. -/
def ringNodes (lists : Priority → List Flex) (p : Priority) : List (Gflexq Flex) := .head p :: (lists p).map .flex

@[simp] theorem head_mem_ringNodes : .head p ∈ ringNodes lists q ↔ p = q := by simp [ringNodes]

@[simp] theorem flex_mem_ringNodes : .flex g ∈ ringNodes lists p ↔ g ∈ lists p := by simp [ringNodes]

namespace Rings

theorem separate (rings : Rings links lists) (left : node ∈ ringNodes lists p)
    (right : node ∈ ringNodes lists q) : p = q := by
  cases node with
  | null => simp [ringNodes] at left
  | head r =>
    rw [head_mem_ringNodes] at left right
    exact left.symm.trans right
  | flex g => exact rings.apart p q g (flex_mem_ringNodes.mp left) (flex_mem_ringNodes.mp right)

theorem prev_head_mem (rings : Rings links lists) : links.prev (.head p) ∈ ringNodes lists p := by
  rw [(rings.ring p).prev_eol]
  exact getLastD_mem_cons

theorem next_ne_null (rings : Rings links lists) (mem : g ∈ lists p) : links.next (.flex g) ≠ .null := by
  obtain ⟨xs, ys, split⟩ := append_of_mem mem
  have ring := rings.ring p
  rw [split, map_append, map_cons] at ring
  rw [ring.next_node]
  cases ys <;> simp

private theorem prev_ne (rings : Rings links lists) (mem : g ∈ lists p) : links.prev (.flex g) ≠ .flex g := by
  obtain ⟨xs, ys, split⟩ := append_of_mem mem
  have ring := rings.ring p
  rw [split, map_append, map_cons] at ring
  have distinct := (nodup_cons.mp ring.distinct).2
  rw [ring.prev_node]
  intro same
  have before : Gflexq.flex g ∈ .head p :: xs.map .flex := by
    rw [← same]
    exact getLastD_mem_cons
  rw [mem_cons, or_iff_right (by simp)] at before
  exact (nodup_append.mp distinct).2.2 _ before _ (mem_cons_self ..) rfl

variable [DecidableEq Flex]

theorem insertLast (rings : Rings links lists) (free : ∀ q, g ∉ lists q) :
    Rings ((links.link (.flex g) (.head p)).link (links.prev (.head p)) (.flex g))
      (update lists p (lists p ++ [g])) := by
  refine ⟨fun q => ?_, fun q r x left right => ?_⟩
  · by_cases same : q = p
    · subst same
      rw [update_self, (rings.ring q).prev_eol, map_append]
      have ring : links.Ring (.head q) ((lists q).map .flex ++ []) := by simpa using rings.ring q
      refine Links.Ring.insert ring ?_
      rw [append_nil, ← ringNodes, flex_mem_ringNodes]
      exact free q
    · rw [update_of_ne same]
      have outside : ∀ node ∈ ringNodes lists p, node ∉ ringNodes lists q :=
        fun node inP inQ => same (rings.separate inQ inP)
      have notFlex : .flex g ∉ ringNodes lists q := by simpa using free q
      exact ((rings.ring q).link_outside notFlex (outside _ (by simp))).link_outside
        (outside _ rings.prev_head_mem) notFlex
  · have locate : ∀ r, x ∈ update lists p (lists p ++ [g]) r → x = g ∧ r = p ∨ x ∈ lists r := by
      intro r mem
      by_cases same : r = p
      · subst same
        rw [update_self, mem_append, mem_singleton] at mem
        exact mem.elim .inr fun isNew => .inl ⟨isNew, rfl⟩
      · rw [update_of_ne same] at mem
        exact .inr mem
    rcases locate q left with ⟨rfl, rfl⟩ | oldLeft <;> rcases locate r right with ⟨same, rfl⟩ | oldRight
    · rfl
    · exact absurd oldRight (free r)
    · subst same
      exact absurd oldLeft (free q)
    · exact rings.apart q r x oldLeft oldRight

theorem insertLast_next (rings : Rings links lists) (ne : x ≠ g) (free : x ∉ lists p) :
    ((links.link (.flex g) (.head p)).link (links.prev (.head p)) (.flex g)).next (.flex x) = links.next (.flex x) := by
  rw [Links.link_next_of_ne, Links.link_next_of_ne]
  · simpa using ne
  · intro same
    have mem := rings.prev_head_mem (p := p)
    rw [← same, flex_mem_ringNodes] at mem
    exact free mem

theorem remove (rings : Rings links lists) (split : lists p = xs ++ g :: ys) :
    Rings (links.link (links.prev (.flex g)) (links.next (.flex g))) (update lists p (xs ++ ys)) ∧
      links.prev (.flex g) ∈ ringNodes lists p ∧ links.next (.flex g) ∈ ringNodes lists p := by
  have ring := rings.ring p
  rw [split, map_append, map_cons] at ring
  have before : links.prev (.flex g) ∈ ringNodes lists p := by
    rw [ring.prev_node, ringNodes, split, map_append]
    exact mem_cons.mpr ((mem_cons.mp getLastD_mem_cons).imp_right fun inside => mem_append_left _ inside)
  have after : links.next (.flex g) ∈ ringNodes lists p := by
    rw [ring.next_node, ringNodes, split]
    cases ys <;> simp
  refine ⟨⟨fun q => ?_, fun q r x left right => ?_⟩, before, after⟩
  · by_cases same : q = p
    · subst same
      rw [update_self, map_append, ring.prev_node, ring.next_node]
      exact ring.remove
    · rw [update_of_ne same]
      exact (rings.ring q).link_outside (fun inQ => same (rings.separate inQ before))
        fun inQ => same (rings.separate inQ after)
  · have kept : ∀ r, x ∈ update lists p (xs ++ ys) r → x ∈ lists r := by
      intro r mem
      by_cases same : r = p
      · subst same
        rw [update_self] at mem
        rw [split]
        exact Sublist.mem mem (Sublist.append_left (sublist_cons_self g ys) xs)
      · rwa [update_of_ne same] at mem
    exact rings.apart q r x (kept q left) (kept r right)

end Rings

/-- The value of the cell after `raiseCell`. -/
def raisedCell (cell : Word) (p : Priority) : Word := if BitVec.ofNat 64 p > cell then BitVec.ofNat 64 p else cell

namespace Gworkq

variable {gwq : Gworkq Flex Fn}

def tasks (gwq : Gworkq Flex Fn) (node : Gflexq Flex) : List Fn := (gwq.workq node).tasks

/-- A queue is linked at its priority, or nowhere and then it has no tasks. -/
structure Linked (gwq : Gworkq Flex Fn) (lists : Priority → List Flex) : Prop where
  rings : Rings gwq.links lists
  level : ∀ p g, g ∈ lists p → gwq.priority g = p
  unlinked : ∀ g, g ∉ lists (gwq.priority g) → gwq.links.next (.flex g) = .null
  queued : ∀ g, gwq.tasks (.flex g) ≠ [] → g ∈ lists (gwq.priority g)

theorem Linked.nowhere (linked : gwq.Linked lists) (free : g ∉ lists (gwq.priority g)) (q : Priority) : g ∉ lists q :=
  fun mem => free (by rwa [linked.level q g mem])

/-- The queues of a priority in the order in which they are served. -/
def served (lists : Priority → List Flex) (p : Priority) : List (Gflexq Flex) := (lists p).map .flex ++ [.head p]

/-- The priority at which the tasks of a queue are served. -/
def levelOf (gwq : Gworkq Flex Fn) : Gflexq Flex → Option Priority
  | .null => none
  | .head p => some p
  | .flex g => some (gwq.priority g)

/-- A priority with a pending task, in its fixed queue or in a flexible one. -/
def Pending (gwq : Gworkq Flex Fn) (p : Priority) : Prop := ∃ node, gwq.levelOf node = some p ∧ gwq.tasks node ≠ []

theorem Linked.mem_served (linked : gwq.Linked lists) (level : gwq.levelOf node = some p)
    (nonempty : gwq.tasks node ≠ []) : node ∈ served lists p := by
  cases node with
  | null => cases level
  | head q =>
    cases level
    simp [served]
  | flex g =>
    cases level
    simpa [served] using linked.queued g nonempty

theorem Linked.levelOf_served (linked : gwq.Linked lists) (mem : node ∈ served lists p) :
    gwq.levelOf node = some p := by
  rw [served, mem_append, mem_map, mem_singleton] at mem
  rcases mem with ⟨g, inList, rfl⟩ | rfl
  · exact congrArg some (linked.level p g inList)
  · rfl

theorem Linked.pending_iff (linked : gwq.Linked lists) :
    gwq.Pending p ↔ ∃ node ∈ served lists p, gwq.tasks node ≠ [] :=
  ⟨fun ⟨node, level, nonempty⟩ => ⟨node, linked.mem_served level nonempty, nonempty⟩,
    fun ⟨node, mem, nonempty⟩ => ⟨node, linked.levelOf_served mem, nonempty⟩⟩

variable [DecidableEq Flex]

@[simp] theorem tasks_append (node node' : Gflexq Flex) (fn : Fn) :
    (gwq.append node fn).tasks node' = if node' = node then gwq.tasks node ++ [fn] else gwq.tasks node' := by
  unfold tasks append
  by_cases same : node' = node
  · subst same
    simp
  · simp [same]

@[simp] theorem tasks_popFront (node node' : Gflexq Flex) :
    (gwq.popFront node).2.tasks node' = if node' = node then (gwq.tasks node).tail else gwq.tasks node' := by
  unfold tasks popFront
  by_cases same : node' = node
  · subst same
    simp [(gwq.workq node').popFront_spec.2]
  · simp [same]

theorem popFront_fst (node : Gflexq Flex) : (gwq.popFront node).1 = (gwq.tasks node).head? :=
  (gwq.workq node).popFront_spec.1

omit [DecidableEq Flex] in
theorem raiseCell_eq : gwq.raiseCell p = { gwq with gworkqPriority := raisedCell gwq.gworkqPriority p } := by
  unfold raiseCell raisedCell
  split <;> rfl

theorem linkLast_eq (node : Gflexq Flex) (ne : node ≠ .head p) :
    gwq.linkLast node p =
      { gwq with links := (gwq.links.link node (.head p)).link (gwq.links.prev (.head p)) node } := by
  simp only [linkLast, setNext, setPrev, prev, Links.link]
  rw [update_of_ne ne, update_self, update_comm ne]

private theorem unlink_eq (node : Gflexq Flex) (notBefore : gwq.links.prev node ≠ node) :
    gwq.unlink node = { gwq with links := gwq.links.link (gwq.links.prev node) (gwq.links.next node) } := by
  simp only [unlink, setNext, setPrev, prev, next, Links.link]
  rw [update_of_ne notBefore.symm]

theorem Linked.schedAt (linked : gwq.Linked lists) (fn : Fn) (p : Priority) : (gwq.schedAt fn p).Linked lists := by
  unfold Gworkq.schedAt
  rw [raiseCell_eq]
  refine ⟨linked.rings, linked.level, linked.unlinked, fun g nonempty => linked.queued g ?_⟩
  have tasks : (gwq.append (.head p) fn).tasks (.flex g) ≠ [] := nonempty
  rwa [tasks_append, if_neg (by simp)] at tasks

theorem Linked.append_linked (linked : gwq.Linked lists) (fn : Fn) (mem : g ∈ lists (gwq.priority g)) :
    (gwq.append (.flex g) fn).Linked lists := by
  refine ⟨linked.rings, linked.level, linked.unlinked, fun x nonempty => ?_⟩
  rw [tasks_append] at nonempty
  split at nonempty
  · next same =>
    cases same
    exact mem
  · exact linked.queued x nonempty

/-- The queue `g` is linked nowhere, the others are where they belong. -/
structure Detached (gwq : Gworkq Flex Fn) (lists : Priority → List Flex) (g : Flex) : Prop where
  rings : Rings gwq.links lists
  free : ∀ q, g ∉ lists q
  level : ∀ q x, x ∈ lists q → gwq.priority x = q
  unlinked : ∀ x ≠ g, x ∉ lists (gwq.priority x) → gwq.links.next (.flex x) = .null
  queued : ∀ x ≠ g, gwq.tasks (.flex x) ≠ [] → x ∈ lists (gwq.priority x)

omit [DecidableEq Flex] in
theorem Linked.detached (linked : gwq.Linked lists) (free : g ∉ lists (gwq.priority g)) : gwq.Detached lists g :=
  ⟨linked.rings, linked.nowhere free, linked.level, fun x _ => linked.unlinked x, fun x _ => linked.queued x⟩

theorem Linked.remove (linked : gwq.Linked lists) (split : lists p = xs ++ g :: ys) :
    Detached { gwq with links := gwq.links.link (gwq.links.prev (.flex g)) (gwq.links.next (.flex g)) }
      (update lists p (xs ++ ys)) g := by
  obtain ⟨rings, before, after⟩ := linked.rings.remove split
  have isLevel : gwq.priority g = p := linked.level p g (by simp [split])
  have distinct : g ∉ xs ++ ys := by
    have nodup := (nodup_cons.mp (linked.rings.ring p).distinct).2.of_map
    rw [split, nodup_middle] at nodup
    exact (nodup_cons.mp nodup).1
  have member_iff : ∀ x q, x ≠ g → (x ∈ update lists p (xs ++ ys) q ↔ x ∈ lists q) := by
    intro x q ne
    by_cases same : q = p
    · subst same
      simp [split, ne]
    · rw [update_of_ne same]
  have free : ∀ q, g ∉ update lists p (xs ++ ys) q := by
    intro q
    by_cases same : q = p
    · subst same
      rwa [update_self]
    · rw [update_of_ne same]
      exact fun mem => same ((linked.level q g mem).symm.trans isLevel)
  refine ⟨rings, free, fun q x mem => ?_, fun x ne notMember => ?_, fun x ne nonempty => ?_⟩
  · have ne : x ≠ g := by
      rintro rfl
      exact free q mem
    exact linked.level q x ((member_iff x q ne).mp mem)
  · rw [member_iff x _ ne] at notMember
    have outside : Gflexq.flex x ≠ gwq.links.prev (.flex g) := by
      intro same
      rw [← same, flex_mem_ringNodes] at before
      exact linked.nowhere notMember p before
    rw [Links.link_next_of_ne outside]
    exact linked.unlinked x notMember
  · rw [member_iff x _ ne]
    exact linked.queued x nonempty

theorem Detached.insertLast (detached : gwq.Detached lists g) (fifo : Fifo Fn) (cell : Word) :
    Linked
      { gwq with
        links := (gwq.links.link (.flex g) (.head p)).link (gwq.links.prev (.head p)) (.flex g)
        workq := update gwq.workq (.flex g) fifo
        priority := update gwq.priority g p
        gworkqPriority := cell }
      (update lists p (lists p ++ [g])) := by
  have member_iff : ∀ x q, x ≠ g → (x ∈ update lists p (lists p ++ [g]) q ↔ x ∈ lists q) := by
    intro x q ne
    by_cases same : q = p
    · subst same
      simp [ne]
    · rw [update_of_ne same]
  refine ⟨detached.rings.insertLast detached.free, fun q x mem => ?_, fun x notMember => ?_, fun x nonempty => ?_⟩
  · by_cases same : x = g
    · subst same
      by_cases sameLevel : q = p
      · simp [sameLevel]
      · rw [update_of_ne sameLevel] at mem
        exact absurd mem (detached.free q)
    · have level := detached.level q x ((member_iff x q same).mp mem)
      rwa [← update_of_ne same p gwq.priority] at level
  · by_cases same : x = g
    · subst same
      simp at notMember
    · simp only [update_of_ne same] at notMember
      rw [member_iff x _ same] at notMember
      have nowhere : x ∉ lists p := fun mem => notMember (by rwa [detached.level p x mem])
      rw [detached.rings.insertLast_next same nowhere]
      exact detached.unlinked x same notMember
  · by_cases same : x = g
    · subst same
      simp
    · simp only [update_of_ne same]
      rw [member_iff x _ same]
      refine detached.queued x same ?_
      simpa [tasks, same] using nonempty

section

variable (linked : gwq.Linked lists)

include linked

theorem gflexqSchedGlck_linked (fn : Fn) (mem : g ∈ lists (gwq.priority g)) :
    gwq.gflexqSchedGlck g fn = gwq.append (.flex g) fn :=
  if_neg fun null => linked.rings.next_ne_null mem null

theorem gflexqSchedGlck_free (fn : Fn) (free : g ∉ lists (gwq.priority g)) :
    gwq.gflexqSchedGlck g fn = { gwq.append (.flex g) fn with
      links := (gwq.links.link (.flex g) (.head (gwq.priority g))).link (gwq.links.prev (.head (gwq.priority g))) (.flex g)
      gworkqPriority := raisedCell gwq.gworkqPriority (gwq.priority g) } := by
  have null : (gwq.append (.flex g) fn).next (.flex g) = .null := linked.unlinked g free
  unfold gflexqSchedGlck
  rw [if_pos null, raiseCell_eq, linkLast_eq _ (by simp)]
  rfl

theorem Linked.gflexqSchedGlck (g : Flex) (fn : Fn) : ∃ lists', (gwq.gflexqSchedGlck g fn).Linked lists' := by
  by_cases mem : g ∈ lists (gwq.priority g)
  · rw [gflexqSchedGlck_linked linked fn mem]
    exact ⟨lists, linked.append_linked fn mem⟩
  · rw [gflexqSchedGlck_free linked fn mem]
    have inserted := (linked.detached mem).insertLast (p := gwq.priority g) ((gwq.workq (.flex g)).append fn)
      (raisedCell gwq.gworkqPriority (gwq.priority g))
    rw [update_eq_self] at inserted
    exact ⟨_, inserted⟩

theorem gflexqSetPriorityGlck_free (free : g ∉ lists (gwq.priority g)) :
    gwq.gflexqSetPriorityGlck g p = { gwq with priority := update gwq.priority g p } := by
  have null : gwq.next (.flex g) = .null := linked.unlinked g free
  simp [gflexqSetPriorityGlck, null]

theorem gflexqSetPriorityGlck_linked (mem : g ∈ lists (gwq.priority g)) :
    let links := gwq.links.link (gwq.links.prev (.flex g)) (gwq.links.next (.flex g))
    gwq.gflexqSetPriorityGlck g p = { gwq with
      links := (links.link (.flex g) (.head p)).link (links.prev (.head p)) (.flex g)
      priority := update gwq.priority g p
      gworkqPriority := raisedCell gwq.gworkqPriority p } := by
  have linkedNode : gwq.next (.flex g) ≠ .null := linked.rings.next_ne_null mem
  unfold gflexqSetPriorityGlck
  rw [if_pos linkedNode, raiseCell_eq, unlink_eq _ (linked.rings.prev_ne mem), linkLast_eq _ (by simp)]

theorem Linked.gflexqSetPriorityGlck (g : Flex) (p : Priority) :
    ∃ lists', (gwq.gflexqSetPriorityGlck g p).Linked lists' := by
  by_cases mem : g ∈ lists (gwq.priority g)
  · obtain ⟨xs, ys, split⟩ := append_of_mem mem
    have inserted := (linked.remove split).insertLast (p := p) (gwq.workq (.flex g)) (raisedCell gwq.gworkqPriority p)
    simp only [update_eq_self] at inserted
    rw [gflexqSetPriorityGlck_linked linked mem]
    exact ⟨_, inserted⟩
  rw [gflexqSetPriorityGlck_free linked mem]
  have nowhere := linked.nowhere mem
  refine ⟨lists, linked.rings, fun q x inList => ?_, fun x notMember => ?_, fun x nonempty => ?_⟩
  · have ne : x ≠ g := by
      rintro rfl
      exact nowhere q inList
    have level := linked.level q x inList
    rwa [← update_of_ne ne p gwq.priority] at level
  · by_cases same : x = g
    · subst same
      exact linked.unlinked x mem
    · simp only [update_of_ne same] at notMember
      exact linked.unlinked x notMember
  · have inList := linked.queued x nonempty
    have ne : x ≠ g := by
      rintro rfl
      exact mem inList
    simp only [update_of_ne ne]
    exact inList

theorem Linked.unlinkFirst (split : lists p = g :: rest) (empty : gwq.tasks (.flex g) = []) :
    (gwq.unlinkFirst (.head p) (.flex g)).Linked (update lists p rest) := by
  have ring := linked.rings.ring p
  rw [split, map_cons] at ring
  have before : gwq.links.prev (.flex g) = .head p :=
    (show gwq.links.Ring (.head p) ([] ++ .flex g :: rest.map .flex) from ring).prev_node
  have detached := linked.remove (show lists p = [] ++ g :: rest from split)
  rw [before, nil_append] at detached
  refine ⟨⟨fun q => ?_, detached.rings.apart⟩, detached.level, fun x notMember => ?_, fun x nonempty => ?_⟩
  · refine (detached.rings.ring q).congr (fun node mem => update_of_ne ?_ ..)
      fun node mem => update_of_ne ?_ ..
    all_goals
      rintro rfl
      exact detached.free q (by simpa using mem)
  · by_cases isG : x = g
    · subst isG
      exact update_self ..
    · exact (update_of_ne (by simpa using isG) ..).trans (detached.unlinked x isG notMember)
  · have ne : x ≠ g := by
      rintro rfl
      exact nonempty empty
    exact detached.queued x ne nonempty

end

end Gworkq

end Culibs.Cuflow
