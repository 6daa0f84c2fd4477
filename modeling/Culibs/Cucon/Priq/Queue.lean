import Culibs.Cucon.Priq.Basic
import Culibs.Foundation.BinaryHeap

namespace Culibs.Cucon.Priq

open BinaryHeap Bool Nat
open Function hiding swap

variable {α : Type} {order : StrictWeakOrder α} {arr : Slots α} {n i : Nat} {f : Nat → α}

/-- The first `n` slots hold the elements `f`. -/
def Holds (arr : Slots α) (n : Nat) (f : Nat → α) : Prop := ∀ i < n, arr[i]? = some (some (f i))

theorem Holds.room (holds : Holds arr n f) : n ≤ arr.length := by
  cases n with
  | zero => exact zero_le _
  | succ m => exact (List.getElem?_eq_some_iff.mp (holds m (lt_succ_self m))).1

theorem Holds.read_eq (holds : Holds arr n f) (bound : i < n) : read arr i = .ok (f i) := by
  rw [read, holds i bound]

theorem write_eq (bound : i < arr.length) (key : α) : write arr i key = .ok (arr.set i (some key)) := by
  rw [write, if_pos bound]

theorem Holds.set (holds : Holds arr n f) (bound : i < arr.length) (key : α) :
    Holds (arr.set i (some key)) n (update f i key) := by
  intro j below
  by_cases same : i = j
  · subst same
    rw [List.getElem?_set_self bound, update_self]
  · rw [List.getElem?_set_ne same, update_of_ne (Ne.symm same), holds j below]

theorem Holds.exchange (holds : Holds arr n f) (boundLeft : i < n) (boundRight : j < n) :
    Holds ((arr.set i (some (f j))).set j (some (f i))) n (swap f i j) := by
  have room := holds.room
  have written := (holds.set (i := i) (by omega) (f j)).set (i := j)
    (by rw [List.length_set]; omega) (f i)
  intro k below
  rw [written k below]
  congr 2
  by_cases right : k = j
  · subst right
    rw [update_self, swap_right]
  rw [update_of_ne right]
  by_cases left : k = i
  · subst left
    rw [update_self, swap_left]
  · rw [update_of_ne left, swap_other f left right]

/-- A sift ends with the same elements in order. -/
def Sifts (order : StrictWeakOrder α) (arr : Slots α) (n : Nat) (f : Nat → α)
    (result : Except Fault (Slots α)) : Prop :=
  ∃ arr' f', result = .ok arr' ∧ arr'.length = arr.length ∧ Holds arr' n f' ∧ Ordered order n f' ∧
    elements n f' = elements n f

private theorem siftUp_sifts (holds : Holds arr n f) (bound : k < n) (up : UpOrdered order n k f) :
    Sifts order arr n f (siftUp order.prior arr k) := by
  induction k using Nat.strongRecOn generalizing arr f with
  | ind k ih =>
    unfold siftUp
    split
    · next pos =>
      have above : (k + 1) / 2 - 1 = parent k := by
        unfold parent
        omega
      have smaller := parent_lt pos
      rw [above]
      simp only [holds.read_eq bound, holds.read_eq (show parent k < n by omega), bind, Except.bind]
      split
      · next before =>
        exact ⟨arr, f, rfl, rfl, holds, up.finish fun _ => order.asymm before, rfl⟩
      · next outOfOrder =>
        rw [not_eq_true] at outOfOrder
        have room := holds.room
        have exchanged := holds.exchange (show parent k < n by omega) bound
        rw [write_eq (by omega)]
        simp only []
        rw [write_eq (by rw [List.length_set]; omega)]
        have moved := up.move pos bound outOfOrder
        have sameSwap : swap f (parent k) k = swap f k (parent k) := by
          rw [swap, swap, Equiv.swap_comm]
        rw [sameSwap] at exchanged
        obtain ⟨arr', f', done, length, holds', ordered, same⟩ := ih (parent k) smaller exchanged (by omega) moved
        refine ⟨arr', f', done, by simpa using length, holds', ordered, ?_⟩
        rw [same, elements_swap bound (by omega)]
    · next top =>
      exact ⟨arr, f, rfl, rfl, holds, up.finish fun pos => absurd pos top, rfl⟩

/-- The child that sinking compares with. -/
def firstChild (order : StrictWeakOrder α) (f : Nat → α) (k : Nat) : Nat :=
  if order.prior (f (2 * k + 1 + 1)) (f (2 * k + 1)) then 2 * k + 1 + 1 else 2 * k + 1

theorem firstChild_spec (order : StrictWeakOrder α) (f : Nat → α) (k : Nat) :
    0 < firstChild order f k ∧ parent (firstChild order f k) = k ∧
      firstChild order f k ≤ 2 * k + 1 + 1 ∧
      ∀ i, 0 < i → parent i = k → order.prior (f i) (f (firstChild order f k)) = false := by
  unfold firstChild
  split
  · next before =>
    refine ⟨by omega, by unfold parent; omega, le_rfl, fun i pos child => ?_⟩
    rcases (parent_eq_iff pos).mp child with rfl | rfl
    · exact order.asymm before
    · exact order.irrefl _
  · next notBefore =>
    rw [not_eq_true] at notBefore
    refine ⟨by omega, by unfold parent; omega, by omega, fun i pos child => ?_⟩
    rcases (parent_eq_iff pos).mp child with rfl | rfl
    · exact order.irrefl _
    · exact notBefore

theorem siftDown_eq (holds : Holds arr (n + 1) f) (inner : 2 * k + 1 < n) :
    siftDown order.prior arr n k =
      if order.prior (f k) (f (firstChild order f k)) then .ok arr
      else siftDown order.prior ((arr.set k (some (f (firstChild order f k)))).set (firstChild order f k)
        (some (f k))) n (firstChild order f k) := by
  have spec := firstChild_spec order f k
  have room := holds.room
  have chosen : (if order.prior (f (2 * k + 1 + 1)) (f (2 * k + 1)) then 2 * k + 1 + 1 else 2 * k + 1) =
      firstChild order f k := rfl
  rw [siftDown, if_neg (by omega)]
  simp only [holds.read_eq (show 2 * k + 1 + 1 < n + 1 by omega), holds.read_eq (show 2 * k + 1 < n + 1 by omega),
    holds.read_eq (show k < n + 1 by omega), bind, Except.bind, chosen,
    holds.read_eq (show firstChild order f k < n + 1 by omega)]
  split
  · rfl
  · rw [write_eq (by omega)]
    simp only []
    rw [write_eq (by rw [List.length_set]; omega)]

/-- The slot after the last element still holds the element that sinks. It may be
compared, and exchanged with its copy. -/
theorem siftDown_sifts (holds : Holds arr (n + 1) f) (bound : k ≤ n) (copy : f n = f k)
    (down : DownOrdered order n k f) : Sifts order arr n f (siftDown order.prior arr n k) := by
  induction distance : n - k using Nat.strongRecOn generalizing k arr f with
  | ind distance ih =>
    by_cases inner : 2 * k + 1 < n
    · obtain ⟨pos, child, near, first⟩ := firstChild_spec order f k
      rw [siftDown_eq holds inner]
      split
      · next before =>
        refine ⟨arr, f, rfl, rfl, (fun i bound => holds i (by omega)), down.finish fun i pos _ child => ?_, rfl⟩
        rw [eq_false_iff]
        intro after
        have further := order.trans after before
        rw [first i pos child] at further
        cases further
      · next outOfOrder =>
        rw [not_eq_true] at outOfOrder
        have further : k < firstChild order f k := by
          have := parent_lt pos
          omega
        have exchanged := holds.exchange (i := k) (j := firstChild order f k) (by omega) (by omega)
        rcases lt_or_ge (firstChild order f k) n with below | atEnd
        · have fixed : swap f k (firstChild order f k) n = f n := swap_other f (by omega) (by omega)
          obtain ⟨arr', f', done, length, holds', ordered, same⟩ := ih (n - firstChild order f k) (by omega)
            exchanged (by omega) (by rw [fixed, swap_right, copy])
            (down.move child pos below outOfOrder fun i pos _ child => first i pos child) rfl
          refine ⟨arr', f', done, by simpa using length, holds', ordered, ?_⟩
          rw [same, elements_swap (by omega) below]
        · -- The chosen child is the copy, and the exchange changes nothing.
          have last : firstChild order f k = n := by omega
          have unchanged : swap f k n = f := by
            funext i
            by_cases left : i = k
            · rw [left, swap_left, copy]
            by_cases right : i = n
            · rw [right, swap_right, copy]
            · exact swap_other f left right
          rw [last] at exchanged first ⊢
          rw [unchanged] at exchanged
          have ordered : Ordered order n f := down.finish fun i pos _ child => by
            rw [← copy]
            exact first i pos child
          have settled : DownOrdered order n n f := by
            refine ⟨fun i pos bound _ => ordered i pos bound, fun i pos bound child => ?_⟩
            have := parent_lt pos
            omega
          obtain ⟨arr', f', done, length, rest⟩ := ih (n - n) (by omega) exchanged (le_refl n) rfl settled rfl
          exact ⟨arr', f', done, by simpa using length, rest⟩
    · rw [siftDown, if_pos (by omega)]
      refine ⟨arr, f, rfl, rfl, (fun i bound => holds i (by omega)), down.finish fun i pos bound child => ?_, rfl⟩
      rw [parent_eq_iff pos] at child
      omega

/-- The queue holds a heap in a block of the capacity. -/
structure Stores (order : StrictWeakOrder α) (q : Priq α) (f : Nat → α) : Prop where
  length : q.arr.length = q.capacity
  holds : Holds q.arr q.count f
  ordered : Ordered order q.count f

variable {q : Priq α}

theorem Stores.room (stores : Stores order q f) : q.count ≤ q.capacity :=
  stores.length ▸ stores.holds.room

theorem Stores.contents_eq (stores : Stores order q f) : q.contents = elements q.count f := by
  have slots : q.arr.take q.count = (List.range q.count).map (some ∘ f) := by
    apply List.ext_getElem?
    intro i
    by_cases bound : i < q.count
    · rw [List.getElem?_take_of_lt bound, stores.holds i bound]
      simp [bound]
    · rw [List.getElem?_eq_none (by rw [List.length_take]; omega),
        List.getElem?_eq_none (by rw [List.length_map, List.length_range]; omega)]
  rw [contents, slots, List.filterMap_map]
  simp [elements, Multiset.range]

theorem memcpy_spec (dst : Slots α) {count : Nat} (holds : Holds arr n f) (few : n ≤ count)
    (source : count ≤ arr.length) (target : count ≤ dst.length) :
    ∃ arr', memcpy dst arr count = .ok arr' ∧ arr'.length = dst.length ∧ Holds arr' n f := by
  refine ⟨_, if_pos ⟨source, target⟩, by simp only [List.length_append, List.length_take, List.length_drop]; omega,
    fun i bound => ?_⟩
  rw [List.getElem?_append_left (by rw [List.length_take]; omega), List.getElem?_take_of_lt (by omega), holds i bound]

theorem expandBy2_spec (stores : Stores order q f) :
    ∃ q', expandBy2 q = .ok q' ∧ Stores order q' f ∧ q'.count = q.count ∧
      (q.count = q.capacity → q.count < q'.capacity) := by
  by_cases empty : q.capacity = 0
  · have none : q.count = 0 := by
      have := stores.room
      omega
    refine ⟨{ q with capacity := 4, arr := galloc 4 }, ?_, ⟨rfl, fun i bound => ?_, fun i _ bound => ?_⟩, rfl,
      fun _ => ?_⟩
    · rw [expandBy2, if_pos empty]
      rfl
    all_goals
      simp only [none] at *
      omega
  · obtain ⟨arr', copied, length, holds⟩ := memcpy_spec (galloc (q.capacity * 2)) stores.holds
      stores.room (by rw [stores.length]) (by rw [galloc, List.length_replicate]; omega)
    refine ⟨{ q with capacity := q.capacity * 2, arr := arr' }, ?_, ⟨?_, holds, stores.ordered⟩, rfl,
      fun full => ?_⟩
    · rw [expandBy2, if_neg empty, copied]
      rfl
    · rw [length, galloc, List.length_replicate]
    · simp only []
      omega

theorem reduceBy4_spec (stores : Stores order q f) (few : q.count ≤ q.capacity / 4) :
    ∃ q', reduceBy4 q = .ok q' ∧ Stores order q' f ∧ q'.count = q.count := by
  obtain ⟨arr', copied, length, holds⟩ := memcpy_spec (galloc (q.capacity / 4)) stores.holds few
    (by rw [stores.length]; omega) (by rw [galloc, List.length_replicate])
  refine ⟨{ q with capacity := q.capacity / 4, arr := arr' }, ?_, ⟨?_, holds, stores.ordered⟩, rfl⟩
  · rw [reduceBy4, copied]
    rfl
  · rw [length, galloc, List.length_replicate]

theorem makeRoom_spec (stores : Stores order q f) :
    ∃ q', makeRoom q = .ok q' ∧ Stores order q' f ∧ q'.count = q.count ∧ q.count < q'.capacity := by
  unfold makeRoom
  split
  · next full =>
    obtain ⟨q', expanded, stores', count, room⟩ := expandBy2_spec stores
    exact ⟨q', expanded, stores', count, room (le_antisymm stores.room full)⟩
  · next space => exact ⟨q, rfl, stores, rfl, by omega⟩

theorem shrink_spec (stores : Stores order q f) :
    ∃ q', shrink q = .ok q' ∧ Stores order q' f ∧ q'.count = q.count := by
  unfold shrink
  split
  · next sparse => exact reduceBy4_spec stores sparse.2
  · exact ⟨q, rfl, stores, rfl⟩

theorem insert_spec (stores : Stores order q f) (key : α) :
    ∃ q' f', insert order.prior q key = .ok q' ∧ Stores order q' f' ∧ q'.contents = key ::ₘ q.contents := by
  obtain ⟨grown, expanded, storesGrown, count, room⟩ := makeRoom_spec stores
  have slot : q.count < grown.arr.length := by rw [storesGrown.length]; exact room
  have holds : Holds (grown.arr.set q.count (some key)) (q.count + 1) (update f q.count key) := by
    intro i bound
    by_cases last : i = q.count
    · rw [last, List.getElem?_set_self slot, update_self]
    · rw [List.getElem?_set_ne (Ne.symm last), update_of_ne last]
      exact storesGrown.holds i (by omega)
  have before {i : Nat} (bound : i < q.count) : update f q.count key i = f i :=
    update_of_ne (by omega) ..
  have up : UpOrdered order (q.count + 1) q.count (update f q.count key) := by
    refine ⟨fun i pos bound notLast => ?_, fun i pos bound child _ => ?_⟩
    · have := parent_lt pos
      rw [before (by omega), before (by omega)]
      exact stores.ordered i pos (by omega)
    · have := parent_lt pos
      omega
  obtain ⟨arr', f', sifted, length, holds', ordered, same⟩ := siftUp_sifts holds (lt_succ_self _) up
  have stores' : Stores order { grown with count := q.count + 1, arr := arr' } f' := by
    refine ⟨?_, holds', ordered⟩
    rw [length, List.length_set, storesGrown.length]
  refine ⟨{ grown with count := q.count + 1, arr := arr' }, f', ?_, stores', ?_⟩
  · simp only [insert, expanded, bind, Except.bind, write_eq slot, sifted, count]
    rfl
  · rw [stores'.contents_eq, stores.contents_eq, same, elements_succ, update_self,
      elements_congr fun i bound => before bound]

theorem popFront_empty (prior : α → α → Bool) (empty : q.count = 0) : popFront prior q = .ok (none, q) := by
  rw [popFront, if_pos empty]
  rfl

theorem popFront_spec (stores : Stores order q f) (nonempty : q.count ≠ 0) :
    ∃ q' f' key, popFront order.prior q = .ok (some key, q') ∧ Stores order q' f' ∧
      q.contents = key ::ₘ q'.contents ∧ ∀ other ∈ q.contents, order.prior other key = false := by
  obtain ⟨n, count⟩ : ∃ n, q.count = n + 1 := ⟨q.count - 1, by omega⟩
  have holds := stores.holds
  have ordered := stores.ordered
  rw [count] at holds ordered
  have room := holds.room
  have replaced := holds.set (i := 0) (by omega) (f n)
  have copy : update f 0 (f n) n = update f 0 (f n) 0 := by
    rcases Nat.eq_zero_or_pos n with rfl | pos
    · rfl
    · rw [update_of_ne (by omega), update_self]
  obtain ⟨arr', f', sifted, length, holds', ordered', same⟩ :=
    siftDown_sifts replaced (zero_le n) copy ordered.replaceFront
  have storesPopped : Stores order { q with count := n, arr := arr' } f' := by
    refine ⟨?_, holds', ordered'⟩
    rw [length, List.length_set, stores.length]
  obtain ⟨q', reduced, stores', count'⟩ := shrink_spec storesPopped
  refine ⟨q', f', f 0, ?_, stores', ?_, fun other mem => ?_⟩
  · simp only [popFront, count, Nat.add_sub_cancel,
      holds.read_eq (show 0 < n + 1 by omega), holds.read_eq (Nat.lt_succ_self n), bind, Except.bind,
      write_eq (show 0 < q.arr.length by omega), sifted]
    rw [reduced]
    rfl
  · rw [stores.contents_eq, stores'.contents_eq, count, count', same, elements_replaceFront]
  · rw [stores.contents_eq, count, mem_elements] at mem
    obtain ⟨i, bound, rfl⟩ := mem
    exact ordered.front bound

/-- What the next call on a queue does. -/
structure Serves (order : StrictWeakOrder α) (queue : Priq α) : Prop where
  insert : ∀ key, ∃ queue', Priq.insert order.prior queue key = .ok queue' ∧
    queue'.contents = key ::ₘ queue.contents
  popEmpty : queue.contents = 0 → popFront order.prior queue = .ok (none, queue)
  popFront : queue.contents ≠ 0 → ∃ key queue', Priq.popFront order.prior queue = .ok (some key, queue') ∧
    queue.contents = key ::ₘ queue'.contents ∧ ∀ other ∈ queue.contents, order.prior other key = false

theorem Stores.serves (stores : Stores order queue f) : Serves order queue := by
  have count : queue.contents = 0 ↔ queue.count = 0 := by
    rw [stores.contents_eq, elements, Multiset.map_eq_zero, ← Multiset.card_eq_zero, Multiset.card_range]
  refine ⟨fun key => ?_, fun empty => ?_, fun nonempty => ?_⟩
  · obtain ⟨queue', _, done, _, grown⟩ := insert_spec stores key
    exact ⟨queue', done, grown⟩
  · exact popFront_empty order.prior (count.mp empty)
  · obtain ⟨queue', _, key, done, _, shrunk, front⟩ := popFront_spec stores fun none => nonempty (count.mpr none)
    exact ⟨key, queue', done, shrunk, front⟩

section Runs

/-- One call on a queue. -/
inductive Command (α : Type) where
  | insert (key : α)
  | popFront

/-- A queue with the elements that have been inserted into it and popped from it. -/
structure Trace (α : Type) where
  queue : Priq α
  inserted : Multiset α
  popped : Multiset α

def Trace.step (prior : α → α → Bool) (trace : Trace α) : Command α → Except Fault (Trace α)
  | .insert key => do
    let queue ← Priq.insert prior trace.queue key
    return { trace with queue := queue, inserted := key ::ₘ trace.inserted }
  | .popFront => do
    let (result, queue) ← Priq.popFront prior trace.queue
    match result with
    | none => return { trace with queue := queue }
    | some key => return { trace with queue := queue, popped := key ::ₘ trace.popped }

/-- A sequence of calls on a new queue. -/
def run (prior : α → α → Bool) (commands : List (Command α)) : Except Fault (Trace α) :=
  commands.foldlM (Trace.step prior) { queue := init, inserted := 0, popped := 0 }

/-- The queue is a heap of the elements that have not been popped. -/
structure Trace.Valid (order : StrictWeakOrder α) (trace : Trace α) : Prop where
  stores : ∃ f, Stores order trace.queue f
  balance : trace.queue.contents + trace.popped = trace.inserted

theorem Trace.Valid.step {trace : Trace α} (valid : trace.Valid order) (command : Command α) :
    ∃ trace', trace.step order.prior command = .ok trace' ∧ trace'.Valid order := by
  obtain ⟨f, stores⟩ := valid.stores
  cases command with
  | insert key =>
    obtain ⟨q', f', done, stores', grown⟩ := insert_spec stores key
    refine ⟨{ trace with queue := q', inserted := key ::ₘ trace.inserted }, ?_, ⟨f', stores'⟩, ?_⟩
    · simp only [Trace.step, done, bind, Except.bind]
      rfl
    · rw [grown, Multiset.cons_add, valid.balance]
  | popFront =>
    by_cases empty : trace.queue.count = 0
    · refine ⟨trace, ?_, valid⟩
      simp only [Trace.step, popFront_empty order.prior empty, bind, Except.bind]
      rfl
    · obtain ⟨q', f', key, done, stores', shrunk, _⟩ := popFront_spec stores empty
      refine ⟨{ trace with queue := q', popped := key ::ₘ trace.popped }, ?_, ⟨f', stores'⟩, ?_⟩
      · simp only [Trace.step, done, bind, Except.bind]
        rfl
      · rw [← valid.balance, shrunk, Multiset.cons_add, Multiset.add_cons]

variable [Inhabited α]

private theorem init_valid : (⟨init, 0, 0⟩ : Trace α).Valid order := by
  refine ⟨⟨fun _ => default, rfl, fun i bound => ?_, fun i _ bound => ?_⟩, rfl⟩
  · exact absurd bound (not_lt_zero i)
  · exact absurd bound (not_lt_zero i)

private theorem run_valid (order : StrictWeakOrder α) (commands : List (Command α)) :
    ∃ trace, run order.prior commands = .ok trace ∧ trace.Valid order := by
  unfold run
  suffices runs : ∀ trace : Trace α, trace.Valid order →
      ∃ trace', commands.foldlM (Trace.step order.prior) trace = .ok trace' ∧ trace'.Valid order by
    exact runs _ init_valid
  induction commands with
  | nil => exact fun trace valid => ⟨trace, rfl, valid⟩
  | cons command rest ih =>
    intro trace valid
    obtain ⟨trace', done, valid'⟩ := valid.step command
    obtain ⟨last, finished, validLast⟩ := ih trace' valid'
    refine ⟨last, ?_, validLast⟩
    rw [List.foldlM_cons, done]
    exact finished

/-- Any calls on a new queue stay inside of the allocated blocks. The queue then
has the inserted elements that have not been popped, and the next call finds an
element that no other one is prior to. -/
theorem run_serves (order : StrictWeakOrder α) (commands : List (Command α)) :
    ∃ trace, run order.prior commands = .ok trace ∧
      trace.queue.contents + trace.popped = trace.inserted ∧ Serves order trace.queue := by
  obtain ⟨trace, done, ⟨f, stores⟩, balance⟩ := run_valid order commands
  exact ⟨trace, done, balance, stores.serves⟩

end Runs

end Culibs.Cucon.Priq
