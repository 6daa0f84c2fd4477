import Culibs.Cucon.LinkedList.Refine

namespace Culibs.Cucon.LinkedList

open Links Function List Option

inductive Command where
  | init (list : Addr)
  | insertInit (place : Place) (node : Addr)
  | insertLive (place : Place) (node : Addr)
  | insertMem (place : Place) (node : Addr)
  | insertPtr (place : Place) (node : Addr) (ptr : Word)
  | extract (node : Addr)
  | extractPtr (node : Addr)
  | eraseNode (node : Addr)
  | erasePtr (lst : Addr) (ptr : Word)
  | eraseAllPtr (lst : Addr) (ptr : Word)
  | swap (lst0 lst1 : Addr)
  | rotate (list firstNode : Addr)
  | rotateForwards (list : Addr)
  | rotateBackwards (list : Addr)
  | appendListDct (lst dlst : Addr)
  | prependListDct (lst dlst : Addr)
deriving DecidableEq

/-- The code of a call. Fuel bounds the loops. -/
def Command.run (fuel : Nat) (heap : Heap) : Command → Option Heap
  | init list => some (LinkedList.init heap list)
  | insertInit place node => some (LinkedList.insertInit heap (place.pos heap) node)
  | insertLive place node => some (LinkedList.insertLive heap (place.pos heap) node)
  | insertMem place node => some (LinkedList.insertMem heap (place.pos heap) node)
  | insertPtr place node ptr => some (LinkedList.insertPtr heap (place.pos heap) node ptr)
  | extract node => some (LinkedList.extract heap node)
  | extractPtr node => some (LinkedList.extractPtr heap node).2
  | eraseNode node => some (LinkedList.eraseNode heap node).2
  | erasePtr lst ptr => (LinkedList.erasePtr fuel heap lst ptr).map Prod.snd
  | eraseAllPtr lst ptr => (LinkedList.eraseAllPtr fuel heap lst ptr).map Prod.snd
  | swap lst0 lst1 => some (LinkedList.swap heap lst0 lst1)
  | rotate list firstNode => LinkedList.rotate heap list firstNode
  | rotateForwards list => LinkedList.rotateForwards heap list
  | rotateBackwards list => LinkedList.rotateBackwards heap list
  | appendListDct lst dlst => some (LinkedList.appendListDct heap lst dlst).2
  | prependListDct lst dlst => some (LinkedList.prependListDct heap lst dlst).2

def run (fuel : Nat) (heap : Heap) (commands : List Command) : Option Heap :=
  commands.foldlM (Command.run fuel) heap

/-- The operation on sequences that a call stands for. -/
def Command.effect (lists : Lists) : Command → Lists
  | init list => lists.set list (some [])
  | insertInit place node => lists.insert node place
  | insertLive place node => (lists.remove node).insert node place
  | insertMem place node => lists.insert node place
  | insertPtr place node ptr =>
    { lists.insert node place with ptr := update lists.ptr node ptr }
  | extract node => lists.remove node
  | extractPtr node => lists.remove node
  | eraseNode node => lists.remove node
  | erasePtr lst ptr => lists.edit lst (·.eraseP fun node => lists.ptr node == ptr)
  | eraseAllPtr lst ptr => lists.edit lst (·.filter fun node => lists.ptr node != ptr)
  | swap lst0 lst1 => (lists.set lst0 (lists.contents lst1)).set lst1 (lists.contents lst0)
  | rotate list firstNode =>
    lists.edit list fun nodes => nodes.dropWhile (· != firstNode) ++ nodes.takeWhile (· != firstNode)
  | rotateForwards list => lists.edit list fun nodes => nodes.getLast?.toList ++ nodes.dropLast
  | rotateBackwards list => lists.edit list fun nodes => nodes.drop 1 ++ nodes.take 1
  | appendListDct lst dlst =>
    (lists.set dlst none).edit lst (· ++ (lists.contents dlst).getD [])
  | prependListDct lst dlst =>
    (lists.set dlst none).edit lst ((lists.contents dlst).getD [] ++ ·)

def effects (lists : Lists) (commands : List Command) : Lists := commands.foldl Command.effect lists

/-- The preconditions of a call: nodes are new or in a list as the call needs it,
and lists are in use. -/
def Command.Legal (lists : Lists) : Command → Prop
  | init list => lists.Free list
  | insertInit place node => place.Legal lists ∧ lists.Free node
  | insertLive place node => place.Legal lists ∧ IsNode lists node
  | insertMem place node => place.Legal lists ∧ lists.Free node
  | insertPtr place node _ => place.Legal lists ∧ lists.Free node
  | extract node => IsNode lists node
  | extractPtr node => IsNode lists node
  | eraseNode node => IsNode lists node
  | erasePtr lst _ => lists.contents lst ≠ none
  | eraseAllPtr lst _ => lists.contents lst ≠ none
  | swap lst0 lst1 => lists.contents lst0 ≠ none ∧ lists.contents lst1 ≠ none
  | rotate list firstNode => ∃ nodes, lists.contents list = some nodes ∧ firstNode ∈ nodes
  | rotateForwards list => lists.contents list ≠ none
  | rotateBackwards list => lists.contents list ≠ none
  | appendListDct lst dlst => lists.contents lst ≠ none ∧ lists.contents dlst ≠ none ∧ lst ≠ dlst
  | prependListDct lst dlst => lists.contents lst ≠ none ∧ lists.contents dlst ≠ none ∧ lst ≠ dlst

/-- What a call must not be for its code to be right: a list of several nodes is not
prepended to, a list of nodes is not rotated forwards and a node is not moved to the
place where it is. -/
def Command.Sound (lists : Lists) : Command → Prop
  | insertLive place node => place.target lists ≠ node
  | rotateForwards list => lists.contents list = some []
  | prependListDct lst _ => ((lists.contents lst).getD []).length ≤ 1
  | _ => True

/-- A property of every call of a sequence, in the state it is made in. -/
def Throughout (P : Lists → Command → Prop) (lists : Lists) : List Command → Prop
  | [] => True
  | command :: rest => P lists command ∧ Throughout P (command.effect lists) rest

/-- Lists that `cucon_list_validate` accepts, of different nodes. -/
structure Started (heap : Heap) (lists : Lists) : Prop where
  valid : ∀ eol nodes, lists.contents eol = some nodes → (∃ fuel, validate fuel heap eol = some true) ∧
    ∃ fuel, forwards fuel heap eol = some nodes
  sentinels : ∀ eol eol' nodes nodes', lists.contents eol = some nodes → lists.contents eol' = some nodes' →
    eol ∉ nodes'
  ptr : heap.ptr = lists.ptr

/-- The calls succeed, and afterwards the traversals of each list are the sequence
that the operations on sequences give and its reverse. -/
def Follows (heap : Heap) (lists : Lists) (commands : List Command) : Prop :=
  ∃ heap' enough, (∀ fuel, enough ≤ fuel → run fuel heap commands = some heap') ∧
    ∀ eol nodes, (effects lists commands).contents eol = some nodes → ∀ fuel, nodes.length < fuel →
      validate fuel heap' eol = some true ∧ forwards fuel heap' eol = some nodes ∧
        backwards fuel heap' eol = some nodes.reverse

variable {heap heap' : Heap} {lists : Lists} {lst dlst node a eol : Addr} {nodes xs ys : List Addr}
  {fuel : Nat} {value : Word} {place : Place}

theorem eraseNode_spec (ring : Ring heap.links lst (xs ++ node :: ys)) :
    (eraseNode heap node).1 = ys.headD lst ∧ Ring (eraseNode heap node).2.links lst (xs ++ ys) ∧
      (eraseNode heap node).2.ptr = heap.ptr ∧
      ∀ a, a ∉ lst :: (xs ++ node :: ys) → Same heap (eraseNode heap node).2 a := by
  obtain ⟨erased, next, same⟩ := ring_unlink ring
  exact ⟨next, erased, rfl, same⟩

theorem enough_succ (enough : ys.length < fuel) : ∃ less, fuel = less + 1 := ⟨fuel - 1, by omega⟩

theorem enough_cons (enough : (y :: ys).length < fuel) : ∃ less, fuel = less + 1 ∧ ys.length < less := by
  rw [length_cons] at enough
  exact ⟨fuel - 1, by omega, by omega⟩

theorem erasePtrLoop_spec (value : Word) (ring : Ring heap.links lst (xs ++ ys)) :
    ∃ it heap', (∀ fuel, ys.length < fuel → erasePtrLoop lst value fuel heap (ys.headD lst) = some (it, heap')) ∧
      Ring heap'.links lst (xs ++ ys.eraseP fun node => heap.ptr node == value) ∧ heap'.ptr = heap.ptr ∧
      ∀ a, a ∉ lst :: (xs ++ ys) → Same heap heap' a := by
  induction ys generalizing xs with
  | nil =>
    refine ⟨lst, heap, fun fuel enough => ?_, ring, rfl, fun _ _ => ⟨rfl, rfl⟩⟩
    obtain ⟨less, rfl⟩ := enough_succ enough
    simp [erasePtrLoop]
  | cons y ys ih =>
    have notSentinel : y ≠ lst := fun same => (nodup_cons.mp ring.distinct).1 (by simp [same])
    by_cases found : heap.ptr y = value
    · obtain ⟨_, erased, ptr, same⟩ := eraseNode_spec ring
      refine ⟨(eraseNode heap y).1, (eraseNode heap y).2, fun fuel enough => ?_, ?_, ptr, same⟩
      · obtain ⟨less, rfl⟩ := enough_succ enough
        rw [headD_cons, erasePtrLoop, if_neg notSentinel, if_pos found]
      · rwa [eraseP_cons_of_pos (by simpa using found)]
    have next : heap.next y = ys.headD lst := ring.next_node
    rw [append_cons] at ring
    obtain ⟨it, heap', done, erased, ptr, same⟩ := ih ring
    refine ⟨it, heap', fun fuel enough => ?_, ?_, ptr, ?_⟩
    · obtain ⟨less, rfl, room⟩ := enough_cons enough
      rw [headD_cons, erasePtrLoop, if_neg notSentinel, if_neg found, next]
      exact done less room
    · rw [eraseP_cons_of_neg (by simpa using found), append_cons]
      exact erased
    · rw [append_cons]
      exact same

private theorem eraseAllPtrLoop_spec (value : Word) (count : Nat) (ring : Ring heap.links lst (xs ++ ys)) :
    ∃ heap', (∀ fuel, ys.length < fuel → eraseAllPtrLoop lst value fuel heap count (ys.headD lst) =
        some (count + ys.countP (fun node => heap.ptr node == value), heap')) ∧
      Ring heap'.links lst (xs ++ ys.filter fun node => heap.ptr node != value) ∧ heap'.ptr = heap.ptr ∧
      ∀ a, a ∉ lst :: (xs ++ ys) → Same heap heap' a := by
  induction ys generalizing heap xs count with
  | nil =>
    refine ⟨heap, fun fuel enough => ?_, ring, rfl, fun _ _ => ⟨rfl, rfl⟩⟩
    obtain ⟨less, rfl⟩ := enough_succ enough
    simp [eraseAllPtrLoop]
  | cons y ys ih =>
    have notSentinel : y ≠ lst := fun same => (nodup_cons.mp ring.distinct).1 (by simp [same])
    by_cases found : heap.ptr y = value
    · obtain ⟨next, erased, ptr, same⟩ := eraseNode_spec ring
      obtain ⟨heap', done, ring', ptr', same'⟩ := ih (count + 1) erased
      rw [ptr] at done ring' ptr'
      refine ⟨heap', fun fuel enough => ?_, ?_, ptr', fun a outside => ?_⟩
      · obtain ⟨less, rfl, room⟩ := enough_cons enough
        rw [headD_cons, eraseAllPtrLoop, if_neg notSentinel, if_pos found, countP_cons_of_pos (by simpa using found)]
        simp only [next, done less room, add_assoc, add_comm 1]
      · rwa [filter_cons_of_neg (by simpa using found)]
      · refine (same a outside).trans (same' a fun inside => outside ?_)
        simp only [mem_cons, mem_append] at inside ⊢
        tauto
    · have next : heap.next y = ys.headD lst := ring.next_node
      rw [append_cons] at ring
      obtain ⟨heap', done, erased, ptr, same⟩ := ih count ring
      refine ⟨heap', fun fuel enough => ?_, ?_, ptr, ?_⟩
      · obtain ⟨less, rfl, room⟩ := enough_cons enough
        rw [headD_cons, eraseAllPtrLoop, if_neg notSentinel, if_neg found, next,
          countP_cons_of_neg (by simpa using found)]
        exact done less room
      · rw [filter_cons_of_pos (by simpa using found), append_cons]
        exact erased
      · rw [append_cons]
        exact same

/-- What a call with enough fuel does. -/
def Steps (heap : Heap) (lists : Lists) (command : Command) : Prop :=
  ∃ heap' enough, (∀ fuel, enough ≤ fuel → command.run fuel heap = some heap') ∧
    Represents heap' (command.effect lists)

private theorem erasePtr_steps (rep : Represents heap lists) (held : lists.contents lst = some nodes) :
    Steps heap lists (.erasePtr lst value) := by
  have next : heap.next lst = nodes.headD lst := (rep.ring held).next_eol
  have ring : Ring heap.links lst ([] ++ nodes) := rep.ring held
  obtain ⟨it, heap', done, erased, ptr, same⟩ := erasePtrLoop_spec value ring
  refine ⟨heap', nodes.length + 1, fun fuel enough => ?_, ?_⟩
  · rw [Command.run, erasePtr, next, done fuel enough, map_some]
  · rw [Command.effect, edit_eq held, ← rep.ptr]
    exact rep.rearrange held erased same (eraseP_sublist).subset ptr

theorem eraseAllPtr_steps (rep : Represents heap lists) (held : lists.contents lst = some nodes) :
    Steps heap lists (.eraseAllPtr lst value) := by
  have next : heap.next lst = nodes.headD lst := (rep.ring held).next_eol
  have ring : Ring heap.links lst ([] ++ nodes) := rep.ring held
  obtain ⟨heap', done, erased, ptr, same⟩ := eraseAllPtrLoop_spec value 0 ring
  refine ⟨heap', nodes.length + 1, fun fuel enough => ?_, ?_⟩
  · rw [Command.run, eraseAllPtr, next, done fuel enough, map_some]
  · rw [Command.effect, edit_eq held, ← rep.ptr]
    exact rep.rearrange held erased same (filter_sublist).subset ptr

theorem step_represents (rep : Represents heap lists) (legal : command.Legal lists)
    (sound : command.Sound lists) : Steps heap lists command := by
  cases command with
  | init list => exact ⟨_, 0, fun _ _ => rfl, init_represents rep legal⟩
  | insertInit place node =>
    exact ⟨_, 0, fun _ _ => rfl, insert_represents rep legal.1 legal.2 rfl insertInit_links⟩
  | insertLive place node => exact ⟨_, 0, fun _ _ => rfl, insertLive_represents rep legal.1 legal.2 sound⟩
  | insertMem place node =>
    exact ⟨_, 0, fun _ _ => rfl, insert_represents rep legal.1 legal.2 rfl insertMem_links⟩
  | insertPtr place node ptr =>
    have inserted : Represents (insertMem heap (place.pos heap) node) (lists.insert node place) :=
      insert_represents rep legal.1 legal.2 rfl insertMem_links
    refine ⟨_, 0, fun _ _ => rfl, inserted.ring, inserted.unique, ?_⟩
    rw [Command.effect, ← rep.ptr]
    rfl
  | extract node => exact ⟨_, 0, fun _ _ => rfl, extract_represents rep legal⟩
  | extractPtr node => exact ⟨_, 0, fun _ _ => rfl, (unlink_represents rep legal).1⟩
  | eraseNode node => exact ⟨_, 0, fun _ _ => rfl, (unlink_represents rep legal).1⟩
  | erasePtr lst ptr =>
    obtain ⟨nodes, held⟩ := ne_none_iff_exists'.mp legal
    exact erasePtr_steps rep held
  | eraseAllPtr lst ptr =>
    obtain ⟨nodes, held⟩ := ne_none_iff_exists'.mp legal
    exact eraseAllPtr_steps rep held
  | swap lst0 lst1 =>
    obtain ⟨xs, held⟩ := ne_none_iff_exists'.mp legal.1
    obtain ⟨ys, other⟩ := ne_none_iff_exists'.mp legal.2
    refine ⟨_, 0, fun _ _ => rfl, ?_⟩
    rw [Command.effect, held, other]
    exact swap_represents rep held other
  | rotate list firstNode =>
    obtain ⟨nodes, held, mem⟩ := legal
    obtain ⟨xs, ys, rfl⟩ := append_of_mem mem
    have distinct := (nodup_cons.mp (rep.ring held).distinct).2
    rw [nodup_middle, nodup_cons, mem_append, not_or] at distinct
    obtain ⟨heap', done, rotated⟩ := rotate_represents rep held
    refine ⟨heap', 0, fun _ _ => done, ?_⟩
    rw [Command.effect, edit_eq held, (dropWhile_split distinct.1.1).1, (dropWhile_split distinct.1.1).2]
    exact rotated
  | rotateForwards list =>
    have ring := rep.ring sound
    have next : heap.next list = list := ring.next_eol
    refine ⟨heap, 0, fun _ _ => by simp [Command.run, rotateForwards, isEmpty, next], ?_⟩
    rw [Command.effect, edit_eq sound]
    exact rep.set_same sound
  | rotateBackwards list =>
    obtain ⟨nodes, held⟩ := ne_none_iff_exists'.mp legal
    obtain ⟨heap', done, rotated⟩ := rotateBackwards_represents rep held
    refine ⟨heap', 0, fun _ _ => done, ?_⟩
    rw [Command.effect, edit_eq held]
    exact rotated
  | appendListDct lst dlst =>
    obtain ⟨xs, held⟩ := ne_none_iff_exists'.mp legal.1
    obtain ⟨ys, other⟩ := ne_none_iff_exists'.mp legal.2.1
    refine ⟨_, 0, fun _ _ => rfl, ?_⟩
    have kept : (lists.set dlst none).contents lst = some xs := by
      simp only [Lists.set, update_of_ne legal.2.2]
      exact held
    rw [Command.effect, edit_eq kept, other]
    exact appendListDct_represents rep held other legal.2.2
  | prependListDct lst dlst =>
    obtain ⟨xs, held⟩ := ne_none_iff_exists'.mp legal.1
    obtain ⟨ys, other⟩ := ne_none_iff_exists'.mp legal.2.1
    refine ⟨_, 0, fun _ _ => rfl, ?_⟩
    have kept : (lists.set dlst none).contents lst = some xs := by
      simp only [Lists.set, update_of_ne legal.2.2]
      exact held
    have short : xs.getLast?.toList = xs := by
      rw [Command.Sound, held, getD_some] at sound
      rcases Nat.le_one_iff_eq_zero_or_eq_one.mp sound with none | one
      · rw [length_eq_zero_iff.mp none]
        rfl
      · obtain ⟨x, rfl⟩ := length_eq_one_iff.mp one
        rfl
    rw [Command.effect, edit_eq kept, other]
    have prepended := prependListDct_represents rep held other legal.2.2
    rwa [short] at prepended

private theorem walk_unique (walked : walk step eol fuel node = some xs)
    (walked' : walk step eol fuel' node = some ys) : xs = ys := by
  induction fuel generalizing node fuel' xs ys with
  | zero => simp [walk] at walked
  | succ fuel ih =>
    cases fuel' with
    | zero => simp [walk] at walked'
    | succ fuel' =>
      unfold walk at walked walked'
      split at walked
      · next last =>
        rw [if_pos last] at walked'
        exact some.inj (walked.symm.trans walked')
      · next inner =>
        rw [if_neg inner] at walked'
        obtain ⟨rest, below, rfl⟩ := map_eq_some_iff.mp walked
        obtain ⟨rest', below', rfl⟩ := map_eq_some_iff.mp walked'
        rw [ih below below']

theorem Started.represents (started : Started heap lists) : Represents heap lists := by
  have rings {eol : Addr} {nodes : List Addr} (held : lists.contents eol = some nodes) :
      Ring heap.links eol nodes := by
    obtain ⟨valid, fuel, walked⟩ := started.valid eol nodes held
    obtain ⟨found, ring⟩ := validate_iff.mp valid
    obtain rfl := walk_unique walked (ring_traversals ring (Nat.lt_succ_self _)).1
    exact ring
  refine ⟨rings, fun {a eol eol'} owned owned' => ?_, started.ptr⟩
  obtain ⟨nodes, held, mem⟩ := owned
  obtain ⟨nodes', held', member'⟩ := owned'
  exact rings_disjoint (rings held) (rings held') (started.sentinels eol eol' nodes nodes' held held')
    (started.sentinels eol' eol nodes' nodes held' held) mem member'

theorem run_represents (rep : Represents heap lists)
    (legal : Throughout Command.Legal lists commands) (sound : Throughout Command.Sound lists commands) :
    ∃ heap' enough, (∀ fuel, enough ≤ fuel → run fuel heap commands = some heap') ∧
      Represents heap' (effects lists commands) := by
  induction commands generalizing heap lists with
  | nil => exact ⟨heap, 0, fun _ _ => rfl, rep⟩
  | cons command rest ih =>
    obtain ⟨heap1, enough1, done1, represents1⟩ := step_represents rep legal.1 sound.1
    obtain ⟨heap2, enough2, done2, represents2⟩ := ih represents1 legal.2 sound.2
    refine ⟨heap2, max enough1 enough2, fun fuel enough => ?_, represents2⟩
    rw [run, foldlM_cons, done1 fuel (by omega)]
    exact done2 fuel (by omega)

/-- Any calls on valid lists that avoid the defects follow the operations on sequences. -/
theorem run_follows (heap : Heap) (lists : Lists) (commands : List Command) (started : Started heap lists)
    (legal : Throughout Command.Legal lists commands) (sound : Throughout Command.Sound lists commands) :
    Follows heap lists commands := by
  obtain ⟨heap', enough, done, represents⟩ := run_represents started.represents legal sound
  refine ⟨heap', enough, done, fun eol nodes held fuel more => ?_⟩
  have ring := represents.ring held
  refine ⟨?_, ring_traversals ring more⟩
  rw [validate, Heap.next, ring.next_eol]
  exact chain_validateLoop ring.chain (nodup_cons.mp ring.distinct).1 more

section Defect

/-- No list is in use and no node is linked. -/
def emptyHeap : Heap := { links := { next := fun _ => 0, prev := fun _ => 0 }, ptr := fun _ => 0 }

def noLists : Lists := { contents := fun _ => none, ptr := fun _ => 0 }

/-- A list 1 of the given nodes and a list 2 of the node 30, which is prepended to it. -/
def prependTo (nodes : List Addr) : List Command :=
  .init 1 :: nodes.map (.insertInit (.back 1) ·) ++ [.init 2, .insertInit (.back 2) 30, .prependListDct 1 2]

theorem started_noLists : Started emptyHeap noLists :=
  ⟨by simp [noLists], by simp [noLists], rfl⟩

theorem prependTo_legal : Throughout Command.Legal noLists (prependTo [10, 20]) ∧
    Throughout Command.Legal noLists (prependTo [10]) := by
  simp only [prependTo, map_cons, map_nil, cons_append, nil_append, Throughout, Command.Legal,
    Place.Legal, Command.effect, Lists.insert, Lists.edit, Lists.set, Lists.Free, Lists.Owns, noLists, update_apply]
  constructor <;> grind

/-- The heap after the calls. No call needs fuel. -/
def prepended (nodes : List Addr) : Heap := (run 0 emptyHeap (prependTo nodes)).getD emptyHeap

/-- Prepending to the list 10, 20 loses the node 10. -/
theorem prepend_not_follows : Started emptyHeap noLists ∧
    Throughout Command.Legal noLists (prependTo [10, 20]) ∧ ¬ Follows emptyHeap noLists (prependTo [10, 20]) := by
  refine ⟨started_noLists, prependTo_legal.1, ?_⟩
  rintro ⟨heap', enough, done, follows⟩
  have runs : run enough emptyHeap (prependTo [10, 20]) = some (prepended [10, 20]) := rfl
  obtain rfl : prepended [10, 20] = heap' := some.inj (runs.symm.trans (done enough (le_refl enough)))
  have forward := (follows 1 [30, 10, 20] rfl 4 (by decide)).2.1
  exact absurd forward (by decide)

/-- Prepending to a list of one node keeps it. -/
theorem prepend_follows : Follows emptyHeap noLists (prependTo [10]) :=
  run_follows emptyHeap noLists (prependTo [10]) started_noLists prependTo_legal.2
    ⟨trivial, trivial, trivial, trivial, le_refl 1, trivial⟩

end Defect

end Culibs.Cucon.LinkedList
