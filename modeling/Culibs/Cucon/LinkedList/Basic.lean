import Culibs.Cu.Int
import Culibs.Foundation.Ring

/-! Doubly linked lists of `cucon/list.c`. The header of a list is a node itself, the
sentinel `eol`, so a list is the address of its sentinel. -/

namespace Culibs.Cucon.LinkedList

section Code

/-- An address of a node or a list, 0 is `NULL`. -/
abbrev Addr := Nat

/-- The links and the value slots of all nodes. -/
structure Heap where
  links : Links Addr
  ptr : Addr → Word

namespace Heap

def next (heap : Heap) (node : Addr) : Addr := heap.links.next node

def prev (heap : Heap) (node : Addr) : Addr := heap.links.prev node

def setNext (heap : Heap) (node target : Addr) : Heap :=
  { heap with links := { heap.links with next := Function.update heap.links.next node target } }

def setPrev (heap : Heap) (node target : Addr) : Heap :=
  { heap with links := { heap.links with prev := Function.update heap.links.prev node target } }

def setPtr (heap : Heap) (node : Addr) (ptr : Word) : Heap :=
  { heap with ptr := Function.update heap.ptr node ptr }

end Heap

def init (heap : Heap) (list : Addr) : Heap :=
  let heap := heap.setNext list list
  heap.setPrev list list

def isEmpty (heap : Heap) (list : Addr) : Bool := heap.next list == list

def isEmptyOrSingleton (heap : Heap) (list : Addr) : Bool := heap.next list == heap.prev list

/-- The part of `cucon_list_swap` after the exchange of the arguments. -/
def swapFilled (heap : Heap) (lst0 lst1 : Addr) : Heap :=
  let heap :=
    if isEmpty heap lst0 then
      let heap := heap.setNext lst0 (heap.next lst1)
      let heap := heap.setPrev lst0 (heap.prev lst1)
      init heap lst1
    else
      let next0 := heap.next lst0
      let heap := heap.setNext lst0 (heap.next lst1)
      let heap := heap.setNext lst1 next0
      let prev0 := heap.prev lst0
      let heap := heap.setPrev lst0 (heap.prev lst1)
      let heap := heap.setPrev lst1 prev0
      let heap := heap.setPrev (heap.next lst1) lst1
      heap.setNext (heap.prev lst1) lst1
  let heap := heap.setPrev (heap.next lst0) lst0
  heap.setNext (heap.prev lst0) lst0

def swap (heap : Heap) (lst0 lst1 : Addr) : Heap :=
  if isEmpty heap lst1 then
    if isEmpty heap lst0 then heap
    else swapFilled heap lst1 lst0
  else swapFilled heap lst0 lst1

/-- The loop of `cucon_list_validate`. `false` is a failed assertion. -/
def validateLoop (heap : Heap) (eol : Addr) : Nat → Addr → Addr → Option Bool
  | 0, _, _ => none
  | fuel + 1, prev, node =>
    if heap.prev node ≠ prev then some false
    else if node = eol then some true
    else validateLoop heap eol fuel node (heap.next node)

def validate (fuel : Nat) (heap : Heap) (list : Addr) : Option Bool :=
  validateLoop heap list fuel list (heap.next list)

def insertInit (heap : Heap) (pos node : Addr) : Heap :=
  let heap := heap.setNext node pos
  let heap := heap.setPrev node (heap.prev pos)
  let heap := heap.setNext (heap.prev node) node
  heap.setPrev pos node

/-- The two writes that take a node out of its list. -/
def unlink (heap : Heap) (node : Addr) : Heap :=
  let heap := heap.setPrev (heap.next node) (heap.prev node)
  heap.setNext (heap.prev node) (heap.next node)

def insertLive (heap : Heap) (pos node : Addr) : Heap :=
  let heap := unlink heap node
  let heap := heap.setNext node pos
  let heap := heap.setPrev node (heap.prev pos)
  let heap := heap.setNext (heap.prev node) node
  heap.setPrev pos node

/-- `cucon_list_insert_mem` with the allocated node. -/
def insertMem (heap : Heap) (pos node : Addr) : Heap :=
  let heap := heap.setNext node pos
  let heap := heap.setPrev node (heap.prev pos)
  let heap := heap.setPrev pos node
  heap.setNext (heap.prev node) node

/-- `cucon_list_insert_ptr` with the allocated node. -/
def insertPtr (heap : Heap) (pos node : Addr) (ptr : Word) : Heap :=
  (insertMem heap pos node).setPtr node ptr

def extract (heap : Heap) (node : Addr) : Heap :=
  let heap := unlink heap node
  let heap := heap.setNext node 0
  heap.setPrev node 0

def extractPtr (heap : Heap) (it : Addr) : Word × Heap := (heap.ptr it, unlink heap it)

def eraseNode (heap : Heap) (it : Addr) : Addr × Heap :=
  let heap := unlink heap it
  (heap.next it, heap)

/-- The loop of `cucon_list_erase_ptr`. -/
def erasePtrLoop (lst : Addr) (ptr : Word) : Nat → Heap → Addr → Option (Addr × Heap)
  | 0, _, _ => none
  | fuel + 1, heap, it =>
    if it = lst then some (it, heap)
    else if heap.ptr it = ptr then some (eraseNode heap it)
    else erasePtrLoop lst ptr fuel heap (heap.next it)

def erasePtr (fuel : Nat) (heap : Heap) (lst : Addr) (ptr : Word) : Option (Addr × Heap) :=
  erasePtrLoop lst ptr fuel heap (heap.next lst)

/-- The loop of `cucon_list_erase_all_ptr`. -/
def eraseAllPtrLoop (lst : Addr) (ptr : Word) : Nat → Heap → Nat → Addr → Option (Nat × Heap)
  | 0, _, _, _ => none
  | fuel + 1, heap, count, it =>
    if it = lst then some (count, heap)
    else if heap.ptr it = ptr then
      let erased := eraseNode heap it
      eraseAllPtrLoop lst ptr fuel erased.2 (count + 1) erased.1
    else eraseAllPtrLoop lst ptr fuel heap count (heap.next it)

def eraseAllPtr (fuel : Nat) (heap : Heap) (lst : Addr) (ptr : Word) : Option (Nat × Heap) :=
  eraseAllPtrLoop lst ptr fuel heap 0 (heap.next lst)

/-- `cucon_list_rotate`, where `none` is the failed assertion. -/
def rotate (heap : Heap) (list firstNode : Addr) : Option Heap :=
  if heap.next list = firstNode then some heap
  else if firstNode = list then none
  else
    let heap := heap.setNext (heap.prev list) (heap.next list)
    let heap := heap.setPrev (heap.next list) (heap.prev list)
    let heap := heap.setNext list firstNode
    let heap := heap.setPrev list (heap.prev firstNode)
    let heap := heap.setPrev firstNode list
    some (heap.setNext (heap.prev list) list)

/-- `cucon_list_rotate_forwards`. `cucon_list_rend` is the sentinel. -/
def rotateForwards (heap : Heap) (list : Addr) : Option Heap :=
  if isEmpty heap list then some heap else rotate heap list list

def rotateBackwards (heap : Heap) (list : Addr) : Option Heap :=
  if isEmptyOrSingleton heap list then some heap else rotate heap list (heap.next (heap.next list))

/-- The node where the lists meet, and the heap. The destructed list is cleared in
debug builds. -/
def appendListDct (heap : Heap) (lst dlst : Addr) : Addr × Heap :=
  let mid := heap.next dlst
  let heap := heap.setPrev mid (heap.prev lst)
  let heap := heap.setNext (heap.prev mid) mid
  let heap := heap.setPrev lst (heap.prev dlst)
  let heap := heap.setNext (heap.prev lst) lst
  let heap := heap.setNext dlst 0
  (mid, heap.setPrev dlst 0)

def prependListDct (heap : Heap) (lst dlst : Addr) : Addr × Heap :=
  let mid := heap.prev lst
  let heap := heap.setPrev mid (heap.prev dlst)
  let heap := heap.setNext (heap.prev mid) mid
  let heap := heap.setNext lst (heap.next dlst)
  let heap := heap.setPrev (heap.next lst) lst
  let heap := heap.setNext dlst 0
  (mid, heap.setPrev dlst 0)

/-- The nodes from one on, up to the sentinel. -/
def walk (step : Addr → Addr) (eol : Addr) : Nat → Addr → Option (List Addr)
  | 0, _ => none
  | fuel + 1, node =>
    if node = eol then some [] else (walk step eol fuel (step node)).map (node :: ·)

def forwards (fuel : Nat) (heap : Heap) (list : Addr) : Option (List Addr) :=
  walk heap.next list fuel (heap.next list)

def backwards (fuel : Nat) (heap : Heap) (list : Addr) : Option (List Addr) :=
  walk heap.prev list fuel (heap.prev list)

end Code

section Traversal

open Links

variable {links : Links Addr} {heap : Heap} {eol node : Addr} {xs nodes : List Addr} {fuel : Nat}

private theorem walk_chain (chain : Chain links (xs ++ [eol])) (absent : eol ∉ xs) (enough : xs.length < fuel) :
    walk links.next eol fuel (xs.headD eol) = some xs := by
  induction xs generalizing fuel with
  | nil =>
    obtain ⟨less, rfl⟩ : ∃ less, fuel = less + 1 := ⟨fuel - 1, by simp only [List.length_nil] at enough; omega⟩
    simp [walk]
  | cons x xs ih =>
    obtain ⟨less, rfl⟩ : ∃ less, fuel = less + 1 := ⟨fuel - 1, by omega⟩
    rw [List.mem_cons, not_or] at absent
    have rest : Chain links (xs ++ [eol]) := List.IsChain.tail chain
    have joined : links.Joined x (xs.headD eol) :=
      (Chain.append_iff.mp (show Chain links ([x] ++ (xs ++ [eol])) from chain)).2.2 x rfl _ (head?_concat xs eol)
    rw [List.headD_cons, walk, if_neg (Ne.symm absent.1), joined.1,
      ih rest absent.2 (by simpa using enough), Option.map_some]

/-- The same nodes in the other direction. -/
def flip (links : Links Addr) : Links Addr := { next := links.prev, prev := links.next }

private theorem ring_flip (ring : Ring links eol nodes) : Ring (flip links) eol nodes.reverse := by
  constructor
  · have reversed : (eol :: (nodes ++ [eol])).reverse = eol :: (nodes.reverse ++ [eol]) := by simp
    rw [Chain, ← reversed, List.isChain_reverse]
    exact List.IsChain.imp (fun a b joined => ⟨joined.2, joined.1⟩) ring.chain
  · rw [← List.nodup_reverse]
    simpa using (List.perm_append_singleton eol nodes).nodup_iff.mpr ring.distinct

/-- The forward traversal is the sequence of nodes and the backward traversal its reverse. -/
theorem ring_traversals (ring : Ring heap.links eol nodes) (enough : nodes.length < fuel) :
    forwards fuel heap eol = some nodes ∧ backwards fuel heap eol = some nodes.reverse := by
  have flipped := ring_flip ring
  have absent := (List.nodup_cons.mp ring.distinct).1
  constructor
  · rw [forwards, Heap.next, ring.next_eol]
    exact walk_chain (show Ring heap.links eol ([] ++ nodes) from ring).split.2.1 absent enough
  · rw [backwards, Heap.prev, show heap.links.prev eol = nodes.reverse.headD eol from flipped.next_eol]
    exact walk_chain (show Ring (flip heap.links) eol ([] ++ nodes.reverse) from flipped).split.2.1 (by simpa using absent)
      (by simpa using enough)

/-- A chain from the sentinel repeats no node: a repetition would have two predecessors. -/
theorem chain_nodup (chain : Chain links (eol :: xs)) (absent : eol ∉ xs) : (eol :: xs).Nodup := by
  induction xs using List.reverseRecOn with
  | nil => simp
  | append_singleton xs x ih =>
    rw [List.mem_append, List.mem_singleton, not_or] at absent
    rw [← List.cons_append, Chain.append_iff] at chain
    have distinct := ih chain.1 absent.1
    have joined := chain.2.2 _ (getLast?_cons eol xs) x rfl
    refine List.nodup_append.mpr ⟨distinct, by simp, fun a mem b isLast same => ?_⟩
    obtain rfl := List.mem_singleton.mp isLast
    subst same
    rcases List.mem_cons.mp mem with isSentinel | inside
    · exact absent.2 isSentinel.symm
    obtain ⟨before, after, rfl⟩ := List.append_of_mem inside
    have earlier := Chain.append_iff.mp (show Chain links (eol :: before ++ a :: after) from chain.1)
    have joinedBefore := earlier.2.2 _ (getLast?_cons eol before) a rfl
    have samePrevious : (before ++ a :: after).getLastD eol = before.getLastD eol :=
      joined.2.symm.trans joinedBefore.2
    have last : (before ++ a :: after).getLastD eol ∈ a :: after := by
      have : (before ++ a :: after).getLastD eol = after.getLastD a := by simp [List.getLast?_cons]
      rw [this]
      exact List.getLastD_mem_cons
    rw [samePrevious] at last
    exact (List.nodup_append.mp (show (eol :: before ++ a :: after).Nodup from distinct)).2.2 _
      List.getLastD_mem_cons _ last rfl

private theorem validateLoop_chain {prev : Addr} (next : heap.links.next prev = node)
    (valid : validateLoop heap eol fuel prev node = some true) :
    ∃ xs, Chain heap.links (prev :: (xs ++ [eol])) ∧ eol ∉ xs := by
  induction fuel generalizing prev node with
  | zero => simp [validateLoop] at valid
  | succ fuel ih =>
    unfold validateLoop at valid
    split at valid
    · cases valid
    next back =>
      rw [not_not] at back
      split at valid
      · next last =>
        subst last
        exact ⟨[], List.isChain_cons_cons.mpr ⟨⟨next, back⟩, .singleton node⟩, by simp⟩
      · next inner =>
        obtain ⟨xs, chain, absent⟩ := ih rfl valid
        refine ⟨node :: xs, List.isChain_cons_cons.mpr ⟨⟨next, back⟩, chain⟩, ?_⟩
        rw [List.mem_cons, not_or]
        exact ⟨Ne.symm inner, absent⟩

theorem chain_validateLoop {prev : Addr} (chain : Chain heap.links (prev :: (xs ++ [eol]))) (absent : eol ∉ xs)
    (enough : xs.length < fuel) : validateLoop heap eol fuel prev (xs.headD eol) = some true := by
  induction xs generalizing fuel prev with
  | nil =>
    obtain ⟨less, rfl⟩ : ∃ less, fuel = less + 1 := ⟨fuel - 1, by omega⟩
    have joined := (List.isChain_cons_cons.mp chain).1
    simp [validateLoop, Heap.prev, joined.2]
  | cons x xs ih =>
    obtain ⟨less, rfl⟩ : ∃ less, fuel = less + 1 := ⟨fuel - 1, by omega⟩
    rw [List.mem_cons, not_or] at absent
    obtain ⟨joined, rest⟩ := List.isChain_cons_cons.mp chain
    have following : heap.links.Joined x (xs.headD eol) :=
      (Chain.append_iff.mp (show Chain heap.links ([x] ++ (xs ++ [eol])) from rest)).2.2 x rfl _ (head?_concat xs eol)
    rw [List.headD_cons, validateLoop, if_neg (by rw [not_not]; exact joined.2), if_neg (Ne.symm absent.1), Heap.next,
      following.1]
    exact ih rest absent.2 (by simpa using enough)

theorem validate_iff : (∃ fuel, validate fuel heap eol = some true) ↔ ∃ nodes, Ring heap.links eol nodes := by
  constructor
  · rintro ⟨fuel, valid⟩
    obtain ⟨xs, chain, absent⟩ := validateLoop_chain rfl valid
    exact ⟨xs, chain, chain_nodup (Chain.append_iff.mp chain).1 absent⟩
  · rintro ⟨nodes, ring⟩
    refine ⟨nodes.length + 1, ?_⟩
    rw [validate, Heap.next, ring.next_eol]
    exact chain_validateLoop ring.chain (List.nodup_cons.mp ring.distinct).1 (Nat.lt_succ_self _)

/-- Rings whose sentinels are no nodes of each other have no node in common. -/
theorem rings_disjoint (ring : Ring links eol nodes)
    (ring' : Ring links eol' nodes') (outside : eol ∉ nodes') (outside' : eol' ∉ nodes)
    (mem : a ∈ eol :: nodes) (member' : a ∈ eol' :: nodes') : eol = eol' := by
  -- The predecessors of a common node are common, back to one of the sentinels.
  have back : ∀ before after, nodes = before ++ after → before.getLastD eol ∈ eol' :: nodes' → eol = eol' := by
    intro before
    induction before using List.reverseRecOn with
    | nil =>
      intro _ _ shared
      exact (List.mem_cons.mp shared).elim id fun inside => absurd inside outside
    | append_singleton before x ih =>
      intro after split shared
      rw [List.getLastD_concat] at shared
      have isNode : x ∈ nodes := by simp [split]
      rcases List.mem_cons.mp shared with rfl | inside
      · exact absurd isNode outside'
      obtain ⟨before', after', rfl⟩ := List.append_of_mem inside
      have earlier := (show Ring links eol (before ++ x :: after) by simpa [split] using ring).prev_node
      rw [ring'.prev_node] at earlier
      refine ih (x :: after) (by simpa using split) ?_
      rw [← earlier]
      exact List.mem_cons.mpr ((List.mem_cons.mp List.getLastD_mem_cons).imp_right (List.mem_append_left _))
  rcases List.mem_cons.mp mem with rfl | inside
  · exact back [] nodes rfl member'
  · obtain ⟨before, after, rfl⟩ := List.append_of_mem inside
    refine back (before ++ [a]) after (by simp) ?_
    rwa [List.getLastD_concat]

end Traversal

end Culibs.Cucon.LinkedList
