import Culibs.Cucon.LinkedList.Basic

namespace Culibs.Cucon.LinkedList

open Links Function List

variable {heap : Heap} {eol node pos lst dlst : Addr} {xs ys nodes : List Addr}

/-- Two heaps with the same links at a node. -/
def Same (heap heap' : Heap) (a : Addr) : Prop := heap'.next a = heap.next a ∧ heap'.prev a = heap.prev a

variable {a : Addr} {heap' : Heap}

theorem Same.trans (first : Same heap heap' a) (second : Same heap' heap'' a) :
    Same heap heap'' a :=
  ⟨second.1.trans first.1, second.2.trans first.2⟩

theorem ring_same (ring : Ring heap.links eol nodes)
    (same : ∀ a ∈ eol :: nodes, Same heap heap' a) : Ring heap'.links eol nodes :=
  ring.congr (fun a mem => (same a mem).1) fun a mem => (same a mem).2

private theorem same_setNext (other : a ≠ node) : Same heap (heap.setNext node target) a :=
  ⟨update_of_ne other .., rfl⟩

theorem same_of_link (linked : heap'.links = heap.links.link b c)
    (left : a ≠ b) (right : a ≠ c) : Same heap heap' a := by
  rw [Same, Heap.next, Heap.prev, linked]
  exact ⟨link_next_of_ne left, link_prev_of_ne right⟩

@[simp] theorem next_setPrev (a target : Addr) : (heap.setPrev a target).next node = heap.next node := rfl

@[simp] theorem prev_setNext (a target : Addr) : (heap.setNext a target).prev node = heap.prev node := rfl

theorem next_setNext (a target : Addr) :
    (heap.setNext a target).next node = if node = a then target else heap.next node :=
  update_apply ..

theorem prev_setPrev (a target : Addr) :
    (heap.setPrev a target).prev node = if node = a then target else heap.prev node :=
  update_apply ..

theorem last_mem (eol : Addr) (xs ys : List Addr) : xs.getLastD eol ∈ eol :: (xs ++ ys) :=
  mem_cons.mpr ((mem_cons.mp getLastD_mem_cons).imp_right (mem_append_left _))

theorem first_mem (eol : Addr) (xs ys : List Addr) : ys.headD eol ∈ eol :: (xs ++ ys) := by
  cases ys with
  | nil => exact .head _ ..
  | cons y ys => simp

theorem unlink_links (apart : heap.next node ≠ node) :
    (unlink heap node).links = heap.links.link (heap.prev node) (heap.next node) := by
  simp only [unlink, prev_setPrev, if_neg apart.symm, next_setPrev]
  rfl

theorem insertMem_links (apart : node ≠ pos) : (insertMem heap pos node).links =
    (heap.links.link node pos).link (heap.prev pos) node := by
  simp only [insertMem, prev_setPrev, prev_setNext, if_neg apart, if_true]
  simp only [Heap.setNext, Heap.setPrev, link]
  rw [update_comm apart]

theorem insertInit_links (apart : node ≠ pos) : (insertInit heap pos node).links =
    (heap.links.link node pos).link (heap.prev pos) node := by
  simp only [insertInit, prev_setPrev, prev_setNext, if_true]
  simp only [Heap.setNext, Heap.setPrev, link]
  rw [update_comm apart]

theorem insertLive_eq : insertLive heap pos node = insertInit (unlink heap node) pos node := rfl

theorem ring_unlink (ring : Ring heap.links eol (xs ++ node :: ys)) :
    Ring (unlink heap node).links eol (xs ++ ys) ∧ (unlink heap node).next node = ys.headD eol ∧
      ∀ a, a ∉ eol :: (xs ++ node :: ys) → Same heap (unlink heap node) a := by
  have next : heap.next node = ys.headD eol := ring.next_node
  have prev : heap.prev node = xs.getLastD eol := ring.prev_node
  have lastMember := last_mem eol xs (node :: ys)
  have firstMember : ys.headD eol ∈ eol :: (xs ++ node :: ys) := by
    simpa using first_mem eol (xs ++ [node]) ys
  have apart : heap.next node ≠ node := by
    rw [next]
    have distinct := ring.distinct
    rw [← cons_append, nodup_middle, nodup_cons] at distinct
    exact fun equal => distinct.1 (equal ▸ first_mem eol xs ys)
  have linked := unlink_links apart
  rw [next, prev] at linked
  have notLast : node ≠ xs.getLastD eol := by
    have distinct := ring.distinct
    rw [← cons_append, nodup_append] at distinct
    exact fun equal => distinct.2.2 _ getLastD_mem_cons node (by simp) equal.symm
  refine ⟨linked ▸ ring.remove, ?_, fun a outside => same_of_link linked ?_ ?_⟩
  · rw [Heap.next, linked, link_next_of_ne notLast]
    exact next
  · rintro rfl
    exact outside lastMember
  · rintro rfl
    exact outside firstMember

/-- Writing a new node between two nodes of a ring, in any order of the writes. -/
theorem ring_insert (ring : Ring heap.links eol (xs ++ ys)) (fresh : node ∉ eol :: (xs ++ ys))
    (isPos : pos = ys.headD eol) (linked : heap'.links = (heap.links.link node pos).link (heap.prev pos) node) :
    Ring heap'.links eol (xs ++ node :: ys) ∧
      ∀ a, a ∉ eol :: (xs ++ node :: ys) → Same heap heap' a := by
  have prev : heap.prev pos = xs.getLastD eol := by
    rw [isPos]
    exact ring.joined.2
  have lastMember := last_mem eol xs (node :: ys)
  have posMember : pos ∈ eol :: (xs ++ node :: ys) := by
    rw [isPos]
    cases ys <;> simp
  have nodeMember : node ∈ eol :: (xs ++ node :: ys) := by simp
  refine ⟨?_, fun a outside => ?_⟩
  · rw [linked, prev, isPos]
    exact ring.insert fresh
  · have ne {b : Addr} (mem : b ∈ eol :: (xs ++ node :: ys)) : a ≠ b := by
      rintro rfl
      exact outside mem
    rw [Same, Heap.next, Heap.prev, linked, prev]
    exact ⟨(link_next_of_ne (ne lastMember)).trans (link_next_of_ne (ne nodeMember)),
      (link_prev_of_ne (ne nodeMember)).trans (link_prev_of_ne (ne posMember))⟩

theorem ring_rotate (ring : Ring heap.links eol (x :: xs ++ y :: ys)) :
    ∃ heap', rotate heap eol y = some heap' ∧ heap'.ptr = heap.ptr ∧
      Ring heap'.links eol (y :: ys ++ x :: xs) ∧
      ∀ a, a ∉ eol :: (x :: xs ++ y :: ys) → Same heap heap' a := by
  have next : heap.next eol = x := ring.next_eol
  have prev : heap.prev eol = ys.getLastD y := by
    rw [Heap.prev, ring.prev_eol]
    simp [List.getLast?_append, List.getLast?_cons]
  have prevNode : heap.prev y = xs.getLastD x := by
    rw [Heap.prev, ring.prev_node]
    simp [List.getLast?_cons]
  have distinct := ring.distinct
  have lastMember : ys.getLastD y ∈ y :: ys := getLastD_mem_cons
  have lastMember' : xs.getLastD x ∈ x :: xs := getLastD_mem_cons
  obtain ⟨notSentinel, nodup⟩ := nodup_cons.mp distinct
  obtain ⟨_, _, disjoint⟩ := nodup_append.mp nodup
  rw [mem_append, not_or] at notSentinel
  have firstApart : x ≠ y := disjoint x (by simp) y (by simp)
  have sentinelFirst : eol ≠ x := fun same => notSentinel.1 (by simp [same])
  have sentinelSecond : eol ≠ y := fun same => notSentinel.2 (by simp [same])
  have sentinelLast : eol ≠ ys.getLastD y := fun same => notSentinel.2 (same ▸ lastMember)
  have rotated : ∃ heap', rotate heap eol y = some heap' ∧ heap'.ptr = heap.ptr ∧ heap'.links =
      ((heap.links.link (ys.getLastD y) x).link eol y).link (xs.getLastD x) eol := by
    rw [rotate, if_neg (by rw [next]; exact firstApart), if_neg sentinelSecond.symm]
    simp only [next, prev, next_setNext, prev_setPrev, prev_setNext, if_neg sentinelLast,
      if_neg sentinelFirst, if_neg sentinelSecond, if_neg firstApart.symm, prevNode, if_true]
    refine ⟨_, rfl, rfl, ?_⟩
    simp only [Heap.setNext, Heap.setPrev, link]
    rw [update_comm sentinelSecond]
  obtain ⟨heap', done, ptr, linked⟩ := rotated
  refine ⟨heap', done, ptr, linked ▸ ring.rotate, fun a outside => ?_⟩
  have ne {b : Addr} (mem : b ∈ eol :: (x :: xs ++ y :: ys)) : a ≠ b := by
    rintro rfl
    exact outside mem
  have inFirst : xs.getLastD x ∈ eol :: (x :: xs ++ y :: ys) :=
    .tail _ (mem_append_left _ lastMember')
  have inSecond : ys.getLastD y ∈ eol :: (x :: xs ++ y :: ys) :=
    .tail _ (mem_append_right _ lastMember)
  rw [Same, Heap.next, Heap.prev, linked]
  constructor
  · rw [link_next_of_ne (ne inFirst), link_next_of_ne (ne (mem_cons_self ..)),
      link_next_of_ne (ne inSecond)]
    rfl
  · rw [link_prev_of_ne (ne (mem_cons_self ..)), link_prev_of_ne (ne (by simp)),
      link_prev_of_ne (ne (by simp))]
    rfl

theorem same_clear (other : a ≠ dlst) : Same heap ((heap.setNext dlst 0).setPrev dlst 0) a :=
  (same_setNext other).trans (⟨rfl, update_of_ne other ..⟩)

section Destructive

variable (ring : Ring heap.links lst xs) (other : Ring heap.links dlst ys)
  (distinct : (lst :: xs ++ dlst :: ys).Nodup)
include ring other distinct

theorem ring_appendListDct : Ring (appendListDct heap lst dlst).2.links lst (xs ++ ys) ∧
    ∀ a, a ∉ lst :: xs → a ∉ dlst :: ys → Same heap (appendListDct heap lst dlst).2 a := by
  have first : heap.next dlst = ys.headD dlst := other.next_eol
  have last : heap.prev lst = xs.getLastD lst := ring.prev_eol
  have lastOther : heap.prev dlst = ys.getLastD dlst := other.prev_eol
  have together : (lst :: (xs ++ ys)).Nodup := distinct.sublist (by simp)
  have notInList : dlst ∉ lst :: (xs ++ ys) := by
    rw [nodup_middle, nodup_cons] at distinct
    exact distinct.1
  have tail : (if dlst = ys.headD dlst then xs.getLastD lst else ys.getLastD dlst) =
      ys.getLastD (xs.getLastD lst) := by
    cases ys with
    | nil => simp
    | cons y ys =>
      have ne : dlst ≠ y := fun same => notInList (by simp [same])
      simp [ne, List.getLast?_cons]
  have joined : Chain (heap.links.link (xs.getLastD lst) (ys.headD dlst)) (lst :: xs ++ ys) := by
    have chain := (show Ring heap.links lst (xs ++ []) by simpa using ring).split.1
    cases ys with
    | nil =>
      rw [append_nil]
      exact chain.link_last (getLast?_cons lst xs) ring.distinct (by simpa using notInList)
    | cons y ys =>
      exact chain.append_link (IsChain.left_of_append (IsChain.tail other.chain))
        (getLast?_cons lst xs) rfl together
  obtain ⟨heap', done, linked⟩ : ∃ heap' : Heap, (appendListDct heap lst dlst).2 =
      (heap'.setNext dlst 0).setPrev dlst 0 ∧ heap'.links =
      (heap.links.link (xs.getLastD lst) (ys.headD dlst)).link (ys.getLastD (xs.getLastD lst)) lst := by
    simp only [appendListDct, first, last, prev_setPrev, prev_setNext, if_true, lastOther, tail]
    exact ⟨_, rfl, rfl⟩
  rw [done]
  constructor
  · have closed := Ring.close (xs ++ ys) [] joined (.singleton lst) (by simpa using together)
    have lastOfAll : (xs ++ ys).getLastD lst = ys.getLastD (xs.getLastD lst) := by
      simp [getLast?_append]
    rw [lastOfAll, append_nil, headD_nil, ← linked] at closed
    exact ring_same closed fun a mem => same_clear fun same => notInList (same ▸ mem)
  intro a outside outsideOther
  have notLast : a ≠ ys.getLastD (xs.getLastD lst) := by
    have mem : ys.getLastD (xs.getLastD lst) ∈ xs.getLastD lst :: ys := getLastD_mem_cons
    rintro rfl
    rcases mem_cons.mp mem with same | inside
    · exact outside (by rw [same]; exact getLastD_mem_cons)
    · exact outsideOther (.tail _ inside)
  have notFirst : a ≠ ys.headD dlst := fun same => outsideOther (same ▸ first_mem dlst [] ys)
  have notSentinel : a ≠ lst := fun same => outside (by simp [same])
  have notEnd : a ≠ xs.getLastD lst := fun same => outside (same ▸ getLastD_mem_cons)
  have unlinked : Same heap heap' a := by
    rw [Same, Heap.next, Heap.prev, linked]
    exact ⟨(link_next_of_ne notLast).trans (link_next_of_ne notEnd),
      (link_prev_of_ne notSentinel).trans (link_prev_of_ne notFirst)⟩
  exact unlinked.trans (same_clear fun same => outsideOther (by simp [same]))

theorem ring_prependListDct : Ring (prependListDct heap lst dlst).2.links lst (ys ++ xs.getLast?.toList) ∧
    ∀ a, a ∉ lst :: xs → a ∉ dlst :: ys → Same heap (prependListDct heap lst dlst).2 a := by
  have first : heap.next dlst = ys.headD dlst := other.next_eol
  have last : heap.prev lst = xs.getLastD lst := ring.prev_eol
  have lastOther : heap.prev dlst = ys.getLastD dlst := other.prev_eol
  obtain ⟨front, kept, split, isKept, mid⟩ : ∃ front kept, xs = front ++ kept ∧
      xs.getLast?.toList = kept ∧ xs.getLastD lst = kept.headD lst := by
    rcases eq_nil_or_concat xs with rfl | ⟨front, x, rfl⟩
    · exact ⟨[], [], rfl, rfl, rfl⟩
    · exact ⟨front, [x], by simp, by simp, by simp⟩
  have sublist : (kept ++ [lst]).Sublist (xs ++ [lst]) := by
    rw [split, append_assoc]
    exact sublist_append_right ..
  have apart : ((xs ++ [lst]) ++ (dlst :: ys)).Nodup := by
    refine (Perm.append_right _ ?_).nodup_iff.mpr distinct
    exact perm_append_singleton lst xs
  have nodupKept : ((kept ++ [lst]) ++ (dlst :: ys)).Nodup :=
    apart.sublist (Sublist.append_right sublist _)
  have nodupOrder : (ys ++ (kept ++ [lst])).Nodup := by
    have moved : ((kept ++ [lst]) ++ ys).Nodup := nodupKept.sublist (by simp)
    exact perm_append_comm.nodup_iff.mp moved
  have together : (lst :: ([] ++ (ys ++ kept))).Nodup := by
    rw [← append_assoc] at nodupOrder
    exact (perm_append_singleton lst (ys ++ kept)).nodup_iff.mp nodupOrder
  have notInList : dlst ∉ lst :: (ys ++ kept) := by
    rw [nodup_middle, nodup_cons] at nodupKept
    intro mem
    refine nodupKept.1 ?_
    simp only [mem_cons, mem_append, not_mem_nil, or_false] at mem ⊢
    tauto
  rw [mid] at last
  have chain : Chain heap.links (kept ++ [lst]) := by
    rw [split] at ring
    exact ring.split.2.1
  have head : (if dlst = ys.getLastD dlst then kept.headD lst else ys.headD dlst) =
      (ys ++ kept).headD lst := by
    cases ys with
    | nil => simp
    | cons y ys =>
      have ne : dlst ≠ (y :: ys).getLastD dlst := by
        have inside : (y :: ys).getLastD dlst ∈ y :: ys := by
          rw [getLastD_cons]
          exact getLastD_mem_cons
        intro same
        rw [← same] at inside
        exact notInList (.tail _ (mem_append_left _ inside))
      rw [if_neg ne]
      rfl
  have joined : Chain (heap.links.link (ys.getLastD dlst) (kept.headD lst)) (ys ++ kept ++ [lst]) := by
    rw [append_assoc]
    cases ys with
    | nil =>
      refine chain.link_first (head?_concat kept lst) (by simpa using nodupOrder) ?_
      simpa [or_comm] using notInList
    | cons y ys =>
      have lastNode : (y :: ys).getLast? = some ((y :: ys).getLastD dlst) := by simp [List.getLast?_cons]
      exact Chain.append_link (IsChain.left_of_append (IsChain.tail other.chain)) chain lastNode
        (head?_concat kept lst) nodupOrder
  obtain ⟨heap', done, linked⟩ : ∃ heap' : Heap, (prependListDct heap lst dlst).2 =
      (heap'.setNext dlst 0).setPrev dlst 0 ∧ heap'.links =
      (heap.links.link (ys.getLastD dlst) (kept.headD lst)).link lst ((ys ++ kept).headD lst) := by
    simp only [prependListDct, first, last, prev_setPrev, next_setPrev, next_setNext, if_true, lastOther, head]
    exact ⟨_, rfl, rfl⟩
  rw [done, isKept]
  constructor
  · have closed := Ring.close [] (ys ++ kept) (.singleton lst) joined together
    rw [getLastD_nil, ← linked] at closed
    exact ring_same closed fun a mem => same_clear fun same => notInList (same ▸ mem)
  intro a outside outsideOther
  have notKept : a ∉ lst :: kept := fun mem => outside (by
    rw [split]
    simp only [mem_cons, mem_append] at mem ⊢
    tauto)
  have notLast : a ≠ ys.getLastD dlst := fun same => outsideOther (same ▸ getLastD_mem_cons)
  have notMid : a ≠ kept.headD lst := fun same => notKept (same ▸ first_mem lst [] kept)
  have notSentinel : a ≠ lst := fun same => outside (by simp [same])
  have notHead : a ≠ (ys ++ kept).headD lst := by
    intro same
    have mem := first_mem lst [] (ys ++ kept)
    rw [← same] at mem
    simp only [nil_append, mem_cons, mem_append] at mem notKept outsideOther
    tauto
  have unlinked : Same heap heap' a := by
    rw [Same, Heap.next, Heap.prev, linked]
    exact ⟨(link_next_of_ne notSentinel).trans (link_next_of_ne notLast),
      (link_prev_of_ne notHead).trans (link_prev_of_ne notMid)⟩
  exact unlinked.trans (same_clear fun same => outsideOther (by simp [same]))

end Destructive

section Swap

variable {lst0 lst1 y : Addr}

private theorem swapFilled_links (ring : Ring heap.links lst0 xs) (other : Ring heap.links lst1 (y :: ys))
    (distinct : (lst0 :: xs ++ lst1 :: y :: ys).Nodup) : (swapFilled heap lst0 lst1).links =
      ((((heap.links.link lst1 (xs.headD lst1)).link (xs.getLastD lst1) lst1).link lst0 y).link
        (ys.getLastD y) lst0) := by
  have next0 : heap.next lst0 = xs.headD lst0 := ring.next_eol
  have prev0 : heap.prev lst0 = xs.getLastD lst0 := ring.prev_eol
  have next1 : heap.next lst1 = y := other.next_eol
  have prev1 : heap.prev lst1 = ys.getLastD y := by
    rw [← getLastD_cons]
    exact other.prev_eol
  obtain ⟨_, _, apart⟩ := nodup_append.mp distinct
  have sentinels : lst0 ≠ lst1 := apart lst0 (by simp) lst1 (by simp)
  have first : lst0 ≠ y := apart lst0 (by simp) y (by simp)
  cases xs with
  | nil =>
    have empty : isEmpty heap lst0 = true := by simp [isEmpty, next0]
    simp only [swapFilled, if_pos empty, init, next1, next_setNext, prev_setPrev, prev_setNext, next_setPrev,
      prev1, if_neg sentinels, if_neg sentinels.symm, if_neg first, if_true]
    simp only [Heap.setNext, Heap.setPrev, link, headD_nil, getLastD_nil, update_idem]
    congr 1
    · rw [update_comm sentinels]
    · rw [update_comm sentinels, update_comm first]
  | cons x xs =>
    have inside : x ∈ lst0 :: x :: xs := by simp
    have full : ¬ isEmpty heap lst0 = true := by
      have notSentinel : x ≠ lst0 := fun same => (nodup_cons.mp ring.distinct).1 (by simp [same])
      simpa [isEmpty, next0] using notSentinel
    rw [getLastD_cons] at prev0
    rw [headD_cons] at next0
    have a2 : x ≠ lst1 := apart x inside lst1 (by simp)
    have a3 : lst0 ≠ x := fun same => (nodup_cons.mp ring.distinct).1 (by simp [same])
    have a4 : lst0 ≠ xs.getLastD x := fun same =>
      (nodup_cons.mp ring.distinct).1 (by rw [same]; exact getLastD_mem_cons)
    simp only [swapFilled, if_neg full, next1, next0, prev0, next_setNext, prev_setPrev, prev_setNext, next_setPrev,
      prev1, if_neg sentinels, if_neg sentinels.symm, if_true, if_neg a3, if_neg a4, if_neg a2.symm, if_neg first]
    simp only [Heap.setNext, Heap.setPrev, link, headD_cons, getLastD_cons]
    congr 1
    · rw [update_comm sentinels, update_comm a4]
    · rw [update_comm sentinels, update_comm a3, update_comm first, update_comm a2.symm]

theorem ring_swapFilled (ring : Ring heap.links lst0 xs) (other : Ring heap.links lst1 (y :: ys))
    (distinct : (lst0 :: xs ++ lst1 :: y :: ys).Nodup) :
    Ring (swapFilled heap lst0 lst1).links lst0 (y :: ys) ∧ Ring (swapFilled heap lst0 lst1).links lst1 xs ∧
      ∀ a, a ∉ lst0 :: xs → a ∉ lst1 :: y :: ys → Same heap (swapFilled heap lst0 lst1) a := by
  have linked := swapFilled_links ring other distinct
  obtain ⟨_, _, apart⟩ := nodup_append.mp distinct
  have distinct0 : (lst0 :: ([] ++ y :: ys)).Nodup := distinct.sublist (by simp)
  have distinct1 : (lst1 :: xs).Nodup := by
    rw [nodup_middle] at distinct
    exact distinct.sublist (by simp)
  have lastMember : ys.getLastD y ∈ y :: ys := getLastD_mem_cons
  have far {a : Addr} (mem : a ∈ lst0 :: y :: ys) : a ∉ lst1 :: xs := by
    rw [mem_cons, not_or]
    rcases mem_cons.mp mem with rfl | inside
    · exact ⟨apart a (by simp) lst1 (by simp), (nodup_cons.mp ring.distinct).1⟩
    · exact ⟨fun same => (nodup_cons.mp other.distinct).1 (same ▸ inside),
        fun shared => apart a (by simp [shared]) a (.tail _ inside) rfl⟩
  have ring1 : Ring ((heap.links.link lst1 (xs.headD lst1)).link (xs.getLastD lst1) lst1) lst1 xs := by
    cases xs with
    | nil =>
      have closed : Ring (heap.links.link lst1 lst1) lst1 [] :=
        Ring.close [] [] (.singleton lst1) (.singleton lst1) (by simp)
      simpa [link] using closed
    | cons x xs =>
      rw [getLastD_cons]
      exact Ring.splice [] (.singleton lst1)
        (IsChain.left_of_append (IsChain.tail ring.chain)) distinct1
  have nearFirst : xs.headD lst1 ∈ lst1 :: xs := by simpa using first_mem lst1 [] xs
  have nearLast : xs.getLastD lst1 ∈ lst1 :: xs := getLastD_mem_cons
  have notMoved {a : Addr} (mem : a ∈ lst1 :: xs) : a ∉ y :: ys := fun inside =>
    far (.tail _ inside) mem
  have chain : Chain ((heap.links.link lst1 (xs.headD lst1)).link (xs.getLastD lst1) lst1) (y :: ys) :=
    ((Chain.link_outside (IsChain.left_of_append (IsChain.tail other.chain))
      (notMoved (mem_cons_self ..)) (notMoved nearFirst)).link_outside (notMoved nearLast)
        (notMoved (mem_cons_self ..)))
  have notLst0 : lst0 ∉ lst1 :: xs := far (mem_cons_self ..)
  refine ⟨?_, ?_, fun a outside outsideOther => ?_⟩
  · rw [linked]
    exact Ring.splice [] (.singleton lst0) chain distinct0
  · rw [linked]
    exact (ring1.link_outside notLst0 (far (by simp))).link_outside (far (.tail _ lastMember))
      notLst0
  have notNear {b : Addr} (mem : b ∈ lst1 :: xs) : a ≠ b := by
    rintro rfl
    rcases mem_cons.mp mem with rfl | inside
    · exact outsideOther (mem_cons_self ..)
    · exact outside (.tail _ inside)
  have notFar {b : Addr} (mem : b ∈ lst0 :: y :: ys) : a ≠ b := by
    rintro rfl
    rcases mem_cons.mp mem with rfl | inside
    · exact outside (mem_cons_self ..)
    · exact outsideOther (.tail _ inside)
  rw [Same, Heap.next, Heap.prev, linked]
  constructor
  · rw [link_next_of_ne (notFar (.tail _ lastMember)), link_next_of_ne (notFar (by simp)),
      link_next_of_ne (notNear nearLast), link_next_of_ne (notNear (by simp))]
    rfl
  · rw [link_prev_of_ne (notFar (by simp)), link_prev_of_ne (notFar (by simp)),
      link_prev_of_ne (notNear (by simp)), link_prev_of_ne (notNear nearFirst)]
    rfl

end Swap

end Culibs.Cucon.LinkedList
