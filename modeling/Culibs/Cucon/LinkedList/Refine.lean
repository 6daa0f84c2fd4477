import Culibs.Cucon.LinkedList.Splice

namespace Culibs.Cucon.LinkedList

open Function Option

section Sequence

open Links List

/-- The sequences of the lists in use, by their sentinels, and the values of the nodes. -/
structure Lists where
  contents : Addr → Option (List Addr)
  ptr : Addr → Word

namespace Lists

variable (lists : Lists)

/-- A node or the sentinel of a list. -/
def Owns (eol a : Addr) : Prop := ∃ nodes, lists.contents eol = some nodes ∧ a ∈ eol :: nodes

def Free (a : Addr) : Prop := ∀ eol, ¬ lists.Owns eol a

/-- Replaces the sequence of a list, or gives up the list. -/
def set (list : Addr) (nodes : Option (List Addr)) : Lists :=
  { lists with contents := update lists.contents list nodes }

/-- Changes the sequence of a list. -/
def edit (list : Addr) (change : List Addr → List Addr) : Lists :=
  lists.set list ((lists.contents list).map change)

end Lists

/-- The lists that a heap holds. -/
structure Represents (heap : Heap) (lists : Lists) : Prop where
  ring : ∀ {eol nodes}, lists.contents eol = some nodes → Ring heap.links eol nodes
  unique : ∀ {a eol eol'}, lists.Owns eol a → lists.Owns eol' a → eol = eol'
  ptr : heap.ptr = lists.ptr

variable {heap heap' : Heap} {lists : Lists} {lst dlst node pos a eol : Addr} {nodes nodes' xs ys : List Addr}


theorem owns_set {sequence : Option (List Addr)} : (lists.set list sequence).Owns eol a ↔
    if eol = list then ∃ nodes, sequence = some nodes ∧ a ∈ eol :: nodes else lists.Owns eol a := by
  unfold Lists.Owns Lists.set
  split
  · next same => simp [same]
  · next ne => simp [update_of_ne ne]

section

variable (rep : Represents heap lists)

include rep

theorem Represents.elsewhere (held : lists.contents lst = some nodes) (ne : eol ≠ lst)
    (owned : lists.Owns eol a) : a ∉ lst :: nodes :=
  fun mem => ne (rep.unique owned ⟨nodes, held, mem⟩)

theorem Represents.drop (list : Addr) : Represents heap (lists.set list none) := by
  refine ⟨fun {eol nodes} held => ?_, fun {a eol eol'} owned owned' => ?_, rep.ptr⟩
  · by_cases same : eol = list
    · simp [Lists.set, same] at held
    · exact rep.ring (by simpa [Lists.set, update_of_ne same] using held)
  · rw [owns_set] at owned owned'
    split at owned
    · simp at owned
    split at owned'
    · simp at owned'
    exact rep.unique owned owned'

theorem Represents.free_of_drop (held : lists.contents lst = some nodes) (mem : a ∈ lst :: nodes) :
    (lists.set lst none).Free a := by
  intro eol owned
  rw [owns_set] at owned
  split at owned
  · simp at owned
  · next ne => exact rep.elsewhere held ne owned mem

theorem Represents.change (ring : Ring heap'.links lst nodes')
    (kept : ∀ eol a, eol ≠ lst → lists.Owns eol a → Same heap heap' a)
    (taken : ∀ a ∈ lst :: nodes', lists.Owns lst a ∨ lists.Free a) (ptr : heap'.ptr = lists.ptr) :
    Represents heap' (lists.set lst (some nodes')) := by
  have alone {eol a : Addr} (ne : eol ≠ lst) (owned : lists.Owns eol a) : a ∉ lst :: nodes' := by
    intro mem
    rcases taken a mem with mine | free
    · exact ne (rep.unique owned mine)
    · exact free eol owned
  refine ⟨fun {eol nodes} held => ?_, fun {a eol eol'} owned owned' => ?_, ptr⟩
  · by_cases same : eol = lst
    · subst same
      obtain rfl : nodes' = nodes := by simpa [Lists.set] using held
      exact ring
    · have before : lists.contents eol = some nodes := by
        simpa [Lists.set, update_of_ne same] using held
      exact ring_same (rep.ring before) fun a mem => kept eol a same ⟨nodes, before, mem⟩
  · have mine {b : Addr} (owned : (lists.set lst (some nodes')).Owns lst b) : b ∈ lst :: nodes' := by
      rw [owns_set, if_pos rfl] at owned
      obtain ⟨sequence, held, mem⟩ := owned
      cases held
      exact mem
    have other {b eol : Addr} (ne : eol ≠ lst) (owned : (lists.set lst (some nodes')).Owns eol b) :
        lists.Owns eol b := by
      rwa [owns_set, if_neg ne] at owned
    by_cases same : eol = lst
    · subst same
      by_cases same' : eol' = eol
      · exact same'.symm
      · exact absurd (mine owned) (alone same' (other same' owned'))
    · by_cases same' : eol' = lst
      · subst same'
        exact absurd (mine owned') (alone same (other same owned))
      · exact rep.unique (other same owned) (other same' owned')

theorem Represents.rearrange (held : lists.contents lst = some nodes) (ring : Ring heap'.links lst nodes')
    (kept : ∀ a, a ∉ lst :: nodes → Same heap heap' a) (subset : nodes' ⊆ nodes) (ptr : heap'.ptr = heap.ptr) :
    Represents heap' (lists.set lst (some nodes')) := by
  refine rep.change ring (fun eol a ne owned => kept a (rep.elsewhere held ne owned))
    (fun a mem => .inl ⟨nodes, held, ?_⟩) (ptr.trans rep.ptr)
  exact mem_cons.mpr ((mem_cons.mp mem).imp_right fun inside => subset inside)

end

end Sequence

section Refine

open Links

/-- Where a node goes: before a node or a sentinel, or to an end of a list. -/
inductive Place where
  | before (pos : Addr)
  | front (list : Addr)
  | back (list : Addr)
deriving DecidableEq

/-- The position that `prepend` and `append` pass to `insert`. -/
def Place.pos (heap : Heap) : Place → Addr
  | before pos => pos
  | front list => heap.next list
  | back list => list

/-- A node before another one, or last. -/
def insertBefore (pos node : Addr) : List Addr → List Addr
  | [] => [node]
  | next :: rest => if next = pos then node :: next :: rest else next :: insertBefore pos node rest

open List

namespace Lists

def insert (lists : Lists) (node : Addr) : Place → Lists
  | .before pos => { lists with contents := fun eol => (lists.contents eol).map fun nodes =>
      if pos ∈ eol :: nodes then insertBefore pos node nodes else nodes }
  | .front list => lists.edit list (node :: ·)
  | .back list => lists.edit list (· ++ [node])

def remove (lists : Lists) (node : Addr) : Lists :=
  { lists with contents := fun eol => (lists.contents eol).map (·.erase node) }

end Lists

/-- The place is in a list in use. -/
def Place.Legal (lists : Lists) : Place → Prop
  | before pos => ∃ eol, lists.Owns eol pos
  | front list => lists.contents list ≠ none
  | back list => lists.contents list ≠ none

/-- A node of a list in use, not a sentinel. -/
def IsNode (lists : Lists) (node : Addr) : Prop := ∃ eol nodes, lists.contents eol = some nodes ∧ node ∈ nodes

/-- The node or the sentinel at a place. -/
def Place.target (lists : Lists) : Place → Addr
  | before pos => pos
  | front list => ((lists.contents list).getD []).headD list
  | back list => list

variable {heap heap' : Heap} {lists : Lists} {lst dlst node pos a eol : Addr} {nodes xs ys : List Addr}
  {place : Place}

private theorem insertBefore_split (absent : pos ∉ xs) :
    insertBefore pos node (xs ++ pos :: ys) = xs ++ node :: pos :: ys := by
  induction xs with
  | nil => simp [insertBefore]
  | cons x xs ih =>
    rw [List.mem_cons, not_or] at absent
    rw [List.cons_append, insertBefore, if_neg (Ne.symm absent.1), ih absent.2, List.cons_append]

private theorem insertBefore_absent (absent : pos ∉ xs) : insertBefore pos node xs = xs ++ [node] := by
  induction xs with
  | nil => rfl
  | cons x xs ih =>
    rw [List.mem_cons, not_or] at absent
    rw [insertBefore, if_neg (Ne.symm absent.1), ih absent.2, List.cons_append]

theorem edit_eq (held : lists.contents lst = some nodes) (change : List Addr → List Addr) :
    lists.edit lst change = lists.set lst (some (change nodes)) := by
  rw [Lists.edit, held, map_some]

section

variable (rep : Represents heap lists)

include rep

theorem place_split (legal : place.Legal lists) :
    ∃ lst xs ys, lists.contents lst = some (xs ++ ys) ∧ place.pos heap = ys.headD lst ∧
      place.target lists = ys.headD lst ∧
      ∀ node, lists.insert node place = lists.set lst (some (xs ++ node :: ys)) := by
  cases place with
  | before pos =>
    obtain ⟨lst, nodes, held, mem⟩ := legal
    have ring := rep.ring held
    have elsewhere {eol : Addr} {others : List Addr} (ne : eol ≠ lst)
        (other : lists.contents eol = some others) : pos ∉ eol :: others := fun shared =>
      ne (rep.unique ⟨others, other, shared⟩ ⟨nodes, held, mem⟩)
    have inserted (node : Addr) : lists.insert node (.before pos) =
        lists.set lst (some (insertBefore pos node nodes)) := by
      simp only [Lists.insert, Lists.set]
      congr 1
      funext eol
      by_cases same : eol = lst
      · subst same
        rw [update_self, held, map_some, if_pos mem]
      · rw [update_of_ne same]
        cases other : lists.contents eol with
        | none => rfl
        | some others => rw [map_some, if_neg (elsewhere same other)]
    rcases mem_cons.mp mem with rfl | inside
    · refine ⟨pos, nodes, [], by simpa using held, rfl, rfl, fun node => ?_⟩
      rw [inserted, insertBefore_absent (nodup_cons.mp ring.distinct).1]
    · obtain ⟨xs, ys, rfl⟩ := append_of_mem inside
      have distinct := (nodup_cons.mp ring.distinct).2
      rw [nodup_middle, nodup_cons, mem_append, not_or] at distinct
      refine ⟨lst, xs, pos :: ys, held, rfl, rfl, fun node => ?_⟩
      rw [inserted, insertBefore_split distinct.1.1]
  | front list =>
    obtain ⟨nodes, held⟩ := ne_none_iff_exists'.mp legal
    refine ⟨list, [], nodes, held, (rep.ring held).next_eol, by simp [Place.target, held], fun node => ?_⟩
    exact edit_eq held _
  | back list =>
    obtain ⟨nodes, held⟩ := ne_none_iff_exists'.mp legal
    refine ⟨list, nodes, [], by simpa using held, rfl, rfl, fun node => ?_⟩
    exact edit_eq held _

theorem insert_represents (legal : place.Legal lists) (free : lists.Free node) (ptr : heap'.ptr = heap.ptr)
    (linked : node ≠ place.pos heap →
      heap'.links = (heap.links.link node (place.pos heap)).link (heap.prev (place.pos heap)) node) :
    Represents heap' (lists.insert node place) := by
  obtain ⟨lst, xs, ys, held, isPos, _, inserted⟩ := place_split rep legal
  have fresh : node ∉ lst :: (xs ++ ys) := fun mem => free lst ⟨_, held, mem⟩
  have apart : node ≠ place.pos heap := fun same => fresh (by rw [same, isPos]; exact first_mem lst xs ys)
  obtain ⟨ring, same⟩ := ring_insert (rep.ring held) fresh isPos (linked apart)
  rw [inserted]
  refine rep.change ring (fun eol a ne owned => same a ?_) (fun a mem => ?_)
    (ptr.trans rep.ptr)
  · have outside := rep.elsewhere held ne owned
    have notNode : a ≠ node := fun same => free eol (same ▸ owned)
    simp only [mem_cons, mem_append, not_or] at outside ⊢
    exact ⟨outside.1, outside.2.1, notNode, outside.2.2⟩
  · by_cases isNode : a = node
    · exact .inr (isNode ▸ free)
    · refine .inl ⟨xs ++ ys, held, ?_⟩
      simp only [mem_cons, mem_append] at mem ⊢
      tauto

private theorem remove_split (isNode : IsNode lists node) :
    ∃ lst xs ys, lists.contents lst = some (xs ++ node :: ys) ∧
      lists.remove node = lists.set lst (some (xs ++ ys)) := by
  obtain ⟨lst, nodes, held, mem⟩ := isNode
  obtain ⟨xs, ys, rfl⟩ := append_of_mem mem
  have distinct := (nodup_cons.mp (rep.ring held).distinct).2
  rw [nodup_middle, nodup_cons, mem_append, not_or] at distinct
  refine ⟨lst, xs, ys, held, ?_⟩
  unfold Lists.remove Lists.set
  congr 1
  funext eol
  by_cases same : eol = lst
  · subst same
    rw [update_self, held, map_some, erase_append_right _ distinct.1.1, erase_cons_head]
  · rw [update_of_ne same]
    cases other : lists.contents eol with
    | none => rfl
    | some others =>
      have absent : node ∉ others := fun shared => same (rep.unique
        ⟨others, other, .tail _ shared⟩ ⟨_, held, .tail _ mem⟩)
      rw [map_some, erase_of_not_mem absent]

theorem unlink_represents (isNode : IsNode lists node) :
    Represents (unlink heap node) (lists.remove node) ∧ (lists.remove node).Free node := by
  obtain ⟨lst, xs, ys, held, removed⟩ := remove_split rep isNode
  obtain ⟨ring, _, same⟩ := ring_unlink (rep.ring held)
  have distinct := (rep.ring held).distinct
  rw [← cons_append, nodup_middle, nodup_cons] at distinct
  rw [removed]
  refine ⟨rep.rearrange held ring same (fun a mem => ?_) rfl, fun eol owned => ?_⟩
  · simp only [mem_append, mem_cons] at mem ⊢
    tauto
  rw [owns_set] at owned
  split at owned
  · next isList =>
    obtain ⟨sequence, rfl, mem⟩ : ∃ sequence, xs ++ ys = sequence ∧ node ∈ eol :: sequence := by
      simpa using owned
    rw [isList] at mem
    exact distinct.1 mem
  · next ne => exact rep.elsewhere held ne owned (by simp)

theorem Represents.write_free (free : lists.Free a) (same : ∀ b, b ≠ a → Same heap heap' b)
    (ptr : heap'.ptr = heap.ptr) : Represents heap' lists := by
  refine ⟨fun {eol nodes} held => ring_same (rep.ring held) fun b mem => same b ?_,
    rep.unique, ptr.trans rep.ptr⟩
  rintro rfl
  exact free eol ⟨nodes, held, mem⟩

theorem init_represents (free : lists.Free lst) : Represents (init heap lst) (lists.set lst (some [])) := by
  have linked : (init heap lst).links = heap.links.link lst lst := rfl
  have ring : Ring (init heap lst).links lst [] :=
    Ring.close [] [] (.singleton lst) (.singleton lst) (by simp)
  refine rep.change ring (fun eol a _ owned => ?_) (fun a mem => ?_) rep.ptr
  · have other : a ≠ lst := fun same => free eol (same ▸ owned)
    exact same_of_link linked other other
  · obtain rfl := mem_singleton.mp mem
    exact .inr free

theorem extract_represents (isNode : IsNode lists node) :
    Represents (extract heap node) (lists.remove node) := by
  obtain ⟨unlinked, free⟩ := unlink_represents rep isNode
  exact unlinked.write_free free (fun b other => same_clear other) rfl

end

private theorem target_remove (legal : place.Legal lists)
    (other : place.target lists ≠ node) :
    place.Legal (lists.remove node) ∧ place.target (lists.remove node) = place.target lists := by
  cases place with
  | before pos =>
    obtain ⟨eol, nodes, held, mem⟩ := legal
    refine ⟨⟨eol, nodes.erase node, by simp [Lists.remove, held], ?_⟩, rfl⟩
    rcases mem_cons.mp mem with same | inside
    · simp [same]
    · exact .tail _ ((mem_erase_of_ne other).mpr inside)
  | front list =>
    obtain ⟨nodes, held⟩ := ne_none_iff_exists'.mp legal
    refine ⟨by simp [Place.Legal, Lists.remove, held], ?_⟩
    simp only [Place.target, Lists.remove, held, map_some, getD_some] at other ⊢
    cases nodes with
    | nil => rfl
    | cons n rest => rw [erase_cons_tail (by simpa using other), headD_cons, headD_cons]
  | back list =>
    obtain ⟨nodes, held⟩ := ne_none_iff_exists'.mp legal
    exact ⟨by simp [Place.Legal, Lists.remove, held], rfl⟩

theorem insertLive_represents (rep : Represents heap lists) (legal : place.Legal lists)
    (isNode : IsNode lists node) (other : place.target lists ≠ node) :
    Represents (insertLive heap (place.pos heap) node) ((lists.remove node).insert node place) := by
  obtain ⟨unlinked, free⟩ := unlink_represents rep isNode
  obtain ⟨legal', sameTarget⟩ := target_remove legal other
  obtain ⟨_, _, _, _, pos, target, _⟩ := place_split rep legal
  obtain ⟨_, _, _, _, pos', target', _⟩ := place_split unlinked legal'
  have samePos : place.pos (unlink heap node) = place.pos heap := by
    rw [pos', ← target', sameTarget, target, pos]
  rw [← samePos]
  exact insert_represents unlinked legal' free rfl insertInit_links

theorem dropWhile_split (absent : first ∉ xs) :
    (xs ++ first :: ys).dropWhile (· != first) = first :: ys ∧
      (xs ++ first :: ys).takeWhile (· != first) = xs := by
  have others : ∀ x ∈ xs, (x != first) = true := by
    intro x mem
    rw [bne_iff_ne]
    rintro rfl
    exact absent mem
  constructor
  · rw [dropWhile_append_of_pos others, dropWhile_cons_of_neg (by simp)]
  · rw [takeWhile_append_of_pos others, takeWhile_cons_of_neg (by simp), append_nil]

section

variable (rep : Represents heap lists)

include rep

theorem Represents.set_same (held : lists.contents lst = some nodes) :
    Represents heap (lists.set lst (some nodes)) :=
  rep.rearrange held (rep.ring held) (fun _ _ => ⟨rfl, rfl⟩) (Subset.refl _) rfl

theorem rotate_represents (held : lists.contents lst = some (xs ++ first :: ys)) :
    ∃ heap', rotate heap lst first = some heap' ∧ Represents heap' (lists.set lst (some (first :: ys ++ xs))) := by
  have ring := rep.ring held
  cases xs with
  | nil =>
    have isFirst : heap.next lst = first := ring.next_eol
    refine ⟨heap, by rw [rotate, if_pos isFirst], ?_⟩
    simpa using rep.set_same held
  | cons x xs =>
    obtain ⟨heap', done, ptr, rotated, same⟩ := ring_rotate ring
    refine ⟨heap', done, rep.rearrange held rotated same (fun a mem => ?_) ptr⟩
    simp only [cons_append, mem_cons, mem_append] at mem ⊢
    tauto

theorem rotateBackwards_represents (held : lists.contents lst = some nodes) :
    ∃ heap', rotateBackwards heap lst = some heap' ∧
      Represents heap' (lists.set lst (some (nodes.drop 1 ++ nodes.take 1))) := by
  have ring := rep.ring held
  have next : heap.next lst = nodes.headD lst := ring.next_eol
  have prev : heap.prev lst = nodes.getLastD lst := ring.prev_eol
  unfold rotateBackwards isEmptyOrSingleton
  rw [next, prev]
  match nodes, held, ring with
  | [], held, _ => exact ⟨heap, by simp, rep.set_same held⟩
  | [x], held, _ => exact ⟨heap, by simp, rep.set_same held⟩
  | x :: y :: ys, held, ring =>
    have second : heap.next x = y := (show Ring heap.links lst ([] ++ x :: y :: ys) from ring).next_node
    have ne : x ≠ (x :: y :: ys).getLastD lst := by
      have distinct := (nodup_cons.mp (nodup_cons.mp ring.distinct).2).1
      rw [getLastD_cons, getLastD_cons]
      exact fun same => distinct (by rw [same]; exact getLastD_mem_cons)
    obtain ⟨heap', done, rotated⟩ := rotate_represents rep (show lists.contents lst = some ([x] ++ y :: ys) from held)
    refine ⟨heap', ?_, rotated⟩
    rw [headD_cons, second, if_neg (by simpa using ne)]
    exact done

section

variable (held : lists.contents lst = some xs) (other : lists.contents dlst = some ys) (ne : lst ≠ dlst)

include held other ne

theorem Represents.apart : (lst :: xs ++ dlst :: ys).Nodup := by
  refine nodup_append.mpr ⟨(rep.ring held).distinct, (rep.ring other).distinct, ?_⟩
  rintro a mem b member' rfl
  exact ne (rep.unique ⟨xs, held, mem⟩ ⟨ys, other, member'⟩)

theorem Represents.absorb (ring : Ring heap'.links lst nodes) (subset : ∀ a ∈ nodes, a ∈ xs ∨ a ∈ ys)
    (same : ∀ a, a ∉ lst :: xs → a ∉ dlst :: ys → Same heap heap' a) (ptr : heap'.ptr = heap.ptr) :
    Represents heap' ((lists.set dlst none).set lst (some nodes)) := by
  have heldDropped : (lists.set dlst none).contents lst = some xs := by
    simp only [Lists.set, update_of_ne ne]
    exact held
  refine (rep.drop dlst).change ring (fun eol a notList owned => ?_) (fun a mem => ?_)
    (ptr.trans rep.ptr)
  · refine same a ((rep.drop dlst).elsewhere heldDropped notList owned) fun shared => ?_
    exact rep.free_of_drop other shared eol owned
  · rcases mem_cons.mp mem with rfl | inside
    · exact .inl ⟨xs, heldDropped, .head _ ..⟩
    · rcases subset a inside with mine | theirs
      · exact .inl ⟨xs, heldDropped, .tail _ mine⟩
      · exact .inr (rep.free_of_drop other (.tail _ theirs))

theorem appendListDct_represents :
    Represents (appendListDct heap lst dlst).2 ((lists.set dlst none).set lst (some (xs ++ ys))) := by
  obtain ⟨ring, same⟩ := ring_appendListDct (rep.ring held) (rep.ring other)
    (rep.apart held other ne)
  exact rep.absorb held other ne ring (fun a => mem_append.mp) same rfl

theorem prependListDct_represents :
    Represents (prependListDct heap lst dlst).2
      ((lists.set dlst none).set lst (some (ys ++ xs.getLast?.toList))) := by
  obtain ⟨ring, same⟩ := ring_prependListDct (rep.ring held) (rep.ring other)
    (rep.apart held other ne)
  refine rep.absorb held other ne ring (fun a mem => ?_) same rfl
  rcases mem_append.mp mem with theirs | last
  · exact .inr theirs
  · exact .inl (mem_of_getLast? (by simpa using last))

end

end

theorem set_comm (ne : lst ≠ dlst) :
    (lists.set lst s).set dlst t = (lists.set dlst t).set lst s := by
  simp only [Lists.set]
  rw [update_comm ne]

theorem swapFilled_represents {y : Addr} (rep : Represents heap lists)
    (held : lists.contents lst = some xs) (other : lists.contents dlst = some (y :: ys))
    (ne : lst ≠ dlst) :
    Represents (swapFilled heap lst dlst) ((lists.set lst (some (y :: ys))).set dlst (some xs)) := by
  obtain ⟨ring0, ring1, same⟩ := ring_swapFilled (rep.ring held) (rep.ring other)
    (rep.apart held other ne)
  have ptr : (swapFilled heap lst dlst).ptr = heap.ptr := by
    unfold swapFilled
    by_cases empty : isEmpty heap lst = true <;> simp only [empty] <;> rfl
  -- The lists are given up one after the other and taken up again.
  have first := rep.absorb held other ne ring0 (fun a => .inr) same ptr
  have restored : ((lists.set dlst none).set lst (some (y :: ys))).set dlst (some xs) =
      (lists.set lst (some (y :: ys))).set dlst (some xs) := by
    rw [set_comm ne.symm]
    simp only [Lists.set, update_idem]
  rw [← restored]
  refine first.change ring1 (fun eol a _ _ => ⟨rfl, rfl⟩) (fun a mem => .inr fun eol owned => ?_) first.ptr
  have mine : a = dlst ∨ a ∈ xs := mem_cons.mp mem
  rw [owns_set] at owned
  split at owned
  · next isList =>
    obtain ⟨sequence, rfl, moved⟩ : ∃ sequence, y :: ys = sequence ∧ a ∈ eol :: sequence := by
      simpa using owned
    rw [isList] at moved
    have apart := nodup_append.mp (rep.apart held other ne)
    rcases mine with rfl | inside
    · refine (mem_cons.mp moved).elim (fun same => ne same.symm) fun inOther => ?_
      exact (nodup_cons.mp apart.2.1).1 inOther
    · rcases mem_cons.mp moved with rfl | inOther
      · exact (nodup_cons.mp apart.1).1 inside
      · exact apart.2.2 a (.tail _ inside) a (.tail _ inOther) rfl
  · next notList =>
    rw [owns_set] at owned
    split at owned
    · simp at owned
    · next notOther =>
      rcases mine with rfl | inside
      · exact rep.elsewhere other notOther owned (mem_cons_self ..)
      · exact rep.elsewhere held notList owned (.tail _ inside)

private theorem swapFilled_self (ring : Ring heap.links lst xs) (nonempty : xs ≠ []) :
    swapFilled heap lst lst = heap := by
  have full : ¬ isEmpty heap lst = true := by
    obtain ⟨x, rest, rfl⟩ := exists_cons_of_ne_nil nonempty
    have notSentinel : x ≠ lst := fun same => (nodup_cons.mp ring.distinct).1 (by simp [same])
    have next : heap.next lst = x := ring.next_eol
    simpa [isEmpty, next] using notSentinel
  have back : heap.links.prev (heap.links.next lst) = lst := by
    have joined := (show Ring heap.links lst ([] ++ xs) from ring).joined
    rw [getLastD_nil] at joined
    rw [joined.1]
    exact joined.2
  have forth : heap.links.next (heap.links.prev lst) = lst := by
    have joined := (show Ring heap.links lst (xs ++ []) by simpa using ring).joined
    rw [headD_nil] at joined
    rw [joined.2]
    exact joined.1
  have nextSelf : update heap.links.next lst (heap.links.next lst) = heap.links.next :=
    update_eq_self ..
  have prevSelf : update heap.links.prev lst (heap.links.prev lst) = heap.links.prev :=
    update_eq_self ..
  have prevFirst : update heap.links.prev (heap.links.next lst) lst = heap.links.prev := by
    conv_rhs => rw [← update_eq_self (heap.links.next lst) heap.links.prev, back]
  have nextLast : update heap.links.next (heap.links.prev lst) lst = heap.links.next := by
    conv_rhs => rw [← update_eq_self (heap.links.prev lst) heap.links.next, forth]
  simp only [swapFilled, if_neg full, Heap.setNext, Heap.setPrev, Heap.next, Heap.prev, nextSelf, prevSelf,
    prevFirst, nextLast]

theorem swap_represents (rep : Represents heap lists) (held : lists.contents lst = some xs)
    (other : lists.contents dlst = some ys) :
    Represents (swap heap lst dlst) ((lists.set lst (some ys)).set dlst (some xs)) := by
  have ring := rep.ring held
  have ring' := rep.ring other
  have empty_iff {eol : Addr} {zs : List Addr} (ring : Ring heap.links eol zs) :
      isEmpty heap eol = true ↔ zs = [] := by
    have next : heap.next eol = zs.headD eol := ring.next_eol
    cases zs with
    | nil => simp [isEmpty, next]
    | cons z zs =>
      have notSentinel : z ≠ eol := fun same => (nodup_cons.mp ring.distinct).1 (by simp [same])
      simp [isEmpty, next, notSentinel]
  by_cases same : lst = dlst
  · subst same
    obtain rfl : xs = ys := some.inj (held.symm.trans other)
    have unchanged : swap heap lst lst = heap := by
      unfold swap
      split
      · rfl
      · next full => exact swapFilled_self ring fun isNil => full ((empty_iff ring).mpr isNil)
    rw [unchanged]
    have kept := rep.set_same held
    exact kept.set_same (by simp [Lists.set])
  unfold swap
  by_cases emptyOther : ys = []
  · rw [if_pos ((empty_iff ring').mpr emptyOther)]
    subst emptyOther
    by_cases empty : xs = []
    · rw [if_pos ((empty_iff ring).mpr empty)]
      subst empty
      have kept := rep.set_same held
      exact kept.set_same (by simpa [Lists.set, update_of_ne (Ne.symm same)] using other)
    · rw [if_neg fun isNil => empty ((empty_iff ring).mp isNil)]
      obtain ⟨x, rest, rfl⟩ := exists_cons_of_ne_nil empty
      rw [set_comm same]
      exact swapFilled_represents rep other held (Ne.symm same)
  · rw [if_neg fun isNil => emptyOther ((empty_iff ring').mp isNil)]
    obtain ⟨y, rest, rfl⟩ := exists_cons_of_ne_nil emptyOther
    exact swapFilled_represents rep held other same

end Refine

end Culibs.Cucon.LinkedList
