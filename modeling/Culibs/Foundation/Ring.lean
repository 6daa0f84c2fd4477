import Mathlib.Data.List.Chain
import Mathlib.Data.List.Nodup

/-! Circular doubly linked lists. A chain is a list of nodes that are joined in both
directions, a ring is a chain from a sentinel back to it. An operation on rings is
a few links between ends of chains. -/

namespace Culibs

open Function List

/-- The links of all nodes. -/
structure Links (α : Type) where
  next : α → α
  prev : α → α

namespace Links

variable {α : Type} {links links' : Links α} {a b eol node : α} {xs ys nodes : List α}

/-- Two neighbours. -/
def Joined (links : Links α) (a b : α) : Prop := links.next a = b ∧ links.prev b = a

def Chain (links : Links α) (xs : List α) : Prop := xs.IsChain links.Joined

theorem Chain.congr (chain : Chain links xs) (next : ∀ a ∈ xs.dropLast, links'.next a = links.next a)
    (prev : ∀ b ∈ xs.tail, links'.prev b = links.prev b) : Chain links' xs := by
  induction xs with
  | nil => exact .nil
  | cons x xs ih =>
    cases xs with
    | nil => exact .singleton x
    | cons y ys =>
      obtain ⟨joined, rest⟩ := isChain_cons_cons.mp chain
      refine isChain_cons_cons.mpr ⟨⟨?_, ?_⟩, ih rest (fun a mem => next a ?_) fun b mem => prev b ?_⟩
      · rw [next x (mem_cons_self ..)]
        exact joined.1
      · rw [prev y (mem_cons_self ..)]
        exact joined.2
      · exact .tail _ mem
      · exact .tail _ mem

theorem Chain.append_iff : Chain links (xs ++ ys) ↔ Chain links xs ∧ Chain links ys ∧
    ∀ a ∈ xs.getLast?, ∀ b ∈ ys.head?, links.Joined a b := isChain_append

/-- A ring of the nodes after the sentinel. -/
structure Ring (links : Links α) (eol : α) (nodes : List α) : Prop where
  chain : Chain links (eol :: (nodes ++ [eol]))
  distinct : (eol :: nodes).Nodup

theorem getLast?_cons (eol : α) (xs : List α) : (eol :: xs).getLast? = some (xs.getLastD eol) := by
  rw [List.getLast?_cons, List.getLastD_eq_getLast?]

theorem head?_concat (ys : List α) (eol : α) : (ys ++ [eol]).head? = some (ys.headD eol) := by
  cases ys <;> rfl

theorem Ring.split (ring : Ring links eol (xs ++ ys)) : Chain links (eol :: xs) ∧ Chain links (ys ++ [eol]) ∧
    links.Joined (xs.getLastD eol) (ys.headD eol) := by
  have chain := ring.chain
  rw [append_assoc, ← cons_append, Chain.append_iff] at chain
  exact ⟨chain.1, chain.2.1, chain.2.2 _ (getLast?_cons eol xs) _ (head?_concat ys eol)⟩

theorem Ring.joined (ring : Ring links eol (xs ++ ys)) : links.Joined (xs.getLastD eol) (ys.headD eol) :=
  ring.split.2.2

theorem Ring.next_eol (ring : Ring links eol nodes) : links.next eol = nodes.headD eol :=
  (show Ring links eol ([] ++ nodes) from ring).joined.1

theorem Ring.prev_eol (ring : Ring links eol nodes) : links.prev eol = nodes.getLastD eol :=
  (show Ring links eol (nodes ++ []) by simpa using ring).joined.2

theorem Ring.prev_node (ring : Ring links eol (xs ++ node :: ys)) : links.prev node = xs.getLastD eol :=
  ring.joined.2

theorem Ring.next_node (ring : Ring links eol (xs ++ node :: ys)) : links.next node = ys.headD eol := by
  have joined := (show Ring links eol ((xs ++ [node]) ++ ys) by simpa using ring).joined
  rw [getLastD_concat] at joined
  exact joined.1

theorem Ring.congr (ring : Ring links eol nodes) (next : ∀ a ∈ eol :: nodes, links'.next a = links.next a)
    (prev : ∀ b ∈ eol :: nodes, links'.prev b = links.prev b) : Ring links' eol nodes := by
  refine ⟨ring.chain.congr (fun a mem => next a ?_) (fun b mem => prev b ?_), ring.distinct⟩
  · rwa [← cons_append, dropLast_concat] at mem
  · rw [tail_cons, mem_append, mem_singleton] at mem
    exact mem_cons.mpr mem.symm

variable [DecidableEq α]

/-- Makes two nodes neighbours. -/
def link (links : Links α) (a b : α) : Links α where
  next := update links.next a b
  prev := update links.prev b a

theorem link_prev (links : Links α) (a b : α) : (links.link a b).prev b = a := update_self ..

theorem link_next_of_ne (ne : c ≠ a) : (links.link a b).next c = links.next c :=
  update_of_ne ne ..

theorem link_prev_of_ne (ne : c ≠ b) : (links.link a b).prev c = links.prev c :=
  update_of_ne ne ..

theorem link_joined (links : Links α) (a b : α) : (links.link a b).Joined a b :=
  ⟨(update_self ..), link_prev links a b⟩

theorem Chain.link (chain : Chain links xs) (notLeft : a ∉ xs.dropLast) (notRight : b ∉ xs.tail) :
    Chain (links.link a b) xs := by
  refine chain.congr (fun c mem => link_next_of_ne ?_) (fun c mem => link_prev_of_ne ?_)
  · rintro rfl
    exact notLeft mem
  · rintro rfl
    exact notRight mem

theorem Chain.link_outside (chain : Chain links xs) (notLeft : a ∉ xs) (notRight : b ∉ xs) :
    Chain (links.link a b) xs :=
  chain.link (fun mem => notLeft (dropLast_subset _ mem))
    fun mem => notRight (mem_of_mem_tail mem)

theorem Ring.link_outside (ring : Ring links eol nodes) (notLeft : a ∉ eol :: nodes)
    (notRight : b ∉ eol :: nodes) : Ring (links.link a b) eol nodes := by
  refine ring.congr (fun c mem => link_next_of_ne ?_) (fun c mem => link_prev_of_ne ?_)
  · rintro rfl
    exact notLeft mem
  · rintro rfl
    exact notRight mem

theorem Chain.link_last (chain : Chain links xs) (last : xs.getLast? = some a) (distinct : xs.Nodup)
    (notRight : b ∉ xs) : Chain (links.link a b) xs := by
  obtain ⟨before, rfl⟩ := getLast?_eq_some_iff.mp last
  refine chain.link ?_ fun mem => notRight (mem_of_mem_tail mem)
  rw [dropLast_concat]
  exact fun mem => (nodup_append.mp distinct).2.2 a mem a (mem_singleton_self a) rfl

theorem Chain.link_first (chain : Chain links ys) (first : ys.head? = some b) (distinct : ys.Nodup)
    (notLeft : a ∉ ys) : Chain (links.link a b) ys := by
  obtain ⟨after, rfl⟩ := head?_eq_some_iff.mp first
  exact chain.link (fun mem => notLeft (dropLast_subset _ mem)) (nodup_cons.mp distinct).1

theorem Chain.append_link (left : Chain links xs) (right : Chain links ys) (last : xs.getLast? = some a)
    (first : ys.head? = some b) (distinct : (xs ++ ys).Nodup) : Chain (links.link a b) (xs ++ ys) := by
  obtain ⟨nodupLeft, nodupRight, disjoint⟩ := nodup_append.mp distinct
  have inLeft : a ∈ xs := mem_of_getLast? last
  have inRight : b ∈ ys := mem_of_head? first
  refine Chain.append_iff.mpr ⟨left.link_last last nodupLeft fun mem => disjoint b mem b inRight rfl,
    right.link_first first nodupRight fun mem => disjoint a inLeft a mem rfl, fun c isLast d isFirst => ?_⟩
  rw [last] at isLast
  rw [first] at isFirst
  cases isLast
  cases isFirst
  exact link_joined links a b

theorem Ring.close (xs ys : List α) (left : Chain links (eol :: xs)) (right : Chain links (ys ++ [eol]))
    (distinct : (eol :: (xs ++ ys)).Nodup) :
    Ring (links.link (xs.getLastD eol) (ys.headD eol)) eol (xs ++ ys) := by
  refine ⟨?_, distinct⟩
  obtain ⟨notSentinel, nodup⟩ := nodup_cons.mp distinct
  obtain ⟨nodupLeft, nodupRight, disjoint⟩ := nodup_append.mp nodup
  rw [mem_append, not_or] at notSentinel
  have lastMember : xs.getLastD eol ∈ eol :: xs := getLastD_mem_cons
  have firstCases : ys.headD eol = eol ∧ ys = [] ∨ ∃ rest, ys = ys.headD eol :: rest := by
    cases ys <;> simp
  rw [append_assoc, ← cons_append]
  refine Chain.append_iff.mpr ⟨left.link ?_ ?_, right.link ?_ ?_, fun c isLast d isFirst => ?_⟩
  · rcases eq_nil_or_concat xs with rfl | ⟨front, last, rfl⟩
    · simp
    · rw [concat_eq_append, getLastD_concat, ← cons_append, dropLast_concat]
      rw [concat_eq_append] at nodupLeft notSentinel
      have fresh := (nodup_append.mp nodupLeft).2.2
      simp only [mem_append, mem_singleton, not_or] at notSentinel
      rw [mem_cons, not_or]
      exact ⟨fun same => notSentinel.1.2 same.symm, fun mem => fresh last mem last (by simp) rfl⟩
  · rw [tail_cons]
    rcases firstCases with ⟨same, _⟩ | ⟨rest, split⟩
    · rw [same]
      exact notSentinel.1
    · exact fun mem => disjoint _ mem _ (by rw [split]; simp) rfl
  · rw [dropLast_concat]
    rcases mem_cons.mp lastMember with same | inside
    · rw [same]
      exact notSentinel.2
    · exact fun mem => disjoint _ inside _ mem rfl
  · rcases firstCases with ⟨_, rfl⟩ | ⟨rest, split⟩
    · simp
    · rw [split] at nodupRight notSentinel ⊢
      simp only [headD_cons, cons_append, tail_cons, mem_append, mem_singleton, not_or]
      exact ⟨(nodup_cons.mp nodupRight).1, fun same => notSentinel.2 (mem_cons.mpr (.inl same.symm))⟩
  · rw [getLast?_cons] at isLast
    rw [head?_concat] at isFirst
    cases isLast
    cases isFirst
    exact link_joined links _ _

theorem Ring.remove (ring : Ring links eol (xs ++ node :: ys)) :
    Ring (links.link (xs.getLastD eol) (ys.headD eol)) eol (xs ++ ys) := by
  have right := (show Ring links eol ((xs ++ [node]) ++ ys) by simpa using ring).split
  refine Ring.close xs ys ring.split.1 right.2.1 (ring.distinct.sublist (Sublist.cons_cons _ ?_))
  exact Sublist.append_left (sublist_cons_self node ys) xs

theorem Ring.insert (ring : Ring links eol (xs ++ ys)) (fresh : node ∉ eol :: (xs ++ ys)) :
    Ring ((links.link node (ys.headD eol)).link (xs.getLastD eol) node) eol (xs ++ node :: ys) := by
  obtain ⟨left, right, _⟩ := ring.split
  obtain ⟨notSentinel, nodup⟩ := nodup_cons.mp ring.distinct
  obtain ⟨_, nodupRight, disjoint⟩ := nodup_append.mp nodup
  simp only [mem_cons, mem_append, not_or] at fresh notSentinel
  have distinct : (eol :: (xs ++ node :: ys)).Nodup := by
    rw [nodup_cons, nodup_middle, nodup_cons]
    refine ⟨?_, ?_, nodup⟩
    · simp [notSentinel, Ne.symm fresh.1]
    · simp [fresh]
  have opened : Chain (links.link node (ys.headD eol)) (node :: ys ++ [eol]) := by
    have alone : Chain links [node] := .singleton node
    refine alone.append_link right rfl (head?_concat ys eol) ?_
    have last : (ys ++ [eol]).Nodup := nodup_append.mpr ⟨nodupRight, by simp, fun a mem b isEol same => by
      rw [← mem_singleton.mp isEol, ← same] at notSentinel
      exact notSentinel.2 mem⟩
    exact nodup_cons.mpr ⟨by simp [fresh], last⟩
  refine Ring.close xs (node :: ys) (left.link ?_ ?_) opened distinct
  · exact fun mem => (mem_cons.mp (dropLast_subset _ mem)).elim fresh.1 fresh.2.1
  · rw [tail_cons]
    cases ys with
    | nil => exact notSentinel.1
    | cons y ys => exact fun mem => disjoint y mem y (mem_cons_self ..) rfl

theorem Ring.splice (xs : List α) (left : Chain links (eol :: xs)) (right : Chain links (y :: ys))
    (distinct : (eol :: (xs ++ y :: ys)).Nodup) :
    Ring ((links.link (xs.getLastD eol) y).link (ys.getLastD y) eol) eol (xs ++ y :: ys) := by
  have joined : Chain (links.link (xs.getLastD eol) y) (eol :: xs ++ y :: ys) :=
    left.append_link right (getLast?_cons eol xs) rfl distinct
  have last : (xs ++ y :: ys).getLastD eol = ys.getLastD y := by
    simp [List.getLast?_cons]
  have ring := Ring.close (xs ++ y :: ys) [] joined (.singleton eol) (by simpa using distinct)
  rw [last, append_nil] at ring
  exact ring

theorem Ring.rotate {x y : α} (ring : Ring links eol (x :: xs ++ y :: ys)) :
    Ring (((links.link (ys.getLastD y) x).link eol y).link (xs.getLastD x) eol) eol (y :: ys ++ x :: xs) := by
  obtain ⟨left, right, _⟩ := ring.split
  have distinct : (eol :: (y :: ys ++ x :: xs)).Nodup := by
    have perm : (y :: ys ++ x :: xs).Perm (x :: xs ++ y :: ys) := perm_append_comm
    exact (perm.cons eol).nodup_iff.mpr ring.distinct
  have joined : Chain (links.link (ys.getLastD y) x) (y :: ys ++ x :: xs) :=
    Chain.append_link (List.IsChain.left_of_append right) (List.IsChain.tail left) (getLast?_cons y ys) rfl
      (nodup_cons.mp distinct).2
  have opened := Chain.append_link (List.IsChain.singleton eol) joined rfl rfl distinct
  have last : (y :: ys ++ x :: xs).getLastD eol = xs.getLastD x := by
    simp [List.getLast?_cons, List.getLast?_append]
  have closed := Ring.close (y :: ys ++ x :: xs) [] opened (.singleton eol) (by simpa using distinct)
  rw [last, List.append_nil] at closed
  exact closed

end Links

end Culibs
