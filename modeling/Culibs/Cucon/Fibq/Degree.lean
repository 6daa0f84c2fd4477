import Culibs.Cucon.Fibq.Basic
import Mathlib.Data.Nat.Fib.Basic

namespace Culibs.Cucon.Fibq

open List Option Bool Nat

variable {α : Type}

theorem four_mul_fib_le (n : Nat) : 4 * fib (n + 2) ≤ fib (n + 5) := by
  have lower : fib n ≤ fib (n + 1) := fib_le_fib_succ
  have two : fib (n + 2) = fib n + fib (n + 1) := fib_add_two
  have three : fib (n + 3) = fib (n + 1) + fib (n + 2) := fib_add_two
  have four : fib (n + 4) = fib (n + 2) + fib (n + 3) := fib_add_two
  have five : fib (n + 5) = fib (n + 3) + fib (n + 4) := fib_add_two
  omega

theorem two_pow_lt_fib : ∀ k : Nat, 2 ^ (k + 1) < fib ((3 * (k + 1) + 1) / 2 + 2)
  | 0 => by decide
  | 1 => by decide
  | k + 2 => by
    have before := two_pow_lt_fib k
    have index : (3 * (k + 2 + 1) + 1) / 2 + 2 = (3 * (k + 1) + 1) / 2 + 5 := by omega
    have power : 2 ^ (k + 2 + 1) = 4 * 2 ^ (k + 1) := by
      rw [pow_succ, pow_succ]
      omega
    rw [index]
    exact lt_of_lt_of_le (by omega) (four_mul_fib_le _)

variable {degree card : Nat}

theorem lt_maxDegree (two : 2 ≤ card) (nodes : fib (degree + 2) ≤ card) :
    degree < maxDegree card := by
  have log : sizeCeilLog2 card = (card - 1).log2 + 1 := if_neg (by omega)
  have doubled : card ≤ 2 ^ sizeCeilLog2 card := by
    have below : card - 1 < 2 ^ ((card - 1).log2 + 1) := Nat.lt_log2_self
    rw [log]
    omega
  by_contra wide
  have mono := Nat.fib_mono (Nat.add_le_add_right (Nat.le_of_not_lt wide) 2)
  have power : 2 ^ sizeCeilLog2 card < fib (maxDegree card + 2) := by
    rw [maxDegree, log]
    exact two_pow_lt_fib _
  omega

namespace Chain

/-- Every node of degree d heads at least fib (d + 2) nodes. -/
def Fibonacci : Chain α → Prop
  | null => True
  | node _ children _ degree siblings =>
    fib (degree + 2) ≤ children.size + 1 ∧ children.Fibonacci ∧ siblings.Fibonacci

/-- A chain of children: each was linked when it had as many children as there are siblings after
it, and it has lost at most one of them, or none without the mark. -/
def Spared : Chain α → Prop
  | null => True
  | node _ children mark degree siblings =>
    degree = children.length ∧ siblings.length ≤ degree + mark.toNat ∧ children.Spared ∧
      siblings.Spared

/-- A chain of roots, which may have lost any number of children. -/
def Counted : Chain α → Prop
  | null => True
  | node _ children _ degree siblings => degree = children.length ∧ children.Spared ∧ siblings.Counted

variable {chain : Chain α}

theorem fib_le_size (spared : chain.Spared) :
    fib (chain.length + 2) ≤ chain.size + 1 := by
  induction chain with
  | null => exact le_refl 1
  | node item children mark degree siblings ihChildren ihSiblings =>
    obtain ⟨counted, after, below, rest⟩ := spared
    have unmarked : mark.toNat ≤ 1 := toNat_le mark
    have own : fib (siblings.length + 1) ≤ children.size + 1 :=
      (fib_mono (by omega)).trans (ihChildren below)
    have others := ihSiblings rest
    have sum : fib (siblings.length + 1 + 2) =
      fib (siblings.length + 1) + fib (siblings.length + 2) := fib_add_two
    rw [length, size, sum]
    omega

theorem Spared.fibonacci (spared : chain.Spared) : chain.Fibonacci := by
  induction chain with
  | null => trivial
  | node item children mark degree siblings ihChildren ihSiblings =>
    obtain ⟨counted, _, below, rest⟩ := spared
    exact ⟨counted ▸ fib_le_size below, ihChildren below, ihSiblings rest⟩

theorem Counted.fibonacci (counted : chain.Counted) : chain.Fibonacci := by
  induction chain with
  | null => trivial
  | node item children mark degree siblings _ ihSiblings =>
    obtain ⟨length, below, rest⟩ := counted
    exact ⟨length ▸ fib_le_size below, below.fibonacci, ihSiblings rest⟩

theorem Spared.counted (spared : chain.Spared) : chain.Counted := by
  induction chain with
  | null => trivial
  | node item children mark degree siblings _ ihSiblings =>
    exact ⟨spared.1, spared.2.2.1, ihSiblings spared.2.2.2⟩

theorem Counted.append {rest : Chain α} (counted : chain.Counted) (more : rest.Counted) :
    (chain.append rest).Counted := by
  induction chain with
  | null => exact more
  | node item children mark degree siblings _ ihSiblings =>
    exact ⟨counted.1, counted.2.1, ihSiblings counted.2.2⟩

theorem Counted.clearMarks (counted : chain.Counted) :
    chain.clearMarks.Counted := by
  induction chain with
  | null => trivial
  | node item children mark degree siblings _ ihSiblings =>
    exact ⟨counted.1, counted.2.1, ihSiblings counted.2.2⟩

@[simp] theorem size_append (chain rest : Chain α) :
    (chain.append rest).size = chain.size + rest.size := by
  induction chain with
  | null => simp [append, size]
  | node item children mark degree siblings _ ihSiblings =>
    rw [append, size, size]
    omega

@[simp] theorem size_clearMarks (chain : Chain α) : chain.clearMarks.size = chain.size := by
  induction chain with
  | null => rfl
  | node item children mark degree siblings _ ihSiblings => rw [clearMarks, size, size, ihSiblings]

end Chain

variable {nodes : NodesByDegree α} {queue : Queue α} {chain : Chain α}

/-- A root of a given degree. -/
structure Node.Fits (root : Node α) (degree : Nat) : Prop where
  degree_eq : root.degree = degree
  length_eq : root.children.length = degree
  spared : root.children.Spared

/-- The roots in the array: each stands at its degree. -/
def Placed (nodes : NodesByDegree α) : Prop :=
  ∀ (degree : Nat) (root : Node α), nodes[degree]? = some (some root) → root.Fits degree

/-- The number of nodes at one place. -/
def slotSize : Option (Node α) → Nat
  | none => 0
  | some root => root.children.size + 1

/-- The number of nodes in the array. -/
def total (nodes : NodesByDegree α) : Nat := (nodes.map slotSize).sum

theorem total_set {old : Option (Node α)} (inside : nodes[degree]? = some old)
    (slot : Option (Node α)) : total (nodes.set degree slot) + slotSize old = total nodes + slotSize slot := by
  induction nodes generalizing degree with
  | nil => simp at inside
  | cons first nodes ih =>
    cases degree with
    | zero =>
      obtain rfl : first = old := by simpa using inside
      simp only [total, set_cons_zero, map_cons, sum_cons]
      omega
    | succ degree =>
      have rest := ih (by simpa using inside)
      simp only [total, set_cons_succ, map_cons, sum_cons] at rest ⊢
      omega

theorem Placed.set (placed : Placed nodes) (degree : Nat) (slot : Option (Node α))
    (fits : ∀ root, slot = some root → root.Fits degree) : Placed (nodes.set degree slot) := by
  intro other root found
  rw [getElem?_set] at found
  split at found
  · next same =>
    subst same
    split at found
    · exact fits root (by simpa using found)
    · cases found
  · exact placed other root found

variable {root : Node α}
variable (prioreq : α → α → Bool)

theorem join_spec
    (left : y.Fits degree) (right : root.Fits degree) :
    (join prioreq y root (degree + 1)).Fits (degree + 1) ∧
      slotSize (some (join prioreq y root (degree + 1))) =
        slotSize (some y) + slotSize (some root) := by
  -- The new child has as many children as there are older ones.
  have linked {child parent : Node α} (low : child.Fits degree) (high : parent.Fits degree) :
      (child.link parent.children).Spared := by
    refine ⟨low.degree_eq.trans low.length_eq.symm, ?_, low.spared, high.spared⟩
    rw [high.length_eq, low.degree_eq]
    exact le_add_right _ _
  unfold join
  split
  · refine ⟨⟨rfl, congrArg (· + 1) right.length_eq, linked left right⟩, ?_⟩
    simp only [slotSize, Node.link, Chain.size]
    omega
  · refine ⟨⟨rfl, congrArg (· + 1) left.length_eq, linked right left⟩, ?_⟩
    simp only [slotSize, Node.link, Chain.size]
    omega

section Results

variable {β γ : Type} {debug : Bool} {post : β → Prop}

/-- A result that meets `post`, or the stop at a marked root, which only the build with assertions has. -/
def Ends (debug : Bool) (post : β → Prop) : Except Fault β → Prop
  | .ok value => post value
  | .error fault => debug = true ∧ fault = .mark

variable {result : Except Fault β}

theorem Ends.bind {next : β → Except Fault γ} {after : γ → Prop}
    (ends : Ends debug post result) (follow : ∀ value, post value → Ends debug after (next value)) :
    Ends debug after (result >>= next) := by
  cases result with
  | error fault => exact ends
  | ok value => exact follow value ends

theorem Ends.mono (ends : Ends debug post result)
    (follow : ∀ value, post value → weaker value) : Ends debug weaker result := by
  cases result with
  | error fault => exact ends
  | ok value => exact follow value ends

end Results

variable (debug : Bool)

/-- With room for every degree that the nodes allow, the links at a root stay inside the array. -/
theorem place_spec (two : 2 ≤ card) (root : Node α)
    (length : nodes.length = maxDegree card) (placed : Placed nodes) (fits : root.Fits degree)
    (room : total nodes + slotSize (some root) ≤ card) :
    Ends debug (fun after => after.length = maxDegree card ∧ Placed after ∧
      total after = total nodes + slotSize (some root)) (place debug prioreq nodes degree root) := by
  have inside {degree : Nat} {root : Node α} (fits : root.Fits degree) (room : slotSize (some root) ≤ card) :
      degree < maxDegree card :=
    lt_maxDegree two ((fits.length_eq ▸ Chain.fib_le_size fits.spared : fib (degree + 2) ≤ _).trans room)
  have emptied : slotSize (none : Option (Node α)) = 0 := rfl
  fun_induction place debug prioreq nodes degree root with
  | case1 nodes degree root outside =>
    have bound := inside fits ((le_add_left _ _).trans room)
    have beyond := getElem?_eq_none_iff.mp outside
    omega
  | case2 nodes degree root vacant =>
    refine ⟨length_set.trans length, placed.set degree _ ?_, ?_⟩
    · rintro _ ⟨⟩
      exact fits
    · have sum := total_set vacant (some root)
      simpa [slotSize] using sum
  | case3 nodes degree root y taken wide =>
    have joined := join_spec prioreq (placed degree y taken) fits
    have sum := total_set taken none
    have bound := inside joined.1 (by omega)
    omega
  | case4 nodes degree root y taken linked within marked => exact ⟨(and_eq_true_iff.mp marked).1, rfl⟩
  | case5 nodes degree root y taken linked within unmarked ih =>
    have joined : linked.Fits (degree + 1) ∧ slotSize (some linked) = _ :=
      join_spec prioreq (placed degree y taken) fits
    have sum := total_set taken none
    have whole : total (nodes.set degree none) + slotSize (some linked) = total nodes + slotSize (some root) := by
      omega
    rw [← whole] at room ⊢
    exact ih (length_set.trans length) (placed.set degree none (by simp)) joined.1 room

private theorem placeEach_spec (two : 2 ≤ card) (roots : Chain α)
    (length : nodes.length = maxDegree card) (placed : Placed nodes) (counted : roots.Counted)
    (room : total nodes + roots.size ≤ card) :
    Ends debug (fun after => Placed after ∧ total after = total nodes + roots.size)
      (placeEach debug prioreq roots nodes) := by
  induction roots generalizing nodes with
  | null => exact ⟨placed, rfl⟩
  | node item children mark degree siblings _ ih =>
    obtain ⟨degreeLength, spared, others⟩ := counted
    rw [Chain.size] at room ⊢
    refine (place_spec prioreq debug two ⟨item, children, false, degree⟩ length placed
      ⟨rfl, degreeLength.symm, spared⟩ (by simp only [slotSize]; omega)).bind ?_
    rintro next ⟨nextLength, nextPlaced, nextTotal⟩
    simp only [slotSize] at nextTotal
    have whole : total next + siblings.size = total nodes + (children.size + siblings.size + 1) := by omega
    rw [← whole] at room ⊢
    exact ih nextLength nextPlaced others room

/-- Every root in the array is in order, wherever it stands. -/
def Held (nodes : NodesByDegree α) : Prop :=
  ∀ root : Node α, some root ∈ nodes → root.Fits root.degree

theorem Placed.held (placed : Placed nodes) : Held nodes := by
  intro root mem
  obtain ⟨degree, found⟩ := getElem?_of_mem mem
  have fits := placed degree root found
  exact fits.degree_eq ▸ fits

variable {siblings : Chain α}

theorem Node.Fits.counted (fits : root.Fits root.degree)
    (counted : siblings.Counted) : (root.link siblings).Counted :=
  ⟨fits.length_eq.symm, fits.spared, counted⟩

theorem size_link (root : Node α) (siblings : Chain α) :
    (root.link siblings).size = slotSize (some root) + siblings.size := by
  simp only [Node.link, Chain.size, slotSize]
  omega

private theorem nextRoot_none (ended : nextRoot nodes = none) : total nodes = 0 := by
  induction nodes with
  | nil => rfl
  | cons slot nodes ih =>
    cases slot with
    | none => simpa [total, slotSize] using ih ended
    | some root => cases ended

private theorem nextRoot_some (held : Held nodes)
    (next : nextRoot nodes = some (root, rest)) :
    root.Fits root.degree ∧ Held rest ∧ total nodes = slotSize (some root) + total rest := by
  induction nodes with
  | nil => cases next
  | cons slot nodes ih =>
    have heldRest : Held nodes := fun root mem => held root (.tail _ mem)
    cases slot with
    | none =>
      obtain ⟨fits, others, sum⟩ := ih heldRest next
      exact ⟨fits, others, by simpa [total, slotSize] using sum⟩
    | some found =>
      cases next
      exact ⟨held _ mem_cons_self, heldRest, by simp [total]⟩

private theorem rechain_spec (roots : Chain α) (held : Held nodes)
    (fits : minRoot.Fits minRoot.degree) (counted : roots.Counted) :
    (rechain prioreq nodes minRoot roots).Counted ∧
      (rechain prioreq nodes minRoot roots).size =
        total nodes + slotSize (some minRoot) + roots.size := by
  induction nodes generalizing minRoot roots with
  | nil =>
    refine ⟨fits.counted counted, (size_link minRoot roots).trans ?_⟩
    rw [total, map_nil, sum_nil, zero_add]
  | cons slot nodes ih =>
    have heldRest : Held nodes := fun root mem => held root (.tail _ mem)
    cases slot with
    | none =>
      obtain ⟨inOrder, sum⟩ := ih roots heldRest fits counted
      exact ⟨inOrder, by simpa [total, slotSize, rechain] using sum⟩
    | some root =>
      have rootFits := held root mem_cons_self
      have cons : total (some root :: nodes) = slotSize (some root) + total nodes := by simp [total]
      rw [rechain]
      split
      · obtain ⟨inOrder, sum⟩ := ih (minRoot.link roots) heldRest rootFits (fits.counted counted)
        rw [size_link] at sum
        exact ⟨inOrder, by omega⟩
      · obtain ⟨inOrder, sum⟩ := ih (root.link roots) heldRest fits (rootFits.counted counted)
        rw [size_link] at sum
        exact ⟨inOrder, by omega⟩

private theorem recreate_spec (placed : Placed nodes) (nonempty : 0 < total nodes) :
    ∃ roots, recreate prioreq nodes = .ok roots ∧ roots.Counted ∧ roots.size = total nodes := by
  unfold recreate
  split
  · next none => exact absurd (nextRoot_none none) (ne_of_gt nonempty)
  · next minRoot rest first =>
    obtain ⟨minFits, restHeld, sum⟩ := nextRoot_some placed.held first
    split
    · next none =>
      refine ⟨_, rfl, minFits.counted trivial, ?_⟩
      rw [sum, nextRoot_none none]
      rfl
    · next root others second =>
      obtain ⟨fits, othersHeld, sumRest⟩ := nextRoot_some restHeld second
      have alone (root : Node α) : (root.link .null).size = slotSize (some root) := size_link root .null
      split
      · obtain ⟨inOrder, size⟩ :=
          rechain_spec prioreq (root.link .null) othersHeld minFits (fits.counted trivial)
        rw [alone] at size
        exact ⟨_, rfl, inOrder, by omega⟩
      · obtain ⟨inOrder, size⟩ :=
          rechain_spec prioreq (minRoot.link .null) othersHeld fits (minFits.counted trivial)
        rw [alone] at size
        exact ⟨_, rfl, inOrder, by omega⟩

/-- With at least one root and a count that is no smaller than the number of nodes, the links end
and every index is inside the array. -/
theorem updateMin_spec (queue : Queue α) (two : 2 ≤ queue.card)
    (counted : queue.roots.Counted) (nonempty : 0 < queue.roots.size)
    (room : queue.roots.size ≤ queue.card) :
    Ends debug (fun after => after.card = queue.card ∧ after.roots.Counted ∧
      after.roots.size = queue.roots.size) (updateMin debug prioreq queue) := by
  obtain ⟨card, roots⟩ := queue
  cases roots with
  | null => exact absurd nonempty (lt_irrefl 0)
  | node item children mark degree siblings =>
    obtain ⟨degreeLength, spared, others⟩ := counted
    simp only [Chain.size] at room two
    have small : fib (degree + 2) ≤ card := by
      have own := Chain.fib_le_size spared
      rw [← degreeLength] at own
      omega
    have inside := lt_maxDegree two small
    have vacant : (replicate (maxDegree card) (none : Option (Node α)))[degree]? = some none := by
      rw [getElem?_replicate, if_pos inside]
    have emptyTotal (n : Nat) : total (replicate n (none : Option (Node α))) = 0 := by
      simp [total, slotSize]
    have emptyPlaced (n : Nat) : Placed (replicate n (none : Option (Node α))) := by
      intro degree root found
      rw [getElem?_replicate] at found
      split at found <;> cases found
    have firstTotal := total_set vacant (some ⟨item, children, mark, degree⟩)
    rw [emptyTotal] at firstTotal
    have own : slotSize (some (⟨item, children, mark, degree⟩ : Node α)) = children.size + 1 := rfl
    have emptied : slotSize (none : Option (Node α)) = 0 := rfl
    simp only [updateMin, if_pos inside]
    refine (placeEach_spec prioreq debug two siblings (length_set.trans (length_replicate (n := maxDegree card)))
      ((emptyPlaced _).set degree (some ⟨item, children, mark, degree⟩) (by
        rintro _ ⟨⟩
        exact ⟨rfl, degreeLength.symm, spared⟩)) others (by omega)).bind ?_
    rintro nodes ⟨placed, sum⟩
    obtain ⟨roots, recreated, inOrder, size⟩ := recreate_spec prioreq placed (by omega)
    rw [recreated]
    refine ⟨rfl, inOrder, ?_⟩
    simp only [Chain.size]
    omega

/-- What filtering a chain of children keeps in order, there and in the queue. -/
structure FilterSpec (keep : α → Bool) (chain : Chain α) (queue : Queue α) (after : Filtered α) :
    Prop where
  spared : after.chain.Spared
  length : after.chain.length + after.rmCount = chain.length
  counted : after.queue.roots.Counted
  kept : after.chain.size + after.queue.roots.size = chain.kept keep + queue.roots.size
  card : ∀ n, queue.card = n + chain.size + queue.roots.size →
    after.queue.card = n + after.chain.size + after.queue.roots.size

variable {rest : Filtered α} {keep : α → Bool} {item : α} {children : Chain α} {sub : Filtered α}

/-- The node stays, with a degree and mark that allow for the siblings linked before it. -/
theorem FilterSpec.stay
    (mark : Bool) (degree : Nat) (newMark : Bool) (keeps : keep item = true)
    (below : FilterSpec keep children queue sub) (others : FilterSpec keep siblings sub.queue rest)
    (counts : newDegree = sub.chain.length) (after : siblings.length ≤ newDegree + newMark.toNat) :
    FilterSpec keep (.node item children mark degree siblings) queue
      { rest with chain := .node item sub.chain newMark newDegree rest.chain } where
  spared := ⟨counts, (le_add_right _ _).trans (others.length.le.trans after), below.spared, others.spared⟩
  length := (add_right_comm _ _ _).trans (congrArg (· + 1) others.length)
  counted := others.counted
  kept := by
    have belowKept := below.kept
    have othersKept := others.kept
    have one : (keep item).toNat = 1 := by rw [keeps, toNat_true]
    simp only [Chain.size, Chain.kept]
    omega
  card n start := by
    simp only [Chain.size] at start ⊢
    have first := below.card (n + siblings.size + 1) (by omega)
    have second := others.card (n + sub.chain.size + 1) (by omega)
    omega

theorem FilterSpec.leave (mark : Bool) (degree : Nat) (below : FilterSpec keep children queue sub)
    (others : FilterSpec keep siblings raised rest)
    (card : raised.card = sub.queue.card + (keep item).toNat - 1)
    (roots : raised.roots.size = sub.queue.roots.size + sub.chain.size + (keep item).toNat) :
    FilterSpec keep (.node item children mark degree siblings) queue
      { rest with rmCount := rest.rmCount + 1 } where
  spared := others.spared
  length := congrArg (· + 1) others.length
  counted := others.counted
  kept := by
    have belowKept := below.kept
    have othersKept := others.kept
    simp only [Chain.kept]
    omega
  card n start := by
    simp only [Chain.size] at start
    have first := below.card (n + siblings.size + 1) (by omega)
    exact others.card n (by omega)

theorem filter_spec (keep : α → Bool) (spared : chain.Spared) (counted : queue.roots.Counted) :
    FilterSpec keep chain queue (filter keep chain queue) := by
  induction chain generalizing queue with
  | null => exact ⟨trivial, rfl, counted, by simp [filter, Chain.size, Chain.kept], fun _ card => card⟩
  | node item children mark degree siblings ihChildren ihSiblings =>
    obtain ⟨degreeLength, after, childrenSpared, siblingsSpared⟩ := spared
    have below := ihChildren childrenSpared counted
    have length := below.length
    rw [filter]
    generalize filter keep children queue = sub at below length ⊢
    cases keeps : keep item with
    | true =>
      have one : (keep item).toNat = 1 := by rw [keeps, toNat_true]
      by_cases lost : 0 < sub.rmCount
      · by_cases many : (mark || decide (1 < sub.rmCount)) = true
        · -- The second child is gone, and the node with it.
          simp only [if_true, if_pos lost, if_pos many]
          have alone : (Chain.node item sub.chain false (degree - sub.rmCount) .null).Counted :=
            ⟨by omega, below.spared, trivial⟩
          refine .leave mark degree below (ihSiblings siblingsSpared (below.counted.append alone)) ?_ ?_
          · rw [one]
            rfl
          · rw [Queue.append, Chain.size_append]
            simp only [Chain.size]
            omega
        · -- The first child is gone, and the mark says so.
          simp only [if_true, if_pos lost, if_neg many]
          obtain ⟨unmarked, atMost⟩ : mark = false ∧ sub.rmCount ≤ 1 := by simpa using many
          rw [unmarked, toNat_false] at after
          refine .stay mark degree true keeps below (ihSiblings siblingsSpared below.counted) ?_ ?_
          · omega
          · rw [toNat_true]
            omega
      · simp only [if_true, if_neg lost]
        exact .stay mark degree mark keeps below (ihSiblings siblingsSpared below.counted) (by omega) after
    | false =>
      have none : (keep item).toNat = 0 := by rw [keeps, toNat_false]
      refine .leave mark degree below
        (ihSiblings siblingsSpared (below.counted.append below.spared.counted.clearMarks)) ?_ ?_
      · rw [none]
        rfl
      · rw [Queue.append, Chain.size_append, Chain.size_clearMarks, none]
        rfl

private theorem filterRoots_spec (keep : α → Bool) (queue : Queue α) (rest : roots.Counted)
    (counted : queue.roots.Counted) (card : queue.card = roots.size + queue.roots.size) :
    (filterRoots keep roots queue).roots.Counted ∧
      (filterRoots keep roots queue).card = (filterRoots keep roots queue).roots.size ∧
      (filterRoots keep roots queue).roots.size = roots.kept keep + queue.roots.size := by
  induction roots generalizing queue with
  | null => exact ⟨counted, card.trans (zero_add _), (zero_add _).symm⟩
  | node item children mark degree siblings _ ih =>
    obtain ⟨degreeLength, spared, others⟩ := rest
    have below := filter_spec keep spared counted
    have length := below.length
    have belowKept := below.kept
    simp only [Chain.size] at card
    have belowCard := below.card (siblings.size + 1) (by omega)
    rw [filterRoots]
    generalize filter keep children queue = sub at below length belowKept belowCard ⊢
    cases keeps : keep item with
    | true =>
      simp only [if_true]
      have root : (Chain.node item sub.chain mark (degree - sub.rmCount) .null).Counted :=
        ⟨by omega, below.spared, trivial⟩
      have size : (sub.queue.append (.node item sub.chain mark (degree - sub.rmCount) .null)).roots.size =
          sub.queue.roots.size + (sub.chain.size + 1) := by
        rw [Queue.append, Chain.size_append]
        rfl
      obtain ⟨inOrder, exactCard, sum⟩ := ih _ others (below.counted.append root) (by
        rw [size]
        simp only [Queue.append]
        omega)
      refine ⟨inOrder, exactCard, ?_⟩
      rw [Chain.kept, keeps, toNat_true]
      omega
    | false =>
      have size : (sub.queue.append sub.chain.clearMarks).roots.size =
          sub.queue.roots.size + sub.chain.size := by
        rw [Queue.append, Chain.size_append, Chain.size_clearMarks]
      obtain ⟨inOrder, exactCard, sum⟩ :=
        ih { sub.queue.append sub.chain.clearMarks with card := sub.queue.card - 1 } others
          (below.counted.append below.spared.counted.clearMarks) (by
            simp only [size]
            omega)
      refine ⟨inOrder, exactCard, sum.trans ?_⟩
      rw [Chain.kept, keeps, toNat_false]
      simp only [size]
      omega

/-- The count is exact, and the nodes have the children their degrees say. -/
structure Queue.Ordered (queue : Queue α) : Prop where
  counted : queue.roots.Counted
  card : queue.card = queue.roots.size

theorem init_ordered : (init : Queue α).Ordered := ⟨trivial, rfl⟩

private theorem insert_ordered (ordered : queue.Ordered) (item : α) :
    (insert prioreq queue item).Ordered := by
  obtain ⟨card, roots⟩ := queue
  obtain ⟨counted, exactCard⟩ := ordered
  cases roots with
  | null => exact ⟨⟨rfl, trivial, trivial⟩, congrArg (· + 1) exactCard⟩
  | node first children mark degree siblings =>
    simp only [insert]
    split
    · refine ⟨⟨rfl, trivial, counted⟩, ?_⟩
      simp only [Chain.size] at exactCard ⊢
      omega
    · refine ⟨counted.append ⟨rfl, trivial, trivial⟩, ?_⟩
      simp only [Queue.append, Chain.size_append, ← exactCard]
      rfl

theorem Chain.isNull_iff {chain : Chain α} : chain.isNull = true ↔ chain.size = 0 := by
  cases chain with
  | null => simp [isNull, size]
  | node => simp [isNull, size]

theorem popFront_spec (ordered : queue.Ordered) :
    Ends debug (fun popped => popped.2.Ordered) (popFront debug prioreq queue) := by
  obtain ⟨card, roots⟩ := queue
  obtain ⟨counted, exactCard⟩ := ordered
  simp only at counted exactCard
  cases roots with
  | null =>
    subst exactCard
    cases debug <;> exact init_ordered
  | node item children mark degree siblings =>
    obtain ⟨_, spared, others⟩ := counted
    rw [Chain.size] at exactCard
    match card, exactCard with
    | 1, one =>
      have alone : (children.isNull && siblings.isNull) = true := by
        rw [Bool.and_eq_true, Chain.isNull_iff, Chain.isNull_iff]
        omega
      simp only [popFront, debugAssert, alone, Bool.not_true, Bool.and_false]
      exact init_ordered
    | 2, two =>
      cases siblings with
      | null =>
        cases children with
        | null => simp [Chain.size] at two
        | node first below _ _ after =>
          refine ⟨spared.counted, ?_⟩
          simp only [Chain.size] at two ⊢
          omega
      | node first below mark degree after =>
        have kept : (⟨1, .node first below mark degree after⟩ : Queue α).Ordered := by
          refine ⟨others, ?_⟩
          simp only [Chain.size] at two ⊢
          omega
        cases children <;> exact kept
    | card + 3, more =>
      have size : (siblings.append children).size = siblings.size + children.size :=
        Chain.size_append _ _
      have updated := updateMin_spec prioreq debug { card := card + 3, roots := siblings.append children }
        (by simp only; omega) (others.append spared.counted) (by simp only [size]; omega)
        (by simp only [size]; omega)
      simp only [popFront]
      refine updated.bind ?_
      rintro after ⟨afterCard, inOrder, afterSize⟩
      refine ⟨inOrder, ?_⟩
      simp only [afterCard, afterSize]
      omega

theorem filterD_spec (keep : α → Bool) (ordered : queue.Ordered) (two : 2 ≤ queue.roots.kept keep) :
    Ends debug Queue.Ordered (filterD debug prioreq keep queue) := by
  obtain ⟨card, roots⟩ := queue
  obtain ⟨counted, exactCard⟩ := ordered
  cases roots with
  | null => exact absurd two (not_succ_le_zero 1)
  | node item children mark degree siblings =>
    obtain ⟨filtered, cardAfter, sum⟩ :=
      filterRoots_spec keep { card := card, roots := .null } counted trivial exactCard
    have spec := updateMin_spec prioreq debug _ (by rw [cardAfter, sum]; exact two) filtered
      (by rw [sum]; exact lt_of_lt_of_le two_pos two) cardAfter.ge
    refine spec.mono ?_
    rintro after ⟨afterCard, inOrder, afterSize⟩
    exact ⟨inOrder, by rw [afterCard, afterSize, cardAfter]⟩

/-- A filter that keeps at least two of the nodes. -/
def Op.LeavesTwo (queue : Queue α) : Op α → Prop
  | .filterD keep => 2 ≤ queue.roots.kept keep
  | _ => True

/-- A sequence of calls in which every filter leaves at least two nodes. -/
def LeavesTwo (debug : Bool) (prioreq : α → α → Bool) : List (Op α) → Queue α → Prop
  | [], _ => True
  | op :: ops, queue =>
    op.LeavesTwo queue ∧ ∀ after, step debug prioreq queue op = .ok after → LeavesTwo debug prioreq ops after

theorem step_ordered (ordered : queue.Ordered) {op : Op α} (two : op.LeavesTwo queue) :
    Ends debug Queue.Ordered (step debug prioreq queue op) := by
  cases op with
  | insert item => exact insert_ordered prioreq ordered item
  | popFront => exact (popFront_spec prioreq debug ordered).bind fun _ inOrder => inOrder
  | filterD keep => exact filterD_spec prioreq debug keep ordered two

theorem run_ordered (ops : List (Op α)) (ordered : queue.Ordered) (two : LeavesTwo debug prioreq ops queue) :
    Ends debug Queue.Ordered (run debug prioreq ops queue) := by
  induction ops generalizing queue with
  | nil => exact ordered
  | cons op ops ih =>
    have first := step_ordered prioreq debug ordered two.1
    rw [run]
    cases result : step debug prioreq queue op with
    | error fault => rwa [result] at first
    | ok next =>
      rw [result] at first
      exact ih first (two.2 next result)

/-- No index of `nodes_by_degree` is outside: the calls return a queue in which every node of degree
d heads at least fib (d + 2) nodes, or, in a build with assertions, stop at a marked root. -/
theorem run_fibonacci (debug : Bool) (prioreq : α → α → Bool) (ops : List (Op α))
    (two : LeavesTwo debug prioreq ops init) :
    (∃ queue, run debug prioreq ops init = .ok queue ∧ queue.roots.Fibonacci) ∨
      debug = true ∧ run debug prioreq ops init = .error .mark := by
  have ordered := run_ordered prioreq debug ops init_ordered two
  cases result : run debug prioreq ops init with
  | ok queue =>
    rw [result] at ordered
    exact .inl ⟨queue, rfl, ordered.counted.fibonacci⟩
  | error fault =>
    rw [result] at ordered
    exact .inr ⟨ordered.1, congrArg _ ordered.2⟩

/-- Four nodes, of which one is filtered and one is popped. -/
theorem run_fibonacci_small :
    let ops : List (Op Nat) := [.insert 4, .insert 1, .insert 3, .insert 2, .filterD fun n => n != 3, .popFront]
    (∃ queue, run true (fun a b => decide (a ≤ b)) ops init = .ok queue ∧ queue.roots.Fibonacci) ∨
      true = true ∧ run true (fun a b => decide (a ≤ b)) ops init = .error .mark := by
  refine run_fibonacci _ _ _ ⟨trivial, ?_⟩
  rintro _ ⟨⟩
  refine ⟨trivial, ?_⟩
  rintro _ ⟨⟩
  refine ⟨trivial, ?_⟩
  rintro _ ⟨⟩
  refine ⟨trivial, ?_⟩
  rintro _ ⟨⟩
  exact ⟨le_succ 2, fun _ _ => ⟨trivial, fun _ _ => trivial⟩⟩

end Culibs.Cucon.Fibq
