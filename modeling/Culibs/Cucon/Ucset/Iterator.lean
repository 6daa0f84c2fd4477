import Culibs.Cucon.Ucset.Update

namespace Culibs.Cucon.Ucset

open Cu List

/-- `struct cucon_ucset_itr`, with the top of `node_stack` first. -/
structure Itr where
  stack : List Ucset
  pos : Int
deriving DecidableEq

/-- `cucon_ucset_itr_at_end`. -/
def itrAtEnd (itr : Itr) : Bool := itr.stack.isEmpty

def itrResetLeaf (node : Ucset) (pos : Int) : Int :=
  if node.bitset 0 ≠ 0 then log2Lowbit (node.bitset 0)
  else if node.bitset 1 ≠ 0 then log2Lowbit (node.bitset 1) + 64
  else pos

theorem ne_null_of_not_leaflike {node : Ucset} (inner : ¬ keyIsLeaflike (ucnodeKey node) = true) :
    node ≠ null := by
  rintro rfl
  exact inner (by decide)

def itrDescend (node : Ucset) (below : List Ucset) (pos : Int) : Itr :=
  if _inner : keyIsLeaflike (ucnodeKey node) then
    { stack := node :: below, pos := itrResetLeaf node pos }
  else if node.left = null then { stack := node :: below, pos }
  else itrDescend node.left (node :: below) pos
termination_by node.size
decreasing_by exact size_left_lt (ne_null_of_not_leaflike _inner)

/-- The nodes left on the stack after popping `child` and the parents it is the
right subtree of. -/
def itrAscend (child : Ucset) : List Ucset → List Ucset
  | [] => []
  | parent :: below => if parent.right = child then itrAscend parent below else parent :: below

def itrInit (set : Ucset) : Itr :=
  if set = null then { stack := [], pos := -1 } else itrDescend set [] (-1)

/-- The first set bit from `pos` on, which the two nested loops of
`cucon_ucset_itr_get` look for word by word. -/
def nextBit (bitset : Bitset) (pos : Nat) : Option Nat :=
  (range' pos (128 - pos)).find? fun i => bit bitset i

/-- The end of `cucon_ucset_itr_get`, with no more element below `node`. -/
def itrLeave (node : Ucset) (below : List Ucset) (pos : Int) : Itr :=
  match itrAscend node below with
  | [] => { stack := [], pos }
  | parent :: below =>
    if !hasKey parent then itrDescend parent.right (parent :: below) pos
    else { stack := parent :: below, pos }

/-- `cucon_ucset_itr_get`, for an iterator that is not at the end. -/
def itrGet (itr : Itr) : Word × Itr :=
  match itr.stack with
  | [] => (0, itr)
  | top :: below =>
    let key := ucnodeKey top
    if keyIsLeaflike key then
      let res := key - 64 + BitVec.ofInt 64 itr.pos
      let pos := itr.pos + 1
      match nextBit top.bitset pos.toNat with
      | some next => (res, { itr with pos := next })
      | none => (res, itrLeave top below pos)
    else if top.right ≠ null then (key, itrDescend top.right (top :: below) itr.pos)
    else (key, itrLeave top below itr.pos)

/-- The elements of a leaf from a position on. -/
def leafElements (key : Word) (bitset : Bitset) (pos : Nat) : List Word :=
  ((range' pos (128 - pos)).filter fun i => bit bitset i).map fun i => key - 64 + BitVec.ofNat 64 i

/-- The elements of a tree in increasing order. -/
def elements : Ucset → List Word
  | null => []
  | leaf key bitset => leafElements key bitset 0
  | node key left right =>
    left.elements ++ (if key &&& 1 = 0 then [] else [key &&& ~~~1]) ++ right.elements

theorem toNat_leafElement {key : Word} (leafKey : IsLeafKey key.toNat) (bound : i < 128) :
    (key - 64 + BitVec.ofNat 64 i).toNat = 128 * (key.toNat / 128) + i := by
  simp only [IsLeafKey] at leafKey
  rw [BitVec.toNat_add, BitVec.toNat_sub_of_le (by rw [BitVec.le_def]; simp; omega)]
  simp only [BitVec.ofNat_eq_ofNat, BitVec.toNat_ofNat]
  omega

variable {t : Ucset} {low high : Nat}

theorem mem_elements (wf : Wf t low high) (x : Word) : x ∈ elements t ↔ Contains t x := by
  induction t generalizing low high with
  | null => simp [elements, Contains]
  | leaf key bitset =>
    have leafKey := wf.1
    simp only [elements, leafElements, mem_map, mem_filter, mem_range'_1, Contains]
    constructor
    · rintro ⟨i, ⟨bound, set⟩, rfl⟩
      have value := toNat_leafElement leafKey (i := i) (by omega)
      have position : (128 * (key.toNat / 128) + i) % 128 = i := by omega
      rw [value, ← bit_mod, position]
      exact ⟨by omega, set⟩
    · rintro ⟨block, set⟩
      refine ⟨x.toNat % 128, ⟨by omega, by rwa [bit_mod]⟩, BitVec.eq_of_toNat_eq ?_⟩
      rw [toNat_leafElement leafKey (by omega)]
      omega
  | node key left right ihLeft ihRight =>
    obtain ⟨_, _, _, wfLeft, wfRight, _⟩ := wf
    simp only [elements, mem_append, ihLeft wfLeft, ihRight wfRight, Contains]
    have stored : x ∈ (if key &&& 1 = 0 then [] else [key &&& ~~~1]) ↔
        key.toNat % 2 = 1 ∧ x.toNat = 2 * (key.toNat / 2) := by
      split
      · next even =>
        rw [and_one_eq_zero_iff] at even
        simp [even]
      · next odd =>
        rw [and_one_eq_zero_iff] at odd
        rw [mem_singleton, BitVec.toNat_eq, toNat_clear_one]
        omega
    rw [stored, or_assoc, or_left_comm]

theorem elements_sorted (wf : Wf t low high) :
    (elements t).Pairwise fun a b => a.toNat < b.toNat := by
  induction t generalizing low high with
  | null => exact Pairwise.nil
  | leaf key bitset =>
    have leafKey := wf.1
    rw [elements, leafElements, pairwise_map]
    have positions : (range' 0 (128 - 0)).Pairwise (· < ·) := pairwise_lt_range'
    refine (positions.sublist filter_sublist).imp_of_mem ?_
    intro i j memberI memberJ less
    have boundJ := mem_range'_1.mp (mem_of_mem_filter memberJ)
    rw [toNat_leafElement leafKey (by omega), toNat_leafElement leafKey (by omega)]
    omega
  | node key left right ihLeft ihRight =>
    have whole := wf
    obtain ⟨_, _, _, wfLeft, wfRight, _⟩ := wf
    have inLeft (x : Word) (mem : x ∈ elements left) := (whole.contains_left x).mp
      ((mem_elements wfLeft x).mp mem)
    have inRight (x : Word) (mem : x ∈ elements right) := (whole.contains_right x).mp
      ((mem_elements wfRight x).mp mem)
    have stored (x : Word) (mem : x ∈ (if key &&& 1 = 0 then [] else [key &&& ~~~1])) :
        x.toNat = 2 * (key.toNat / 2) := by
      split at mem
      · simp at mem
      · rw [mem_singleton.mp mem, toNat_clear_one]
    rw [elements, append_assoc, pairwise_append]
    refine ⟨ihLeft wfLeft, pairwise_append.mpr ⟨?_, ihRight wfRight, ?_⟩, ?_⟩
    · split <;> simp
    · intro a memberA b memberB
      have := stored a memberA
      have := inRight b memberB
      omega
    · intro a memberA b memberB
      have := inLeft a memberA
      rcases mem_append.mp memberB with atKey | later
      · have := stored b atKey
        omega
      · have := inRight b later
        omega

theorem leafElements_nextBit (key : Word) (bitset : Bitset) (pos : Nat) :
    (nextBit bitset pos = none → leafElements key bitset pos = []) ∧
      ∀ next, nextBit bitset pos = some next → next < 128 ∧ bit bitset next = true ∧
        leafElements key bitset pos =
          (key - 64 + BitVec.ofNat 64 next) :: leafElements key bitset (next + 1) := by
  simp only [nextBit, leafElements]
  generalize count : 128 - pos = n
  induction n generalizing pos with
  | zero => simp
  | succ n ih =>
    rw [range'_succ]
    cases set : bit bitset pos with
    | true =>
      rw [find?_cons_of_pos (by simpa using set), filter_cons_of_pos (by simpa using set)]
      refine ⟨fun none => by simp at none, fun next found => ?_⟩
      cases found
      exact ⟨by omega, set, by rw [show 128 - (pos + 1) = n by omega]; rfl⟩
    | false =>
      rw [find?_cons_of_neg (by simp [set]), filter_cons_of_neg (by simp [set])]
      exact ih (pos + 1) (by omega)

variable {bitset : Bitset}

theorem leafElements_of_bit (key : Word) (bound : p < 128)
    (set : bit bitset p = true) :
    leafElements key bitset p = (key - 64 + BitVec.ofNat 64 p) :: leafElements key bitset (p + 1) := by
  rw [leafElements, show 128 - p = 128 - (p + 1) + 1 by omega, range'_succ, filter_cons_of_pos set]
  rfl

/-- The lowest set bit of the first nonzero word is the first set bit of the leaf. -/
theorem lowest_bit (nonempty : ∃ i < 128, bit bitset i = true) :
    ∃ p < 128, bit bitset p = true ∧ (∀ i < p, bit bitset i = false) ∧
      ((bitset 0 ≠ 0 ∧ p = log2Lowbit (bitset 0)) ∨
        (bitset 0 = 0 ∧ bitset 1 ≠ 0 ∧ p = log2Lowbit (bitset 1) + 64)) := by
  have first (j : Nat) (bound : j < 64) := bit_first bitset bound
  have second (j : Nat) (bound : j < 64) := bit_second bitset bound
  by_cases zero0 : bitset 0 = 0
  · have clear0 (j : Nat) (bound : j < 64) : bit bitset j = false := by
      rw [first j bound, zero0]
      simp
    have nonzero1 : bitset 1 ≠ 0 := by
      obtain ⟨i, bound, set⟩ := nonempty
      intro zero1
      by_cases low : i < 64
      · simp [clear0 i low] at set
      · rw [show i = 64 + (i - 64) by omega, second _ (by omega), zero1] at set
        simp at set
    obtain ⟨bound, set, clear⟩ := log2Lowbit_spec (bitset 1) nonzero1
    refine ⟨log2Lowbit (bitset 1) + 64, by omega, ?_, ?_, .inr ⟨zero0, nonzero1, rfl⟩⟩
    · rw [add_comm, second _ bound]
      exact set
    · intro i less
      by_cases low : i < 64
      · exact clear0 i low
      · rw [show i = 64 + (i - 64) by omega, second _ (by omega)]
        exact clear _ (by omega)
  · obtain ⟨bound, set, clear⟩ := log2Lowbit_spec (bitset 0) zero0
    refine ⟨log2Lowbit (bitset 0), by omega, ?_, ?_, .inl ⟨zero0, rfl⟩⟩
    · rw [first _ bound]
      exact set
    · intro i less
      rw [first i (by omega)]
      exact clear i less

theorem itrResetLeaf_spec (key : Word) (pos : Int)
    (nonempty : ∃ i < 128, bit bitset i = true) :
    ∃ p : Nat, itrResetLeaf (leaf key bitset) pos = p ∧ p < 128 ∧ bit bitset p = true ∧
      leafElements key bitset 0 = (key - 64 + BitVec.ofNat 64 p) :: leafElements key bitset (p + 1) := by
  obtain ⟨p, bound, set, clear, word⟩ := lowest_bit nonempty
  have search := leafElements_nextBit key bitset 0
  have found : nextBit bitset 0 = some p := by
    rw [nextBit, find?_eq_some_iff_append]
    refine ⟨by simpa using set, range' 0 p, range' (p + 1) (127 - p), ?_, ?_⟩
    · rw [← range'_succ, show 128 - 0 = p + (127 - p + 1) by omega, ← range'_append_1, zero_add]
    · intro i mem
      simp only [mem_range'_1] at mem
      simp [clear i (by omega)]
  refine ⟨p, ?_, bound, set, (search.2 p found).2.2⟩
  rcases word with ⟨nonzero, rfl⟩ | ⟨zero, nonzero, rfl⟩
  · simp only [itrResetLeaf, Ucset.bitset, nonzero, ne_eq, not_false_eq_true, if_true]
  · simp only [itrResetLeaf, Ucset.bitset, zero, nonzero, ne_eq, not_true_eq_false, if_false,
      not_false_eq_true, if_true]
    omega

/-- The stack below `child` is the path to it from the root of a well-formed tree. -/
def Path : Ucset → List Ucset → Prop
  | child, [] => child ≠ null ∧ ∃ low high, Wf child low high
  | child, parent :: below =>
    child ≠ null ∧ (∃ key left right, parent = node key left right ∧ (child = left ∨ child = right)) ∧
      Path parent below

/-- The elements to come after those of `child`. A parent has been passed exactly
when `child` is its right subtree. -/
def pendingAbove : Ucset → List Ucset → List Word
  | _, [] => []
  | child, parent :: below =>
    (if parent.right = child then []
      else (if parent.rawKey &&& 1 = 0 then [] else [ucnodeKey parent]) ++ elements parent.right) ++
      pendingAbove parent below

/-- The elements to come from the top of the stack and its subtrees. -/
def pendingTop (top : Ucset) (pos : Int) : List Word :=
  match top with
  | null => []
  | leaf key bitset => leafElements key bitset pos.toNat
  | node key _ right => (key &&& ~~~1) :: elements right

/-- All elements to come. -/
def pending (itr : Itr) : List Word :=
  match itr.stack with
  | [] => []
  | top :: below => pendingTop top itr.pos ++ pendingAbove top below

/-- The iterator stands on an element: a set bit of a leaf or the key of a node. -/
def Itr.Valid (itr : Itr) : Prop :=
  match itr.stack with
  | [] => True
  | top :: below => Path top below ∧
    match top with
    | null => False
    | leaf _ bitset => ∃ p : Nat, itr.pos = p ∧ p < 128 ∧ bit bitset p = true
    | node key _ _ => key.toNat % 2 = 1

section Parent

variable (key : Word) (left right child : Ucset) (below : List Ucset) (pos : Int)

theorem pendingAbove_passed : pendingAbove right (node key left right :: below) =
    pendingAbove (node key left right) below := by
  exact congrArg (· ++ _) (if_pos rfl)

theorem pendingAbove_left (apart : right ≠ child) :
    pendingAbove child (node key left right :: below) =
      (if key &&& 1 = 0 then [] else [key &&& ~~~1]) ++ elements right ++
        pendingAbove (node key left right) below := by
  exact congrArg (· ++ _) (if_neg apart)

private theorem itrLeave_passed : itrLeave right (node key left right :: below) pos =
    itrLeave (node key left right) below pos := by
  have popped : itrAscend right (node key left right :: below) =
      itrAscend (node key left right) below := if_pos rfl
  rw [itrLeave, popped, itrLeave]

private theorem itrLeave_left (apart : right ≠ child) : itrLeave child (node key left right :: below) pos =
    if key &&& 1 = 0 then itrDescend right (node key left right :: below) pos
    else { stack := node key left right :: below, pos } := by
  have stopped : itrAscend child (node key left right :: below) = node key left right :: below :=
    if_neg apart
  rw [itrLeave, stopped]
  simp [hasKey]

end Parent

variable {child : Ucset} {below : List Ucset}

theorem Path.ne_null (path : Path child below) : child ≠ null := by
  cases below with
  | nil => exact path.1
  | cons => exact path.1

theorem Path.wf (path : Path child below) :
    ∃ low high, Wf child low high := by
  induction below generalizing child with
  | nil => exact path.2
  | cons parent below ih =>
    obtain ⟨_, ⟨key, left, right, rfl, side⟩, above⟩ := path
    obtain ⟨low, high, wf⟩ := ih above
    obtain ⟨_, _, _, wfLeft, wfRight, _⟩ := wf
    rcases side with rfl | rfl
    · exact ⟨_, _, wfLeft⟩
    · exact ⟨_, _, wfRight⟩

/-- The subtrees of a node differ, having their elements on different sides. -/
theorem Wf.right_ne_left {key : Word} {left right : Ucset} (wf : Wf (node key left right) low high)
    (nonnull : left ≠ null) : right ≠ left := by
  rintro rfl
  obtain ⟨x, mem⟩ := wf.2.2.2.1.exists_contains nonnull
  have := (wf.contains_left x).mp mem
  have := (wf.contains_right x).mp mem
  omega

private theorem descend_spec (path : Path child below) (pos : Int) :
    (itrDescend child below pos).Valid ∧
      pending (itrDescend child below pos) = elements child ++ pendingAbove child below := by
  induction child generalizing below with
  | null => exact absurd rfl path.ne_null
  | leaf key bitset =>
    obtain ⟨low, high, wf⟩ := path.wf
    obtain ⟨p, value, bound, set, all⟩ := itrResetLeaf_spec key pos wf.2.2.2.1
    rw [itrDescend]
    simp only [wf.leaf_leaflike, dite_true, Itr.Valid, pending, pendingTop, value]
    refine ⟨⟨path, p, rfl, bound, set⟩, ?_⟩
    rw [elements, all, Int.toNat_natCast, leafElements_of_bit key bound set]
  | node key left right ihLeft ihRight =>
    obtain ⟨low, high, wf⟩ := path.wf
    have children := wf.2.2.2.2.2
    rw [itrDescend]
    simp only [wf.node_not_leaflike, Bool.false_eq_true, dite_false, left_node]
    have stored (odd : key.toNat % 2 = 1) :
        (if key &&& 1 = 0 then [] else [key &&& ~~~1]) = [key &&& ~~~1] :=
      if_neg (by rw [and_one_eq_zero_iff]; omega)
    by_cases empty : left = null
    · subst empty
      have odd : key.toNat % 2 = 1 := by
        by_contra even
        exact (children (by omega)).1 rfl
      exact ⟨⟨path, odd⟩, by rw [elements, elements, stored odd]; rfl⟩
    · simp only [empty, if_false]
      have deeper : Path left (node key left right :: below) :=
        ⟨empty, ⟨key, left, right, rfl, .inl rfl⟩, path⟩
      obtain ⟨valid, rest⟩ := ihLeft deeper
      refine ⟨valid, rest.trans ?_⟩
      rw [pendingAbove_left _ _ _ _ _ (wf.right_ne_left empty), elements, append_assoc,
        append_assoc, append_assoc]

private theorem leave_spec (path : Path child below) (pos : Int) :
    (itrLeave child below pos).Valid ∧ pending (itrLeave child below pos) = pendingAbove child below := by
  induction below generalizing child with
  | nil => exact ⟨trivial, rfl⟩
  | cons parent below ih =>
    obtain ⟨_, ⟨key, left, right, rfl, side⟩, above⟩ := path
    by_cases passed : right = child
    · subst passed
      rw [itrLeave_passed, pendingAbove_passed]
      exact ih above
    obtain ⟨low, high, wf⟩ := above.wf
    have children := wf.2.2.2.2.2
    rw [pendingAbove_left _ _ _ _ _ passed, itrLeave_left _ _ _ _ _ _ passed]
    split
    · next even =>
      rw [and_one_eq_zero_iff] at even
      have deeper : Path right (node key left right :: below) :=
        ⟨(children even).2, ⟨key, left, right, rfl, .inr rfl⟩, above⟩
      obtain ⟨valid, rest⟩ := descend_spec deeper pos
      refine ⟨valid, rest.trans ?_⟩
      rw [pendingAbove_passed, nil_append]
    · next odd =>
      rw [and_one_eq_zero_iff] at odd
      exact ⟨⟨above, show key.toNat % 2 = 1 by omega⟩, rfl⟩

theorem itrInit_spec (wf : Wf t low high) :
    (itrInit t).Valid ∧ pending (itrInit t) = elements t := by
  rw [itrInit]
  split
  · next empty =>
    subst empty
    exact ⟨trivial, rfl⟩
  · next nonnull =>
    have path : Path t [] := ⟨nonnull, low, high, wf⟩
    obtain ⟨valid, rest⟩ := descend_spec path (-1)
    exact ⟨valid, rest.trans (by simp [pendingAbove])⟩

theorem itrGet_spec (valid : itr.Valid) (running : itrAtEnd itr = false) :
    (itrGet itr).2.Valid ∧ pending itr = (itrGet itr).1 :: pending (itrGet itr).2 := by
  obtain ⟨stack, pos⟩ := itr
  cases stack with
  | nil => simp [itrAtEnd] at running
  | cons top below =>
    obtain ⟨path, stands⟩ := valid
    obtain ⟨low, high, wf⟩ := path.wf
    cases top with
    | null => exact absurd rfl path.ne_null
    | leaf key bitset =>
      obtain ⟨p, rfl, bound, set⟩ := stands
      have later := leafElements_nextBit key bitset (p + 1)
      have even : key &&& ~~~1 = key := by
        apply BitVec.eq_of_toNat_eq
        have := wf.1
        simp only [IsLeafKey] at this
        rw [toNat_clear_one]
        omega
      have advanced : ((p : Int) + 1).toNat = p + 1 := by omega
      have stepped : itrGet { stack := leaf key bitset :: below, pos := (p : Int) } =
          match nextBit bitset (p + 1) with
          | some next => (key - 64 + BitVec.ofNat 64 p, { stack := leaf key bitset :: below, pos := next })
          | none => (key - 64 + BitVec.ofNat 64 p, itrLeave (leaf key bitset) below (p + 1)) := by
        have leaflike := wf.leaf_leaflike
        simp only [itrGet]
        rw [if_pos leaflike]
        simp only [ucnodeKey, rawKey, even, BitVec.ofInt_natCast]
        rfl
      rw [stepped]
      change _ ∧ leafElements key bitset ((p : Int).toNat) ++ _ = _
      rw [Int.toNat_natCast, leafElements_of_bit key bound set]
      cases found : nextBit bitset (p + 1) with
      | some next =>
        obtain ⟨bound', set', rest⟩ := later.2 next found
        refine ⟨⟨path, next, rfl, bound', set'⟩, ?_⟩
        simp only [pending, pendingTop, Int.toNat_natCast, cons_append]
        rw [rest, ← leafElements_of_bit key bound' set']
      | none =>
        obtain ⟨valid, rest⟩ := leave_spec path (p + 1)
        refine ⟨valid, ?_⟩
        rw [later.1 found, rest]
        rfl
    | node key left right =>
      have inner := wf.node_not_leaflike
      have stepped : itrGet { stack := node key left right :: below, pos } =
          (key &&& ~~~1, if right ≠ null then itrDescend right (node key left right :: below) pos
            else itrLeave (node key left right) below pos) := by
        simp only [itrGet]
        rw [if_neg (by simp [inner])]
        by_cases empty : right = null <;> simp [empty, ucnodeKey]
      rw [stepped]
      change _ ∧ (key &&& ~~~1) :: elements right ++ pendingAbove (node key left right) below = _
      by_cases empty : right = null
      · obtain ⟨valid, rest⟩ := leave_spec path pos
        simp only [empty, ne_eq, not_true_eq_false, if_false] at valid rest ⊢
        refine ⟨valid, ?_⟩
        rw [rest]
        rfl
      · have deeper : Path right (node key left right :: below) :=
          ⟨empty, ⟨key, left, right, rfl, .inr rfl⟩, path⟩
        obtain ⟨valid, rest⟩ := descend_spec deeper pos
        simp only [empty, ne_eq, not_false_eq_true, if_true]
        refine ⟨valid, ?_⟩
        rw [rest, pendingAbove_passed]
        rfl

theorem itrAtEnd_iff (valid : itr.Valid) : itrAtEnd itr = true ↔ pending itr = [] := by
  constructor
  · obtain ⟨stack, pos⟩ := itr
    cases stack with
    | nil => exact fun _ => rfl
    | cons top below => exact fun ended => by simp [itrAtEnd] at ended
  · intro empty
    by_contra running
    have := (itrGet_spec valid (by simpa using running)).2
    rw [empty] at this
    exact absurd this (by simp)

end Culibs.Cucon.Ucset
