import Culibs.Cucon.Rbtree.Contents
import Culibs.Foundation.Fuel

namespace Culibs.Cucon.Rbtree

open ColourTree List Int

variable {α : Type}

/-- The nodes that are stored through the output pointers. -/
structure Nearest where
  below : Nat
  equal : Nat
  above : Nat

/-- The inner loops of `cucon_rbtree_nearest2p`: the last node along a side, from `x` on. -/
def outermost (side : Side) (heap : Heap α) : Nat → Nat → Nat → Option Nat
  | 0, _, _ => none
  | fuel + 1, x, last => if x = 0 then some last else outermost side heap fuel (heap.child side x) x

/-- The loop of `cucon_rbtree_nearest2p`. -/
def nearestLoop (compare : α → Int) (heap : Heap α) : Nat → Nat → Nat → Nat → Option Nearest
  | 0, _, _, _ => none
  | fuel + 1, x, below, above =>
    if x = 0 then some ⟨below, 0, above⟩
    else
      let cmp := compare (heap.cell x).mem
      if cmp < 0 then nearestLoop compare heap fuel (heap.child .left x) below x
      else if cmp > 0 then nearestLoop compare heap fuel (heap.child .right x) x above
      else
        (outermost .right heap fuel (heap.child .left x) below).bind fun below =>
          (outermost .left heap fuel (heap.child .right x) above).map fun above => ⟨below, x, above⟩

def nearest2p (cmp2 : α → α → Int) (key : α) (heap : Heap α) (fuel root : Nat) : Option Nearest :=
  nearestLoop (cmp2 key) heap fuel root 0 0

/-- The address of the last node of a list. -/
def lastAddr (vals : List (Nat × α)) (last : Nat) : Nat := vals.foldl (fun _ val => val.1) last

/-- The address of the first node of a list. -/
def firstAddr (vals : List (Nat × α)) (first : Nat) : Nat := vals.foldr (fun val _ => val.1) first

theorem lastAddr_append (xs ys : List (Nat × α)) (last : Nat) :
    lastAddr (xs ++ ys) last = lastAddr ys (lastAddr xs last) :=
  foldl_append

theorem firstAddr_append (xs ys : List (Nat × α)) (first : Nat) :
    firstAddr (xs ++ ys) first = firstAddr xs (firstAddr ys first) :=
  foldr_append

variable {heap : Heap α} {t : Tree α}

theorem outermost_right (held : In heap t) (last : Nat) :
    Returns (fun fuel => outermost .right heap fuel (ptr t) last) (lastAddr t.inorder last) := by
  induction t generalizing last with
  | nil => exact .step (.const _)
  | node word val left right _ ihRight =>
    have rightEq := held.child_right
    obtain ⟨nonnull, _, _, inRight⟩ := held
    rw [inorder, lastAddr_append]
    refine .step ((ihRight inRight val.1).congr fun fuel => ?_)
    rw [ptr, outermost, if_neg nonnull, rightEq]

private theorem outermost_left (held : In heap t) (first : Nat) :
    Returns (fun fuel => outermost .left heap fuel (ptr t) first) (firstAddr t.inorder first) := by
  induction t generalizing first with
  | nil => exact .step (.const _)
  | node word val left right ihLeft _ =>
    have leftEq := held.child_left
    obtain ⟨nonnull, _, inLeft, _⟩ := held
    rw [inorder, firstAddr_append]
    refine .step ((ihLeft inLeft val.1).congr fun fuel => ?_)
    rw [ptr, outermost, if_neg nonnull, leftEq]

section Loop

variable (compare : α → Int)

def lowers (vals : List (Nat × α)) : List (Nat × α) := vals.filter fun val => 0 < compare val.2

def equals (vals : List (Nat × α)) : List (Nat × α) := vals.filter fun val => compare val.2 = 0

def uppers (vals : List (Nat × α)) : List (Nat × α) := vals.filter fun val => compare val.2 < 0

variable {compare} {xs ys : List (Nat × α)} {val : Nat × α}

@[simp] theorem lowers_append : lowers compare (xs ++ ys) = lowers compare xs ++ lowers compare ys :=
  filter_append ..

@[simp] theorem equals_append : equals compare (xs ++ ys) = equals compare xs ++ equals compare ys :=
  filter_append ..

@[simp] theorem uppers_append : uppers compare (xs ++ ys) = uppers compare xs ++ uppers compare ys :=
  filter_append ..

private theorem filter_negative (above : ∀ y ∈ ys, compare y.2 < 0) :
    lowers compare ys = [] ∧ equals compare ys = [] ∧ uppers compare ys = ys :=
  ⟨filter_eq_nil_iff.mpr fun y mem => by simpa using le_of_lt (above y mem),
    filter_eq_nil_iff.mpr fun y mem => by simpa using ne_of_lt (above y mem),
    filter_eq_self.mpr fun y mem => by simpa using above y mem⟩

private theorem filter_positive (below : ∀ x ∈ xs, 0 < compare x.2) :
    lowers compare xs = xs ∧ equals compare xs = [] ∧ uppers compare xs = [] :=
  ⟨filter_eq_self.mpr fun x mem => by simpa using below x mem,
    filter_eq_nil_iff.mpr fun x mem => by simpa using ne_of_gt (below x mem),
    filter_eq_nil_iff.mpr fun x mem => by simpa using le_of_lt (below x mem)⟩

private theorem filter_zero (zero : compare val.2 = 0) :
    lowers compare [val] = [] ∧ equals compare [val] = [val] ∧ uppers compare [val] = [] := by
  simp [lowers, equals, uppers, zero]

/-- The candidates that the loop remembers are replaced by the last lower and the first upper node. -/
theorem nearestLoop_spec (held : In heap t) (cuts : Cuts (onSlot compare) t.inorder) (below above : Nat) :
    Returns (fun fuel => nearestLoop compare heap fuel (ptr t) below above)
      ⟨lastAddr (lowers compare t.inorder) below, lastAddr (equals compare t.inorder) 0,
        firstAddr (uppers compare t.inorder) above⟩ := by
  induction t generalizing below above with
  | nil => exact .step (.const _)
  | node word val left right ihLeft ihRight =>
    have leftEq := held.child_left
    have rightEq := held.child_right
    obtain ⟨nonnull, contents, inLeft, inRight⟩ := held
    obtain ⟨leftCuts, rightCuts, across⟩ := pairwise_append.mp cuts
    obtain ⟨apart, rightCuts⟩ := pairwise_cons.mp rightCuts
    have round (fuel : Nat) : nearestLoop compare heap (fuel + 1) val.1 below above =
        if compare val.2 < 0 then nearestLoop compare heap fuel (ptr left) below val.1
        else if 0 < compare val.2 then nearestLoop compare heap fuel (ptr right) val.1 above
        else (outermost .right heap fuel (ptr left) below).bind fun below =>
          (outermost .left heap fuel (ptr right) above).map fun above => ⟨below, val.1, above⟩ := by
      rw [nearestLoop, if_neg nonnull, leftEq, rightEq, contents]
      rfl
    rw [inorder]
    by_cases negative : compare val.2 < 0
    · have all : ∀ y ∈ val :: right.inorder, compare y.2 < 0 :=
        forall_mem_cons.mpr ⟨negative, fun y mem => (apart y mem).2 (le_of_lt negative)⟩
      obtain ⟨isLower, isEqual, isUpper⟩ := filter_negative all
      simp only [lowers_append, equals_append, uppers_append, isLower, isEqual, isUpper, append_nil,
        firstAddr_append]
      exact .step ((ihLeft inLeft leftCuts below val.1).congr fun fuel => (round fuel).trans (if_pos negative))
    by_cases pos : 0 < compare val.2
    · have all : ∀ x ∈ left.inorder ++ [val], 0 < compare x.2 := by
        intro x mem
        rcases mem_append.mp mem with before | isVal
        · exact (across x before val mem_cons_self).1 (le_of_lt pos)
        · rwa [mem_singleton.mp isVal]
      obtain ⟨isLower, isEqual, isUpper⟩ := filter_positive all
      rw [append_cons]
      rw [lowers_append, equals_append, uppers_append, isLower, isEqual, isUpper, lastAddr_append, lastAddr_append]
      refine .step ((ihRight inRight rightCuts val.1 above).congr fun fuel => ?_)
      rw [ptr, round, if_neg negative, if_pos pos]
    · have zero : compare val.2 = 0 := by omega
      obtain ⟨leftLower, leftEqual, leftUpper⟩ := filter_positive fun x mem =>
        (across x mem val mem_cons_self).1 (le_of_eq zero.symm)
      obtain ⟨rightLower, rightEqual, rightUpper⟩ := filter_negative fun y mem => (apart y mem).2
        (le_of_eq zero)
      obtain ⟨isLower, isEqual, isUpper⟩ := filter_zero zero
      rw [← singleton_append]
      simp only [lowers_append, equals_append, uppers_append, leftLower, leftEqual, leftUpper, rightLower, rightEqual,
        rightUpper, isLower, isEqual, isUpper, append_nil, nil_append]
      refine .step ((outermost_right inLeft below).both (outermost_left inRight above) fun fuel isBelow isAbove => ?_)
      rw [ptr, round, if_neg negative, if_neg pos, isBelow, isAbove]
      rfl

end Loop

namespace OrderedTree

variable {order : Comparison α} (s : OrderedTree order)

/-- The node is the best one with a property, and `NULL` if there is none. -/
def Selects (p : α → Prop) (worse : α → α → Prop) (x : Nat) : Prop :=
  (x = 0 ↔ ∀ val ∈ s.nodes, ¬ p val.2) ∧
    (x ≠ 0 → ∃ val ∈ s.nodes, val.1 = x ∧ p val.2 ∧ ∀ other ∈ s.nodes, p other.2 → other = val ∨ worse other.2 val.2)

theorem node_nonnull (mem : val ∈ s.nodes) : val.1 ≠ 0 :=
  s.held.focused.subtree.nonnull val.1 (mem_map_of_mem mem)

section Ends

variable {s} {p : α → Prop} [DecidablePred p] {vals : List (Nat × α)}
  (isVals : (s.nodes.filter fun val => p val.2) = vals)

include isVals

theorem mem_vals (val : Nat × α) : val ∈ vals ↔ val ∈ s.nodes ∧ p val.2 := by
  rw [← isVals, mem_filter, decide_eq_true_iff]

theorem selects_null (none : vals = []) (worse : α → α → Prop) : s.Selects p worse 0 := by
  refine ⟨iff_of_true rfl fun val mem holds => ?_, fun some => absurd rfl some⟩
  have isIn := (mem_vals isVals val).mpr ⟨mem, holds⟩
  rw [none] at isIn
  cases isIn

private theorem selects_last : s.Selects p (fun a b => order.cmp a b < 0) (lastAddr vals 0) := by
  rcases eq_nil_or_concat vals with none | ⟨rest, val, isLast⟩
  · rw [none]
    exact selects_null isVals none _
  rw [concat_eq_append] at isLast
  obtain ⟨mem, holds⟩ := (mem_vals isVals val).mp (isLast ▸ mem_append_right _ (mem_singleton_self val))
  have sorted : order.Sorted (rest ++ [val]) := by
    rw [← isLast, ← isVals]
    exact s.sorted.filter _
  rw [isLast, lastAddr_append]
  refine ⟨iff_of_false (s.node_nonnull mem) fun none => none val mem holds,
    fun _ => ⟨val, mem, rfl, holds, fun other member' holds' => ?_⟩⟩
  have isIn := (mem_vals isVals other).mpr ⟨member', holds'⟩
  rw [isLast, mem_append, mem_singleton] at isIn
  exact isIn.symm.imp_right fun before => (pairwise_append.mp sorted).2.2 other before val
    (mem_singleton_self val)

private theorem selects_first : s.Selects p (fun a b => order.cmp b a < 0) (firstAddr vals 0) := by
  cases isFirst : vals with
  | nil => exact selects_null isVals isFirst _
  | cons val rest =>
    obtain ⟨mem, holds⟩ := (mem_vals isVals val).mp (isFirst ▸ .head _)
    have sorted : order.Sorted (val :: rest) := by
      rw [← isFirst, ← isVals]
      exact s.sorted.filter _
    refine ⟨iff_of_false (s.node_nonnull mem) fun none => none val mem holds,
      fun _ => ⟨val, mem, rfl, holds, fun other member' holds' => ?_⟩⟩
    have isIn := (mem_vals isVals other).mpr ⟨member', holds'⟩
    rw [isFirst, mem_cons] at isIn
    exact isIn.imp_right fun after => (pairwise_cons.mp sorted).1 other after

end Ends

/-- The nodes on the two sides of a key are the nearest ones, whether the key is present or not. -/
theorem nearest2p_nearest (key : α) :
    ∃ result, Returns (fun fuel => nearest2p order.cmp key s.heap fuel s.root) result ∧
      s.Selects (fun slot => order.cmp slot key < 0) (fun a b => order.cmp a b < 0) result.below ∧
      s.Selects (fun slot => order.cmp key slot = 0) (fun _ _ => False) result.equal ∧
      s.Selects (fun slot => 0 < order.cmp slot key) (fun a b => order.cmp b a < 0) result.above := by
  have returns := nearestLoop_spec s.held.focused.subtree (s.sorted.cuts (order.probe key)) 0 0
  rw [← s.held.root_eq] at returns
  refine ⟨_, returns, ?_, ?_, ?_⟩
  · simp only [order.swap _ key]
    exact selects_last rfl
  · obtain ⟨absent, present⟩ := selects_last (s := s) (p := fun slot => order.cmp key slot = 0) rfl
    refine ⟨absent, fun some => ?_⟩
    obtain ⟨val, member, isNode, equal, others⟩ := present some
    refine ⟨val, member, isNode, equal, fun other member' equal' =>
      .inl ((others other member' equal').resolve_right ?_)⟩
    have back := order.trans val.2 key other.2 (not_lt.mp fun above => ?_) (le_of_eq equal')
    · exact fun less => not_lt.mpr back ((order.swap _ _).mp less)
    · have := (order.swap key val.2).mpr above
      omega
  · simp only [← order.swap key]
    exact selects_first rfl

end OrderedTree

end Culibs.Cucon.Rbtree
