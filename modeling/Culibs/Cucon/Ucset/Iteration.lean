import Culibs.Cucon.Ucset.Canonical

namespace Culibs.Cucon

open Cu List BitVec Bool Nat

namespace Ucset

open DyadicBlock

variable {σ : Type}

/-- `cucon_ucset_iter`. The loop over a leaf runs while `++k & BITSET_MASK`. -/
def iter (f : Word → σ → σ) (node : Ucset) (state : σ) : σ :=
  if _nonnull : node = null then state
  else
    let key := ucnodeKey node
    if keyIsLeaflike key then
      (range 128).foldl (fun state i =>
        let k := (key &&& ~~~bitsetMask) + BitVec.ofNat 64 i
        if ucleafFind node k then f k state else state) state
    else
      let state := iter f node.left state
      let state := if hasKey node then f key state else state
      iter f node.right state
termination_by node.size
decreasing_by
  · exact size_left_lt _nonnull
  · exact size_right_lt _nonnull

/-- The words that `cucon_ucset_iter` passes to its callback. -/
def iterated (node : Ucset) : List Word := iter (fun key passed => passed ++ [key]) node []

/-- `cucon_ucset_itr_size`, with the header and one slot of `struct cucon_ucset_itr`
in 16 bytes. -/
def itrSize (set : Ucset) : Nat :=
  if set = null then 16 - 8
  else
    let key := ucnodeKey set
    let l := if keyIsLeaflike key then 1 else log2Lowbit key - 7 + 2
    16 + (l - 1) * 8

/-- The slots of `node_stack` in a block of that size. -/
def itrCapacity (set : Ucset) : Nat := (itrSize set - 8) / 8

section Checked

variable (capacity : Nat)

/-- `itrDescend`, where each `node_stack[++sp]` is inside the capacity. -/
def itrDescendIn (node : Ucset) (below : List Ucset) (pos : Int) : Option Itr :=
  if _inner : keyIsLeaflike (ucnodeKey node) then
    some { stack := node :: below, pos := itrResetLeaf node pos }
  else if node.left = null then some { stack := node :: below, pos }
  else if below.length + 1 < capacity then itrDescendIn node.left (node :: below) pos
  else none
termination_by node.size
decreasing_by exact size_left_lt (ne_null_of_not_leaflike _inner)

def itrInitIn (set : Ucset) : Option Itr :=
  if set = null then some { stack := [], pos := -1 }
  else if 0 < capacity then itrDescendIn capacity set [] (-1)
  else none

def itrLeaveIn (node : Ucset) (below : List Ucset) (pos : Int) : Option Itr :=
  match itrAscend node below with
  | [] => some { stack := [], pos }
  | parent :: below =>
    if !hasKey parent then
      if below.length + 1 < capacity then itrDescendIn capacity parent.right (parent :: below) pos
      else none
    else some { stack := parent :: below, pos }

/-- `itrGet` with the same checks. -/
def itrGetIn (itr : Itr) : Option (Word × Itr) :=
  match itr.stack with
  | [] => none
  | top :: below =>
    let key := ucnodeKey top
    if keyIsLeaflike key then
      let res := key - 64 + BitVec.ofInt 64 itr.pos
      let pos := itr.pos + 1
      match nextBit top.bitset pos.toNat with
      | some next => some (res, { itr with pos := next })
      | none => (itrLeaveIn capacity top below pos).map (Prod.mk res)
    else if top.right ≠ null then
      if below.length + 1 < capacity then
        (itrDescendIn capacity top.right (top :: below) itr.pos).map (Prod.mk key)
      else none
    else (itrLeaveIn capacity top below itr.pos).map (Prod.mk key)

/-- The words from calls of `itrGetIn` until `itrAtEnd`, if that takes no more
calls than the fuel. -/
def itrDrain : Nat → Itr → Option (List Word)
  | 0, itr => if itrAtEnd itr then some [] else none
  | fuel + 1, itr =>
    if itrAtEnd itr then some []
    else (itrGetIn capacity itr).bind fun step => (itrDrain fuel step.2).map (step.1 :: ·)

end Checked

variable {t : Ucset} {low high : Nat}

theorem foldl_leaf (f : Word → σ → σ) {bitset : Bitset} (leafKey : IsLeafKey key.toNat)
    (state : σ) : (List.range 128).foldl (fun state i =>
        let k := (ucnodeKey (leaf key bitset) &&& ~~~bitsetMask) + BitVec.ofNat 64 i
        if ucleafFind (leaf key bitset) k then f k state else state) state =
      (elements (leaf key bitset)).foldl (fun state k => f k state) state := by
  have word {i : Nat} (bound : i < 128) :
      (ucnodeKey (leaf key bitset) &&& ~~~bitsetMask) + BitVec.ofNat 64 i = key - 64 + BitVec.ofNat 64 i := by
    have start := toNat_and_not_mask (key &&& ~~~1) bitsetMask toNat_bitsetMask
    have even := toNat_clear_one key
    have number := toNat_leafElement leafKey bound
    rw [toNat_eq, ucnodeKey, rawKey, toNat_add, toNat_ofNat]
    omega
  rw [elements, leafElements, foldl_map, foldl_filter]
  apply foldl_ext
  intro state i mem
  have bound := List.mem_range.mp mem
  have found : ucleafFind (leaf key bitset) (key - 64 + BitVec.ofNat 64 i) = bit bitset i := by
    rw [ucleafFind_eq, toNat_leafElement leafKey bound, ← bit_mod,
      show (128 * (key.toNat / 128) + i) % 128 = i by omega]
    rfl
  simp only [word bound, found]

theorem iter_eq (f : Word → σ → σ) (wf : Wf t low high) (state : σ) :
    iter f t state = (elements t).foldl (fun state k => f k state) state := by
  induction t generalizing low high state with
  | null =>
    rw [iter]
    simp [elements]
  | leaf key bitset =>
    rw [iter]
    simp only [reduceCtorEq, dite_false, wf.leaf_leaflike, if_true]
    exact foldl_leaf f wf.1 state
  | node key left right ihLeft ihRight =>
    have inner := wf.node_not_leaflike
    obtain ⟨_, _, _, wfLeft, wfRight, _⟩ := wf
    rw [iter]
    simp only [reduceCtorEq, dite_false, inner, false_eq_true, if_false, left_node, right_node]
    rw [ihRight wfRight, ihLeft wfLeft, elements, foldl_append, foldl_append]
    congr 1
    have present := hasKey_iff (node key left right)
    have zero := and_one_eq_zero_iff key
    by_cases odd : key.toNat % 2 = 1
    · rw [if_pos (present.mpr odd), if_neg (by rw [zero]; omega)]
      rfl
    · rw [if_neg (mt present.mp odd), if_pos (by rw [zero]; omega)]
      rfl

private theorem iterated_eq (wf : Wf t low high) : iterated t = elements t := by
  have appended (l passed : List Word) : l.foldl (fun passed k => passed ++ [k]) passed = passed ++ l := by
    induction l generalizing passed with
    | nil => simp
    | cons x l ih => rw [foldl_cons, ih, List.append_assoc, singleton_append]
  rw [iterated, iter_eq _ wf, appended, nil_append]

section Depth

/-- The stack goes down to the root. -/
def Rooted (root : Ucset) (itr : Itr) : Prop := itr.stack = [] ∨ [root] <:+ itr.stack

private theorem rad_eq_lowbit {x : Word} (nonzero : x.toNat ≠ 0) : rad 64 x.toNat = 2 ^ log2Lowbit x := by
  obtain ⟨t, bound, value⟩ := rad_eq_two_pow 64 x.toNat
  have divides : 2 ^ t ∣ x.toNat := value ▸ rad_dvd 64 x.toNat
  have lowest := (log2Lowbit_spec x fun zero => nonzero (congrArg BitVec.toNat zero)).1
  have least : 2 ^ log2Lowbit x ∣ rad 64 x.toNat :=
    Nat.dvd_gcd ((two_pow_dvd_iff nonzero _).mpr (le_rfl)) (pow_dvd_pow 2 (by omega))
  rw [value] at least ⊢
  have upper := (two_pow_dvd_iff nonzero t).mp divides
  have lower := (pow_dvd_pow_iff_le_right (by omega)).mp least
  rw [le_antisymm upper lower]

/-- The iterator is allocated with a slot for each halving from the root to a leaf. -/
theorem rad_capacity (wf : Wf t low high) (nonnull : t ≠ null) :
    rad 64 t.centre = 2 ^ (itrCapacity t + 5) ∧ 0 < itrCapacity t := by
  cases t with
  | null => exact absurd rfl nonnull
  | leaf key bitset =>
    have slots : itrCapacity (leaf key bitset) = 1 := by
      simp [itrCapacity, itrSize, wf.leaf_leaflike]
    rw [centre_leaf wf.1, rad_leafKey wf.1, slots]
    exact ⟨rfl, one_pos⟩
  | node key left right =>
    have inner := wf.node_not_leaflike
    have nodeKey := wf.1
    rw [← centre_node key left right] at nodeKey
    have slots : itrCapacity (node key left right) = log2Lowbit (ucnodeKey (node key left right)) - 7 + 2 := by
      simp only [itrCapacity, itrSize, reduceCtorEq, if_false, inner, false_eq_true]
      omega
    have deep : 7 ≤ log2Lowbit (ucnodeKey (node key left right)) :=
      (two_pow_dvd_iff nodeKey.2 7).mp (dvd_of_mod_eq_zero nodeKey.1)
    rw [slots]
    refine ⟨(rad_eq_lowbit nodeKey.2).trans ?_, by omega⟩
    rw [show log2Lowbit (ucnodeKey (node key left right)) - 7 + 2 + 5 =
      log2Lowbit (ucnodeKey (node key left right)) by omega]

theorem Wf.rad_child {left right child : Ucset} (wf : Wf (node key left right) low high)
    (nonnull : child ≠ null) (side : child = left ∨ child = right) :
    2 * rad 64 child.centre ≤ rad 64 (node key left right).centre := by
  obtain ⟨nodeKey, _, _, wfLeft, wfRight, _⟩ := wf
  rw [centre_node]
  have whole := lo_add_rad (w := 64) (pos_of_ne_zero nodeKey.2)
  have pos {l h : Nat} (wf : Wf child l h) : lo 64 child.centre + rad 64 child.centre = child.centre := by
    have trie := (wf.block nonnull).1
    refine lo_add_rad (pos_of_ne_zero ?_)
    simp only [IsTrieKey, IsLeafKey, IsNodeKey] at trie
    omega
  rcases side with rfl | rfl
  · have block := wfLeft.block nonnull
    have half := pos wfLeft
    simp only [hi] at block
    omega
  · have block := wfRight.block nonnull
    have half := pos wfRight
    simp only [hi] at block
    omega

variable {capacity : Nat} {child : Ucset} {below : List Ucset}

/-- A node on the stack is smaller than the root by a half for each node below it. -/
theorem Path.rad_le (path : Path child below) (root : [t] <:+ child :: below) :
    t ≠ null ∧ rad 64 child.centre * 2 ^ below.length ≤ rad 64 t.centre := by
  induction below generalizing child with
  | nil =>
    obtain rfl := singleton_inj.mp (root.eq_of_length rfl)
    exact ⟨path.1, (mul_one _).le⟩
  | cons parent below ih =>
    obtain ⟨nonnull, ⟨key, left, right, rfl, side⟩, above⟩ := path
    obtain ⟨low, high, wf⟩ := above.wf
    obtain ⟨some, larger⟩ := ih above ((suffix_cons_iff.mp root).resolve_left nofun)
    refine ⟨some, le_trans ?_ larger⟩
    rw [length_cons, pow_succ', ← mul_assoc, mul_comm (rad 64 child.centre) 2]
    exact mul_le_mul_right _ (wf.rad_child nonnull side)

theorem Rooted.fits (rooted : Rooted t itr) (wf : Wf t low high) (valid : itr.Valid) :
    itr.stack.length ≤ itrCapacity t := by
  obtain ⟨stack, pos⟩ := itr
  cases stack with
  | nil => exact zero_le _
  | cons top below =>
    obtain ⟨path, _⟩ := valid
    obtain ⟨some, larger⟩ := path.rad_le (rooted.resolve_left nofun)
    obtain ⟨_, _, topWf⟩ := path.wf
    have smallest : 2 ^ 6 ≤ rad 64 top.centre := by
      rcases (topWf.block path.ne_null).1 with leafKey | nodeKey
      · exact (rad_leafKey leafKey).ge
      · have := le_of_dvd (rad_pos 64 top.centre) (rad_nodeKey nodeKey)
        omega
    have bounded : 2 ^ (6 + below.length) ≤ 2 ^ (itrCapacity t + 5) := by
      rw [pow_add, ← (rad_capacity wf some).1]
      exact (mul_le_mul_right _ smallest).trans larger
    have := (Nat.pow_le_pow_iff_right (by omega)).mp bounded
    rw [length_cons]
    omega

/-- Only pushes are checked, so the checks pass if the stack that comes out fits. -/
theorem descendIn_eq (child : Ucset) (below : List Ucset) (pos : Int) :
    child :: below <:+ (itrDescend child below pos).stack ∧
      ((itrDescend child below pos).stack.length ≤ capacity →
        itrDescendIn capacity child below pos = some (itrDescend child below pos)) := by
  fun_induction itrDescend child below pos with
  | case1 child below leaflike => exact ⟨suffix_rfl, fun _ => by rw [itrDescendIn, dif_pos leaflike]⟩
  | case2 child below inner empty =>
    exact ⟨suffix_rfl, fun _ => by rw [itrDescendIn, dif_neg inner, if_pos empty]⟩
  | case3 child below inner nonnull ih =>
    obtain ⟨pushed, checked⟩ := ih
    refine ⟨(suffix_cons ..).trans pushed, fun fits => ?_⟩
    rw [itrDescendIn, dif_neg inner, if_neg nonnull]
    exact (if_pos (pushed.length_le.trans fits)).trans (checked fits)

private theorem itrAscend_suffix (child : Ucset) (below : List Ucset) : itrAscend child below <:+ below := by
  fun_induction itrAscend child below with
  | case1 | case3 => exact suffix_rfl
  | case2 _ _ ih => exact ih.trans (suffix_cons ..)

theorem leaveIn_eq (root : [t] <:+ child :: below) (pos : Int) : Rooted t (itrLeave child below pos) ∧
    ((itrLeave child below pos).stack.length ≤ capacity →
      itrLeaveIn capacity child below pos = some (itrLeave child below pos)) := by
  have popped := (itrAscend_suffix child below).trans (suffix_cons child below)
  rw [itrLeave, itrLeaveIn]
  cases ascended : itrAscend child below with
  | nil => exact ⟨.inl rfl, fun _ => rfl⟩
  | cons parent below =>
    have kept : [t] <:+ parent :: below := suffix_of_suffix_length_le root (ascended ▸ popped) (Nat.le_add_left ..)
    dsimp only
    split
    · obtain ⟨pushed, checked⟩ := descendIn_eq parent.right (parent :: below) pos
      exact ⟨.inr (kept.trans ((suffix_cons ..).trans pushed)), fun fits =>
        (if_pos (pushed.length_le.trans fits)).trans (checked fits)⟩
    · exact ⟨.inr kept, fun _ => rfl⟩

theorem getIn_eq (rooted : Rooted t itr) (running : itrAtEnd itr = false) : Rooted t (itrGet itr).2 ∧
    ((itrGet itr).2.stack.length ≤ capacity → itrGetIn capacity itr = some (itrGet itr)) := by
  obtain ⟨stack, pos⟩ := itr
  cases stack with
  | nil => simp [itrAtEnd] at running
  | cons top below =>
    have root : [t] <:+ top :: below := rooted.resolve_left (cons_ne_nil _ _)
    have left (key : Word) (pos : Int) : Rooted t (itrLeave top below pos) ∧
        ((itrLeave top below pos).stack.length ≤ capacity →
          (itrLeaveIn capacity top below pos).map (Prod.mk key) = some (key, itrLeave top below pos)) :=
      (leaveIn_eq root pos).imp_right fun checked fits => by rw [checked fits, Option.map_some]
    rw [itrGetIn, itrGet]
    dsimp only
    split
    · cases nextBit top.bitset (pos + 1).toNat with
      | some next => exact ⟨rooted, fun _ => rfl⟩
      | none => exact left ..
    split
    · obtain ⟨pushed, checked⟩ := descendIn_eq top.right (top :: below) pos
      refine ⟨.inr (root.trans ((suffix_cons ..).trans pushed)), fun fits => ?_⟩
      exact (if_pos (pushed.length_le.trans fits)).trans (by rw [checked fits, Option.map_some])
    · exact left ..

private theorem initIn_eq (wf : Wf t low high) :
    Rooted t (itrInit t) ∧ itrInitIn (itrCapacity t) t = some (itrInit t) := by
  have valid := (itrInit_spec wf).1
  rw [itrInitIn]
  rw [itrInit] at valid ⊢
  split
  · exact ⟨.inl rfl, rfl⟩
  · next nonnull =>
    rw [if_neg nonnull] at valid
    obtain ⟨pushed, checked⟩ := descendIn_eq t [] (-1)
    rw [if_pos (rad_capacity wf nonnull).2]
    exact ⟨.inr pushed, checked (Rooted.fits (.inr pushed) wf valid)⟩

private theorem drain_eq (wf : Wf t low high) (valid : itr.Valid) (rooted : Rooted t itr) (fuel : Nat)
    (enough : (pending itr).length ≤ fuel) : itrDrain (itrCapacity t) fuel itr = some (pending itr) := by
  induction fuel generalizing itr with
  | zero =>
    have empty : pending itr = [] := length_eq_zero_iff.mp (le_zero.mp enough)
    rw [itrDrain, if_pos ((itrAtEnd_iff valid).mpr empty), empty]
  | succ fuel ih =>
    rw [itrDrain]
    cases ended : itrAtEnd itr with
    | true => rw [(itrAtEnd_iff valid).mp ended, if_pos rfl]
    | false =>
      obtain ⟨valid', first⟩ := itrGet_spec valid ended
      obtain ⟨rooted', checked⟩ := getIn_eq rooted ended
      rw [first, length_cons] at enough
      rw [checked (rooted'.fits wf valid'), Option.bind_some, ih valid' rooted' (by omega), first]
      rfl

end Depth

end Ucset

namespace UcsetTrie

open Ucset

/-- The iterator, in a block of the size computed for it, gives the words that the
iteration passes to its callback: the elements in increasing order. -/
theorem itr_iter (set : UcsetTrie) :
    (∀ x, x ∈ iterated set.tree ↔ find set.tree x = true) ∧
    (iterated set.tree).Pairwise (· < ·) ∧
    (∀ (σ : Type) (f : Word → σ → σ) (state : σ),
      iter f set.tree state = (iterated set.tree).foldl (fun state key => f key state) state) ∧
    ∃ itr, itrInitIn (itrCapacity set.tree) set.tree = some itr ∧
      ∀ fuel ≥ (iterated set.tree).length, itrDrain (itrCapacity set.tree) fuel itr = some (iterated set.tree) := by
  obtain ⟨valid, all⟩ := itrInit_spec set.wf
  obtain ⟨rooted, made⟩ := initIn_eq set.wf
  rw [iterated_eq set.wf]
  refine ⟨fun x => ?_, ?_, fun σ f state => iter_eq f set.wf state, itrInit set.tree, made, ?_⟩
  · rw [mem_elements set.wf, find_iff set.wf]
  · exact (elements_sorted set.wf).imp fun less => lt_def.mpr less
  · intro fuel enough
    rw [← all] at enough ⊢
    exact drain_eq set.wf valid rooted fuel enough

end UcsetTrie

end Culibs.Cucon
