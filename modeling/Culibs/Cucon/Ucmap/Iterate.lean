import Culibs.Cucon.Ucmap.Observe

namespace Culibs.Cucon

open List BitVec

namespace Ucmap

variable {σ : Type}

/-- `!_node_has_value(M) || cu_call(f, _node_key(M), _node_value(M))`. -/
def callNode (f : Word → Word → σ → Bool × σ) (key : Word) (hasValue : Bool) (value : Word) (state : σ) : Bool × σ :=
  if hasValue then f key value state else (true, state)

/-- `cucon_ucmap_iterA`, with a callback that may keep a state. -/
def iterA (f : Word → Word → σ → Bool × σ) : Ucmap → σ → Bool × σ
  | null, state => (true, state)
  | node key hasValue value left right, state =>
    let inLeft := iterA f left state
    if !inLeft.1 then inLeft
    else
      let called := callNode f key hasValue value inLeft.2
      if !called.1 then called else iterA f right called.2

/-- `_iterA_above`. -/
def iterAAbove (f : Word → Word → σ → Bool × σ) (kMin : Word) : Ucmap → σ → Bool × σ
  | null, state => (true, state)
  | node key hasValue value left right, state =>
    if key < kMin then iterAAbove f kMin right state
    else
      let inLeft := iterAAbove f kMin left state
      if !inLeft.1 then inLeft
      else
        let called := callNode f key hasValue value inLeft.2
        if !called.1 then called else iterA f right called.2

/-- `_iterA_below`. -/
def iterABelow (f : Word → Word → σ → Bool × σ) (kMax : Word) : Ucmap → σ → Bool × σ
  | null, state => (true, state)
  | node key hasValue value left right, state =>
    if key > kMax then iterABelow f kMax left state
    else
      let inLeft := iterA f left state
      if !inLeft.1 then inLeft
      else
        let called := callNode f key hasValue value inLeft.2
        if !called.1 then called else iterABelow f kMax right called.2

/-- The loop of `cucon_ucmap_iterA_clipped` for `k_min <= k_max`. -/
def iterABetween (f : Word → Word → σ → Bool × σ) (kMin kMax : Word) : Ucmap → σ → Bool × σ
  | null, state => (true, state)
  | node key hasValue value left right, state =>
    if key < kMin then iterABetween f kMin kMax right state
    else if key > kMax then iterABetween f kMin kMax left state
    else
      let inLeft := iterAAbove f kMin left state
      if !inLeft.1 then inLeft
      else
        let called := callNode f key hasValue value inLeft.2
        if !called.1 then called else iterABelow f kMax right called.2

/-- `cucon_ucmap_iterA_clipped`. -/
def iterAClipped (f : Word → Word → σ → Bool × σ) (map : Ucmap) (kMin kMax : Word) (state : σ) : Bool × σ :=
  if kMin ≤ kMax then iterABetween f kMin kMax map state
  else
    let below := iterABelow f kMax map state
    if !below.1 then below else iterAAbove f kMin map below.2

/-- The loop of `cucon_ucmap_clipped_card` for `k_min <= k_max`. -/
def cardBetween (kMin kMax : Word) (count : Nat) : Ucmap → Nat
  | null => count
  | node key hasValue _ left right =>
    if key < kMin then cardBetween kMin kMax count right
    else if key > kMax then cardBetween kMin kMax count left
    else
      let count := if hasValue then count + 1 else count
      cardBetween kMin kMax (count + cardBetween kMin kMax 0 left) right

/-- `cucon_ucmap_clipped_card`. -/
def clippedCard (map : Ucmap) (kMin kMax : Word) : Nat :=
  if kMin ≤ kMax then cardBetween kMin kMax 0 map
  else cardBetween kMin (allOnes 64) 0 map + cardBetween 0 kMax 0 map

/-- Calls on a list of elements until the first false. -/
def callAll (f : Word → Word → σ → Bool × σ) : List Element → σ → Bool × σ
  | [], state => (true, state)
  | (key, value) :: rest, state =>
    let called := f key value state
    if !called.1 then called else callAll f rest called.2

/-- A key is in the interval, which goes on at zero where it wraps. -/
def InRange (kMin kMax k : Word) : Prop :=
  if kMin ≤ kMax then kMin ≤ k ∧ k ≤ kMax else k ≤ kMax ∨ kMin ≤ k

instance InRange.decidable (kMin kMax k : Word) : Decidable (InRange kMin kMax k) :=
  inferInstanceAs (Decidable (if kMin ≤ kMax then kMin ≤ k ∧ k ≤ kMax else k ≤ kMax ∨ kMin ≤ k))

variable (f : Word → Word → σ → Bool × σ) {t : Ucmap} {low high : Nat}

theorem callAll_append (first second : List Element) (state : σ) : callAll f (first ++ second) state =
    if !(callAll f first state).1 then callAll f first state else callAll f second (callAll f first state).2 := by
  induction first generalizing state with
  | nil => rfl
  | cons element first ih =>
    obtain ⟨key, value⟩ := element
    rw [List.cons_append, callAll, callAll]
    by_cases stopped : (!(f key value state).1) = true
    · simp [stopped]
    · simp only [stopped, Bool.false_eq_true, if_false]
      exact ih _

private theorem callNode_eq (key : Word) (hasValue : Bool) (value : Word) (state : σ) :
    callNode f key hasValue value state = callAll f (if hasValue then [(key, value)] else []) state := by
  cases hasValue with
  | false => rfl
  | true =>
    simp only [callNode, if_true, callAll]
    cases stopped : (f key value state).1 with
    | false => rfl
    | true => exact Prod.ext stopped rfl

theorem callAll_node (before after : List Element) (key : Word) (hasValue : Bool) (value : Word) (state : σ) :
    (let inLeft := callAll f before state
      if !inLeft.1 then inLeft
      else
        let called := callNode f key hasValue value inLeft.2
        if !called.1 then called else callAll f after called.2) =
      callAll f (before ++ (if hasValue then [(key, value)] else []) ++ after) state := by
  simp [callAll_append, callNode_eq]

theorem iterA_eq (t : Ucmap) (state : σ) : iterA f t state = callAll f (bindings t) state := by
  induction t generalizing state with
  | null => rfl
  | node key hasValue value left right ihLeft ihRight =>
    rw [bindings, ← callAll_node, iterA]
    simp only [ihLeft, ihRight]

section Filter

variable {key value : Word} {hasValue : Bool} {left right : Ucmap} {p : Word → Bool}

theorem filter_all {elements : List Element} (kept : ∀ b ∈ elements, p b.1 = true) :
    elements.filter (fun b => p b.1) = elements := filter_eq_self.mpr kept

theorem filter_none {elements : List Element} (out : ∀ b ∈ elements, p b.1 = false) :
    elements.filter (fun b => p b.1) = [] :=
  filter_eq_nil_iff.mpr fun b mem => by simp [out b mem]

theorem filter_bindings (p : Word → Bool) (key : Word) (hasValue : Bool) (value : Word) (left right : Ucmap) :
    (bindings (node key hasValue value left right)).filter (fun b => p b.1) =
      (bindings left).filter (fun b => p b.1) ++ (if p key && hasValue then [(key, value)] else []) ++
        (bindings right).filter (fun b => p b.1) := by
  rw [bindings]
  cases hasValue <;> cases kept : p key <;> simp [kept]

theorem filter_before (wf : Wf (node key hasValue value left right) low high)
    (before : ∀ x, x ≤ key → p x = false) :
    (bindings (node key hasValue value left right)).filter (fun b => p b.1) =
      (bindings right).filter (fun b => p b.1) := by
  rw [filter_bindings, filter_none fun b mem => before _ (BitVec.le_of_lt (wf.bindings_left_lt mem)),
    before key (BitVec.le_refl key)]
  rfl

theorem filter_after (wf : Wf (node key hasValue value left right) low high)
    (after : ∀ x, key ≤ x → p x = false) :
    (bindings (node key hasValue value left right)).filter (fun b => p b.1) =
      (bindings left).filter (fun b => p b.1) := by
  have out : (bindings right).filter (fun b => p b.1) = [] :=
    filter_none fun b mem => after _ (BitVec.le_of_lt (wf.lt_bindings_right mem))
  rw [filter_bindings, out, after key (BitVec.le_refl key)]
  simp

end Filter

/-- The keys from a lower bound on, up to an upper bound, and between two bounds. -/
theorem iterAAbove_eq (wf : Wf t low high) (kMin : Word) (state : σ) :
    iterAAbove f kMin t state = callAll f ((bindings t).filter (fun b => decide (kMin ≤ b.1))) state := by
  induction t generalizing low high state with
  | null => rfl
  | node key hasValue value left right ihLeft ihRight =>
    rw [iterAAbove]
    by_cases before : key < kMin
    · rw [if_pos before, ihRight wf.2.2.2.1, filter_before (p := fun k => decide (kMin ≤ k)) wf]
      intro x within
      simp only [lt_def, le_def, decide_eq_false_iff_not] at *
      omega
    have here : kMin ≤ key := by
      simp only [lt_def, le_def] at *
      omega
    have above : (bindings right).filter (fun b => decide (kMin ≤ b.1)) = bindings right := by
      refine filter_all (p := fun k => decide (kMin ≤ k)) fun b mem => ?_
      have := wf.lt_bindings_right mem
      simp only [lt_def, le_def, decide_eq_true_iff] at *
      omega
    rw [if_neg before, filter_bindings (fun k => decide (kMin ≤ k)), above, decide_eq_true here, Bool.true_and,
      ← callAll_node]
    simp only [ihLeft wf.2.2.1, iterA_eq]

theorem iterABelow_eq (wf : Wf t low high) (kMax : Word) (state : σ) :
    iterABelow f kMax t state = callAll f ((bindings t).filter (fun b => decide (b.1 ≤ kMax))) state := by
  induction t generalizing low high state with
  | null => rfl
  | node key hasValue value left right ihLeft ihRight =>
    rw [iterABelow]
    by_cases after : key > kMax
    · rw [if_pos after, ihLeft wf.2.2.1, filter_after (p := fun k => decide (k ≤ kMax)) wf]
      intro x within
      simp only [gt_iff_lt, lt_def, le_def, decide_eq_false_iff_not] at *
      omega
    have here : key ≤ kMax := by
      simp only [gt_iff_lt, lt_def, le_def] at *
      omega
    have below : (bindings left).filter (fun b => decide (b.1 ≤ kMax)) = bindings left := by
      refine filter_all (p := fun k => decide (k ≤ kMax)) fun b mem => ?_
      have := wf.bindings_left_lt mem
      simp only [lt_def, le_def, decide_eq_true_iff] at *
      omega
    rw [if_neg after, filter_bindings (fun k => decide (k ≤ kMax)), below, decide_eq_true here, Bool.true_and,
      ← callAll_node]
    simp only [ihRight wf.2.2.2.1, iterA_eq]

theorem iterABetween_eq (wf : Wf t low high) (kMin kMax : Word) (state : σ) (count : Nat) :
    iterABetween f kMin kMax t state =
        callAll f ((bindings t).filter (fun b => decide (kMin ≤ b.1 ∧ b.1 ≤ kMax))) state ∧
      cardBetween kMin kMax count t =
        count + ((bindings t).filter (fun b => decide (kMin ≤ b.1 ∧ b.1 ≤ kMax))).length := by
  induction t generalizing low high state count with
  | null => exact ⟨rfl, rfl⟩
  | node key hasValue value left right ihLeft ihRight =>
    rw [iterABetween, cardBetween]
    by_cases before : key < kMin
    · rw [if_pos before, if_pos before, filter_before (p := fun k => decide (kMin ≤ k ∧ k ≤ kMax)) wf]
      · exact ihRight wf.2.2.2.1 state count
      · intro x within
        simp only [lt_def, le_def, decide_eq_false_iff_not] at *
        omega
    by_cases after : key > kMax
    · rw [if_neg before, if_pos after, if_neg before, if_pos after,
        filter_after (p := fun k => decide (kMin ≤ k ∧ k ≤ kMax)) wf]
      · exact ihLeft wf.2.2.1 state count
      · intro x within
        simp only [gt_iff_lt, lt_def, le_def, decide_eq_false_iff_not] at *
        omega
    · have here : kMin ≤ key ∧ key ≤ kMax := by
        simp only [gt_iff_lt, lt_def, le_def] at *
        omega
      have inLeft : (bindings left).filter (fun b => decide (kMin ≤ b.1 ∧ b.1 ≤ kMax)) =
          (bindings left).filter (fun b => decide (kMin ≤ b.1)) := by
        apply filter_congr
        intro b mem
        have := wf.bindings_left_lt mem
        simp only [lt_def, le_def, decide_eq_decide] at *
        omega
      have inRight : (bindings right).filter (fun b => decide (kMin ≤ b.1 ∧ b.1 ≤ kMax)) =
          (bindings right).filter (fun b => decide (b.1 ≤ kMax)) := by
        apply filter_congr
        intro b mem
        have := wf.lt_bindings_right mem
        simp only [lt_def, le_def, decide_eq_decide] at *
        omega
      rw [if_neg before, if_neg after, if_neg before, if_neg after]
      have split := filter_bindings (fun k => decide (kMin ≤ k ∧ k ≤ kMax)) key hasValue value left right
      rw [decide_eq_true here, Bool.true_and] at split
      constructor
      · rw [split, inLeft, inRight, ← callAll_node]
        simp only [iterAAbove_eq f wf.2.2.1, iterABelow_eq f wf.2.2.2.1]
      · simp only [(ihLeft wf.2.2.1 state 0).2, (ihRight wf.2.2.2.1 state _).2]
        rw [split]
        cases hasValue <;> simp <;> omega

/-- The bindings in an interval, the part up to `kMax` first where it wraps. -/
def clipped (map : Ucmap) (kMin kMax : Word) : List Element :=
  if kMin ≤ kMax then (bindings map).filter (fun b => decide (kMin ≤ b.1 ∧ b.1 ≤ kMax))
  else (bindings map).filter (fun b => decide (b.1 ≤ kMax)) ++ (bindings map).filter (fun b => decide (kMin ≤ b.1))

section

variable (wf : Wf t low high)

include wf

private theorem iterAClipped_eq (kMin kMax : Word) (state : σ) :
    iterAClipped f t kMin kMax state = callAll f (clipped t kMin kMax) state := by
  rw [iterAClipped, clipped]
  split
  · exact (iterABetween_eq f wf kMin kMax state 0).1
  · rw [callAll_append]
    simp only [iterABelow_eq f wf, iterAAbove_eq f wf]

theorem clippedCard_eq (kMin kMax : Word) : clippedCard t kMin kMax = (clipped t kMin kMax).length := by
  have count (kMin kMax : Word) : cardBetween kMin kMax 0 t =
      ((bindings t).filter (fun b => decide (kMin ≤ b.1 ∧ b.1 ≤ kMax))).length :=
    ((iterABetween_eq (fun _ _ state => (true, state)) wf kMin kMax () 0).2).trans (zero_add _)
  rw [clippedCard, clipped]
  split
  · exact count kMin kMax
  have upper : (fun b : Element => decide (kMin ≤ b.1 ∧ b.1 ≤ allOnes 64)) =
      fun b => decide (kMin ≤ b.1) := by
    funext b
    refine decide_eq_decide.mpr (and_iff_left ?_)
    rw [le_def, show (allOnes 64).toNat = 2 ^ 64 - 1 by rfl]
    omega
  have lower : (fun b : Element => decide (0 ≤ b.1 ∧ b.1 ≤ kMax)) = fun b => decide (b.1 ≤ kMax) := by
    funext b
    exact decide_eq_decide.mpr (and_iff_right (le_def.mpr (Nat.zero_le _)))
  rw [count, count, upper, lower, length_append, Nat.add_comm]

theorem mem_clipped_iff (kMin kMax k v : Word) :
    (k, v) ∈ clipped t kMin kMax ↔ lookup t k = some v ∧ InRange kMin kMax k := by
  rw [← mem_bindings_iff wf, clipped, InRange]
  split
  · rw [mem_filter, decide_eq_true_iff]
  · rw [mem_append, mem_filter, mem_filter, decide_eq_true_iff, decide_eq_true_iff, ← and_or_left]

theorem clipped_ascending (kMin kMax : Word) : Ascending (clipped t kMin kMax) := by
  have ascending := bindings_ascending wf
  rw [clipped]
  split
  · exact ascending.filter _
  · next wraps =>
    refine pairwise_append.mpr ⟨ascending.filter _, ascending.filter _, fun a memberA b memberB => ?_⟩
    have lower := of_decide_eq_true (mem_filter.mp memberA).2
    have upper := of_decide_eq_true (mem_filter.mp memberB).2
    simp only [lt_def, le_def] at *
    omega

private theorem clippedCard_add (kMin kMax kMin' kMax' : Word)
    (partition : ∀ x, InRange kMin' kMax' x ↔ ¬ InRange kMin kMax x) :
    clippedCard t kMin kMax + clippedCard t kMin' kMax' = card t := by
  have select (kMin kMax : Word) :
      clipped t kMin kMax = (bindings t).filter (fun b => decide (InRange kMin kMax b.1)) := by
    refine (clipped_ascending wf kMin kMax).ext ((bindings_ascending wf).filter _) fun x v => ?_
    rw [mem_clipped_iff wf, mem_filter, mem_bindings_iff wf, decide_eq_true_iff]
  have rest : (fun b : Element => decide (InRange kMin' kMax' b.1)) =
      fun b => !decide (InRange kMin kMax b.1) := by
    funext b
    rw [← decide_not, decide_eq_decide]
    exact partition b.1
  rw [clippedCard_eq wf, clippedCard_eq wf, select, select, rest, card_eq,
    length_eq_length_filter_add (l := bindings t) (fun b => decide (InRange kMin kMax b.1))]

end

end Ucmap

namespace UcmapTrie

open Ucmap

/-- Clipped iteration calls the function on the bindings in the interval in ascending
order, which has the lower part of a wrapped interval first, and stops at the first
false. The clipped cardinality is their number. -/
theorem iterA_clipped (map : UcmapTrie) (kMin kMax : Word) :
    (∃ calls : List Element, Ascending calls ∧
      (∀ k v, (k, v) ∈ calls ↔ find map.tree k = some v ∧ InRange kMin kMax k) ∧
      (∀ (σ : Type) (f : Word → Word → σ → Bool × σ) (state : σ),
        iterAClipped f map.tree kMin kMax state = callAll f calls state) ∧
      clippedCard map.tree kMin kMax = calls.length) ∧
    ((∀ x, InRange (kMax + 1) (kMin - 1) x ↔ ¬ InRange kMin kMax x) →
      clippedCard map.tree kMin kMax + clippedCard map.tree (kMax + 1) (kMin - 1) = card map.tree) := by
  refine ⟨⟨clipped map.tree kMin kMax, clipped_ascending map.wf kMin kMax, fun k v => ?_,
    fun σ f state => iterAClipped_eq f map.wf kMin kMax state, clippedCard_eq map.wf kMin kMax⟩,
    clippedCard_add map.wf kMin kMax _ _⟩
  rw [map.wf.find_eq, mem_clipped_iff map.wf]

theorem iterA_clipped_pair : (∀ x, InRange 6 1 x ↔ ¬ InRange 2 5 x) ∧
    clippedCard (build [.insert 1 5, .insert 3 7]) 2 5 + clippedCard (build [.insert 1 5, .insert 3 7]) 6 1 =
      card (build [.insert 1 5, .insert 3 7]) := by
  have partition (x : Word) : InRange 6 1 x ↔ ¬ InRange 2 5 x := by
    simp only [InRange, le_def]
    simp
    omega
  exact ⟨partition, (iterA_clipped ⟨_, build_wf [.insert 1 5, .insert 3 7]⟩ 2 5).2 partition⟩

end UcmapTrie

end Culibs.Cucon
