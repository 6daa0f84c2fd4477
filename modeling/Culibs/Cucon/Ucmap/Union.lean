import Culibs.Cucon.Ucmap.Update

namespace Culibs.Cucon.Ucmap

open DyadicBlock Option

variable {σ : Type} {f : Word → Word → σ → Word × σ} {outcome : Word → Word → Word → Prop}
  {t0 t1 : Ucmap} {low high : Nat}

/-- A binding of the union, given the bindings of the two maps and the possible
outcomes of the closure for two values. -/
def Merged (outcome : Word → Word → Word → Prop) : Option Word → Option Word → Option Word → Prop
  | some value0, some value1, bound => ∃ value, bound = some value ∧ outcome value0 value1 value
  | some value0, none, bound => bound = some value0
  | none, bound1, bound => bound = bound1

theorem Merged.none_right (bound : Option Word) : Merged outcome bound none bound := by
  cases bound <;> rfl

variable {bound0 bound1 : Option Word}

theorem Merged.or_of_disjoint (disjoint : bound0 = none ∨ bound1 = none) :
    Merged outcome bound0 bound1 (bound0 <|> bound1) ∧ Merged outcome bound0 bound1 (bound1 <|> bound0) := by
  cases bound0 <;> cases bound1 <;> simp_all [Merged]

variable {outcome' : Word → Word → Word → Prop} {bound : Option Word}

theorem Merged.mono
    (merged : Merged outcome bound0 bound1 bound)
    (weaker : ∀ {a b v}, outcome a b v → outcome' a b v) : Merged outcome' bound0 bound1 bound := by
  cases bound0 with
  | none => exact merged
  | some value0 =>
    cases bound1 with
    | none => exact merged
    | some value1 =>
      obtain ⟨value, bound_eq, possible⟩ := merged
      exact ⟨value, bound_eq, weaker possible⟩

/-- A well-formed tree with the merged bindings of two trees. -/
structure Merges (outcome : Word → Word → Word → Prop) (t : Ucmap) (low high : Nat)
    (map0 map1 : Word → Option Word) : Prop where
  wf : Wf t low high
  lookup_eq : ∀ x, Merged outcome (map0 x) (map1 x) (lookup t x)

variable {t : Ucmap}

theorem Merges.mono
    (merges : Merges outcome t low high map0 map1) (weaker : ∀ {a b v}, outcome a b v → outcome' a b v) :
    Merges outcome' t low high map0 map1 :=
  ⟨merges.wf, fun x => (merges.lookup_eq x).mono weaker⟩

variable {map0 map1 P0 P1 Q0 Q1 : Word → Option Word} {key value : Word} {hasValue : Bool}
  {left right : Ucmap}

theorem Merges.ne_null (merges : Merges outcome t low high map0 map1)
    (bound : map0 x ≠ none ∨ map1 x ≠ none) : t ≠ null := by
  rintro rfl
  have combined := merges.lookup_eq x
  cases first : map0 x <;> cases second : map1 x <;> simp_all [Merged, lookup]

theorem Merges.ne_null_left (merges : Merges outcome t low high (lookup t0) map1)
    (wf0 : Wf t0 low high) (nonnull : t0 ≠ null) : t ≠ null := by
  obtain ⟨x, v, found⟩ := wf0.exists_lookup nonnull
  exact merges.ne_null (.inl (by rw [found]; exact some_ne_none v))

theorem Merges.ne_null_right (merges : Merges outcome t low high map0 (lookup t1))
    (wf1 : Wf t1 low high) (nonnull : t1 ≠ null) : t ≠ null := by
  obtain ⟨x, v, found⟩ := wf1.exists_lookup nonnull
  exact merges.ne_null (.inr (by rw [found]; exact some_ne_none v))

theorem Wf.merges_none_right (wf : Wf t0 low high) :
    Merges outcome t0 low high (lookup t0) (fun _ => none) := ⟨wf, fun _ => Merged.none_right _⟩

theorem Wf.merges_none_left (wf : Wf t1 low high) :
    Merges outcome t1 low high (fun _ => none) (lookup t1) := ⟨wf, fun _ => rfl⟩

/-- A node combines what its root, its left and its right subtree combine. -/
theorem node_merges (inside : low ≤ key.toNat ∧ key.toNat < high)
    (inLeft : Merges outcome left (lo 64 key.toNat + 1) key.toNat P0 P1)
    (inRight : Merges outcome right (key.toNat + 1) (hi 64 key.toNat) Q0 Q1)
    (children : hasValue = false → value = 0 ∧ left ≠ null ∧ right ≠ null)
    (root : Merged outcome (map0 key) (map1 key) (if hasValue then some value else none))
    (below : ∀ x : Word, x.toNat < key.toNat → map0 x = P0 x ∧ map1 x = P1 x)
    (above : ∀ x : Word, key.toNat < x.toNat → map0 x = Q0 x ∧ map1 x = Q1 x) :
    Merges outcome (node key hasValue value left right) low high map0 map1 := by
  refine ⟨⟨inside.1, inside.2, inLeft.wf, inRight.wf, children⟩, fun x => ?_⟩
  rcases lt_trichotomy x.toNat key.toNat with less | same | more
  · rw [lookup_of_lt less, (below x less).1, (below x less).2]
    exact inLeft.lookup_eq x
  · obtain rfl := BitVec.eq_of_toNat_eq same
    rw [lookup_root]
    exact root
  · rw [lookup_of_gt more, (above x more).1, (above x more).2]
    exact inRight.lookup_eq x

section Roots

variable {k0 k1 value0 value1 : Word} {hasValue0 hasValue1 : Bool} {left0 left1 right0 right1 : Ucmap}

theorem Wf.under_left (wf : Wf (node key hasValue value left right) low high)
    (covers : keyCovers k0 key = true) (less : key < k0) :
    Wf (node key hasValue value left right) (lo 64 k0.toNat + 1) k0.toNat :=
  ⟨((keyCovers_iff k0 key).mp covers).1, BitVec.lt_def.mp less, wf.2.2⟩

theorem Wf.under_right (wf : Wf (node key hasValue value left right) low high) (ne : ¬ k0 = key)
    (covers : keyCovers k0 key = true) (notLess : ¬ key < k0) :
    Wf (node key hasValue value left right) (k0.toNat + 1) (hi 64 k0.toNat) := by
  have apart := toNat_ne ne
  rw [BitVec.lt_def] at notLess
  exact ⟨by omega, ((keyCovers_iff k0 key).mp covers).2, wf.2.2⟩

section

variable (wf0 : Wf (node key hasValue0 value0 left0 right0) low high)

include wf0

theorem same_root_merges
    (inLeft : Merges outcome left (lo 64 key.toNat + 1) key.toNat (lookup left0) (lookup left1))
    (inRight : Merges outcome right (key.toNat + 1) (hi 64 key.toNat) (lookup right0) (lookup right1))
    (bare : hasValue = false → hasValue0 = false ∧ value = 0)
    (root : Merged outcome (if hasValue0 then some value0 else none) (if hasValue1 then some value1 else none)
      (if hasValue then some value else none)) :
    Merges outcome (node key hasValue value left right) low high
      (lookup (node key hasValue0 value0 left0 right0)) (lookup (node key hasValue1 value1 left1 right1)) := by
  obtain ⟨start, stop, wfLeft, wfRight, children⟩ := wf0
  refine node_merges ⟨start, stop⟩ inLeft inRight (fun absent => ?_) ?_ (fun x less => ?_) fun x more => ?_
  · have filled := children (bare absent).1
    exact ⟨(bare absent).2, inLeft.ne_null_left wfLeft filled.2.1, inRight.ne_null_left wfRight filled.2.2⟩
  · rwa [lookup_root, lookup_root]
  · rw [lookup_of_lt less, lookup_of_lt less]
    exact ⟨rfl, rfl⟩
  · rw [lookup_of_gt more, lookup_of_gt more]
    exact ⟨rfl, rfl⟩

theorem into_left_merges (wf1 : Wf t1 (lo 64 key.toNat + 1) key.toNat)
    (inLeft : Merges outcome left (lo 64 key.toNat + 1) key.toNat (lookup left0) (lookup t1)) :
    Merges outcome (node key hasValue0 value0 left right0) low high
      (lookup (node key hasValue0 value0 left0 right0)) (lookup t1) := by
  obtain ⟨start, stop, wfLeft, wfRight, children⟩ := wf0
  refine node_merges ⟨start, stop⟩ inLeft wfRight.merges_none_right (fun absent => ?_) ?_
    (fun x less => ⟨lookup_of_lt less, rfl⟩)
    fun x more => ⟨lookup_of_gt more, left_half_lookup wf1 (le_of_lt more)⟩
  · have filled := children absent
    exact ⟨filled.1, inLeft.ne_null_left wfLeft filled.2.1, filled.2.2⟩
  · rw [lookup_root, left_half_lookup wf1 (le_rfl)]
    exact Merged.none_right _

theorem into_right_merges (wf1 : Wf t1 (key.toNat + 1) (hi 64 key.toNat))
    (inRight : Merges outcome right (key.toNat + 1) (hi 64 key.toNat) (lookup right0) (lookup t1)) :
    Merges outcome (node key hasValue0 value0 left0 right) low high
      (lookup (node key hasValue0 value0 left0 right0)) (lookup t1) := by
  obtain ⟨start, stop, wfLeft, wfRight, children⟩ := wf0
  refine node_merges ⟨start, stop⟩ wfLeft.merges_none_right inRight (fun absent => ?_) ?_
    (fun x less => ⟨lookup_of_lt less, right_half_lookup wf1 (le_of_lt less)⟩)
    fun x more => ⟨lookup_of_gt more, rfl⟩
  · have filled := children absent
    exact ⟨filled.1, filled.2.1, inRight.ne_null_left wfRight filled.2.2⟩
  · rw [lookup_root, right_half_lookup wf1 (le_rfl)]
    exact Merged.none_right _

end

theorem onto_left_merges (wf1 : Wf (node key hasValue1 value1 left1 right1) low high)
    (wf0 : Wf t0 (lo 64 key.toNat + 1) key.toNat)
    (inLeft : Merges outcome left (lo 64 key.toNat + 1) key.toNat (lookup t0) (lookup left1)) :
    Merges outcome (node key hasValue1 value1 left right1) low high
      (lookup t0) (lookup (node key hasValue1 value1 left1 right1)) := by
  obtain ⟨start, stop, wfLeft, wfRight, children⟩ := wf1
  refine node_merges ⟨start, stop⟩ inLeft wfRight.merges_none_left (fun absent => ?_) ?_
    (fun x less => ⟨rfl, lookup_of_lt less⟩)
    fun x more => ⟨left_half_lookup wf0 (le_of_lt more), lookup_of_gt more⟩
  · have filled := children absent
    exact ⟨filled.1, inLeft.ne_null_right wfLeft filled.2.1, filled.2.2⟩
  · rw [lookup_root, left_half_lookup wf0 (le_rfl)]
    rfl

theorem onto_right_merges (wf1 : Wf (node key hasValue1 value1 left1 right1) low high)
    (wf0 : Wf t0 (key.toNat + 1) (hi 64 key.toNat))
    (inRight : Merges outcome right (key.toNat + 1) (hi 64 key.toNat) (lookup t0) (lookup right1)) :
    Merges outcome (node key hasValue1 value1 left1 right) low high
      (lookup t0) (lookup (node key hasValue1 value1 left1 right1)) := by
  obtain ⟨start, stop, wfLeft, wfRight, children⟩ := wf1
  refine node_merges ⟨start, stop⟩ wfLeft.merges_none_left inRight (fun absent => ?_) ?_
    (fun x less => ⟨right_half_lookup wf0 (le_of_lt less), lookup_of_lt less⟩)
    fun x more => ⟨rfl, lookup_of_gt more⟩
  · have filled := children absent
    exact ⟨filled.1, filled.2.1, inRight.ne_null_right wfRight filled.2.2⟩
  · rw [lookup_root, right_half_lookup wf0 (le_rfl)]
    rfl

theorem roots_disjoint (wf0 : Wf (node k0 hasValue0 value0 left0 right0) low high)
    (wf1 : Wf (node k1 hasValue1 value1 left1 right1) low high) (less : k0.toNat < k1.toNat)
    (uncovered0 : ¬ Covers 64 k0.toNat k1.toNat) (uncovered1 : ¬ Covers 64 k1.toNat k0.toNat) (x : Word) :
    lookup (node k0 hasValue0 value0 left0 right0) x = none ∨
      lookup (node k1 hasValue1 value1 left1 right1) x = none := by
  have apart := disjoint_of_not_covers k0.isLt k1.isLt less uncovered0 uncovered1
  have := lt_hi 64 k0.toNat
  have := lo_le 64 k1.toNat
  by_contra both
  rw [not_or] at both
  obtain ⟨v0, found0⟩ := ne_none_iff_exists'.mp both.1
  obtain ⟨v1, found1⟩ := ne_none_iff_exists'.mp both.2
  have block0 := wf0.hasKey_block (hasKey_of_lookup found0)
  have block1 := wf1.hasKey_block (hasKey_of_lookup found1)
  simp only [Covers, BitVec.toNat_eq] at block0 block1
  omega

theorem apart_merges (outcome : Word → Word → Word → Prop)
    (wf0 : Wf (node k0 hasValue0 value0 left0 right0) low high)
    (wf1 : Wf (node k1 hasValue1 value1 left1 right1) low high) (ne : ¬ k0 = k1)
    (uncovered0 : ¬ keyCovers k0 k1 = true) (uncovered1 : ¬ keyCovers k1 k0 = true) :
    Merges outcome (if k0 < k1 then nodeNewNoval (keyJoin k0 k1) (node k0 hasValue0 value0 left0 right0)
        (node k1 hasValue1 value1 left1 right1)
      else nodeNewNoval (keyJoin k0 k1) (node k1 hasValue1 value1 left1 right1)
        (node k0 hasValue0 value0 left0 right0)) low high
      (lookup (node k0 hasValue0 value0 left0 right0)) (lookup (node k1 hasValue1 value1 left1 right1)) := by
  rw [keyCovers_iff] at uncovered0 uncovered1
  have apart := toNat_ne ne
  have own0 : Wf (node k0 hasValue0 value0 left0 right0) k0.toNat (k0.toNat + 1) :=
    ⟨le_rfl, Nat.lt_succ_self _, wf0.2.2⟩
  have own1 : Wf (node k1 hasValue1 value1 left1 right1) k1.toNat (k1.toNat + 1) :=
    ⟨le_rfl, Nat.lt_succ_self _, wf1.2.2⟩
  split
  · next less =>
    have joined := join_represents own0 own1 (by simp) (by simp) less uncovered0 uncovered1 wf0.1 wf1.2.1
    refine ⟨joined.wf, fun x => ?_⟩
    rw [joined.lookup_eq]
    exact (Merged.or_of_disjoint (roots_disjoint wf0 wf1 less uncovered0 uncovered1 x)).1
  · next notLess =>
    rw [BitVec.lt_def] at notLess
    have less : k1.toNat < k0.toNat := by omega
    rw [← (keyJoin_spec less uncovered1 uncovered0).1]
    have joined := join_represents own1 own0 (by simp) (by simp) less uncovered1 uncovered0 wf1.1 wf0.2.1
    refine ⟨joined.wf, fun x => ?_⟩
    rw [joined.lookup_eq]
    exact (Merged.or_of_disjoint (roots_disjoint wf1 wf0 less uncovered1 uncovered0 x).symm).2

end Roots

/-- A property of the values a tree binds. -/
def AllValues (t : Ucmap) (P : Word → Prop) : Prop := ∀ x v, lookup t x = some v → P v

variable {P : Word → Prop}

theorem AllValues.inLeft (all : AllValues (node key hasValue value left right) P)
    (wf : Wf (node key hasValue value left right) low high) : AllValues left P := by
  intro x v found
  have less := (wf.2.2.1.hasKey_bounds (Region.leftHalf key) (hasKey_of_lookup found)).2
  exact all x v (by rwa [lookup_of_lt less])

theorem AllValues.inRight (all : AllValues (node key hasValue value left right) P)
    (wf : Wf (node key hasValue value left right) low high) : AllValues right P := by
  intro x v found
  have more := (wf.2.2.2.1.hasKey_bounds (Region.rightHalf key) (hasKey_of_lookup found)).1
  exact all x v (by rwa [lookup_of_gt more])

theorem AllValues.root (all : AllValues (node key true value left right) P) : P value :=
  all key value (by rw [lookup_root, if_pos rfl])

/-- What one call of the closure adds to the state, on values of the two maps. -/
def Calls [Preorder σ] (f : Word → Word → σ → Word × σ) (outcome : σ → Word → Word → Word → Prop)
    (P0 P1 : Word → Prop) (start : σ) : Prop :=
  ∀ a b state, start ≤ state → P0 a → P1 b →
    state ≤ (f a b state).2 ∧ outcome (f a b state).2 a b (f a b state).1

/-- Each subtree of the union merges the subtrees on its side. Where one root
covers the other, the whole covered tree goes to one side. The state only grows
from call to call, so an outcome still holds in the last state. -/
theorem combinedUnion_merges [Preorder σ] {outcome : σ → Word → Word → Word → Prop} (grows : ∀ {s s' : σ}, s ≤ s' →
    ∀ {a b v}, outcome s a b v → outcome s' a b v)
    (calls : Calls f outcome V0 V1 start) {state : σ} (started : start ≤ state) (wf0 : Wf t0 low high)
    (wf1 : Wf t1 low high) (all0 : AllValues t0 V0) (all1 : AllValues t1 V1) :
    state ≤ (combinedUnion f t0 t1 state).2 ∧ Merges (outcome (combinedUnion f t0 t1 state).2)
      (combinedUnion f t0 t1 state).1 low high (lookup t0) (lookup t1) := by
  fun_induction combinedUnion f t0 t1 state generalizing low high with
  | case1 state t1 => exact ⟨le_refl _, wf1.merges_none_left⟩
  | case2 state t0 nonnull => exact ⟨le_refl _, wf0.merges_none_right⟩
  | case3 =>
    rename_i bare0 bare1 ihLeft ihRight
    have inLeft := ihLeft started wf0.2.2.1 wf1.2.2.1 (all0.inLeft wf0) (all1.inLeft wf1)
    have inRight := ihRight (le_trans started inLeft.1) wf0.2.2.2.1 wf1.2.2.2.1 (all0.inRight wf0) (all1.inRight wf1)
    exact ⟨le_trans inLeft.1 inRight.1, same_root_merges wf0 (inLeft.2.mono (grows inRight.1)) inRight.2
      (fun _ => ⟨by simpa using bare0, rfl⟩) (by simp [bare0, bare1, Merged])⟩
  | case4 =>
    rename_i bare0 stored1 ihLeft ihRight
    simp only [Bool.not_eq_true, Bool.not_eq_false] at stored1
    have inLeft := ihLeft started wf0.2.2.1 wf1.2.2.1 (all0.inLeft wf0) (all1.inLeft wf1)
    have inRight := ihRight (le_trans started inLeft.1) wf0.2.2.2.1 wf1.2.2.2.1 (all0.inRight wf0) (all1.inRight wf1)
    exact ⟨le_trans inLeft.1 inRight.1, same_root_merges wf0 (inLeft.2.mono (grows inRight.1)) inRight.2
      (fun absent => by simp [stored1] at absent) (by simp [bare0, Merged])⟩
  | case5 =>
    rename_i stored0 bare1 _ ihLeft ihRight
    simp only [Bool.not_eq_true, Bool.not_eq_false] at stored0
    have inLeft := ihLeft started wf0.2.2.1 wf1.2.2.1 (all0.inLeft wf0) (all1.inLeft wf1)
    have inRight := ihRight (le_trans started inLeft.1) wf0.2.2.2.1 wf1.2.2.2.1 (all0.inRight wf0) (all1.inRight wf1)
    exact ⟨le_trans inLeft.1 inRight.1, same_root_merges wf0 (inLeft.2.mono (grows inRight.1)) inRight.2
      (fun absent => by simp [stored0] at absent) (by simp [stored0, bare1, Merged])⟩
  | case6 =>
    rename_i stored0 stored1 _ ihLeft ihRight
    simp only [Bool.not_eq_true, Bool.not_eq_false] at stored0 stored1
    subst stored0 stored1
    have inLeft := ihLeft started wf0.2.2.1 wf1.2.2.1 (all0.inLeft wf0) (all1.inLeft wf1)
    have inRight := ihRight (le_trans started inLeft.1) wf0.2.2.2.1 wf1.2.2.2.1 (all0.inRight wf0) (all1.inRight wf1)
    have before := le_trans inLeft.1 inRight.1
    have call := calls _ _ _ (le_trans started before) all0.root all1.root
    exact ⟨le_trans before call.1, same_root_merges wf0 (inLeft.2.mono (grows (le_trans inRight.1 call.1)))
      (inRight.2.mono (grows call.1)) (fun absent => by simp at absent)
      (by simp only [if_true]; exact ⟨_, rfl, call.2⟩)⟩
  | case7 =>
    rename_i covers less _ ih
    have below := wf1.under_left covers less
    have inside := ih started wf0.2.2.1 below (all0.inLeft wf0) all1
    exact ⟨inside.1, into_left_merges wf0 below inside.2⟩
  | case8 =>
    rename_i ne covers notLess _ ih
    have above := wf1.under_right ne covers notLess
    have inside := ih started wf0.2.2.2.1 above (all0.inRight wf0) all1
    exact ⟨inside.1, into_right_merges wf0 above inside.2⟩
  | case9 =>
    rename_i _ covers less _ ih
    have below := wf0.under_left covers less
    have inside := ih started below wf1.2.2.1 all0 (all1.inLeft wf1)
    exact ⟨inside.1, onto_left_merges wf1 below inside.2⟩
  | case10 =>
    rename_i ne _ covers notLess _ ih
    have above := wf0.under_right (Ne.symm ne) covers notLess
    have inside := ih started above wf1.2.2.2.1 all0 (all1.inRight wf1)
    exact ⟨inside.1, onto_right_merges wf1 above inside.2⟩
  | case11 state =>
    rename_i ne uncovered0 uncovered1 _ less
    have apart := apart_merges (outcome state) wf0 wf1 ne uncovered0 uncovered1
    exact ⟨le_refl _, by rwa [if_pos less] at apart⟩
  | case12 state =>
    rename_i ne uncovered0 uncovered1 _ notLess
    have apart := apart_merges (outcome state) wf0 wf1 ne uncovered0 uncovered1
    exact ⟨le_refl _, by rwa [if_neg notLess] at apart⟩

/-- A binding of the union, given the bindings of the two maps. The closure may
be called in any state. -/
def Combined (f : Word → Word → σ → Word × σ) : Option Word → Option Word → Option Word → Prop
  | some value0, some value1, bound => ∃ state, bound = some (f value0 value1 state).1
  | some value0, none, bound => bound = some value0
  | none, bound1, bound => bound = bound1

/-- The closure of the left union. -/
def keepFirst (value0 _value1 : Word) (state : Unit) : Word × Unit := (value0, state)

/-- A well-formed tree with a combination of the bindings of two trees. -/
structure Combines (f : Word → Word → σ → Word × σ) (t : Ucmap) (low high : Nat)
    (map0 map1 : Word → Option Word) : Prop where
  wf : Wf t low high
  lookup_eq : ∀ x, Combined f (map0 x) (map1 x) (lookup t x)

/-- What the closure may return in some state. -/
def Outcome (f : Word → Word → σ → Word × σ) (a b v : Word) : Prop := ∃ state, v = (f a b state).1

theorem Merges.combines (merges : Merges (Outcome f) t low high map0 map1) :
    Combines f t low high map0 map1 := by
  refine ⟨merges.wf, fun x => ?_⟩
  have merged := merges.lookup_eq x
  cases first : map0 x with
  | none => rwa [first] at merged
  | some value0 =>
    cases second : map1 x with
    | none => rwa [first, second] at merged
    | some value1 =>
      rw [first, second] at merged
      obtain ⟨value, bound, state, rfl⟩ := merged
      exact ⟨state, bound⟩

theorem combinedUnion_combines (state : σ) (wf0 : Wf t0 low high) (wf1 : Wf t1 low high) :
    Combines f (combinedUnion f t0 t1 state).1 low high (lookup t0) (lookup t1) := by
  let _ : Preorder σ :=
    { le := fun _ _ => True, le_refl := fun _ => trivial, le_trans := fun _ _ _ _ _ => trivial }
  have calls : Calls f (fun _ => Outcome f) (fun _ => True) (fun _ => True) state :=
    fun a b s _ _ _ => ⟨trivial, s, rfl⟩
  exact (combinedUnion_merges (fun _ _ _ _ possible => possible) calls (le_refl _) wf0 wf1
    (fun _ _ _ => trivial) fun _ _ _ => trivial).2.combines

private theorem leftUnion_combines (wf0 : Wf t0 low high) (wf1 : Wf t1 low high) :
    Combines keepFirst (leftUnion t0 t1) low high (lookup t0) (lookup t1) := by
  refine Merges.combines (Merges.mono (show Merges (fun a _ v => v = a) _ low high _ _ from ?_) fun kept => ⟨(), kept⟩)
  fun_induction leftUnion t0 t1 generalizing low high with
  | case1 t1 => exact wf1.merges_none_left
  | case2 t0 nonnull => exact wf0.merges_none_right
  | case3 hasValue0 value0 left0 right0 key hasValue1 value1 left1 right1 =>
    rename_i ihLeft ihRight
    have inLeft := ihLeft wf0.2.2.1 wf1.2.2.1
    have inRight := ihRight wf0.2.2.2.1 wf1.2.2.2.1
    cases hasValue0 with
    | true =>
      exact same_root_merges wf0 inLeft inRight (fun absent => by simp at absent)
        (by cases hasValue1 <;> simp [Merged])
    | false =>
      exact same_root_merges wf0 inLeft inRight (fun bare => ⟨rfl, (wf1.2.2.2.2 bare).1⟩)
        (by simp [Merged])
  | case4 =>
    rename_i covers less ih
    have below := wf1.under_left covers less
    exact into_left_merges wf0 below (ih wf0.2.2.1 below)
  | case5 =>
    rename_i ne covers notLess ih
    have above := wf1.under_right ne covers notLess
    exact into_right_merges wf0 above (ih wf0.2.2.2.1 above)
  | case6 =>
    rename_i _ covers less ih
    have below := wf0.under_left covers less
    exact onto_left_merges wf1 below (ih below wf1.2.2.1)
  | case7 =>
    rename_i ne _ covers notLess ih
    have above := wf0.under_right (Ne.symm ne) covers notLess
    exact onto_right_merges wf1 above (ih above wf1.2.2.2.1)
  | case8 =>
    rename_i ne uncovered0 uncovered1 _ less
    have apart := apart_merges (fun a _ v => v = a) wf0 wf1 ne uncovered0 uncovered1
    rwa [if_pos less] at apart
  | case9 =>
    rename_i ne uncovered0 uncovered1 _ notLess
    have apart := apart_merges (fun a _ v => v = a) wf0 wf1 ne uncovered0 uncovered1
    rwa [if_neg notLess] at apart

/-- Where the closure keeps the first value, a combination is the first binding. -/
theorem combined_keepFirst
    (combined : Combined keepFirst bound0 bound1 bound) : bound = (bound0 <|> bound1) := by
  cases bound0 <;> cases bound1 <;> simp_all [Combined, keepFirst]

theorem leftUnion_represents (wf0 : Wf t0 low high) (wf1 : Wf t1 low high) :
    Represents (leftUnion t0 t1) low high (fun x => lookup t0 x <|> lookup t1 x) := by
  have combines := leftUnion_combines wf0 wf1
  exact ⟨combines.wf, fun x => combined_keepFirst (combines.lookup_eq x)⟩

end Culibs.Cucon.Ucmap
