import Culibs.Cucon.Ucmap.Bindings
import Culibs.Foundation.Comparison

namespace Culibs.Cucon

open Comparison BitVec

namespace Ucmap

/-- `cucon_ucmap_cmp`. -/
def cmp : Ucmap → Ucmap → Int
  | null, null => 0
  | null, node .. => -1
  | node .., null => 1
  | node key0 hasValue0 value0 left0 right0, node key1 hasValue1 value1 left1 right1 =>
    if node key0 hasValue0 value0 left0 right0 = node key1 hasValue1 value1 left1 right1 then 0
    else if key0 < key1 then -1
    else if key0 > key1 then 1
    else
      let c := cmp left0 left1
      if c ≠ 0 then c
      else if hasValue0 then
        if hasValue1 then
          if value0 < value1 then -1
          else if value0 > value1 then 1
          else cmp right0 right1
        else 1
      else if hasValue1 then -1
      else cmp right0 right1

/-- `cucon_ucmap_cmp_ptr`. -/
def cmpPtr (f : Word → Word → Int) : Ucmap → Ucmap → Int
  | null, null => 0
  | null, node .. => -1
  | node .., null => 1
  | node key0 hasValue0 value0 left0 right0, node key1 hasValue1 value1 left1 right1 =>
    if node key0 hasValue0 value0 left0 right0 = node key1 hasValue1 value1 left1 right1 then 0
    else if key0 < key1 then -1
    else if key0 > key1 then 1
    else
      let c := cmpPtr f left0 left1
      if c ≠ 0 then c
      else if hasValue0 then
        if hasValue1 then
          let c := f value0 value1
          if c ≠ 0 then c else cmpPtr f right0 right1
        else 1
      else if hasValue1 then -1
      else cmpPtr f right0 right1

/-- `cucon_ucmap_eq_ptr`. -/
def eqPtr (f : Word → Word → Bool) : Ucmap → Ucmap → Bool
  | null, null => true
  | null, node .. => false
  | node .., null => false
  | node key0 hasValue0 value0 left0 right0, node key1 hasValue1 value1 left1 right1 =>
    if node key0 hasValue0 value0 left0 right0 = node key1 hasValue1 value1 left1 right1 then true
    else if key0 ≠ key1 then false
    else if !eqPtr f left0 left1 then false
    else if hasValue0 then
      if hasValue1 then
        if !f value0 value1 then false else eqPtr f right0 right1
      else false
    else if hasValue1 then false
    else eqPtr f right0 right1

/-- The order of words as unsigned numbers. -/
def wordCmp (a b : Word) : Int := if a < b then -1 else if a > b then 1 else 0

/-- The comparison of two optional values, where none comes first. -/
def valueCmp (f : Word → Word → Int) (hasValue0 : Bool) (value0 : Word) (hasValue1 : Bool) (value1 : Word) : Int :=
  if hasValue0 then if hasValue1 then f value0 value1 else 1 else if hasValue1 then -1 else 0

theorem wordCmp_eq_zero (a b : Word) : wordCmp a b = 0 ↔ a = b := by
  rw [wordCmp, toNat_eq]
  simp only [gt_iff_lt, lt_def]
  split
  · omega
  · split <;> omega

theorem wordCmp_antisymmetric : Antisymmetric wordCmp := by
  intro a b
  simp only [wordCmp, gt_iff_lt, lt_def]
  split <;> split <;> omega

theorem wordCmp_order : TotalOrder Eq wordCmp := by
  refine ⟨fun a b => (by rw [(wordCmp_antisymmetric a b), Int.sign_neg]), fun a b c first second => ?_, wordCmp_eq_zero⟩
  have le (a b : Word) : wordCmp a b ≤ 0 ↔ a.toNat ≤ b.toNat := by
    simp only [wordCmp, gt_iff_lt, lt_def]
    split
    · omega
    · split <;> omega
  rw [le] at *
  omega

section Laws

variable {f : Word → Word → Int}

private theorem valueCmp_antisymmetric (swap : Antisymmetric f) (h0 h1 : Bool) (v0 v1 : Word) :
    valueCmp f h1 v1 h0 v0 = -valueCmp f h0 v0 h1 v1 := by
  cases h0 <;> cases h1
  · rfl
  · rfl
  · rfl
  · exact swap v0 v1

private theorem valueCmp_sign (order : TotalOrder Eq f) (h0 h1 : Bool) (v0 v1 : Word) :
    (valueCmp f h1 v1 h0 v0).sign = -(valueCmp f h0 v0 h1 v1).sign := by
  cases h0 <;> cases h1
  · rfl
  · rfl
  · rfl
  · exact order.swap v0 v1

private theorem valueCmp_chained (order : TotalOrder Eq f) (h0 h1 h2 : Bool) (v0 v1 v2 : Word) :
    Chained (valueCmp f h0 v0 h1 v1) (valueCmp f h1 v1 h2 v2) (valueCmp f h0 v0 h2 v2) := by
  by_cases all : h0 = true ∧ h1 = true ∧ h2 = true
  · obtain ⟨rfl, rfl, rfl⟩ := all
    exact order.chained v0 v1 v2
  · simp only [valueCmp]
    constructor <;> cases h0 <;> cases h1 <;> cases h2 <;> simp_all

theorem cmpPtr_self (f : Word → Word → Int) (t : Ucmap) : cmpPtr f t t = 0 := by
  cases t with
  | null => rfl
  | node => rw [cmpPtr, if_pos rfl]

variable {key0 key1 value0 value1 : Word} {hasValue0 hasValue1 : Bool} {left0 left1 right0 right1 : Ucmap}

section

variable (order : TotalOrder Eq f)

include order

/-- The comparison of two nodes is lexicographic. Equal nodes compare as zero part
by part, so that the test for the same node changes nothing. -/
theorem cmpPtr_node :
    cmpPtr f (node key0 hasValue0 value0 left0 right0) (node key1 hasValue1 value1 left1 right1) =
      andThen (wordCmp key0 key1) (andThen (cmpPtr f left0 left1)
        (andThen (valueCmp f hasValue0 value0 hasValue1 value1) (cmpPtr f right0 right1))) := by
  by_cases same : node key0 hasValue0 value0 left0 right0 = node key1 hasValue1 value1 left1 right1
  · obtain ⟨rfl, rfl, rfl, rfl, rfl⟩ := Ucmap.node.inj same
    have root : valueCmp f hasValue0 value0 hasValue0 value0 = 0 := by
      cases hasValue0
      · rfl
      · exact (order.eq_zero _ _).mpr rfl
    rw [cmpPtr_self, cmpPtr_self, cmpPtr_self, root, (wordCmp_eq_zero key0 key0).mpr rfl]
    rfl
  · rw [cmpPtr, if_neg same, wordCmp]
    split
    · rfl
    · split
      · rfl
      · simp only [andThen, valueCmp, ne_eq, not_true_eq_false, if_false]
        cases hasValue0 <;> cases hasValue1 <;> simp

private theorem cmpPtr_antisymmetric (swap : Antisymmetric f) : Antisymmetric (cmpPtr f) := by
  intro map0
  induction map0 with
  | null => intro map1; cases map1 <;> rfl
  | node key0 hasValue0 value0 left0 right0 ihLeft ihRight =>
    intro map1
    cases map1 with
    | null => rfl
    | node key1 hasValue1 value1 left1 right1 =>
      rw [cmpPtr_node order, cmpPtr_node order, wordCmp_antisymmetric key0 key1, ihLeft left1, ihRight right1,
        valueCmp_antisymmetric swap, neg_andThen, neg_andThen, neg_andThen]

private theorem cmpPtr_sign (map0 map1 : Ucmap) : (cmpPtr f map1 map0).sign = -(cmpPtr f map0 map1).sign := by
  induction map0 generalizing map1 with
  | null => cases map1 <;> rfl
  | node key0 hasValue0 value0 left0 right0 ihLeft ihRight =>
    cases map1 with
    | null => rfl
    | node key1 hasValue1 value1 left1 right1 =>
      rw [cmpPtr_node order, cmpPtr_node order]
      simp only [sign_andThen]
      rw [wordCmp_order.swap key0 key1, ihLeft left1, ihRight right1, valueCmp_sign order, neg_andThen, neg_andThen,
        neg_andThen]

private theorem cmpPtr_chained (map0 map1 map2 : Ucmap) :
    Chained (cmpPtr f map0 map1) (cmpPtr f map1 map2) (cmpPtr f map0 map2) := by
  induction map0 generalizing map1 map2 with
  | null => cases map1 <;> cases map2 <;> constructor <;> simp [cmpPtr]
  | node key0 hasValue0 value0 left0 right0 ihLeft ihRight =>
    cases map1 with
    | null => cases map2 <;> constructor <;> simp [cmpPtr]
    | node key1 hasValue1 value1 left1 right1 =>
      cases map2 with
      | null => constructor <;> simp [cmpPtr]
      | node key2 hasValue2 value2 left2 right2 =>
        rw [cmpPtr_node order, cmpPtr_node order, cmpPtr_node order]
        exact (wordCmp_order.chained key0 key1 key2).andThen fun _ _ _ => (ihLeft left1 left2).andThen fun _ _ _ =>
          (valueCmp_chained order ..).andThen fun _ _ _ => ihRight right1 right2

/-- Only equal trees compare as zero, since nodes without a binding have the value zero. -/
theorem cmpPtr_eq_zero (wf0 : Wf map0 low0 high0)
    (wf1 : Wf map1 low1 high1) : cmpPtr f map0 map1 = 0 ↔ map0 = map1 := by
  refine ⟨fun zero => ?_, fun same => same ▸ cmpPtr_self f map0⟩
  induction map0 generalizing map1 low0 high0 low1 high1 with
  | null =>
    cases map1 with
    | null => rfl
    | node => simp [cmpPtr] at zero
  | node key0 hasValue0 value0 left0 right0 ihLeft ihRight =>
    cases map1 with
    | null => simp [cmpPtr] at zero
    | node key1 hasValue1 value1 left1 right1 =>
      rw [cmpPtr_node order, andThen_eq_zero, andThen_eq_zero, andThen_eq_zero] at zero
      obtain ⟨keys, lefts, values, rights⟩ := zero
      obtain rfl := (wordCmp_eq_zero key0 key1).mp keys
      obtain rfl := ihLeft wf0.2.2.1 wf1.2.2.1 lefts
      obtain rfl := ihRight wf0.2.2.2.1 wf1.2.2.2.1 rights
      cases hasValue0 with
      | false =>
        cases hasValue1 with
        | false => rw [(wf0.2.2.2.2 rfl).1, (wf1.2.2.2.2 rfl).1]
        | true => simp [valueCmp] at values
      | true =>
        cases hasValue1 with
        | false => simp [valueCmp] at values
        | true => rw [(order.eq_zero value0 value1).mp values]

end

end Laws

theorem cmp_eq_cmpPtr (map0 map1 : Ucmap) : cmp map0 map1 = cmpPtr wordCmp map0 map1 := by
  induction map0 generalizing map1 with
  | null => cases map1 <;> rfl
  | node key0 hasValue0 value0 left0 right0 ihLeft ihRight =>
    cases map1 with
    | null => rfl
    | node key1 hasValue1 value1 left1 right1 =>
      rw [cmp, cmpPtr, ihLeft, ihRight]
      have value : (if value0 < value1 then -1 else if value0 > value1 then 1
          else cmpPtr wordCmp right0 right1) =
          if wordCmp value0 value1 ≠ 0 then wordCmp value0 value1 else cmpPtr wordCmp right0 right1 := by
        rw [wordCmp]
        split
        · rfl
        · split <;> rfl
      simp only [value]

/-- The closure is the equality of values. -/
def IsEquality (f : Word → Word → Bool) : Prop := ∀ a b, f a b = true ↔ a = b

private theorem eqPtr_iff (equality : IsEquality f) (wf0 : Wf map0 low0 high0) (wf1 : Wf map1 low1 high1) :
    eqPtr f map0 map1 = true ↔ map0 = map1 := by
  induction map0 generalizing map1 low0 high0 low1 high1 with
  | null => cases map1 <;> simp [eqPtr]
  | node key0 hasValue0 value0 left0 right0 ihLeft ihRight =>
    cases map1 with
    | null => simp [eqPtr]
    | node key1 hasValue1 value1 left1 right1 =>
      have lefts := ihLeft wf0.2.2.1 wf1.2.2.1
      have rights := ihRight wf0.2.2.2.1 wf1.2.2.2.1
      have values := equality value0 value1
      have bare0 := wf0.2.2.2.2
      have bare1 := wf1.2.2.2.2
      rw [eqPtr]
      by_cases same : node key0 hasValue0 value0 left0 right0 = node key1 hasValue1 value1 left1 right1
      · simp [same]
      · rw [iff_false_right same]
        cases hasValue0 <;> cases hasValue1 <;> simp_all

/-- Two maps bind the same keys to the same values. -/
def SameBindings (map0 map1 : UcmapTrie) : Prop := ∀ k, find map0.tree k = find map1.tree k

theorem sameBindings_iff (map0 map1 : UcmapTrie) : SameBindings map0 map1 ↔ map0.tree = map1.tree := by
  refine ⟨fun same => map0.wf.ext map1.wf fun k => ?_, fun equal k => by rw [equal]⟩
  rw [← map0.wf.find_eq, ← map1.wf.find_eq, same k]

end Ucmap

namespace UcmapTrie

open Ucmap

private theorem cmpPtr_order (order : TotalOrder Eq f) :
    TotalOrder SameBindings (fun map0 map1 : UcmapTrie => cmpPtr f map0.tree map1.tree) where
  swap map0 map1 := cmpPtr_sign order map0.tree map1.tree
  trans map0 map1 map2 := (cmpPtr_chained order map0.tree map1.tree map2.tree).le
  eq_zero map0 map1 := (cmpPtr_eq_zero order map0.wf map1.wf).trans (sameBindings_iff map0 map1).symm

/-- The comparison orders the maps, the one with a function on values when that
function orders the values, and the equality with a function holds for the same
bindings when that function is the equality of values. -/
theorem cmp_total_order :
    (TotalOrder SameBindings (fun map0 map1 : UcmapTrie => cmp map0.tree map1.tree) ∧
      Antisymmetric (fun map0 map1 : UcmapTrie => cmp map0.tree map1.tree)) ∧
    (∀ f : Word → Word → Int, TotalOrder Eq f →
      TotalOrder SameBindings (fun map0 map1 : UcmapTrie => cmpPtr f map0.tree map1.tree) ∧
      (Antisymmetric f → Antisymmetric (fun map0 map1 : UcmapTrie => cmpPtr f map0.tree map1.tree))) ∧
    ∀ f : Word → Word → Bool, IsEquality f →
      ∀ map0 map1 : UcmapTrie, eqPtr f map0.tree map1.tree = true ↔ SameBindings map0 map1 := by
  simp only [cmp_eq_cmpPtr]
  refine ⟨⟨cmpPtr_order wordCmp_order, fun map0 map1 => ?_⟩, fun f order => ⟨cmpPtr_order order, ?_⟩,
    fun f equality map0 map1 => ?_⟩
  · exact cmpPtr_antisymmetric wordCmp_order wordCmp_antisymmetric map0.tree map1.tree
  · exact fun swap map0 map1 => cmpPtr_antisymmetric order swap map0.tree map1.tree
  · exact (eqPtr_iff equality map0.wf map1.wf).trans (sameBindings_iff map0 map1).symm

/-- The signed order of values, and their equality. -/
theorem cmp_total_order_signed :
    TotalOrder SameBindings (fun map0 map1 : UcmapTrie =>
      cmpPtr (fun a b => if a.toInt < b.toInt then -1 else if b.toInt < a.toInt then 1 else 0)
        map0.tree map1.tree) ∧
    ∀ map0 map1 : UcmapTrie, eqPtr (fun a b => a == b) map0.tree map1.tree = true ↔ SameBindings map0 map1 := by
  refine ⟨(cmp_total_order.2.1 _ ⟨fun a b => ?_, fun a b c first second => ?_, fun a b => ?_⟩).1,
    cmp_total_order.2.2 _ fun a b => beq_iff_eq⟩
  · split <;> split <;> first | omega | rfl
  · split at first <;> split at second <;> split <;> omega
  · rw [← toInt_inj]
    split
    · omega
    · split <;> omega

end UcmapTrie

end Culibs.Cucon
