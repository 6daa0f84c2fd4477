import Culibs.Cucon.Ucmap.Invariant

namespace Culibs.Cucon.Ucmap

open DyadicBlock BitVec

variable {t : Ucmap} {low high : Nat} {key value : Word} {hasValue : Bool} {left right : Ucmap}

theorem node_represents {P Q : Word → Option Word} (inside : low ≤ key.toNat ∧ key.toNat < high)
    (inLeft : Represents left (lo 64 key.toNat + 1) key.toNat P)
    (inRight : Represents right (key.toNat + 1) (hi 64 key.toNat) Q)
    (children : hasValue = false → value = 0 ∧ left ≠ null ∧ right ≠ null) :
    Represents (node key hasValue value left right) low high (fun x =>
      if x = key then (if hasValue then some value else none) else if x < key then P x else Q x) := by
  refine ⟨⟨inside.1, inside.2, inLeft.wf, inRight.wf, children⟩, fun x => ?_⟩
  rw [lookup, inLeft.lookup_eq, inRight.lookup_eq]

theorem null_represents (low high : Nat) : Represents null low high (fun _ => none) :=
  ⟨trivial, fun _ => rfl⟩

/-- The bindings after an insertion. -/
def inserted (t : Ucmap) (key val x : Word) : Option Word :=
  if x = key ∧ ¬ (val = 0 ∧ HasJoin t key) then some val else lookup t x

variable {k val : Word}

theorem inserted_of_not_hasKey (absent : ¬ HasKey t k) (x : Word) :
    inserted t k val x = if x = k then some val else lookup t x := by
  have noJoin : ¬ HasJoin t k := fun join => absent join.hasKey
  simp [inserted, noJoin]

theorem toNat_ne {a b : Word} (ne : a ≠ b) : a.toNat ≠ b.toNat :=
  fun same => ne (eq_of_toNat_eq same)

private theorem word_cases (x key : Word) :
    (x < key ∧ x ≠ key ∧ ¬ key < x) ∨ x = key ∨ (key < x ∧ x ≠ key ∧ ¬ x < key) := by
  simp only [lt_def, Ne, toNat_eq]
  omega

private theorem cover_represents (wf : Wf (node key hasValue value left right) low high)
    (inside : low ≤ k.toNat ∧ k.toNat < high) (covers : Covers 64 k.toNat key.toNat) (ne : key ≠ k) :
    Represents (if key < k then nodeNewVal k (node key hasValue value left right) null val
      else nodeNewVal k null (node key hasValue value left right) val) low high
      (inserted (node key hasValue value left right) k val) := by
  have apart := toNat_ne ne
  split
  · next less =>
    have below : Wf (node key hasValue value left right) (lo 64 k.toNat + 1) k.toNat :=
      ⟨covers.1, less, wf.2.2⟩
    have beyond (x : Word) (more : k.toNat ≤ x.toNat) : ¬ HasKey (node key hasValue value left right) x :=
      fun stored => by have := below.hasKey_bounds (Region.leftHalf k) stored; omega
    refine (node_represents inside below.represents (null_represents ..) (by simp)).congr fun x => ?_
    rw [inserted_of_not_hasKey (beyond k (le_rfl))]
    split
    · rfl
    · split
      · rfl
      · next notLess =>
        rw [lt_def] at notLess
        rw [lookup_eq_none (beyond x (by omega))]
  · next notLess =>
    rw [lt_def] at notLess
    have above : Wf (node key hasValue value left right) (k.toNat + 1) (hi 64 k.toNat) :=
      ⟨by omega, covers.2, wf.2.2⟩
    have beyond (x : Word) (less : x.toNat ≤ k.toNat) : ¬ HasKey (node key hasValue value left right) x :=
      fun stored => by have := above.hasKey_bounds (Region.rightHalf k) stored; omega
    refine (node_represents inside (null_represents ..) above.represents (by simp)).congr fun x => ?_
    rw [inserted_of_not_hasKey (beyond k (le_rfl))]
    split
    · rfl
    · split
      · next less =>
        rw [lt_def] at less
        rw [lookup_eq_none (beyond x (by omega))]
      · rfl

/-- Two trees whose root keys do not cover each other go under a new node
without a binding. -/
theorem join_represents {t0 t1 : Ucmap} {k0 k1 : Word} (wf0 : Wf t0 k0.toNat (k0.toNat + 1))
    (wf1 : Wf t1 k1.toNat (k1.toNat + 1)) (nonnull0 : t0 ≠ null) (nonnull1 : t1 ≠ null)
    (less : k0.toNat < k1.toNat) (uncovered0 : ¬ Covers 64 k0.toNat k1.toNat)
    (uncovered1 : ¬ Covers 64 k1.toNat k0.toNat) (lower : low ≤ k0.toNat) (upper : k1.toNat < high) :
    Represents (nodeNewNoval (keyJoin k0 k1) t0 t1) low high (fun x => lookup t0 x <|> lookup t1 x) := by
  obtain ⟨_, start, left, right, stop⟩ := keyJoin_spec less uncovered0 uncovered1
  have := lt_hi 64 k0.toNat
  have := lt_hi 64 k1.toNat
  have inLeft := wf0.mono (by omega : lo 64 (keyJoin k0 k1).toNat + 1 ≤ _)
    (by omega : _ ≤ (keyJoin k0 k1).toNat)
  have inRight := wf1.mono (by omega : (keyJoin k0 k1).toNat + 1 ≤ _)
    (by omega : _ ≤ hi 64 (keyJoin k0 k1).toNat)
  refine (node_represents ⟨by omega, by omega⟩ inLeft.represents inRight.represents
    fun _ => ⟨rfl, nonnull0, nonnull1⟩).congr fun x => ?_
  have notLeft (more : (keyJoin k0 k1).toNat ≤ x.toNat) : lookup t0 x = none :=
    lookup_eq_none fun stored => by
      have := inLeft.hasKey_bounds (Region.leftHalf _) stored
      omega
  have notRight (atMost : x.toNat ≤ (keyJoin k0 k1).toNat) : lookup t1 x = none :=
    lookup_eq_none fun stored => by
      have := inRight.hasKey_bounds (Region.rightHalf _) stored
      omega
  split
  · next same =>
    subst same
    rw [notLeft (le_rfl), notRight (le_rfl)]
    rfl
  split
  · next below =>
    rw [lt_def] at below
    rw [notRight (by omega)]
    simp
  · next above =>
    rw [lt_def] at above
    rw [notLeft (by omega)]
    simp

theorem rebuild_left (newLeft : Ucmap) :
    (if newLeft ≠ left then nodeNewLr (node key hasValue value left right) newLeft right
      else node key hasValue value left right) = node key hasValue value newLeft right := by
  split
  · rfl
  · next same => rw [not_not.mp same]

theorem rebuild_right (newRight : Ucmap) :
    (if newRight ≠ right then nodeNewLr (node key hasValue value left right) left newRight
      else node key hasValue value left right) = node key hasValue value left newRight := by
  split
  · rfl
  · next same => rw [not_not.mp same]

private theorem insert_ne_null (t : Ucmap) : insert t k val ≠ null := by
  cases t with
  | null => simp [insert, nodeNewVal]
  | node key hasValue value left right =>
    unfold insert
    simp only [rebuild_left, rebuild_right]
    repeat' split
    all_goals simp [nodeNewVal, nodeNewNoval]

/-- Insertion adds the binding, except for the value zero at a node without a
binding. -/
theorem insert_represents (wf : Wf t low high) (inside : low ≤ k.toNat ∧ k.toNat < high) :
    Represents (insert t k val) low high (inserted t k val) := by
  induction t generalizing low high with
  | null =>
    refine (node_represents inside (null_represents ..) (null_represents ..) (by simp)).congr fun x => ?_
    simp [inserted, HasJoin, lookup]
  | node key hasValue value left right ihLeft ihRight =>
    have whole := wf
    obtain ⟨start, stop, wfLeft, wfRight, children⟩ := wf
    unfold insert
    simp only
    split
    · next same =>
      subst same
      have noLeft : ¬ HasJoin left key := fun join => by
        have := whole.hasKey_left join.hasKey
        omega
      have noRight : ¬ HasJoin right key := fun join => by
        have := whole.hasKey_right join.hasKey
        omega
      split
      · next stored =>
        subst stored
        refine whole.represents.congr fun x => ?_
        cases hasValue with
        | false => simp [inserted, HasJoin, (children rfl).1]
        | true =>
          by_cases root : x = key
          · subst root
            simp [inserted, HasJoin, noLeft, noRight, lookup_root]
          · simp [inserted, root]
      · next changed =>
        refine (node_represents inside wfLeft.represents wfRight.represents (by simp)).congr fun x => ?_
        have keeps : ¬ (val = 0 ∧ HasJoin (node key hasValue value left right) key) := by
          rintro ⟨zero, ⟨_, bare⟩ | inLeft | inRight⟩
          · exact changed ((children bare).1.trans zero.symm)
          · exact noLeft inLeft
          · exact noRight inRight
        by_cases root : x = key
        · subst root
          exact (if_pos rfl).trans (if_pos ⟨rfl, keeps⟩).symm
        · simp [inserted, root, lookup]
    · next ne =>
      have apart := toNat_ne ne
      split
      · next covers =>
        rw [keyCovers_iff] at covers
        have notRoot : k ≠ key := fun same => ne same.symm
        split
        · next less =>
          rw [rebuild_left]
          rw [lt_def] at less
          have inLeft := ihLeft wfLeft ⟨covers.1, less⟩
          have noRight : ¬ HasJoin right k := fun join => by
            have := whole.hasKey_right join.hasKey
            omega
          refine (node_represents ⟨start, stop⟩ inLeft wfRight.represents fun bare =>
            ⟨(children bare).1, insert_ne_null left, (children bare).2.2⟩).congr fun x => ?_
          have joins : HasJoin (node key hasValue value left right) k ↔ HasJoin left k := by
            simp [HasJoin, notRoot, noRight]
          simp only [inserted, joins, lookup]
          by_cases same : x = k
          · subst same
            simp [notRoot, lt_def, less]
          · simp [same]
        · next notLess =>
          rw [rebuild_right]
          rw [lt_def] at notLess
          have inRight := ihRight wfRight ⟨by omega, covers.2⟩
          have noLeft : ¬ HasJoin left k := fun join => by
            have := whole.hasKey_left join.hasKey
            omega
          refine (node_represents ⟨start, stop⟩ wfLeft.represents inRight fun bare =>
            ⟨(children bare).1, (children bare).2.1, insert_ne_null right⟩).congr fun x => ?_
          have joins : HasJoin (node key hasValue value left right) k ↔ HasJoin right k := by
            simp [HasJoin, notRoot, noLeft]
          simp only [inserted, joins, lookup]
          by_cases same : x = k
          · subst same
            simp [notRoot, lt_def, notLess]
          · simp [same]
      · next uncovered =>
        rw [keyCovers_iff] at uncovered
        split
        · next covers => exact cover_represents whole inside ((keyCovers_iff k key).mp covers) ne
        · next uncovered' =>
          rw [keyCovers_iff] at uncovered'
          have absent : ¬ HasKey (node key hasValue value left right) k := fun stored => by
            rcases whole.hasKey_block stored with same | covered
            · exact ne same.symm
            · exact uncovered covered
          have single : Wf (nodeNewVal k null null val) k.toNat (k.toNat + 1) :=
            ⟨le_rfl, Nat.lt_succ_self _, trivial, trivial, by simp⟩
          have top : Wf (node key hasValue value left right) key.toNat (key.toNat + 1) :=
            ⟨le_rfl, Nat.lt_succ_self _, whole.2.2⟩
          have found (x : Word) : lookup (nodeNewVal k null null val) x = if x = k then some val else none := by
            simp [nodeNewVal, lookup]
          split
          · next less =>
            refine (join_represents single top (by simp [nodeNewVal]) (by simp) less uncovered' uncovered
              inside.1 stop).congr fun x => ?_
            rw [inserted_of_not_hasKey absent, found]
            split <;> simp
          · next notLess =>
            rw [lt_def] at notLess
            rw [← (keyJoin_spec (by omega) uncovered uncovered').1]
            refine (join_represents top single (by simp) (by simp [nodeNewVal]) (by omega) uncovered uncovered'
              start inside.2).congr fun x => ?_
            rw [inserted_of_not_hasKey absent, found]
            split
            · next same =>
              subst same
              rw [lookup_eq_none absent]
              rfl
            · simp

section Erase

/-- The bindings after a deletion. -/
def erased (t : Ucmap) (key x : Word) : Option Word := if x = key then none else lookup t x

private theorem erased_of_not_hasKey (absent : ¬ HasKey t k) (x : Word) : erased t k x = lookup t x := by
  unfold erased
  split
  · next same =>
    subst same
    exact (lookup_eq_none absent).symm
  · rfl

private theorem left_alone (region : Region low high) (wf : Wf (node key hasValue value left right) low high) :
    Represents left low high
      (fun x => if x < key then lookup (node key hasValue value left right) x else none) := by
  have closed := region key wf.1 wf.2.1
  refine ⟨wf.2.2.1.mono closed.1 (le_of_lt wf.2.1), fun x => ?_⟩
  split
  · next less => rw [lookup_of_lt (lt_def.mp less)]
  · next notLess =>
    rw [lt_def] at notLess
    exact wf.lookup_left_eq_none (by omega)

private theorem right_alone (region : Region low high) (wf : Wf (node key hasValue value left right) low high) :
    Represents right low high
      (fun x => if key < x then lookup (node key hasValue value left right) x else none) := by
  have closed := region key wf.1 wf.2.1
  refine ⟨wf.2.2.2.1.mono (Nat.le_succ_of_le wf.1) closed.2, fun x => ?_⟩
  split
  · next more => rw [lookup_of_gt (lt_def.mp more)]
  · next notMore =>
    rw [lt_def] at notMore
    exact wf.lookup_right_eq_none (by omega)

theorem erase_represents (region : Region low high) (wf : Wf t low high) :
    Represents (erase t k) low high (erased t k) := by
  induction t generalizing low high with
  | null => exact (null_represents low high).congr fun x => by simp [erased, lookup]
  | node key hasValue value left right ihLeft ihRight =>
    have whole := wf
    obtain ⟨start, stop, wfLeft, wfRight, children⟩ := wf
    unfold erase
    simp only
    split
    · next same =>
      subst same
      split
      · next stored =>
        split
        · next empty =>
          subst empty
          refine (right_alone region whole).congr fun x => ?_
          rcases word_cases x key with ⟨less, apart, notMore⟩ | same | ⟨more, apart, _⟩
          · simp [erased, less, apart, notMore, lookup]
          · simp [erased, same]
          · simp [erased, more, apart]
        · next leftNonnull =>
          split
          · next empty =>
            subst empty
            refine (left_alone region whole).congr fun x => ?_
            rcases word_cases x key with ⟨less, apart, _⟩ | same | ⟨more, apart, notLess⟩
            · simp [erased, less, apart]
            · simp [erased, same]
            · simp [erased, apart, notLess, lookup]
          · next rightNonnull =>
            refine (node_represents ⟨start, stop⟩ wfLeft.represents wfRight.represents
              fun _ => ⟨rfl, leftNonnull, rightNonnull⟩).congr fun x => ?_
            by_cases root : x = key <;> simp [erased, lookup, root]
      · next bare =>
        refine whole.represents.congr fun x => ?_
        by_cases root : x = key <;> simp [erased, lookup, root, bare]
    · next ne =>
      have notRoot : k ≠ key := fun same => ne same.symm
      split
      · next covers =>
        split
        · next less =>
          have inLeft := ihLeft (Region.leftHalf key) wfLeft
          rw [rebuild_left]
          split
          · next alone =>
            refine (right_alone region whole).congr fun x => ?_
            have gone := inLeft.lookup_eq x
            rw [alone.1] at gone
            simp only [erased, lookup] at gone ⊢
            rcases word_cases x key with ⟨below, outer, notMore⟩ | same | ⟨more, outer, notBelow⟩
            · simp only [notMore, outer, below, if_true, if_false]
              exact gone
            · subst same
              simp [alone.2]
            · have distinct : x ≠ k := by
                rintro rfl
                exact notBelow less
              simp [more, outer, notBelow, distinct]
          · next stays =>
            refine (node_represents ⟨start, stop⟩ inLeft wfRight.represents fun bare =>
              ⟨(children bare).1, fun empty => stays ⟨empty, by simp [bare]⟩, (children bare).2.2⟩).congr
              fun x => ?_
            by_cases same : x = k
            · subst same
              simp [erased, notRoot, less]
            · simp [erased, same, lookup]
        · next notLess =>
          have inRight := ihRight (Region.rightHalf key) wfRight
          rw [rebuild_right]
          split
          · next alone =>
            refine (left_alone region whole).congr fun x => ?_
            have gone := inRight.lookup_eq x
            rw [alone.1] at gone
            simp only [erased, lookup] at gone ⊢
            rcases word_cases x key with ⟨below, outer, notMore⟩ | same | ⟨more, outer, notBelow⟩
            · have distinct : x ≠ k := by
                rintro rfl
                exact notLess below
              simp [below, outer, distinct]
            · subst same
              simp [alone.2]
            · simp only [notBelow, outer, if_false]
              exact gone
          · next stays =>
            refine (node_represents ⟨start, stop⟩ wfLeft.represents inRight fun bare =>
              ⟨(children bare).1, (children bare).2.1, fun empty => stays ⟨empty, by simp [bare]⟩⟩).congr
              fun x => ?_
            by_cases same : x = k
            · subst same
              simp [erased, notRoot, notLess]
            · simp [erased, same, lookup]
      · next uncovered =>
        rw [keyCovers_iff] at uncovered
        have absent : ¬ HasKey (node key hasValue value left right) k := fun stored => by
          rcases whole.hasKey_block stored with same | covered
          · exact notRoot same
          · exact uncovered covered
        exact whole.represents.congr fun x => (erased_of_not_hasKey absent x).symm

end Erase

end Culibs.Cucon.Ucmap
