import Culibs.Cucon.Ucmap.Iterate

namespace Culibs.Cucon

open DyadicBlock BitVec

namespace Ucmap

/-- `_uclip_upper`. -/
def uclipUpper (kMin : Word) : Ucmap → Ucmap
  | null => null
  | node key hasValue value left right =>
    if key < kMin then uclipUpper kMin right
    else nodeNewLr (node key hasValue value left right) (uclipUpper kMin left) right

/-- `_uclip_lower`. -/
def uclipLower (kMax : Word) : Ucmap → Ucmap
  | null => null
  | node key hasValue value left right =>
    if key > kMax then uclipLower kMax left
    else nodeNewLr (node key hasValue value left right) left (uclipLower kMax right)

/-- `cucon_ucmap_uclip`. -/
def uclip (kMin kMax : Word) : Ucmap → Ucmap
  | null => null
  | node key hasValue value left right =>
    if key < kMin then uclip kMin kMax right
    else if key > kMax then uclip kMin kMax left
    else nodeNewLr (node key hasValue value left right) (uclipUpper kMin left) (uclipLower kMax right)

/-- `cucon_ucmap_clip`. -/
def clip (map : Ucmap) (kMin kMax : Word) : Ucmap :=
  if kMin ≤ kMax then uclip kMin kMax map
  else leftUnion (uclipLower kMax map) (uclipUpper kMin map)

section Pruned

/-- What is left of the subtrees of a node, without its binding. -/
def joined (key : Word) (left right : Ucmap) : Ucmap :=
  if left = null then right else if right = null then left else node key false 0 left right

theorem joined_null (key : Word) (left : Ucmap) : joined key left null = left := by
  rw [joined]
  split
  · next absent => exact absent.symm
  · rfl

/-- The nodes of a tree with certain keys, and the joins of what is left of their subtrees. -/
def pruned (P : Word → Prop) [DecidablePred P] : Ucmap → Ucmap
  | null => null
  | node key hasValue value left right =>
    if P key then node key hasValue value (pruned P left) (pruned P right)
    else joined key (pruned P left) (pruned P right)

/-- A node without a binding, when it is kept, has kept bindings on both sides. -/
def JoinsKept (P : Word → Prop) : Ucmap → Prop
  | null => True
  | node key hasValue _ left right =>
    (hasValue = false → P key →
      (∃ x v, lookup left x = some v ∧ P x) ∧ ∃ x v, lookup right x = some v ∧ P x) ∧
    JoinsKept P left ∧ JoinsKept P right

variable {P Q : Word → Prop} [DecidablePred P] [DecidablePred Q] {t : Ucmap} {low high : Nat} {x : Word}
variable {key : Word} {left right : Ucmap}

private theorem hasKey_joined (stored : HasKey (joined key left right) x) :
    x = key ∨ HasKey left x ∨ HasKey right x := by
  rw [joined] at stored
  split at stored
  · exact .inr (.inr stored)
  · split at stored
    · exact .inr (.inl stored)
    · exact stored

theorem HasKey.of_pruned (stored : HasKey (pruned P t) x) : HasKey t x := by
  induction t with
  | null => exact stored
  | node key hasValue value left right ihLeft ihRight =>
    have part : x = key ∨ HasKey (pruned P left) x ∨ HasKey (pruned P right) x := by
      rw [pruned] at stored
      split at stored
      · exact stored
      · exact hasKey_joined stored
    rcases part with same | inLeft | inRight
    · exact .inl same
    · exact .inr (.inl (ihLeft inLeft))
    · exact .inr (.inr (ihRight inRight))

theorem pruned_congr (same : ∀ x, HasKey t x → (P x ↔ Q x)) : pruned P t = pruned Q t := by
  induction t with
  | null => rfl
  | node key hasValue value left right ihLeft ihRight =>
    rw [pruned, pruned, ihLeft fun x stored => same x (.inr (.inl stored)),
      ihRight fun x stored => same x (.inr (.inr stored))]
    have root := same key (.inl rfl)
    by_cases kept : P key
    · rw [if_pos kept, if_pos (root.mp kept)]
    · rw [if_neg kept, if_neg (mt root.mpr kept)]

theorem pruned_eq_self (all : ∀ x, HasKey t x → P x) : pruned P t = t := by
  induction t with
  | null => rfl
  | node key hasValue value left right ihLeft ihRight =>
    rw [pruned, if_pos (all key (.inl rfl)), ihLeft fun x stored => all x (.inr (.inl stored)),
      ihRight fun x stored => all x (.inr (.inr stored))]

theorem pruned_eq_null (none : ∀ x, HasKey t x → ¬ P x) : pruned P t = null := by
  induction t with
  | null => rfl
  | node key hasValue value left right ihLeft ihRight =>
    rw [pruned, if_neg (none key (.inl rfl)), ihLeft fun x stored => none x (.inr (.inl stored)),
      ihRight fun x stored => none x (.inr (.inr stored))]
    rfl

theorem lookup_joined (before : ∀ y, HasKey left y → y.toNat < key.toNat)
    (after : ∀ y, HasKey right y → key.toNat < y.toNat) (x : Word) :
    lookup (joined key left right) x =
      if x = key then none else if x < key then lookup left x else lookup right x := by
  have notLeft (more : ¬ x < key) : lookup left x = none :=
    lookup_eq_none fun stored => more (lt_def.mpr (before x stored))
  have notRight (less : x.toNat ≤ key.toNat) : lookup right x = none :=
    lookup_eq_none fun stored => not_lt.mpr less (after x stored)
  rw [joined]
  split
  · next absent =>
    subst absent
    split
    · next same => exact notRight (by rw [same])
    · split
      · next less => exact notRight (le_of_lt (lt_def.mp less))
      · rfl
  · split
    · next absent =>
      subst absent
      split
      · next same => exact notLeft (by rw [same]; exact BitVec.lt_irrefl _)
      · split
        · rfl
        · next more => exact notLeft more
    · rfl

theorem lookup_pruned (wf : Wf t low high) (x : Word) :
    lookup (pruned P t) x = if P x then lookup t x else none := by
  induction t generalizing low high with
  | null => simp [pruned, lookup]
  | node key hasValue value left right ihLeft ihRight =>
    have before (y : Word) (stored : HasKey (pruned P left) y) := (wf.hasKey_left stored.of_pruned).2
    have after (y : Word) (stored : HasKey (pruned P right) y) := (wf.hasKey_right stored.of_pruned).1
    rw [pruned]
    by_cases kept : P key
    · rw [if_pos kept, lookup, lookup, ihLeft wf.2.2.1, ihRight wf.2.2.2.1]
      split
      · next same => rw [same, if_pos kept]
      · split <;> rfl
    · rw [if_neg kept, lookup_joined before after, ihLeft wf.2.2.1, ihRight wf.2.2.2.1, lookup]
      split
      · next same => rw [same, if_neg kept]
      · split <;> rfl

theorem Wf.rebound (wf : Wf t low high)
    (bounds : ∀ x, HasKey t x → low' ≤ x.toNat ∧ x.toNat < high') : Wf t low' high' := by
  cases t with
  | null => trivial
  | node key hasValue value left right =>
    have root := bounds key (.inl rfl)
    exact ⟨root.1, root.2, wf.2.2⟩

/-- What is kept is canonical exactly when the joins among it are kept. -/
theorem wf_pruned_iff (region : Region low high) (wf : Wf t low high) :
    Wf (pruned P t) low high ↔ JoinsKept P t := by
  induction t generalizing low high with
  | null => exact Iff.rfl
  | node key hasValue value left right ihLeft ihRight =>
    obtain ⟨start, stop, wfLeft, wfRight, bare⟩ := wf
    have whole : Wf (node key hasValue value left right) low high := ⟨start, stop, wfLeft, wfRight, bare⟩
    have inside (x : Word) := whole.hasKey_bounds (x := x) region
    have keptLeft := ihLeft (Region.leftHalf key) wfLeft
    have keptRight := ihRight (Region.rightHalf key) wfRight
    rw [JoinsKept, ← keptLeft, ← keptRight, pruned]
    by_cases kept : P key
    · have side {s : Ucmap} {l h : Nat} (wf : Wf s l h) (prunedWf : Wf (pruned P s) l h) :
          pruned P s ≠ null ↔ ∃ x v, lookup s x = some v ∧ P x := by
        constructor
        · intro nonnull
          obtain ⟨x, v, found⟩ := prunedWf.exists_lookup nonnull
          rw [lookup_pruned wf] at found
          split at found
          · next inP => exact ⟨x, v, found, inP⟩
          · cases found
        · rintro ⟨x, v, found, inP⟩ absent
          have gone := lookup_pruned (P := P) wf x
          rw [absent, if_pos inP, found] at gone
          cases gone
      rw [if_pos kept, Wf]
      constructor
      · rintro ⟨_, _, leftWf, rightWf, children⟩
        refine ⟨fun absent _ => ?_, leftWf, rightWf⟩
        obtain ⟨_, leftKept, rightKept⟩ := children absent
        exact ⟨(side wfLeft leftWf).mp leftKept, (side wfRight rightWf).mp rightKept⟩
      · rintro ⟨branches, leftWf, rightWf⟩
        refine ⟨start, stop, leftWf, rightWf, fun absent => ?_⟩
        obtain ⟨leftKept, rightKept⟩ := branches absent kept
        exact ⟨(bare absent).1, (side wfLeft leftWf).mpr leftKept, (side wfRight rightWf).mpr rightKept⟩
    · rw [if_neg kept, and_iff_right fun _ inP => absurd inP kept, joined]
      have leftBounds (x : Word) (stored : HasKey (pruned P left) x) :=
        wfLeft.hasKey_bounds (Region.leftHalf key) stored.of_pruned
      have rightBounds (x : Word) (stored : HasKey (pruned P right) x) :=
        wfRight.hasKey_bounds (Region.rightHalf key) stored.of_pruned
      split
      · next absent =>
        rw [absent]
        constructor
        · exact fun rightWf => ⟨trivial, rightWf.rebound rightBounds⟩
        · exact fun both => both.2.rebound fun x stored => inside x (.inr (.inr stored.of_pruned))
      · next present =>
        split
        · next absent =>
          rw [absent]
          constructor
          · exact fun leftWf => ⟨leftWf.rebound leftBounds, trivial⟩
          · exact fun both => both.1.rebound fun x stored => inside x (.inr (.inl stored.of_pruned))
        · next present' =>
          constructor
          · exact fun all => ⟨all.2.2.1, all.2.2.2.1⟩
          · exact fun both => ⟨start, stop, both.1, both.2, fun _ => ⟨rfl, present, present'⟩⟩

end Pruned

section Refine

variable {t left right : Ucmap} {low high : Nat} {key value : Word} {hasValue : Bool}

theorem Wf.left_lt (wf : Wf (node key hasValue value left right) low high) (stored : HasKey left x) :
    x < key := lt_def.mpr (wf.hasKey_left stored).2

theorem Wf.lt_right (wf : Wf (node key hasValue value left right) low high) (stored : HasKey right x) :
    key < x := lt_def.mpr (wf.hasKey_right stored).1

/-- Clipping from below goes past the nodes before the bound and keeps the right
subtrees of the others. -/
theorem uclipUpper_eq (wf : Wf t low high) (kMin : Word) : uclipUpper kMin t = pruned (fun k => kMin ≤ k) t := by
  induction t generalizing low high with
  | null => rfl
  | node key hasValue value left right ihLeft ihRight =>
    rw [uclipUpper, pruned, ihLeft wf.2.2.1, ihRight wf.2.2.2.1]
    by_cases before : key < kMin
    · have gone : pruned (fun k => kMin ≤ k) left = null := pruned_eq_null fun x stored =>
        BitVec.not_le.mpr (BitVec.lt_trans (wf.left_lt stored) before)
      rw [if_pos before, if_neg (BitVec.not_le.mpr before), gone]
      rfl
    · have kept : kMin ≤ key := BitVec.not_lt.mp before
      have whole : pruned (fun k => kMin ≤ k) right = right := pruned_eq_self fun x stored =>
        BitVec.le_trans kept (BitVec.le_of_lt (wf.lt_right stored))
      rw [if_neg before, if_pos kept, whole]
      rfl

theorem uclipLower_eq (wf : Wf t low high) (kMax : Word) : uclipLower kMax t = pruned (fun k => k ≤ kMax) t := by
  induction t generalizing low high with
  | null => rfl
  | node key hasValue value left right ihLeft ihRight =>
    rw [uclipLower, pruned, ihLeft wf.2.2.1, ihRight wf.2.2.2.1]
    by_cases after : key > kMax
    · have gone : pruned (fun k => k ≤ kMax) right = null := pruned_eq_null fun x stored =>
        BitVec.not_le.mpr (BitVec.lt_trans after (wf.lt_right stored))
      rw [if_pos after, if_neg (BitVec.not_le.mpr after), gone, joined_null]
    · have kept : key ≤ kMax := BitVec.not_lt.mp after
      have whole : pruned (fun k => k ≤ kMax) left = left := pruned_eq_self fun x stored =>
        BitVec.le_trans (BitVec.le_of_lt (wf.left_lt stored)) kept
      rw [if_neg after, if_pos kept, whole]
      rfl

theorem uclip_eq (wf : Wf t low high) (kMin kMax : Word) :
    uclip kMin kMax t = pruned (fun k => kMin ≤ k ∧ k ≤ kMax) t := by
  induction t generalizing low high with
  | null => rfl
  | node key hasValue value left right ihLeft ihRight =>
    rw [uclip, pruned, ihLeft wf.2.2.1, ihRight wf.2.2.2.1]
    by_cases before : key < kMin
    · have gone : pruned (fun k => kMin ≤ k ∧ k ≤ kMax) left = null := pruned_eq_null fun x stored inside =>
        BitVec.not_le.mpr (BitVec.lt_trans (wf.left_lt stored) before) inside.1
      have out : ¬ (kMin ≤ key ∧ key ≤ kMax) := fun inside => BitVec.not_le.mpr before inside.1
      rw [if_pos before, if_neg out, gone]
      rfl
    have above : kMin ≤ key := BitVec.not_lt.mp before
    by_cases after : key > kMax
    · have gone : pruned (fun k => kMin ≤ k ∧ k ≤ kMax) right = null := pruned_eq_null fun x stored inside =>
        BitVec.not_le.mpr (BitVec.lt_trans after (wf.lt_right stored)) inside.2
      have out : ¬ (kMin ≤ key ∧ key ≤ kMax) := fun inside => BitVec.not_le.mpr after inside.2
      rw [if_neg before, if_pos after, if_neg out, gone, joined_null]
    have below : key ≤ kMax := BitVec.not_lt.mp after
    have leftPart : uclipUpper kMin left = pruned (fun k => kMin ≤ k ∧ k ≤ kMax) left := by
      rw [uclipUpper_eq wf.2.2.1]
      refine pruned_congr fun x stored => ?_
      have inside : x ≤ kMax := BitVec.le_trans (BitVec.le_of_lt (wf.left_lt stored)) below
      rw [and_iff_left inside]
    have rightPart : uclipLower kMax right = pruned (fun k => kMin ≤ k ∧ k ≤ kMax) right := by
      rw [uclipLower_eq wf.2.2.2.1]
      refine pruned_congr fun x stored => ?_
      have inside : kMin ≤ x := BitVec.le_trans above (BitVec.le_of_lt (wf.lt_right stored))
      rw [and_iff_right inside]
    rw [if_neg before, if_neg after, if_pos ⟨above, below⟩, leftPart, rightPart]
    rfl

theorem keyJoin_halves (left : lo 64 key.toNat < k0.toNat ∧ k0.toNat < key.toNat)
    (right : key.toNat < k1.toNat ∧ k1.toNat < hi 64 key.toNat) :
    ¬ Covers 64 k0.toNat k1.toNat ∧ ¬ Covers 64 k1.toNat k0.toNat ∧ keyJoin k0 k1 = key := by
  have covers0 : Covers 64 key.toNat k0.toNat := ⟨left.1, by omega⟩
  have covers1 : Covers 64 key.toNat k1.toNat := ⟨by omega, right.2⟩
  have half0 := covers0.left key.isLt k0.isLt left.2
  have half1 := covers1.right key.isLt k1.isLt right.1
  have uncovered0 : ¬ Covers 64 k0.toNat k1.toNat := fun covers => by
    have := covers.2
    omega
  have uncovered1 : ¬ Covers 64 k1.toNat k0.toNat := fun covers => by
    have := covers.1
    omega
  refine ⟨uncovered0, uncovered1, ?_⟩
  obtain ⟨_, low, middle, above, upper⟩ := keyJoin_spec (by omega) uncovered0 uncovered1
  by_contra ne
  have relation := @laminar 64 (keyJoin k0 k1).toNat key.toNat (keyJoin k0 k1).isLt key.isLt
    (toNat_ne ne)
  have := lt_hi 64 k0.toNat
  have := lt_hi 64 k1.toNat
  omega

theorem leftUnion_null (map : Ucmap) : leftUnion map null = map := by
  cases map <;> simp [leftUnion]

theorem null_leftUnion (map : Ucmap) : leftUnion null map = map := by
  simp [leftUnion]

private theorem leftUnion_right (inside : ∀ x, HasKey t x → key.toNat < x.toNat ∧ x.toNat < hi 64 key.toNat) :
    leftUnion (node key hasValue value left right) t = node key hasValue value left (leftUnion right t) := by
  cases t with
  | null => rw [leftUnion_null, leftUnion_null]
  | node k1 hasValue1 value1 left1 right1 =>
    have bounds := inside k1 (.inl rfl)
    have start := lo_le 64 key.toNat
    have ne : ¬ key = k1 := fun same => by rw [same] at bounds; omega
    have covers : keyCovers key k1 = true := (keyCovers_iff key k1).mpr ⟨by omega, bounds.2⟩
    have notLess : ¬ k1 < key := fun less => by rw [lt_def] at less; omega
    rw [leftUnion]
    simp only [ne, if_false, covers, if_true, notLess]
    rfl

private theorem leftUnion_left (inside : ∀ x, HasKey t x → lo 64 key.toNat < x.toNat ∧ x.toNat < key.toNat) :
    leftUnion t (node key hasValue value left right) = node key hasValue value (leftUnion t left) right := by
  cases t with
  | null => rw [null_leftUnion, null_leftUnion]
  | node k0 hasValue0 value0 left0 right0 =>
    have bounds := inside k0 (.inl rfl)
    have stop := lt_hi 64 key.toNat
    have ne : ¬ k0 = key := fun same => by rw [same] at bounds; omega
    have covered : Covers 64 key.toNat k0.toNat := ⟨bounds.1, by omega⟩
    have half := covered.left key.isLt k0.isLt bounds.2
    have uncovered : ¬ keyCovers k0 key = true := fun covers => by
      have := ((keyCovers_iff k0 key).mp covers).2
      omega
    have covers : keyCovers key k0 = true := (keyCovers_iff key k0).mpr covered
    have less : k0 < key := lt_def.mpr bounds.2
    rw [leftUnion]
    simp only [ne, if_false, uncovered, covers, if_true, less]
    rfl

private theorem leftUnion_halves (inLeft : ∀ x, HasKey left x → lo 64 key.toNat < x.toNat ∧ x.toNat < key.toNat)
    (inRight : ∀ x, HasKey right x → key.toNat < x.toNat ∧ x.toNat < hi 64 key.toNat) :
    leftUnion left right = joined key left right := by
  cases left with
  | null => exact null_leftUnion right
  | node k0 hasValue0 value0 left0 right0 =>
    cases right with
    | null => exact leftUnion_null _
    | node k1 hasValue1 value1 left1 right1 =>
      have left := inLeft k0 (.inl rfl)
      have right := inRight k1 (.inl rfl)
      obtain ⟨uncovered0, uncovered1, join⟩ := keyJoin_halves left right
      rw [← keyCovers_iff] at uncovered0 uncovered1
      have ne : ¬ k0 = k1 := fun same => by rw [same] at left; omega
      have less : k0 < k1 := lt_def.mpr (by omega)
      rw [leftUnion]
      simp only [ne, if_false, uncovered0, uncovered1, Bool.false_eq_true, less, if_true, join]
      rfl

private theorem leftUnion_pruned (wf : Wf t low high) (wraps : kMax < kMin) :
    leftUnion (pruned (fun k => k ≤ kMax) t) (pruned (fun k => kMin ≤ k) t) =
      pruned (fun k => k ≤ kMax ∨ kMin ≤ k) t := by
  induction t generalizing low high with
  | null => simp [pruned, leftUnion]
  | node key hasValue value left right ihLeft ihRight =>
    have inLeft {P : Word → Prop} [DecidablePred P] (x : Word) (stored : HasKey (pruned P left) x) :=
      wf.hasKey_left stored.of_pruned
    have inRight {P : Word → Prop} [DecidablePred P] (x : Word) (stored : HasKey (pruned P right) x) :=
      wf.hasKey_right stored.of_pruned
    -- A subtree on the far side of a bound has nothing beyond that bound.
    have noUpper (before : key < kMin) : pruned (fun k => kMin ≤ k) left = null :=
      pruned_eq_null fun x stored => BitVec.not_le.mpr (BitVec.lt_trans (wf.left_lt stored) before)
    have noLower (after : kMax < key) : pruned (fun k => k ≤ kMax) right = null :=
      pruned_eq_null fun x stored => BitVec.not_le.mpr (BitVec.lt_trans after (wf.lt_right stored))
    rw [pruned, pruned, pruned, ← ihLeft wf.2.2.1, ← ihRight wf.2.2.2.1]
    by_cases lower : key ≤ kMax
    · have before : key < kMin := Nat.lt_of_le_of_lt lower wraps
      rw [if_pos lower, if_neg (BitVec.not_le.mpr before), if_pos (.inl lower), noUpper before, leftUnion_null]
      exact leftUnion_right inRight
    have after : kMax < key := BitVec.not_le.mp lower
    by_cases upper : kMin ≤ key
    · rw [if_neg lower, if_pos upper, if_pos (.inr upper), noLower after, joined_null, null_leftUnion]
      exact leftUnion_left inLeft
    · have out : ¬ (key ≤ kMax ∨ kMin ≤ key) := not_or.mpr ⟨lower, upper⟩
      rw [if_neg lower, if_neg upper, if_neg out, noUpper (BitVec.not_le.mp upper), noLower after, joined_null,
        leftUnion_null, null_leftUnion]
      exact leftUnion_halves inLeft inRight

end Refine

theorem clip_eq (wf : Wf t low high) (kMin kMax : Word) :
    clip t kMin kMax = pruned (InRange kMin kMax) t := by
  rw [clip]
  by_cases ordered : kMin ≤ kMax
  · rw [if_pos ordered, uclip_eq wf]
    refine pruned_congr fun x _ => ?_
    rw [InRange, if_pos ordered]
  · have wraps : kMax < kMin := BitVec.not_le.mp ordered
    rw [if_neg ordered, uclipLower_eq wf, uclipUpper_eq wf, leftUnion_pruned wf wraps]
    refine pruned_congr fun x _ => ?_
    rw [InRange, if_neg ordered]

/-- A map is what the bindings of another one in an interval build, and the
observers say so. -/
structure ClippedRight (map result : Ucmap) (kMin kMax : Word) : Prop where
  tree : result = insertAll null (clipped map kMin kMax)
  empty : isEmpty result = true ↔ ∀ k, InRange kMin kMax k → find map k = none
  equal : ∀ other : UcmapTrie, eq result other.tree = true ↔
    ∀ k, find other.tree k = if InRange kMin kMax k then find map k else none
  least : result ≠ null → IsLeast {k | InRange kMin kMax k ∧ find map k ≠ none} (minUkey result)
  greatest : result ≠ null → IsGreatest {k | InRange kMin kMax k ∧ find map k ≠ none} (maxUkey result)

theorem Wf.clippedRight_iff (wf : Wf t 0 (2 ^ 64)) (kMin kMax : Word) :
    ClippedRight t (pruned (InRange kMin kMax) t) kMin kMax ↔ JoinsKept (InRange kMin kMax) t := by
  rw [← wf_pruned_iff Region.top wf]
  constructor
  · intro right
    rw [right.tree]
    exact (insertAll_null_represents (clipped_ascending wf kMin kMax)).wf
  intro kept
  have bound (k : Word) : lookup (pruned (InRange kMin kMax) t) k =
      if InRange kMin kMax k then find t k else none := by
    rw [lookup_pruned wf, wf.find_eq]
  have keys : boundKeys (pruned (InRange kMin kMax) t) = {k | InRange kMin kMax k ∧ find t k ≠ none} := by
    ext k
    rw [boundKeys, Set.mem_ofPred_eq, Set.mem_ofPred_eq, kept.find_eq, bound]
    split
    · next inside => simp [inside]
    · next outside => simp [outside]
  have counted := kept.counted
  refine ⟨?_, ?_, fun other => ?_, keys ▸ counted.least, keys ▸ counted.greatest⟩
  · refine kept.eq_insertAll (clipped_ascending wf kMin kMax) fun x v => ?_
    rw [bound, mem_clipped_iff wf, wf.find_eq]
    split
    · next inside => simp [inside]
    · next outside => simp [outside]
  · rw [isEmpty, beq_iff_eq]
    constructor
    · intro null k inside
      have none := bound k
      rw [null, if_pos inside] at none
      exact none.symm
    · intro none
      refine kept.eq_null fun k => ?_
      rw [bound]
      split
      · next inside => exact none k inside
      · rfl
  · rw [eq_iff]
    constructor
    · intro same k
      rw [← bound, same, other.wf.find_eq]
    · intro same
      refine kept.ext other.wf fun k => ?_
      rw [bound, ← same, other.wf.find_eq]

end Ucmap

namespace UcmapTrie

open Ucmap

/-- Clipping is right exactly when each node without a binding that it keeps has
bindings in the interval on both sides. -/
theorem clip_right_iff (map : UcmapTrie) (kMin kMax : Word) :
    (ClippedRight map.tree (clip map.tree kMin kMax) kMin kMax ↔ JoinsKept (InRange kMin kMax) map.tree) ∧
    (kMin ≤ kMax →
      (ClippedRight map.tree (uclip kMin kMax map.tree) kMin kMax ↔ JoinsKept (InRange kMin kMax) map.tree)) := by
  have clips := map.wf.clippedRight_iff kMin kMax
  rw [← clip_eq map.wf] at clips
  refine ⟨clips, fun ordered => ?_⟩
  rw [clip, if_pos ordered] at clips
  exact clips

theorem clip_right_iff_pair : (1 : Word) ≤ 3 ∧
    (ClippedRight (build [.insert 1 5, .insert 3 7]) (uclip 1 3 (build [.insert 1 5, .insert 3 7])) 1 3 ↔
      JoinsKept (InRange 1 3) (build [.insert 1 5, .insert 3 7])) :=
  ⟨by decide, (clip_right_iff ⟨_, build_wf [.insert 1 5, .insert 3 7]⟩ 1 3).2 (by decide)⟩

/-- The keys 1 and 3 are joined by a node with the key 2, which is kept alone. -/
theorem uclip_join_not_right :
    ¬ ClippedRight (build [.insert 1 5, .insert 3 7]) (uclip 2 2 (build [.insert 1 5, .insert 3 7])) 2 2 := by
  intro right
  have outside : ∀ k, InRange 2 2 k → find (build [.insert 1 5, .insert 3 7]) k = none := by
    intro k inside
    have only : k = 2 := by
      exact BitVec.le_antisymm inside.2 inside.1
    subst only
    decide
  exact absurd (right.empty.mpr outside) (by decide)

end UcmapTrie

end Culibs.Cucon
