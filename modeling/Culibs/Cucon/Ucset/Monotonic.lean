import Culibs.Cucon.Ucset.Grow

namespace Culibs.Cucon.Ucset

open Cu DyadicBlock List
open BitVec (le_def lt_def)

variable {σ : Type}

/-- `*have_next` and `*next_key` with the state of the closure `f` behind them. -/
structure Feed (σ : Type) where
  haveNext : Bool
  nextKey : Word
  state : σ

/-- `*have_next = cu_call(f, next_key)`. The closure returns whether there is
a next word, the word as it left it in `*next_key`, and its own new state. -/
def Feed.advance (f : Word → σ → Bool × Word × σ) (feed : Feed σ) : Feed σ :=
  let called := f feed.nextKey feed.state
  { haveNext := called.1, nextKey := called.2.1, state := called.2.2 }

/-- The loop of `_ucleaf_from_monotonic`. -/
def leafFromMonotonicLoop (f : Word → σ → Bool × Word × σ) (maxKey : Word) :
    Nat → Bitset → Feed σ → Option (Bitset × Feed σ)
  | 0, _, _ => none
  | fuel + 1, bitset, feed =>
    if feed.haveNext ∧ feed.nextKey ≤ maxKey then
      leafFromMonotonicLoop f maxKey fuel (setBit bitset feed.nextKey) (feed.advance f)
    else some (bitset, feed)

def leafFromMonotonic (f : Word → σ → Bool × Word × σ) (fuel : Nat) (feed : Feed σ) (clipMax : Word) :
    Option (Ucset × Feed σ) :=
  let maxKey := uintptrMin clipMax (feed.nextKey ||| bitsetMask)
  (leafFromMonotonicLoop f maxKey fuel (fun _ => 0) feed).map fun filled =>
    (leaf (leafKey feed.nextKey) filled.1, filled.2)

mutual

/-- `_ucset_from_monotonic`, with fuel for its recursion and its loop. -/
def fromMonotonic (f : Word → σ → Bool × Word × σ) : Nat → Feed σ → Word → Option (Ucset × Feed σ)
  | 0, _, _ => none
  | fuel + 1, feed, clipMax =>
    if !feed.haveNext ∨ feed.nextKey > clipMax then some (null, feed)
    else if keyIsLeaflike feed.nextKey then
      match leafFromMonotonic f fuel feed clipMax with
      | none => none
      | some (left, feed) => fromMonotonicLoop f fuel feed clipMax left (ucnodeKey left)
    else fromMonotonicLoop f fuel feed clipMax null (feed.nextKey - 1)

/-- The loop of `_ucset_from_monotonic`. -/
def fromMonotonicLoop (f : Word → σ → Bool × Word × σ) :
    Nat → Feed σ → Word → Ucset → Word → Option (Ucset × Feed σ)
  | 0, _, _, _, _ => none
  | fuel + 1, feed, clipMax, left, leftKey =>
    if feed.haveNext ∧ feed.nextKey ≤ clipMax then
      let keyDiff := leftKey ^^^ feed.nextKey
      let spanLmask := if keyDiff ≠ 0 then uintptrDcover keyDiff else ~~~0
      let spanMin := leftKey &&& ~~~spanLmask
      let spanMax := leftKey ||| spanLmask
      let spanKey := spanMin + ((spanLmask >>> 1) + 1)
      let (stored, feed) :=
        if spanKey = feed.nextKey then (spanKey ||| 1, feed.advance f) else (spanKey, feed)
      match fromMonotonic f fuel feed spanMax with
      | none => none
      | some (right, feed) => fromMonotonicLoop f fuel feed clipMax (ucnodeNew stored left right) leftKey
    else some (left, feed)

end

/-- The words the feed gives until `last`, where it has none. -/
inductive Yields (f : Word → σ → Bool × Word × σ) (last : Feed σ) : Feed σ → List Word → Prop
  | done : last.haveNext = false → Yields f last last []
  | next {feed : Feed σ} {keys : List Word} : feed.haveNext = true →
      Yields f last (feed.advance f) keys → Yields f last feed (feed.nextKey :: keys)

variable {f : Word → σ → Bool × Word × σ} {last : Feed σ}
variable {keys : List Word} {feed : Feed σ}

theorem Yields.of_haveNext (yields : Yields f last feed keys)
    (running : feed.haveNext = true) :
    ∃ rest, keys = feed.nextKey :: rest ∧ Yields f last (feed.advance f) rest := by
  cases yields with
  | done ended => simp [ended] at running
  | next _ later => exact ⟨_, rfl, later⟩

theorem Yields.of_not_haveNext (yields : Yields f last feed keys)
    (ended : feed.haveNext = false) : keys = [] ∧ feed = last := by
  cases yields with
  | done _ => exact ⟨rfl, rfl⟩
  | next running _ => simp [running] at ended

/-- Words in strictly increasing order. -/
abbrev Increasing (keys : List Word) : Prop := keys.Pairwise fun a b => a.toNat < b.toNat

variable {low high : Nat}

/-- A builder has taken the words below `high` from the feed and added them to
the elements it was given. -/
def Takes (f : Word → σ → Bool × Word × σ) (last : Feed σ) (low high : Nat) (before : Word → Prop)
    (result : Option (Ucset × Feed σ)) (keys : List Word) : Prop :=
  ∃ t feed taken rest, result = some (t, feed) ∧ keys = taken ++ rest ∧ Yields f last feed rest ∧
    (∀ y ∈ rest, high ≤ y.toNat) ∧ Represents t low high (fun y => before y ∨ y ∈ taken)

variable {feed : Feed σ} {keys : List Word}

private theorem leafLoop_spec (maxKey : Word) (fuel : Nat)
    (bitset : Bitset) (yields : Yields f last feed keys) (increasing : Increasing keys)
    (enough : keys.length + 1 ≤ fuel) :
    ∃ bitset' feed' taken rest, leafFromMonotonicLoop f maxKey fuel bitset feed = some (bitset', feed') ∧
      keys = taken ++ rest ∧ Yields f last feed' rest ∧
      (∀ y ∈ taken, y.toNat ≤ maxKey.toNat) ∧ (∀ y ∈ rest, maxKey.toNat < y.toNat) ∧
      ∀ i, bit bitset' i = true ↔ bit bitset i = true ∨ ∃ y ∈ taken, y.toNat % 128 = i % 128 := by
  induction fuel generalizing feed keys bitset with
  | zero => omega
  | succ fuel ih =>
    rw [leafFromMonotonicLoop]
    split
    · next continues =>
      obtain ⟨running, within⟩ := continues
      obtain ⟨rest, rfl, later⟩ := yields.of_haveNext running
      obtain ⟨bitset', feed', taken, rest', made, split, remaining, small, large, bits⟩ :=
        ih (setBit bitset feed.nextKey) later (pairwise_cons.mp increasing).2
          (by simp only [length_cons] at enough; omega)
      refine ⟨bitset', feed', feed.nextKey :: taken, rest', made, by rw [split]; rfl, remaining,
        ?_, large, fun i => ?_⟩
      · intro y mem
        rcases mem_cons.mp mem with rfl | inTaken
        · exact le_def.mp within
        · exact small y inTaken
      · rw [bits, bit_setBit, Bool.or_eq_true, decide_eq_true_iff]
        simp only [mem_cons, exists_eq_or_imp]
        tauto
    · next stops =>
      refine ⟨bitset, feed, [], keys, rfl, rfl, yields, by simp, fun y mem => ?_, by simp⟩
      cases running : feed.haveNext with
      | false =>
        rw [(yields.of_not_haveNext running).1] at mem
        simp at mem
      | true =>
        obtain ⟨rest, rfl, _⟩ := yields.of_haveNext running
        have beyond : ¬ feed.nextKey ≤ maxKey := fun within => stops ⟨running, within⟩
        rw [le_def] at beyond
        rcases mem_cons.mp mem with rfl | inRest
        · omega
        · have := rel_of_pairwise_cons increasing inRest
          omega

private theorem leafFromMonotonic_spec (fuel : Nat)
    (region : Region low high) (bound : clipMax.toNat + 1 = high) (yields : Yields f last feed keys)
    (increasing : Increasing keys) (above : Above low keys) (running : feed.haveNext = true)
    (within : feed.nextKey.toNat < high) (leaflike : keyIsLeaflike feed.nextKey = true)
    (enough : keys.length + 1 ≤ fuel) :
    ∃ t feed' taken rest, leafFromMonotonic f fuel feed clipMax = some (t, feed') ∧
      keys = taken ++ rest ∧ feed.nextKey ∈ taken ∧ Yields f last feed' rest ∧
      Represents t low high (· ∈ taken) ∧ t.centre = (leafKey feed.nextKey).toNat ∧
      ∀ y ∈ rest, hi 64 (leafKey feed.nextKey).toNat ≤ y.toNat := by
  have leafIsKey := isLeafKey_leafKey feed.nextKey
  have value := toNat_leafKey feed.nextKey
  have lastBit := toNat_or_mask feed.nextKey _ toNat_bitsetMask
  have highMod := region.highMod
  -- The region is made of whole leaf blocks, so the block end decides.
  have least : (uintptrMin clipMax (feed.nextKey ||| bitsetMask)).toNat =
      (feed.nextKey ||| bitsetMask).toNat := by
    simp only [uintptrMin, lt_def]
    split <;> omega
  obtain ⟨bitset, feed', taken, rest, made, split, remaining, small, large, bits⟩ :=
    leafLoop_spec (uintptrMin clipMax (feed.nextKey ||| bitsetMask)) fuel (fun _ => 0) yields
      increasing enough
  rw [least] at small large
  obtain ⟨later, first, _⟩ := yields.of_haveNext running
  have present : feed.nextKey ∈ keys := by rw [first]; exact .head _ ..
  have took : feed.nextKey ∈ taken := by
    rcases mem_append.mp (split ▸ present) with inTaken | inRest
    · exact inTaken
    · have := large _ inRest
      omega
  refine ⟨leaf (leafKey feed.nextKey) bitset, feed', taken, rest, ?_, split, took, remaining, ?_,
    centre_leaf leafIsKey, fun y inRest => ?_⟩
  · simp only [leafFromMonotonic, made, Option.map_some]
  · refine filled_leaf_represents region (fun y inTaken => above y ?_) within took leaflike
      (fun y inTaken => ?_) small fun i => ?_
    · rw [split]
      exact mem_append_left _ inTaken
    · have mem : y ∈ keys := by rw [split]; exact mem_append_left _ inTaken
      rw [first] at mem increasing
      rcases mem_cons.mp mem with rfl | inLater
      · exact le_rfl
      · exact le_of_lt (rel_of_pairwise_cons increasing inLater)
    · rw [bits]
      simp
  · have := large y inRest
    rw [(leaf_block leafIsKey).2]
    omega

/-- What the builder of a region promises with the given fuel. -/
private def BuildsFrom (f : Word → σ → Bool × Word × σ) (last : Feed σ) (fuel : Nat) : Prop :=
  ∀ {low high : Nat} {clipMax : Word} {feed : Feed σ} {keys : List Word}, Region low high →
    clipMax.toNat + 1 = high → Yields f last feed keys → Increasing keys → Above low keys →
    3 * keys.length + 1 ≤ fuel →
    Takes f last low high (fun _ => False) (fromMonotonic f fuel feed clipMax) keys

/-- What its loop promises above a finished tree. -/
private def GrowsFrom (f : Word → σ → Bool × Word × σ) (last : Feed σ) (fuel : Nat) : Prop :=
  ∀ (leftKey : Word) {low high : Nat} {clipMax : Word} {left : Ucset} {feed : Feed σ} {keys : List Word}
    {before : Word → Prop}, Region low high → clipMax.toNat + 1 = high → Yields f last feed keys →
    Increasing keys → Represents left low high before → left ≠ null →
    lo 64 left.centre ≤ leftKey.toNat → leftKey.toNat < hi 64 left.centre →
    (∀ y ∈ keys, hi 64 left.centre ≤ y.toNat) → 3 * keys.length + 2 ≤ fuel →
    Takes f last low high before (fromMonotonicLoop f fuel feed clipMax left leftKey) keys

private theorem loop_eq (fuel : Nat) (left : Ucset)
    (continues : feed.haveNext = true ∧ feed.nextKey ≤ clipMax)
    (less : leftKey.toNat < feed.nextKey.toNat)
    (join : (leftKey &&& ~~~(uintptrDcover (leftKey ^^^ feed.nextKey))) +
      ((uintptrDcover (leftKey ^^^ feed.nextKey) >>> 1) + 1) = j) :
    fromMonotonicLoop f (fuel + 1) feed clipMax left leftKey =
      match fromMonotonic f fuel (if j = feed.nextKey then feed.advance f else feed)
        (leftKey ||| uintptrDcover (leftKey ^^^ feed.nextKey)) with
      | none => none
      | some (right, feed') => fromMonotonicLoop f fuel feed' clipMax
          (ucnodeNew (if j = feed.nextKey then j ||| 1 else j) left right) leftKey := by
  have ne : leftKey ^^^ feed.nextKey ≠ 0 := by
    rw [Ne, BitVec.toNat_eq, BitVec.toNat_xor]
    intro same
    have := Nat.xor_eq_zero_iff.mp same
    omega
  rw [fromMonotonicLoop, if_pos continues]
  simp only [ne, ne_eq, not_false_eq_true, if_true, join]
  by_cases stored : j = feed.nextKey <;> simp only [stored, if_true, if_false]

private theorem grows_from_step (builds : BuildsFrom f last fuel)
    (grows : GrowsFrom f last fuel) : GrowsFrom f last (fuel + 1) := by
  intro leftKey low high clipMax left feed keys before region bound yields increasing current nonnull
    start stop beyond enough
  by_cases continues : feed.haveNext = true ∧ feed.nextKey ≤ clipMax
  · obtain ⟨rest, rfl, later⟩ := yields.of_haveNext continues.1
    have within := le_def.mp continues.2
    have larger := fun y (mem : y ∈ rest) => rel_of_pairwise_cons increasing mem
    have block := current.wf.block nonnull
    have first := beyond feed.nextKey (mem_cons_self ..)
    obtain ⟨j, value, spanMax, nodeKey, startJ, leftJ, reached, stopJ⟩ :=
      join_above leftKey block.1 (centre_lt left) ⟨start, stop⟩ first
    rw [loop_eq fuel left continues (by omega) (value leftKey (.inl rfl)).2]
    have rightRegion := Region.rightHalf nodeKey j.isLt
    have rightBound : (leftKey ||| uintptrDcover (leftKey ^^^ feed.nextKey)).toNat + 1 =
        hi 64 j.toNat := by
      omega
    simp only [length_cons] at enough
    by_cases stored : j = feed.nextKey
    · simp only [stored, if_true] at *
      obtain ⟨right, feed1, taken1, rest1, made, split1, yields1, far, inRight⟩ := builds
        rightRegion rightBound later (pairwise_cons.mp increasing).2
        (fun y mem => by have := larger y mem; omega) (by omega)
      rw [made]
      simp only [false_or] at inRight
      have grown := grow_represents region current nonnull nodeKey startJ leftJ (le_rfl)
        (by omega) inRight (.inl rfl)
      have shorter := congrArg length split1
      rw [length_append] at shorter
      have increasing1 : Increasing rest1 :=
        (pairwise_append.mp (split1 ▸ (pairwise_cons.mp increasing).2)).2.1
      obtain ⟨t, feed2, taken2, rest2, finished, split2, yields2, outside, rep⟩ := grows
        leftKey region bound yields1 increasing1 grown.1 (by simp [ucnodeNew])
        (by rw [grown.2]; omega) (by rw [grown.2]; omega) (by rw [grown.2]; exact far) (by omega)
      refine ⟨t, feed2, feed.nextKey :: (taken1 ++ taken2), rest2, finished, ?_, yields2, outside,
        rep.congr fun y => ?_⟩
      · rw [split1, split2, cons_append, append_assoc]
      · simp only [mem_cons, mem_append, true_and]
        grind
    · simp only [stored, if_false]
      have more : j.toNat < feed.nextKey.toNat := by
        have : j.toNat ≠ feed.nextKey.toNat := fun same => stored (BitVec.eq_of_toNat_eq same)
        omega
      have above : Above j.toNat (feed.nextKey :: rest) := by
        intro y mem
        rcases mem_cons.mp mem with rfl | inRest
        · omega
        · have := larger y inRest
          omega
      obtain ⟨right, feed1, taken1, rest1, made, split1, yields1, far, inRight⟩ := builds
        rightRegion rightBound yields increasing above
        (by simp only [length_cons]; omega)
      rw [made]
      simp only [false_or] at inRight
      have took : feed.nextKey ∈ taken1 := by
        rcases mem_append.mp (split1 ▸ mem_cons_self (a := feed.nextKey) (l := rest)) with
          inTaken | inRest
        · exact inTaken
        · have := far _ inRest
          omega
      have grown := grow_represents region current nonnull nodeKey startJ leftJ reached
        (by omega) inRight (.inr ⟨rfl, inRight.ne_null took⟩)
      have shorter := congrArg length split1
      rw [length_append, length_cons] at shorter
      have := length_pos_of_mem took
      have increasing1 : Increasing rest1 := (pairwise_append.mp (split1 ▸ increasing)).2.1
      obtain ⟨t, feed2, taken2, rest2, finished, split2, yields2, outside, rep⟩ := grows
        leftKey region bound yields1 increasing1 grown.1 (by simp [ucnodeNew])
        (by rw [grown.2]; omega) (by rw [grown.2]; omega) (by rw [grown.2]; exact far) (by omega)
      have differ : j ≠ j ||| 1 := by
        have raised := (or_one_key j).2
        have := nodeKey.1
        intro same
        rw [← same] at raised
        omega
      refine ⟨t, feed2, taken1 ++ taken2, rest2, finished, ?_, yields2, outside, rep.congr fun y => ?_⟩
      · rw [split1, split2, append_assoc]
      · simp only [mem_append, differ, false_and, false_or, or_assoc]
  · rw [fromMonotonicLoop, if_neg continues]
    refine ⟨left, feed, [], keys, rfl, rfl, yields, fun y mem => ?_, by simpa using current⟩
    cases running : feed.haveNext with
    | false =>
      rw [(yields.of_not_haveNext running).1] at mem
      simp at mem
    | true =>
      obtain ⟨rest, rfl, _⟩ := yields.of_haveNext running
      have outside : ¬ feed.nextKey ≤ clipMax := fun within => continues ⟨running, within⟩
      rw [le_def] at outside
      rcases mem_cons.mp mem with rfl | inRest
      · omega
      · have := rel_of_pairwise_cons increasing inRest
        omega

private theorem join_pred (pos : 0 < x.toNat) :
    (x - (1 : Word)).toNat + 1 = x.toNat ∧
      ((x - (1 : Word)) &&& ~~~(uintptrDcover ((x - (1 : Word)) ^^^ x))) +
        ((uintptrDcover ((x - (1 : Word)) ^^^ x) >>> 1) + 1) = x ∧
      ((x - (1 : Word)) ||| uintptrDcover ((x - (1 : Word)) ^^^ x)).toNat + 1 = hi 64 x.toNat := by
  have before : (x - (1 : Word)).toNat = x.toNat - 1 := by
    rw [BitVec.toNat_sub_of_le (by rw [le_def]; exact pos)]
    rfl
  obtain ⟨j, value, last, _, left, middle, _⟩ := @join_words (x - (1 : Word)) x (by omega)
  have same : j = x := BitVec.eq_of_toNat_eq (by omega)
  subst same
  exact ⟨by omega, (value _ (.inl rfl)).2, by omega⟩

private theorem builds_from_step
    (builds : ∀ fuel' ≤ fuel, BuildsFrom f last fuel') (grows : ∀ fuel' ≤ fuel, GrowsFrom f last fuel') :
    BuildsFrom f last (fuel + 1) := by
  intro low high clipMax feed keys region bound yields increasing above enough
  rw [fromMonotonic]
  split
  · next stops =>
    refine ⟨null, feed, [], keys, rfl, rfl, yields, fun y mem => ?_, trivial, fun y => by simp [Contains]⟩
    cases running : feed.haveNext with
    | false =>
      rw [(yields.of_not_haveNext running).1] at mem
      simp at mem
    | true =>
      obtain ⟨rest, rfl, _⟩ := yields.of_haveNext running
      simp only [running, Bool.not_true, Bool.false_eq_true, false_or, gt_iff_lt, lt_def] at stops
      rcases mem_cons.mp mem with rfl | inRest
      · omega
      · have := rel_of_pairwise_cons increasing inRest
        omega
  · next continues =>
    simp only [Bool.not_eq_true', gt_iff_lt, lt_def, not_or, Bool.not_eq_false] at continues
    obtain ⟨running, within⟩ := continues
    obtain ⟨rest, rfl, later⟩ := yields.of_haveNext running
    simp only [length_cons] at enough
    split
    · next leaflike =>
      obtain ⟨t, feed1, taken1, rest1, made, split1, took, yields1, filled, centred, far⟩ :=
        leafFromMonotonic_spec fuel region bound yields increasing above running (by omega)
          leaflike (by simp only [length_cons]; omega)
      rw [made]
      have shorter := congrArg length split1
      rw [length_append, length_cons] at shorter
      have := length_pos_of_mem took
      obtain ⟨t2, feed2, taken2, rest2, finished, split2, yields2, outside, rep⟩ :=
        grows fuel (le_rfl) (ucnodeKey t) region bound yields1
          (pairwise_append.mp (split1 ▸ increasing)).2.1 filled (filled.ne_null took)
          (lo_le _ _) (lt_hi _ _) (by rw [centred]; exact far) (by omega)
      refine ⟨t2, feed2, taken1 ++ taken2, rest2, finished, ?_, yields2, outside, rep.congr fun y => ?_⟩
      · rw [split1, split2, append_assoc]
      · simp
    · next notLeaflike =>
      -- The first round of the loop joins the key with its predecessor and stores it.
      rw [keyIsLeaflike_iff] at notLeaflike
      have nodeKey : IsNodeKey feed.nextKey.toNat := ⟨by omega, by omega⟩
      have more := above feed.nextKey (mem_cons_self ..)
      have larger := fun y (mem : y ∈ rest) => rel_of_pairwise_cons increasing mem
      obtain ⟨before, join, spanMax⟩ := join_pred (x := feed.nextKey) (by omega)
      obtain ⟨round, rfl⟩ : ∃ round, fuel = round + 1 := ⟨fuel - 1, by omega⟩
      rw [loop_eq round null ⟨running, le_def.mpr (by omega : _ ≤ clipMax.toNat)⟩ (by omega) join, if_pos rfl, if_pos rfl]
      obtain ⟨right, feed1, taken1, rest1, made, split1, yields1, far, inRight⟩ :=
        builds round (by omega) (Region.rightHalf nodeKey feed.nextKey.isLt) spanMax later
          (pairwise_cons.mp increasing).2
          (fun y mem => by have := larger y mem; omega) (by omega)
      rw [made]
      simp only [false_or] at inRight
      have started := start_represents region nodeKey (by omega) (by omega) inRight
      have raised := or_one_key feed.nextKey
      have centred : (ucnodeNew (feed.nextKey ||| 1) null right).centre = feed.nextKey.toNat := by
        rw [ucnodeNew, centre_node]
        omega
      have shorter := congrArg length split1
      rw [length_append] at shorter
      have start := lo_add_rad (w := 64) (k := feed.nextKey.toNat) (by omega)
      have pos := rad_pos 64 feed.nextKey.toNat
      have stop := lt_hi 64 feed.nextKey.toNat
      obtain ⟨t2, feed2, taken2, rest2, finished, split2, yields2, outside, rep⟩ :=
        grows round (by omega) (feed.nextKey - 1) region bound yields1
          (pairwise_append.mp (split1 ▸ (pairwise_cons.mp increasing).2)).2.1 started
          (by simp [ucnodeNew]) (by rw [centred]; omega) (by rw [centred]; omega)
          (by rw [centred]; exact far) (by omega)
      refine ⟨t2, feed2, feed.nextKey :: (taken1 ++ taken2), rest2, finished, ?_, yields2, outside,
        rep.congr fun y => ?_⟩
      · rw [split1, split2, cons_append, append_assoc]
      · simp [or_assoc]

private theorem fromMonotonic_takes (fuel : Nat) (clipMax : Word)
    (region : Region low high) (bound : clipMax.toNat + 1 = high) (yields : Yields f last feed keys)
    (increasing : Increasing keys) (above : Above low keys) (enough : 3 * keys.length + 1 ≤ fuel) :
    Takes f last low high (fun _ => False) (fromMonotonic f fuel feed clipMax) keys := by
  suffices both : ∀ fuel' ≤ fuel, BuildsFrom f last fuel' ∧ GrowsFrom f last fuel' from
    (both fuel (le_rfl)).1 region bound yields increasing above enough
  clear enough
  induction fuel with
  | zero =>
    intro fuel' none
    exact ⟨fun _ _ _ _ _ short => by omega, fun _ _ _ _ _ _ _ _ _ short => by omega⟩
  | succ fuel ih =>
    intro fuel' within
    rcases lt_or_eq_of_le within with smaller | rfl
    · exact ih fuel' (by omega)
    · exact ⟨builds_from_step (fun m small => (ih m small).1) (fun m small => (ih m small).2),
        grows_from_step (ih fuel (le_rfl)).1 (ih fuel (le_rfl)).2⟩

theorem fromMonotonic_represents (fuel : Nat)
    (yields : Yields f last feed keys) (increasing : Increasing keys)
    (enough : 3 * keys.length + 1 ≤ fuel) :
    ∃ t, fromMonotonic f fuel feed (BitVec.allOnes 64) = some (t, last) ∧
      Represents t 0 (2 ^ 64) (· ∈ keys) := by
  obtain ⟨t, feed', taken, rest, made, split, remaining, outside, rep⟩ :=
    fromMonotonic_takes fuel (BitVec.allOnes 64) Region.top (by decide) yields increasing
      (fun y _ => ⟨Nat.zero_le _, by omega⟩) enough
  have none_left : rest = [] := by
    apply eq_nil_iff_forall_not_mem.mpr
    intro y mem
    have := outside y mem
    omega
  subst none_left
  have ended : feed' = last := by
    cases remaining with
    | done _ => rfl
  have all : keys = taken := by simpa using split
  exact ⟨t, by rw [made, ended], rep.congr fun y => by simp [all]⟩

end Culibs.Cucon.Ucset
