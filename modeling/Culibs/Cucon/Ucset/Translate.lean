import Culibs.Cucon.Ucset.Clip
import Culibs.Cucon.Ucset.Iterator
import Culibs.Cucon.Ucset.Monotonic

namespace Culibs.Cucon.Ucset

open List
open BitVec (lt_def toNat_add)

/-- The fields of the closure `_ucset_translate_helper`. -/
structure TranslateHelper where
  itr : Itr
  diff : Word
  clipMax : Word
  cutHaveNext : Bool
  cutNextVal : Word

def translateHelper (valOut : Word) (self : TranslateHelper) : Bool × Word × TranslateHelper :=
  if itrAtEnd self.itr then (false, valOut, self)
  else
    let got := itrGet self.itr
    if got.1 > self.clipMax then
      (false, valOut, { self with itr := got.2, cutNextVal := got.1, cutHaveNext := true })
    else (true, got.1 + self.diff, { self with itr := got.2 })

/-- The loop that skips elements below `clipMin`. The inner `none` is an early
return of `NULL`. -/
def translateSkip (clipMin clipMax : Word) : Nat → Itr → Option (Option (Word × Itr))
  | 0, _ => none
  | fuel + 1, itr =>
    if itrAtEnd itr then some none
    else
      let got := itrGet itr
      if got.1 > clipMax then some none
      else if got.1 < clipMin then translateSkip clipMin clipMax fuel got.2
      else some (some got)

/-- Enough fuel for every loop over the elements of `set`. -/
def translateFuel (set : Ucset) : Nat := 384 * set.size + 1

def translateUclip (set : Ucset) (diff clipMin clipMax : Word) : Option Ucset :=
  match translateSkip clipMin clipMax (translateFuel set) (itrInit set) with
  | none => none
  | some none => some null
  | some (some (nextKey, itr)) =>
    let cb : TranslateHelper :=
      { itr, diff, clipMax := - diff - 1, cutHaveNext := false, cutNextVal := 0 }
    if cb.clipMax < clipMax then
      match fromMonotonic translateHelper (translateFuel set)
        { haveNext := true, nextKey := nextKey + diff, state := cb } (BitVec.allOnes 64) with
      | none => none
      | some (s0, feed) =>
        if !feed.state.cutHaveNext then some s0
        else if feed.state.cutNextVal > clipMax then some s0
        else
          match fromMonotonic translateHelper (translateFuel set)
            { haveNext := true, nextKey := feed.state.cutNextVal + diff,
              state := { feed.state with clipMax } } (BitVec.allOnes 64) with
          | none => none
          | some (s1, _) => some (union s0 s1)
    else
      match fromMonotonic translateHelper (translateFuel set)
        { haveNext := true, nextKey := nextKey + diff, state := { cb with clipMax } }
        (BitVec.allOnes 64) with
      | none => none
      | some (s1, _) => some (union null s1)

def translateSclip (set : Ucset) (diff clipMin clipMax : Word) : Option Ucset :=
  if clipMax.slt clipMin then some null
  else if clipMin.slt 0 = clipMax.slt 0 then translateUclip set diff clipMin clipMax
  else
    match translateUclip set diff 0 clipMax with
    | none => none
    | some s0 =>
      match translateUclip set diff clipMin (BitVec.allOnes 64) with
      | none => none
      | some s1 => some (union s0 s1)

def translate (set : Ucset) (diff : Word) : Option Ucset :=
  translateUclip set diff 0 (BitVec.allOnes 64)

example : (translate (insert (singleton 5) 300) (-10)).map
    (fun moved => (find moved (-5), find moved 290, find moved 5)) = some (true, true, false) := by
  decide +kernel

private theorem length_elements_le (t : Ucset) : (elements t).length ≤ 128 * t.size := by
  induction t with
  | null => simp [elements]
  | leaf key bitset =>
    simp only [elements, leafElements, length_map, size]
    have := length_filter_le (fun i => bit bitset i) (range' 0 (128 - 0))
    simp only [length_range'] at this
    omega
  | node key left right ihLeft ihRight =>
    simp only [elements, length_append, size]
    have : (if key &&& 1 = 0 then [] else [key &&& ~~~1]).length ≤ 1 := by split <;> simp
    omega

private theorem translateSkip_spec (clipMin clipMax : Word) (fuel : Nat) (valid : itr.Valid)
    (increasing : Increasing (pending itr)) (enough : (pending itr).length < fuel) :
    (translateSkip clipMin clipMax fuel itr = some none ∧
      ∀ x ∈ pending itr, ¬ (clipMin.toNat ≤ x.toNat ∧ x.toNat ≤ clipMax.toNat)) ∨
    ∃ x itr' skipped, translateSkip clipMin clipMax fuel itr = some (some (x, itr')) ∧ itr'.Valid ∧
      pending itr = skipped ++ x :: pending itr' ∧ (∀ y ∈ skipped, y.toNat < clipMin.toNat) ∧
      clipMin.toNat ≤ x.toNat ∧ x.toNat ≤ clipMax.toNat := by
  induction fuel generalizing itr with
  | zero => omega
  | succ fuel ih =>
    rw [translateSkip]
    cases ended : itrAtEnd itr with
    | true =>
      refine .inl ⟨rfl, ?_⟩
      rw [(itrAtEnd_iff valid).mp ended]
      simp
    | false =>
      obtain ⟨valid', first⟩ := itrGet_spec valid ended
      simp only [Bool.false_eq_true, if_false, gt_iff_lt, lt_def]
      rw [first] at increasing enough
      obtain ⟨least, later⟩ := pairwise_cons.mp increasing
      split
      · next beyond =>
        refine .inl ⟨rfl, fun x mem => ?_⟩
        rw [first] at mem
        rcases mem_cons.mp mem with rfl | inRest
        · omega
        · have := least x inRest
          omega
      · next within =>
        split
        · next before =>
          rcases ih valid' later (by simp only [length_cons] at enough; omega) with
            ⟨result, outside⟩ | ⟨x, itr', skipped, result, valid'', split, small, lower, upper⟩
          · refine .inl ⟨result, fun x mem => ?_⟩
            rw [first] at mem
            rcases mem_cons.mp mem with rfl | inRest
            · omega
            · exact outside x inRest
          · refine .inr ⟨x, itr', (itrGet itr).1 :: skipped, result, valid'', ?_, ?_, lower, upper⟩
            · rw [first, split, cons_append]
            · intro y mem
              rcases mem_cons.mp mem with rfl | inSkipped
              · exact before
              · exact small y inSkipped
        · next reached =>
          exact .inr ⟨(itrGet itr).1, (itrGet itr).2, [], rfl, valid', by rw [first]; rfl, by simp,
            by omega, by omega⟩

/-- The words the helper gives: translated elements up to its bound, where the
first element beyond the bound is put aside. -/
theorem translateHelper_yields (self : TranslateHelper) (valid : self.itr.Valid)
    (increasing : Increasing (pending self.itr)) (nextKey : Word) :
    ∃ last taken rest, Yields translateHelper last
        { haveNext := true, nextKey, state := self } (nextKey :: taken.map (· + self.diff)) ∧
      pending self.itr = taken ++ rest ∧ (∀ y ∈ taken, y.toNat ≤ self.clipMax.toNat) ∧
      last.state.diff = self.diff ∧
      (rest = [] ∧ last.state.cutHaveNext = self.cutHaveNext ∨
        self.clipMax.toNat < last.state.cutNextVal.toNat ∧ last.state.cutHaveNext = true ∧
          last.state.itr.Valid ∧ rest = last.state.cutNextVal :: pending last.state.itr) := by
  generalize coming : pending self.itr = keys at increasing
  induction keys generalizing self nextKey with
  | nil =>
    have ended := (itrAtEnd_iff valid).mpr coming
    refine ⟨{ haveNext := false, nextKey, state := self }, [], [], ?_, rfl, by simp, rfl, .inl ⟨rfl, rfl⟩⟩
    have step : Feed.advance translateHelper { haveNext := true, nextKey, state := self } =
        { haveNext := false, nextKey, state := self } := by
      simp [Feed.advance, translateHelper, ended]
    exact Yields.next rfl (by rw [step]; exact Yields.done rfl)
  | cons x keys ih =>
    have running : itrAtEnd self.itr = false := by
      cases ended : itrAtEnd self.itr with
      | false => rfl
      | true => rw [(itrAtEnd_iff valid).mp ended] at coming; simp at coming
    obtain ⟨valid', first⟩ := itrGet_spec valid running
    obtain ⟨rfl, remaining⟩ := cons.inj (coming.symm.trans first)
    obtain ⟨least, later⟩ := pairwise_cons.mp increasing
    by_cases beyond : self.clipMax < (itrGet self.itr).1
    · refine ⟨{ haveNext := false, nextKey, state := { self with
          itr := (itrGet self.itr).2, cutNextVal := (itrGet self.itr).1, cutHaveNext := true } },
        [], (itrGet self.itr).1 :: keys, ?_, rfl, by simp, rfl,
        .inr ⟨lt_def.mp beyond, rfl, valid', by rw [remaining]⟩⟩
      have step : Feed.advance translateHelper { haveNext := true, nextKey, state := self } =
          { haveNext := false, nextKey, state := { self with
            itr := (itrGet self.itr).2, cutNextVal := (itrGet self.itr).1, cutHaveNext := true } } := by
        simp [Feed.advance, translateHelper, running, gt_iff_lt, beyond]
      exact Yields.next rfl (by rw [step]; exact Yields.done rfl)
    · obtain ⟨last, taken, rest, yields, split, small, sameDiff, cut⟩ :=
        ih { self with itr := (itrGet self.itr).2 } valid' ((itrGet self.itr).1 + self.diff)
          remaining.symm later
      have step : Feed.advance translateHelper { haveNext := true, nextKey, state := self } =
          { haveNext := true, nextKey := (itrGet self.itr).1 + self.diff,
            state := { self with itr := (itrGet self.itr).2 } } := by
        simp [Feed.advance, translateHelper, running, gt_iff_lt, beyond]
      refine ⟨last, (itrGet self.itr).1 :: taken, rest, ?_, by rw [split]; rfl, ?_, sameDiff, cut⟩
      · exact Yields.next rfl (by rw [step]; exact yields)
      · intro y mem
        rcases mem_cons.mp mem with rfl | inTaken
        · rw [lt_def] at beyond
          omega
        · exact small y inTaken

theorem increasing_translated {diff : Word} {keys : List Word} (increasing : Increasing keys)
    (sameSide : (∀ y ∈ keys, y.toNat + diff.toNat < 2 ^ 64) ∨
      ∀ y ∈ keys, 2 ^ 64 ≤ y.toNat + diff.toNat) :
    Increasing (keys.map (· + diff)) := by
  rw [Increasing, pairwise_map]
  refine increasing.imp_of_mem fun {a b} memberA memberB less => ?_
  rw [toNat_add, toNat_add]
  rcases sameSide with below | wrapped
  · rw [Nat.mod_eq_of_lt (below b memberB)]
    omega
  · have := wrapped a memberA
    omega

private theorem translate_run (self : TranslateHelper) (x : Word) (fuel : Nat) (valid : self.itr.Valid)
    (increasing : Increasing (x :: pending self.itr))
    (enough : 3 * (pending self.itr).length + 4 ≤ fuel)
    (sameSide : ∀ taken rest, pending self.itr = taken ++ rest →
      (∀ y ∈ taken, y.toNat ≤ self.clipMax.toNat) →
        (∀ y ∈ x :: taken, y.toNat + self.diff.toNat < 2 ^ 64) ∨
          ∀ y ∈ x :: taken, 2 ^ 64 ≤ y.toNat + self.diff.toNat) :
    ∃ t last taken rest, fromMonotonic translateHelper fuel
        { haveNext := true, nextKey := x + self.diff, state := self } (BitVec.allOnes 64) =
          some (t, last) ∧
      Represents t 0 (2 ^ 64) (fun y => ∃ z ∈ x :: taken, y = z + self.diff) ∧
      pending self.itr = taken ++ rest ∧ (∀ y ∈ taken, y.toNat ≤ self.clipMax.toNat) ∧
      last.state.diff = self.diff ∧
      (rest = [] ∧ last.state.cutHaveNext = self.cutHaveNext ∨
        self.clipMax.toNat < last.state.cutNextVal.toNat ∧ last.state.cutHaveNext = true ∧
          last.state.itr.Valid ∧ rest = last.state.cutNextVal :: pending last.state.itr) := by
  obtain ⟨last, taken, rest, yields, split, small, sameDiff, cut⟩ :=
    translateHelper_yields self valid (pairwise_cons.mp increasing).2 (x + self.diff)
  have shorter := congrArg length split
  rw [length_append] at shorter
  have ordered : Increasing ((x :: taken).map (· + self.diff)) := by
    refine increasing_translated (increasing.sublist ?_) (sameSide taken rest split small)
    rw [split]
    exact (sublist_append_left taken rest).cons_cons x
  obtain ⟨t, made, rep⟩ := fromMonotonic_represents fuel yields ordered
    (by simp only [length_cons, length_map]; omega)
  refine ⟨t, last, taken, rest, made, rep.congr fun y => ?_, split, small, sameDiff, cut⟩
  rw [← map_cons (f := (· + self.diff)), mem_map]
  exact ⟨fun ⟨z, mem, same⟩ => ⟨z, mem, same.symm⟩, fun ⟨z, mem, same⟩ => ⟨z, mem, same.symm⟩⟩

variable {t : Ucset}

theorem translateUclip_represents (wf : Wf t 0 (2 ^ 64)) (diff clipMin clipMax : Word) :
    ∃ moved, translateUclip t diff clipMin clipMax = some moved ∧
      Represents moved 0 (2 ^ 64) (fun y => ∃ x, Contains t x ∧ clipMin.toNat ≤ x.toNat ∧
        x.toNat ≤ clipMax.toNat ∧ y = x + diff) := by
  have fuel_eq : translateFuel t = 384 * t.size + 1 := rfl
  have length := length_elements_le t
  obtain ⟨valid, all⟩ := itrInit_spec wf
  have sorted := elements_sorted wf
  have mem (x : Word) : Contains t x ↔ x ∈ pending (itrInit t) := by
    rw [all, mem_elements wf]
  rw [← all] at sorted length
  rw [translateUclip]
  rcases translateSkip_spec clipMin clipMax (translateFuel t) valid sorted (by omega) with
    ⟨result, outside⟩ | ⟨x, itr, skipped, result, valid', split, small, lower, upper⟩
  · rw [result]
    refine ⟨null, rfl, trivial, fun y => ⟨False.elim, ?_⟩⟩
    rintro ⟨z, inTree, lower, upper, _⟩
    exact outside z ((mem z).mp inTree) ⟨lower, upper⟩
  rw [result]
  have tail : Increasing (x :: pending itr) := (pairwise_append.mp (split ▸ sorted)).2.1
  have shorter := congrArg List.length split
  rw [length_append, length_cons] at shorter
  -- The elements between the bounds are among those from `x` on.
  have inRange (z : Word) : Contains t z ∧ clipMin.toNat ≤ z.toNat ∧ z.toNat ≤ clipMax.toNat ↔
      z ∈ x :: pending itr ∧ z.toNat ≤ clipMax.toNat := by
    rw [mem, split, mem_append]
    constructor
    · rintro ⟨early | late, lower', upper'⟩
      · have := small z early
        omega
      · exact ⟨late, upper'⟩
    · rintro ⟨late, upper'⟩
      refine ⟨.inr late, ?_, upper'⟩
      rcases mem_cons.mp late with rfl | later
      · exact lower
      · have := rel_of_pairwise_cons tail later
        omega
  have goal_iff (y : Word) : (∃ z, Contains t z ∧ clipMin.toNat ≤ z.toNat ∧ z.toNat ≤ clipMax.toNat ∧
      y = z + diff) ↔ ∃ z ∈ x :: pending itr, z.toNat ≤ clipMax.toNat ∧ y = z + diff := by
    refine exists_congr fun z => ?_
    rw [← and_assoc, ← and_assoc, and_assoc (a := Contains t z), inRange z, and_assoc]
  have bound : (- diff - 1).toNat = 2 ^ 64 - 1 - diff.toNat := by
    have complement : - diff - 1 = ~~~diff := by
      rw [BitVec.neg_eq_not_add]
      exact BitVec.add_sub_cancel _ _
    rw [complement, BitVec.toNat_not]
  -- A run that takes the elements up to the bound and leaves only larger ones.
  have complete {taken rest : List Word} (split : pending itr = taken ++ rest)
      (within : ∀ z ∈ taken, z.toNat ≤ clipMax.toNat) (beyond : ∀ z ∈ rest, clipMax.toNat < z.toNat)
      (y : Word) : (∃ z ∈ x :: taken, y = z + diff) ↔
        ∃ z ∈ x :: pending itr, z.toNat ≤ clipMax.toNat ∧ y = z + diff := by
    constructor
    · rintro ⟨z, inTaken, same⟩
      refine ⟨z, ?_, ?_, same⟩
      · rw [split]
        exact mem_append_left _ inTaken
      · rcases mem_cons.mp inTaken with rfl | later
        · exact upper
        · exact within z later
    · rintro ⟨z, inAll, atMost, same⟩
      rw [split, ← cons_append] at inAll
      rcases mem_append.mp inAll with inTaken | inRest
      · exact ⟨z, inTaken, same⟩
      · have := beyond z inRest
        omega
  simp only
  by_cases cut : - diff - 1 < clipMax
  · rw [if_pos cut]
    rw [lt_def] at cut
    obtain ⟨s0, last, taken, rest, made, rep, split0, within, sameDiff, outcome⟩ :=
      translate_run { itr, diff, clipMax := - diff - 1, cutHaveNext := false, cutNextVal := 0 }
        x (translateFuel t) valid' tail (by simp only; omega) (by
          intro taken rest split0 within
          simp only [bound] at within split0 ⊢
          by_cases wraps : 2 ^ 64 ≤ x.toNat + diff.toNat
          · right
            intro y inTaken
            rcases mem_cons.mp inTaken with rfl | later
            · exact wraps
            · have := rel_of_pairwise_cons tail
                (show y ∈ pending itr by rw [split0]; exact mem_append_left _ later)
              omega
          · left
            intro y inTaken
            rcases mem_cons.mp inTaken with rfl | later
            · omega
            · have := within y later
              omega)
    rw [made]
    simp only [bound] at within outcome
    simp only at split0 sameDiff
    rcases outcome with ⟨rfl, noCut⟩ | ⟨more, isCut, validCut, rfl⟩
    · simp only [noCut, Bool.not_false, if_true]
      refine ⟨s0, rfl, rep.congr fun y => ?_⟩
      rw [goal_iff]
      exact complete split0 (fun z inTaken => by have := within z inTaken; omega) (by simp) y
    simp only [isCut, Bool.not_true, Bool.false_eq_true, if_false, gt_iff_lt]
    have tailRest : Increasing (last.state.cutNextVal :: pending last.state.itr) := by
      rw [split0, ← cons_append] at tail
      exact (pairwise_append.mp tail).2.1
    by_cases ended : clipMax < last.state.cutNextVal
    · rw [if_pos ended]
      rw [lt_def] at ended
      refine ⟨s0, rfl, rep.congr fun y => ?_⟩
      rw [goal_iff]
      refine complete split0 (fun z inTaken => by have := within z inTaken; omega) ?_ y
      intro z inRest
      rcases mem_cons.mp inRest with rfl | later
      · exact ended
      · have := rel_of_pairwise_cons tailRest later
        omega
    · rw [if_neg ended]
      rw [lt_def] at ended
      have lengthCut := congrArg List.length split0
      rw [length_append, length_cons] at lengthCut
      obtain ⟨s1, last1, taken1, rest1, made1, represents1, split1, within1, _, outcome1⟩ :=
        translate_run { last.state with clipMax } last.state.cutNextVal (translateFuel t)
          validCut tailRest (by simp only; omega) (by
            intro taken1 rest1 split1 _
            right
            intro y inTaken
            rw [sameDiff]
            rcases mem_cons.mp inTaken with rfl | later
            · omega
            · have := rel_of_pairwise_cons tailRest (show y ∈ pending last.state.itr by
                rw [split1]; exact mem_append_left _ later)
              omega)
      simp only [sameDiff, isCut] at made1 represents1 split1 within1 outcome1 ⊢
      rw [made1]
      have united := union_represents Region.top rep.wf represents1.wf
      refine ⟨union s0 s1, rfl, united.congr fun y => ?_⟩
      rw [goal_iff, rep.contains, represents1.contains]
      have whole : pending itr = (taken ++ last.state.cutNextVal :: taken1) ++ rest1 := by
        rw [split0, split1, append_assoc, cons_append]
      rw [← complete whole ?_ ?_ y]
      · simp only [← exists_or, ← or_and_right]
        refine exists_congr fun z => and_congr_left fun _ => ?_
        simp [or_assoc]
      · intro z inTaken
        rcases mem_append.mp inTaken with early | late
        · have := within z early
          omega
        · rcases mem_cons.mp late with rfl | later
          · omega
          · exact within1 z later
      · intro z inRest
        rcases outcome1 with ⟨rfl, _⟩ | ⟨more1, _, _, rfl⟩
        · simp at inRest
        have ordered : Increasing (last1.state.cutNextVal :: pending last1.state.itr) := by
          have := (pairwise_cons.mp tailRest).2
          rw [split1] at this
          exact (pairwise_append.mp this).2.1
        rcases mem_cons.mp inRest with rfl | later
        · exact more1
        · have := rel_of_pairwise_cons ordered later
          omega
  · rw [if_neg cut]
    rw [lt_def] at cut
    obtain ⟨s1, last, taken, rest, made, rep, split1, within, _, outcome⟩ :=
      translate_run { itr, diff, clipMax, cutHaveNext := false, cutNextVal := 0 }
        x (translateFuel t) valid' tail (by simp only; omega) (by
          intro taken rest _ within
          left
          intro y inTaken
          simp only at within ⊢
          rcases mem_cons.mp inTaken with rfl | later
          · omega
          · have := within y later
            omega)
    simp only at made rep split1 within outcome
    rw [made]
    have united := @union_represents null _ _ _ Region.top trivial rep.wf
    refine ⟨union null s1, rfl, united.congr fun y => ?_⟩
    rw [goal_iff, rep.contains]
    simp only [Contains, false_or]
    refine complete split1 within ?_ y
    intro z inRest
    rcases outcome with ⟨rfl, _⟩ | ⟨more, _, _, rfl⟩
    · simp at inRest
    have ordered : Increasing (last.state.cutNextVal :: pending last.state.itr) := by
      have := (pairwise_cons.mp tail).2
      rw [split1] at this
      exact (pairwise_append.mp this).2.1
    rcases mem_cons.mp inRest with rfl | later
    · exact more
    · have := rel_of_pairwise_cons ordered later
      omega

theorem translateSclip_represents (wf : Wf t 0 (2 ^ 64)) (diff clipMin clipMax : Word) :
    ∃ moved, translateSclip t diff clipMin clipMax = some moved ∧
      Represents moved 0 (2 ^ 64)
        (fun y => ∃ x, Contains t x ∧ SignedBetween clipMin clipMax x ∧ y = x + diff) := by
  rw [translateSclip]
  split
  · next crossed =>
    refine ⟨null, rfl, trivial, fun y => ⟨False.elim, ?_⟩⟩
    rintro ⟨x, _, between, _⟩
    exact not_signedBetween _ _ x crossed between
  · next ordered =>
    split
    · next sameSign =>
      obtain ⟨moved, result, rep⟩ := translateUclip_represents wf diff clipMin clipMax
      refine ⟨moved, result, rep.congr fun y => exists_congr fun x => and_congr_right fun _ => ?_⟩
      rw [signedBetween_of_same_sign _ _ x sameSign, and_assoc]
    · next crossing =>
      obtain ⟨s0, result0, represents0⟩ := translateUclip_represents wf diff 0 clipMax
      obtain ⟨s1, result1, represents1⟩ :=
        translateUclip_represents wf diff clipMin (BitVec.allOnes 64)
      rw [result0]
      simp only [result1]
      refine ⟨union s0 s1, rfl, (union_represents Region.top represents0.wf represents1.wf).congr fun y => ?_⟩
      rw [represents0.contains, represents1.contains, ← exists_or]
      refine exists_congr fun x => ?_
      rw [signedBetween_of_crossing _ _ x ordered crossing]
      grind

theorem translate_represents (wf : Wf t 0 (2 ^ 64)) (diff : Word) :
    ∃ moved, translate t diff = some moved ∧
      Represents moved 0 (2 ^ 64) (fun y => ∃ x, Contains t x ∧ y = x + diff) := by
  obtain ⟨moved, result, rep⟩ := translateUclip_represents wf diff 0 (BitVec.allOnes 64)
  refine ⟨moved, result, rep.congr fun y => exists_congr fun x => and_congr_right fun _ => ?_⟩
  rw [show (0 : Word).toNat = 0 by decide, show (BitVec.allOnes 64).toNat = 2 ^ 64 - 1 by decide]
  exact ⟨fun ⟨_, _, same⟩ => same, fun same => ⟨by omega, by omega, same⟩⟩

end Culibs.Cucon.Ucset
