import Culibs.Cucon.Po.Ordered

namespace Culibs.Cucon.Po

open DepthFirst Relation List

variable {α : Type} [DecidableEq α]

/-- The set that is accumulated and the table of the answers. -/
structure Accu (α : Type) where
  s : Finset α
  visit : α → Option Bool

namespace Accu

/-- A new entry is clear memory until the answer is stored. -/
def put (a : Accu α) (e : α) (inRange : Bool) : Accu α := { a with visit := Function.update a.visit e (some inRange) }

def insertIf (a : Accu α) (inRange : Bool) (e : α) : Accu α := if inRange then { a with s := insert e a.s } else a

end Accu

/-- The loop of `_po_open_range_accu`, over the rest of the immediate successors. -/
def openRangeLoop (po : Po α) (high : α) : Nat → List α → Bool → Accu α → Option (Bool × Accu α)
  | 0, _, _, _ => none
  | _ + 1, [], lowInRange, a => some (lowInRange, a)
  | fuel + 1, succ :: rest, lowInRange, a =>
    if succ = high then some (true, a)
    else
      match a.visit succ with
      | some inRange => openRangeLoop po high fuel rest (inRange || lowInRange) (a.insertIf inRange succ)
      | none =>
        (if po.level succ ≥ po.level high then some (true, a.put succ false)
          else openRangeLoop po high fuel (po.isuccs succ) false (a.put succ false)).bind fun result =>
            openRangeLoop po high fuel rest (result.1 || lowInRange)
              ((result.2.put succ result.1).insertIf result.1 succ)

def openRangeAccu (fuel : Nat) (po : Po α) (low high : α) (s : Finset α) : Option (Bool × Finset α) :=
  if po.level low ≥ po.level high then some (true, s)
  else (openRangeLoop po high fuel (po.isuccs low) false ⟨s, fun _ => none⟩).map fun result => (result.1, result.2.s)

def openRange (fuel : Nat) (po : Po α) (low high : α) : Option (Finset α) :=
  (openRangeAccu fuel po low high ∅).map Prod.snd

/-- The immediate successors that the loop looks at: none from the level of `high` on, and those up to
`high` itself. -/
def scan (po : Po α) (high u : α) : List α :=
  if po.level u ≥ po.level high then [] else (po.isuccs u).takeWhile (· ≠ high)

/-- The paths along which the search goes. -/
def Scanned (po : Po α) (high : α) : α → α → Prop := TransGen fun u w => w ∈ po.scan high u

variable {po : Po α} {elements : Finset α} {low high : α}

theorem scanned_head : Scanned po high u w ↔ ∃ v ∈ po.scan high u, Reach (po.scan high) v w :=
  TransGen.head'_iff

/-- What is scanned from an element of the table is in the set, and its answer is positive. -/
def Accu.Known (po : Po α) (high : α) (a : Accu α) (v : α) : Prop :=
  a.visit v = some true ∧ ∀ z, Scanned po high v z → z ∈ a.s

/-- What a search adds. -/
structure Accu.Adds (po : Po α) (high : α) (p : α → Prop) (a a' : Accu α) : Prop where
  kept : ∀ v, a.visit v ≠ none → a'.visit v = a.visit v
  known : ∀ v, a'.visit v ≠ none → a.visit v ≠ none ∨ a'.Known po high v
  set : ∀ z, z ∈ a'.s ↔ z ∈ a.s ∨ p z

theorem Accu.Known.mono (known : a.Known po high v)
    (more : Adds po high p a a') :
    a'.Known po high v :=
  ⟨(more.kept v (by rw [known.1]; exact Option.some_ne_none _)).trans known.1,
    fun z path => (more.set z).mpr (.inl (known.2 z path))⟩

theorem Accu.Adds.trans (first : Adds po high p a a')
    (second : Adds po high p' a' a'') :
    Adds po high (fun z => p z ∨ p' z) a a'' := by
  have later (v : α) (isSeen : a.visit v ≠ none) : a'.visit v ≠ none := by rwa [first.kept v isSeen]
  refine ⟨fun v isSeen => (second.kept v (later v isSeen)).trans (first.kept v isSeen), fun v isSeen => ?_, fun z => ?_⟩
  · rcases second.known v isSeen with before | known
    · exact (first.known v before).imp_right fun known => known.mono second
    · exact .inr known
  · rw [second.set, first.set, or_assoc]

theorem Accu.put_of_ne (ne : v ≠ e) (a : Accu α) (b : Bool) : (a.put e b).visit v = a.visit v :=
  Function.update_of_ne ne ..

theorem reach_scan_iff : Reach (po.scan high) u z ↔ z = u ∨ Scanned po high u z :=
  reflTransGen_iff_eq_or_transGen

/-- After a call the element gets a positive answer, and it is added to what is scanned from it. -/
theorem Accu.Adds.close (entry : a.visit e = none)
    (added : Adds po high (fun z => Scanned po high e z) (a.put e false) a') :
    Adds po high (fun z => Reach (po.scan high) e z) a ((a'.put e true).insertIf true e) := by
  have set_iff (z : α) : z ∈ insert e a'.s ↔ z ∈ a.s ∨ Reach (po.scan high) e z := by
    rw [Finset.mem_insert, added.set, reach_scan_iff, or_left_comm]
    rfl
  refine ⟨fun v isSeen => ?_, fun v isSeen => ?_, set_iff⟩
  · have ne : v ≠ e := by
      rintro rfl
      exact isSeen entry
    change (a'.put e true).visit v = _
    rw [put_of_ne ne, added.kept v (by rwa [put_of_ne ne]), put_of_ne ne]
  change (a'.put e true).visit v ≠ none at isSeen
  by_cases same : v = e
  · subst same
    exact .inr ⟨(Function.update_self ..), fun z path => (set_iff z).mpr (.inr (reach_scan_iff.mpr (.inr path)))⟩
  rw [put_of_ne same] at isSeen
  rcases added.known v isSeen with before | known
  · exact .inl (by rwa [put_of_ne same] at before)
  · exact .inr ⟨(put_of_ne same a' true).trans known.1, fun z path => Finset.mem_insert_of_mem (known.2 z path)⟩

section Search

variable (ordered : Ordered po elements) (insideHigh : high ∈ elements)

include ordered insideHigh

omit [DecidableEq α] in
theorem Ordered.has_succs (inside : u ∈ elements) (low : ¬ po.level u ≥ po.level high) :
    (false || !(po.isuccs u).isEmpty) = true := by
  rw [Bool.false_or, Bool.not_eq_true', ← Bool.not_eq_true, List.isEmpty_iff]
  rcases precEq_iff.mp (ordered.to_top u inside) with rfl | path
  · rcases precEq_iff.mp (ordered.to_top high insideHigh) with rfl | path
    · exact absurd (le_rfl) low
    · exact absurd (le_of_lt (ordered.leveled.lt path)) low
  · obtain ⟨c, step, _⟩ := (ordered.linked.succ_iff inside).mpr path
    exact ne_nil_of_mem step

theorem openRangeLoop_spec (inside : ∀ a ∈ list, a ∈ elements) (lowInRange : Bool)
    (ahead : ∀ v, accu.visit v ≠ none → ∀ a ∈ list, Reach po.isuccs a v → accu.Known po high v) :
    ∃ accu', Returns (fun fuel => openRangeLoop po high fuel list lowInRange accu)
        (lowInRange || !list.isEmpty, accu') ∧
      Accu.Adds po high (fun z => ∃ a ∈ list.takeWhile (· ≠ high), Reach (po.scan high) a z) accu accu' := by
  refine Grounded.list_induction (P := fun list => (∀ a ∈ list, a ∈ elements) → ∀ lowInRange accu,
    (∀ v, accu.visit v ≠ none → ∀ a ∈ list, Reach po.isuccs a v → accu.Known po high v) →
    ∃ accu', Returns (fun fuel => openRangeLoop po high fuel list lowInRange accu)
        (lowInRange || !list.isEmpty, accu') ∧
      Accu.Adds po high (fun z => ∃ a ∈ list.takeWhile (· ≠ high), Reach (po.scan high) a z) accu accu')
    ?_ ?_ (fun a mem => ordered.linked.grounded_succs ordered.leveled.irrefl (inside a mem)) inside lowInRange
    accu ahead
  · intro _ lowInRange accu _
    refine ⟨accu, ?_, fun _ _ => rfl, fun _ isSeen => .inl isSeen, by simp⟩
    rw [isEmpty_nil, Bool.not_true, Bool.or_false]
    exact .step (.const _)
  intro succ rest grounded ihNext ihRest inside lowInRange accu ahead
  obtain ⟨isElement, restInside⟩ := forall_mem_cons.mp inside
  rw [isEmpty_cons, Bool.not_false, Bool.or_true]
  by_cases isHigh : succ = high
  · refine ⟨accu, .step ((Returns.const _).congr fun _ => if_pos isHigh), fun _ _ => rfl, fun _ isSeen => .inl isSeen,
      fun z => ?_⟩
    rw [takeWhile_cons_of_neg (by simpa using isHigh)]
    simp
  rw [takeWhile_cons_of_pos (by simpa using isHigh)]
  -- The rest of a list after a successor that is known.
  have finish {accu1 : Accu α} (added : Accu.Adds po high (fun z => Reach (po.scan high) succ z) accu accu1) :
      ∃ accu', Returns (fun fuel => openRangeLoop po high fuel rest true accu1) (true, accu') ∧
        Accu.Adds po high (fun z => ∃ a ∈ succ :: rest.takeWhile (· ≠ high), Reach (po.scan high) a z)
          accu accu' := by
    obtain ⟨accu', returns, added'⟩ := ihRest restInside true accu1 fun v isSeen a inRest path => by
      rcases added.known v isSeen with before | known
      · exact (ahead v before a (mem_cons_of_mem succ inRest) path).mono added
      · exact known
    simp only [exists_mem_cons_iff]
    exact ⟨accu', returns, added.trans added'⟩
  cases entry : accu.visit succ with
  | some inRange =>
    obtain ⟨pos, known⟩ := ahead succ (by rw [entry]; exact Option.some_ne_none _) succ mem_cons_self
      (.refl _ _)
    obtain rfl : inRange = true := Option.some.inj (entry.symm.trans pos)
    have added : Accu.Adds po high (fun z => Reach (po.scan high) succ z) accu (accu.insertIf true succ) := by
      refine ⟨fun _ _ => rfl, fun _ isSeen => .inl isSeen, fun z => ?_⟩
      change z ∈ insert succ accu.s ↔ _
      rw [Finset.mem_insert, reach_scan_iff]
      exact ⟨fun mem => mem.elim (fun same => .inr (.inl same)) .inl, fun mem =>
        mem.elim .inr fun reach => reach.imp_right (known z)⟩
    obtain ⟨accu', returns, rest⟩ := finish added
    refine ⟨accu', .step (returns.congr fun fuel => ?_), rest⟩
    rw [openRangeLoop, if_neg isHigh, entry]
    rfl
  | none =>
    by_cases atLevel : po.level succ ≥ po.level high
    · have nothing (z : α) : ¬ Scanned po high succ z := by
        rw [scanned_head, scan, if_pos atLevel]
        simp
      have unscanned : Accu.Adds po high (fun z => Scanned po high succ z) (accu.put succ false)
        (accu.put succ false) :=
        ⟨fun _ _ => rfl, fun _ isSeen => .inl isSeen, fun z => by rw [or_iff_left (nothing z)]⟩
      obtain ⟨accu', returns, rest⟩ := finish (unscanned.close entry)
      refine ⟨accu', .step (returns.congr fun fuel => ?_), rest⟩
      rw [openRangeLoop, if_neg isHigh, entry]
      simp [if_pos atLevel]
    · obtain ⟨accu1, returns1, added1⟩ := ihNext (ordered.linked.succs succ isElement) false
        (accu.put succ false) <| by
        intro v isSeen a step path
        have ne : v ≠ succ := by
          rintro rfl
          exact grounded.acyclic step path
        rw [Accu.put_of_ne ne] at isSeen
        obtain ⟨pos, known⟩ := ahead v isSeen succ mem_cons_self (.head step path)
        exact ⟨by rwa [Accu.put_of_ne ne], known⟩
      rw [ordered.has_succs insideHigh isElement atLevel] at returns1
      have scanned (z : α) : (∃ a ∈ (po.isuccs succ).takeWhile (· ≠ high), Reach (po.scan high) a z) ↔
          Scanned po high succ z := by rw [scanned_head, scan, if_neg atLevel]
      simp only [scanned] at added1
      obtain ⟨accu', returns, rest⟩ := finish (added1.close entry)
      refine ⟨accu', .step (returns1.andThen returns fun fuel done => ?_), rest⟩
      rw [openRangeLoop, if_neg isHigh, entry]
      simp [if_neg atLevel, done]

theorem openRangeAccu_spec (inside : low ∈ elements) (s : Finset α) :
    ∃ s', Returns (fun fuel => openRangeAccu fuel po low high s) (true, s') ∧
      ∀ z, z ∈ s' ↔ z ∈ s ∨ Scanned po high low z := by
  by_cases atLevel : po.level low ≥ po.level high
  · refine ⟨s, (Returns.const _).congr fun _ => if_pos atLevel, fun z => (or_iff_left ?_).symm⟩
    rw [scanned_head, scan, if_pos atLevel]
    simp
  · have ahead : ∀ v, (⟨s, fun _ => none⟩ : Accu α).visit v ≠ none → ∀ a ∈ po.isuccs low, Reach po.isuccs a v →
        (⟨s, fun _ => none⟩ : Accu α).Known po high v := fun v isSeen => absurd rfl isSeen
    obtain ⟨accu, returns, added⟩ := openRangeLoop_spec ordered insideHigh (ordered.linked.succs low inside) false ahead
    rw [ordered.has_succs insideHigh inside atLevel] at returns
    refine ⟨accu.s, (returns.map _).congr fun _ => if_neg atLevel, fun z => (added.set z).trans ?_⟩
    rw [scanned_head, scan, if_neg atLevel]

end Search

/-- The accumulation answers whether `low` precedes `high`, and adds the elements between them. -/
def OpenRangeCorrect (po : Po α) (elements : Finset α) (low high : α) : Prop :=
  (∀ s, ∃ answer s', Returns (fun fuel => openRangeAccu fuel po low high s) (answer, s') ∧
    (answer = true ↔ po.Prec elements low high) ∧
      ∀ x, x ∈ s' ↔ x ∈ s ∨ po.Prec elements low x ∧ po.Prec elements x high) ∧
    ∃ range, Returns (fun fuel => openRange fuel po low high) range ∧
      ∀ x, x ∈ range ↔ po.Prec elements low x ∧ po.Prec elements x high

/-- The elements are ordered, the successors that stand before `high` in the list of an element up to
it precede it, and no element between is only reached across `high`. -/
structure ScansRange (po : Po α) (elements : Finset α) (low high : α) : Prop where
  prec : po.Prec elements low high
  inside : ∀ u, po.PrecEq elements low u → po.Prec elements u high →
    ∀ w ∈ (po.isuccs u).takeWhile (· ≠ high), po.Prec elements w high
  reached : ∀ x, po.Prec elements low x → po.Prec elements x high →
    TransGen (fun u w => w ∈ (po.isuccs u).takeWhile (· ≠ high)) low x

theorem scan_eq (leveled : Leveled po elements) (path : po.Prec elements u high) :
    po.scan high u = (po.isuccs u).takeWhile (· ≠ high) :=
  if_neg (Nat.not_le_of_lt (leveled.lt path))

/-- The search is right exactly when it scans the range. -/
theorem openRange_correct_iff (ordered : Ordered po elements) (insideLow : low ∈ elements)
    (insideHigh : high ∈ elements) :
    OpenRangeCorrect po elements low high ↔ ScansRange po elements low high := by
  have spec := openRangeAccu_spec ordered insideHigh insideLow
  constructor
  · rintro ⟨accu, _⟩
    obtain ⟨answer, s', returns, isAnswer, range⟩ := accu ∅
    obtain ⟨s'', returns', scanned⟩ := spec ∅
    obtain ⟨rfl, rfl⟩ := Prod.mk.inj (returns.unique returns')
    have prec : po.Prec elements low high := isAnswer.mp rfl
    have scanned_iff (x : α) : Scanned po high low x ↔ po.Prec elements low x ∧ po.Prec elements x high := by
      have both := (scanned x).symm.trans (range x)
      simpa using both
    have reach {u : α} (above : po.PrecEq elements low u) (below : po.Prec elements u high) {w : α}
        (member : w ∈ po.scan high u) : Scanned po high low w := by
      rcases precEq_iff.mp above with rfl | path
      · exact .single member
      · exact .tail ((scanned_iff u).mpr ⟨path, below⟩) member
    refine ⟨prec, fun u above below w member => ?_, fun x above below => ?_⟩
    · rw [← scan_eq ordered.leveled below] at member
      exact ((scanned_iff w).mp (reach above below member)).2
    · refine TransGen.mono (fun u w member => ?_) _ _ ((scanned_iff x).mpr ⟨above, below⟩)
      rw [scan] at member
      split at member
      · cases member
      · exact member
  · rintro ⟨prec, inside, reached⟩
    have scanned_iff (x : α) : Scanned po high low x ↔ po.Prec elements low x ∧ po.Prec elements x high := by
      constructor
      · intro path
        induction path with
        | single member =>
          rw [scan_eq ordered.leveled prec] at member
          exact ⟨.single ⟨insideLow, takeWhile_subset _ member⟩, inside low .refl prec _ member⟩
        | tail _ member ih =>
          rw [scan_eq ordered.leveled ih.2] at member
          refine ⟨ih.1.tail ⟨Linked.mem_left ih.2, takeWhile_subset _ member⟩, ?_⟩
          exact inside _ ih.1.to_reflTransGen ih.2 _ member
      · rintro ⟨above, below⟩
        have path := reached x above below
        clear above
        induction path with
        | single member => exact .single (by rwa [scan_eq ordered.leveled prec])
        | tail before member ih =>
          -- Also the element before precedes `high`.
          have reach : Reach po.isuccs low _ :=
            ReflTransGen.mono (fun u w step => takeWhile_subset _ step) _ _ before.to_reflTransGen
          have isElement := ordered.linked.mem_of_path ((ordered.linked.up_iff insideLow).mp reach) insideLow
          have link := takeWhile_subset _ member
          have precedes : po.Prec elements _ high := .head ⟨isElement, link⟩ below
          exact .tail (ih precedes) (by rwa [scan_eq ordered.leveled precedes])
    have correct (s : Finset α) : ∃ s', Returns (fun fuel => openRangeAccu fuel po low high s) (true, s') ∧
        ∀ x, x ∈ s' ↔ x ∈ s ∨ po.Prec elements low x ∧ po.Prec elements x high := by
      obtain ⟨s', returns, scanned⟩ := spec s
      exact ⟨s', returns, fun x => (scanned x).trans (or_congr_right (scanned_iff x))⟩
    refine ⟨fun s => ?_, ?_⟩
    · obtain ⟨s', returns, range⟩ := correct s
      exact ⟨true, s', returns, iff_of_true rfl prec, range⟩
    · obtain ⟨s', returns, range⟩ := correct ∅
      exact ⟨s', returns.map Prod.snd, fun x => (range x).trans (by simp)⟩

theorem openRange_correct_iff_diamond :
    OpenRangeCorrect diamondPo {0, 1, 2, 3, 4, 5} 0 5 ↔ ScansRange diamondPo {0, 1, 2, 3, 4, 5} 0 5 :=
  openRange_correct_iff diamond_ordered (by decide) (by decide)

/-- In a fresh partial order the answer is that the top precedes the bottom. -/
theorem openRange_reversed : ¬ OpenRangeCorrect pair {0, 1} 1 0 := by
  rintro ⟨accu, _⟩
  obtain ⟨answer, s', returns, isAnswer, _⟩ := accu ∅
  have bottom : 0 ∈ ({0, 1} : Finset Nat) := by decide
  have top : 1 ∈ ({0, 1} : Finset Nat) := by decide
  obtain ⟨s'', returns', _⟩ := openRangeAccu_spec pair_ordered bottom top ∅
  obtain ⟨rfl, _⟩ := Prod.mk.inj (returns.unique returns')
  exact pair_ordered.leveled.not_back (isAnswer.mp rfl) (pair_ordered.from_bot 1 (by decide))

end Culibs.Cucon.Po
