import Culibs.Cucon.Po.Spans

/-! A closed range and the minimal elements above it. Successors are taken into the set when an
element of the range has been explored, and out of it when one outside has been. -/

namespace Culibs.Cucon.Po

open DepthFirst Relation List Finset
open Option (some_ne_none)

variable {α : Type} [DecidableEq α]

/-- The two sets and the table of the answers. -/
structure RangeSuccs (α : Type) where
  range : Finset α
  succs : Finset α
  cache : α → Option Bool

namespace RangeSuccs

def init : RangeSuccs α := ⟨∅, ∅, fun _ => none⟩

def put (s : RangeSuccs α) (e : α) (inRange : Bool) : RangeSuccs α :=
  { s with cache := Function.update s.cache e (some inRange) }

theorem cache_put_self (s : RangeSuccs α) (e : α) (inRange : Bool) : (s.put e inRange).cache e = some inRange :=
  Function.update_self ..

theorem cache_put_of_ne (s : RangeSuccs α) (inRange : Bool) (ne : x ≠ e) :
    (s.put e inRange).cache x = s.cache x :=
  Function.update_of_ne ne ..

end RangeSuccs

open RangeSuccs (cache_put_self cache_put_of_ne)

/-- The case `min == max`, whose loop is over the rest of the immediate successors. -/
def succsOfMax : List α → RangeSuccs α → RangeSuccs α
  | [], s => s
  | succ :: rest, s =>
    succsOfMax rest (if s.cache succ = none then { s.put succ false with succs := insert succ s.succs } else s)

/-- What the loop over the immediate successors leaves to the end. The stacks are lists from their top. -/
structure RangeSuccs.Loop (α : Type) where
  minInRange : Bool
  maybeInsSuccs : List α
  maybeRmSuccs : List α

/-- The end of `_po_closed_range_and_succs`. -/
def closeRange (min : α) (result : RangeSuccs.Loop α) (s : RangeSuccs α) : Bool × RangeSuccs α :=
  if result.minInRange then
    (true, { s with
      range := insert min s.range
      succs := result.maybeInsSuccs.foldl (fun succs e => insert e succs) s.succs })
  else (false, { s with succs := result.maybeRmSuccs.foldl (fun succs e => succs.erase e) s.succs })

/-- The loop of `_po_closed_range_and_succs`, over the rest of the immediate successors. The memory of
a new entry is clear until the answer is stored. -/
def closedRangeLoop (po : Po α) (max : α) :
    Nat → List α → RangeSuccs.Loop α → RangeSuccs α → Option (RangeSuccs.Loop α × RangeSuccs α)
  | 0, _, _, _ => none
  | _ + 1, [], result, s => some (result, s)
  | fuel + 1, succ :: rest, result, s =>
    match s.cache succ with
    | none =>
      (if succ = max then
        some (true, succsOfMax (po.isuccs max) { s.put succ false with range := insert max s.range })
      else
        (closedRangeLoop po max fuel (po.isuccs succ) ⟨false, [], []⟩ (s.put succ false)).map fun explored =>
          closeRange succ explored.1 explored.2).bind fun answer =>
        closedRangeLoop po max fuel rest
          (if answer.1 then { result with minInRange := true }
            else { result with maybeInsSuccs := succ :: result.maybeInsSuccs })
          (answer.2.put succ answer.1)
    | some inRange =>
      closedRangeLoop po max fuel rest
        (if inRange then { result with minInRange := true }
          else { result with maybeRmSuccs := succ :: result.maybeRmSuccs }) s

/-- `cucon_po_closed_range_and_succs`, for maps that are empty. -/
def closedRangeAndSuccs (fuel : Nat) (po : Po α) (min max : α) : Option (Bool × RangeSuccs α) :=
  if min = max then some (true, succsOfMax (po.isuccs max) { RangeSuccs.init with range := insert max ∅ })
  else
    (closedRangeLoop po max fuel (po.isuccs min) ⟨false, [], []⟩ .init).map fun explored =>
      closeRange min explored.1 explored.2

variable {po : Po α} {elements done done' : Finset α} {min max a : α} {s s' : RangeSuccs α}

/-- The elements in `done` have been explored: those of the range are in it, and their other immediate
successors are in the set unless they are after an element that is not in the range. -/
structure Gathers (po : Po α) (elements : Finset α) (max : α) (done : Finset α) (s : RangeSuccs α) : Prop where
  range : ∀ x, x ∈ s.range ↔ x ∈ done ∧ po.PrecEq elements x max
  succs : ∀ x, x ∈ s.succs ↔ ¬ po.PrecEq elements x max ∧
    (∃ u ∈ done, po.PrecEq elements u max ∧ x ∈ po.isuccs u) ∧ ∀ y ∈ done, ¬ po.PrecEq elements y max → x ∉ po.isuccs y
  looked : ∀ y ∈ done, ∀ x ∈ po.isuccs y, s.cache x ≠ none

/-- An element of the table has its answer, and all from it on has been explored or is above `max`. -/
structure Closed (po : Po α) (elements : Finset α) (max : α) (done : Finset α) (s : RangeSuccs α) (x : α) : Prop where
  answer : ∃ inRange, s.cache x = some inRange ∧ (inRange = true ↔ po.PrecEq elements x max)
  above : ∀ z, po.PrecEq elements x z → z ∈ done ∨ po.Prec elements max z

/-- What the loop of an element keeps for its end. -/
structure Pending (po : Po α) (elements : Finset α) (max a : α) (done : Finset α) (result : RangeSuccs.Loop α) :
    Prop where
  ins : ∀ x ∈ result.maybeInsSuccs, x ∈ po.isuccs a ∧ ¬ po.PrecEq elements x max ∧ ∀ y ∈ done, x ∉ po.isuccs y
  rm : ∀ x ∈ result.maybeRmSuccs, x ∈ po.isuccs a ∧ ¬ po.PrecEq elements x max ∧ ∃ y ∈ done, x ∈ po.isuccs y

/-- What an exploration adds. -/
structure Progress (po : Po α) (elements : Finset α) (max : α) (p : α → Prop) (done done' : Finset α)
    (s s' : RangeSuccs α) : Prop where
  gathers : Gathers po elements max done' s'
  grows : done ⊆ done'
  fresh : ∀ y ∈ done', y ∈ done ∨ p y
  kept : ∀ x, s.cache x ≠ none → s'.cache x = s.cache x

omit [DecidableEq α] in
theorem Closed.mono (closed : Closed po elements max done s x)
    (progress : Progress po elements max p done done' s s') : Closed po elements max done' s' x := by
  obtain ⟨inRange, entry, correct⟩ := closed.answer
  refine ⟨⟨inRange, ?_, correct⟩, fun z path => (closed.above z path).imp_left fun mem => progress.grows mem⟩
  rw [progress.kept x (by rw [entry]; exact some_ne_none _), entry]

omit [DecidableEq α] in
theorem Progress.trans
    (first : Progress po elements max p done done' s s') (second : Progress po elements max p' done' done'' s' s'')
    (left : ∀ z, p z → q z) (right : ∀ z, p' z → q z) : Progress po elements max q done done'' s s'' := by
  refine ⟨second.gathers, first.grows.trans second.grows, fun y mem => ?_, fun x isSeen => ?_⟩
  · rcases second.fresh y mem with before | after
    · exact (first.fresh y before).imp_right (left y)
    · exact .inr (right y after)
  · rw [second.kept x (by rwa [first.kept x isSeen]), first.kept x isSeen]

private theorem mem_foldl_insert (list : List α) (set : Finset α) (x : α) :
    x ∈ list.foldl (fun set e => insert e set) set ↔ x ∈ set ∨ x ∈ list := by
  induction list generalizing set with
  | nil => simp
  | cons e rest ih => rw [foldl_cons, ih, mem_insert, List.mem_cons, or_comm (a := x = e), or_assoc]

private theorem mem_foldl_erase (list : List α) (set : Finset α) (x : α) :
    x ∈ list.foldl (fun set e => set.erase e) set ↔ x ∈ set ∧ x ∉ list := by
  induction list generalizing set with
  | nil => simp
  | cons e rest ih =>
    rw [foldl_cons, ih, mem_erase, List.mem_cons, not_or, and_comm (a := x ≠ e), and_assoc]

section Close

variable {result : RangeSuccs.Loop α}

section

variable (gathers : Gathers po elements max done s)

include gathers

theorem Gathers.put (e : α) (inRange : Bool) : Gathers po elements max done (s.put e inRange) := by
  refine ⟨gathers.range, gathers.succs, fun y mem x step => ?_⟩
  by_cases same : x = e
  · rw [same, cache_put_self]
    exact some_ne_none _
  · rw [cache_put_of_ne s inRange same]
    exact gathers.looked y mem x step

section

variable (pending : Pending po elements max a done result)
  (every : ∀ x ∈ po.isuccs a, ¬ po.PrecEq elements x max → x ∈ result.maybeInsSuccs ∨ x ∈ result.maybeRmSuccs)

include pending every

theorem Gathers.join (inRange : po.PrecEq elements a max) (range : s'.range = insert a s.range)
    (succs : ∀ x, x ∈ s'.succs ↔ x ∈ s.succs ∨ x ∈ result.maybeInsSuccs)
    (looked : ∀ y ∈ insert a done, ∀ x ∈ po.isuccs y, s'.cache x ≠ none) :
    Gathers po elements max (insert a done) s' := by
  refine ⟨fun x => ?_, fun x => ?_, looked⟩
  · rw [range, mem_insert, mem_insert, gathers.range, or_and_right]
    exact or_congr_left (iff_self_and.mpr fun same => same ▸ inRange)
  rw [succs, gathers.succs, exists_mem_insert, forall_mem_insert]
  constructor
  · rintro (⟨outside, before, others⟩ | maybe)
    · exact ⟨outside, .inr before, fun out => absurd inRange out, others⟩
    · obtain ⟨step, outside, new⟩ := pending.ins x maybe
      exact ⟨outside, .inl ⟨inRange, step⟩, fun out => absurd inRange out, fun y mem _ => new y mem⟩
  rintro ⟨outside, ⟨_, step⟩ | before, _, others⟩
  · rcases every x step outside with maybe | maybe
    · exact .inr maybe
    · obtain ⟨_, _, y, mem, step'⟩ := pending.rm x maybe
      have inRange' : po.PrecEq elements y max := by
        by_contra out
        exact others y mem out step'
      exact .inl ⟨outside, ⟨y, mem, inRange', step'⟩, others⟩
  · exact .inl ⟨outside, before, others⟩

theorem Gathers.leave (outside : ¬ po.PrecEq elements a max) (range : s'.range = s.range)
    (succs : ∀ x, x ∈ s'.succs ↔ x ∈ s.succs ∧ x ∉ result.maybeRmSuccs)
    (looked : ∀ y ∈ insert a done, ∀ x ∈ po.isuccs y, s'.cache x ≠ none) :
    Gathers po elements max (insert a done) s' := by
  refine ⟨fun x => ?_, fun x => ?_, looked⟩
  · rw [range, gathers.range, mem_insert]
    refine and_congr_left fun inRange => (or_iff_right ?_).symm
    rintro rfl
    exact outside inRange
  rw [succs, gathers.succs, exists_mem_insert, forall_mem_insert]
  constructor
  · rintro ⟨⟨out, ⟨u, mem, inRange, step⟩, others⟩, kept⟩
    refine ⟨out, .inr ⟨u, mem, inRange, step⟩, fun _ step' => ?_, others⟩
    rcases every x step' out with maybe | maybe
    · exact (pending.ins x maybe).2.2 u mem step
    · exact kept maybe
  · rintro ⟨out, ⟨inRange, _⟩ | before, last, others⟩
    · exact absurd inRange outside
    · exact ⟨⟨out, before, others⟩, fun maybe => last outside (pending.rm x maybe).1⟩

theorem Gathers.close (looked : ∀ x ∈ po.isuccs a, s.cache x ≠ none)
    (answer : result.minInRange = true ↔ po.PrecEq elements a max) :
    Gathers po elements max (insert a done) (closeRange a result s).2 ∧ (closeRange a result s).1 = result.minInRange ∧
      (closeRange a result s).2.cache = s.cache := by
  have looked' : ∀ y ∈ insert a done, ∀ x ∈ po.isuccs y, s.cache x ≠ none :=
    forall_mem_insert a done _ |>.mpr ⟨looked, gathers.looked⟩
  rw [closeRange]
  split
  · next inRange =>
    refine ⟨gathers.join pending every (answer.mp inRange) rfl (fun x => mem_foldl_insert ..) looked', inRange.symm,
      rfl⟩
  · next outside =>
    refine ⟨gathers.leave pending every (fun inRange => outside (answer.mpr inRange)) rfl (fun x => mem_foldl_erase ..)
      looked', (Bool.not_eq_true _ ▸ outside : _ = false).symm, rfl⟩

end

end

theorem succsOfMax_spec (list : List α) (s : RangeSuccs α) :
    (succsOfMax list s).range = s.range ∧
      (∀ x, x ∈ (succsOfMax list s).succs ↔ x ∈ s.succs ∨ x ∈ list ∧ s.cache x = none) ∧
      (∀ x, s.cache x ≠ none → (succsOfMax list s).cache x = s.cache x) ∧
      (∀ x ∈ list, s.cache x = none → (succsOfMax list s).cache x = some false) ∧
      ∀ x, (succsOfMax list s).cache x ≠ none → s.cache x ≠ none ∨ x ∈ list := by
  induction list generalizing s with
  | nil => exact ⟨rfl, by simp [succsOfMax], fun _ _ => rfl, by simp, fun _ isSeen => .inl isSeen⟩
  | cons succ rest ih =>
    rw [succsOfMax]
    by_cases isNew : s.cache succ = none
    · rw [if_pos isNew]
      obtain ⟨range, succs, kept, fresh, only⟩ := ih { s.put succ false with succs := insert succ s.succs }
      have itself := cache_put_self s succ false
      have others {x : α} (ne : x ≠ succ) := cache_put_of_ne s false ne
      refine ⟨range, fun x => ?_, fun x isSeen => ?_, fun x mem unseen => ?_, fun x isSeen => ?_⟩
      · rw [succs]
        by_cases same : x = succ
        · simp [same, isNew]
        · change _ ∨ _ ∧ (s.put succ false).cache x = none ↔ _
          simp [same, others same]
      · have ne : x ≠ succ := by
          rintro rfl
          exact isSeen isNew
        exact (kept x (by change (s.put succ false).cache x ≠ none; rwa [others ne])).trans (others ne)
      · rcases List.mem_cons.mp mem with rfl | inRest
        · exact (kept x
            (by change (s.put x false).cache x ≠ none; rw [itself]; exact some_ne_none _)).trans itself
        · by_cases same : x = succ
          · subst same
            exact (kept x
              (by change (s.put x false).cache x ≠ none; rw [itself]; exact some_ne_none _)).trans itself
          · exact fresh x inRest ((others same).trans unseen)
      · by_cases same : x = succ
        · exact .inr (same ▸ .head _)
        · rcases only x isSeen with before | inRest
          · exact .inl (by rwa [← others same])
          · exact .inr (mem_cons_of_mem succ inRest)
    · rw [if_neg isNew]
      obtain ⟨range, succs, kept, fresh, only⟩ := ih s
      refine ⟨range, fun x => ?_, kept, fun x mem unseen => ?_, fun x isSeen => ?_⟩
      · rw [succs, List.mem_cons]
        refine or_congr_right (and_congr_left fun unseen => (or_iff_right ?_).symm)
        rintro rfl
        exact isNew unseen
      · rcases List.mem_cons.mp mem with rfl | inRest
        · exact absurd unseen isNew
        · exact fresh x inRest unseen
      · exact (only x isSeen).imp_right fun inRest => mem_cons_of_mem succ inRest

end Close

section Loop

/-- What is known when the loop of `a` comes to the rest of its immediate successors. -/
structure Start (po : Po α) (elements : Finset α) (max a : α) (list : List α) (result : RangeSuccs.Loop α)
    (done : Finset α)
    (s : RangeSuccs α) : Prop where
  member : ∀ x ∈ list, x ∈ po.isuccs a
  nodup : list.Nodup
  gathers : Gathers po elements max done s
  pending : Pending po elements max a done result
  ahead : ∀ x, s.cache x ≠ none → ∀ b ∈ list, Reach po.isuccs b x →
    Closed po elements max done s x ∧ ∃ y ∈ done, x ∈ po.isuccs y

/-- What the loop has done with these. -/
structure Ranged (po : Po α) (elements : Finset α) (max a : α) (list : List α) (result result' : RangeSuccs.Loop α)
    (done done' : Finset α) (s s' : RangeSuccs α) : Prop where
  progress : Progress po elements max (fun y => ∃ b ∈ list, po.PrecEq elements b y) done done' s s'
  pending : Pending po elements max a done' result'
  closed : ∀ x ∈ list, Closed po elements max done' s' x
  new : ∀ x, s'.cache x ≠ none → s.cache x ≠ none ∨
    (x ∈ list ∨ ∃ y ∈ done', x ∈ po.isuccs y) ∧ Closed po elements max done' s' x
  answer : result'.minInRange = true ↔ result.minInRange = true ∨ ∃ x ∈ list, po.PrecEq elements x max
  every : ∀ x ∈ list, ¬ po.PrecEq elements x max → x ∈ result'.maybeInsSuccs ∨ x ∈ result'.maybeRmSuccs
  more : result.maybeInsSuccs ⊆ result'.maybeInsSuccs ∧ result.maybeRmSuccs ⊆ result'.maybeRmSuccs

/-- What an exploration has done with a new element. -/
structure Explored.Node (po : Po α) (elements : Finset α) (max succ : α) (answer : Bool) (done done' : Finset α)
    (s s' : RangeSuccs α) : Prop where
  progress : Progress po elements max (fun y => po.PrecEq elements succ y) done done' s s'
  closed : Closed po elements max done' s' succ
  new : ∀ x, s'.cache x ≠ none → s.cache x ≠ none ∨
    (x = succ ∨ ∃ y ∈ done', x ∈ po.isuccs y) ∧ Closed po elements max done' s' x
  answer : answer = true ↔ po.PrecEq elements succ max

variable {succ : α} {rest : List α} {result result1 result' : RangeSuccs.Loop α} {answer : Bool}

omit [DecidableEq α] in
/-- The loop goes on after an element, which is kept for the end unless it is in the range. -/
theorem Ranged.cons
    (ranged : Ranged po elements max a rest result1 result' done' done'' s' s'')
    (node : Progress po elements max (fun y => po.PrecEq elements succ y) done done' s s')
    (closed : Closed po elements max done' s' succ)
    (new : ∀ x, s'.cache x ≠ none → s.cache x ≠ none ∨
      (x = succ ∨ ∃ y ∈ done', x ∈ po.isuccs y) ∧ Closed po elements max done' s' x)
    (answer : result1.minInRange = true ↔ result.minInRange = true ∨ po.PrecEq elements succ max)
    (every : ¬ po.PrecEq elements succ max → succ ∈ result1.maybeInsSuccs ∨ succ ∈ result1.maybeRmSuccs)
    (more : result.maybeInsSuccs ⊆ result1.maybeInsSuccs ∧ result.maybeRmSuccs ⊆ result1.maybeRmSuccs) :
    Ranged po elements max a (succ :: rest) result result' done done'' s s'' := by
  refine ⟨node.trans ranged.progress (fun y path => ⟨succ, .head _, path⟩) ?_, ranged.pending, ?_,
    fun x isSeen => ?_, ?_, ?_, ⟨Subset.trans more.1 ranged.more.1, Subset.trans more.2 ranged.more.2⟩⟩
  · rintro y ⟨b, inRest, path⟩
    exact ⟨b, mem_cons_of_mem succ inRest, path⟩
  · exact forall_mem_cons.mpr ⟨closed.mono ranged.progress, ranged.closed⟩
  · rcases ranged.new x isSeen with before | ⟨origin, closed'⟩
    · refine (new x before).imp_right fun found => ⟨?_, found.2.mono ranged.progress⟩
      rcases found.1 with same | ⟨y, mem, step⟩
      · exact .inl (same ▸ .head _)
      · exact .inr ⟨y, ranged.progress.grows mem, step⟩
    · exact .inr ⟨origin.imp_left fun inRest => mem_cons_of_mem succ inRest, closed'⟩
  · rw [ranged.answer, answer, exists_mem_cons_iff, or_assoc]
  · refine forall_mem_cons.mpr ⟨fun outside => ?_, ranged.every⟩
    exact (every outside).imp (fun mem => ranged.more.1 mem) fun mem => ranged.more.2 mem

omit [DecidableEq α] in
theorem Start.seen (start : Start po elements max a (succ :: rest) result done s)
    (entry : s.cache succ = some inRange) :
    ∃ result1, (if inRange then { result with minInRange := true }
        else { result with maybeRmSuccs := succ :: result.maybeRmSuccs }) = result1 ∧
      Start po elements max a rest result1 done s ∧ ∀ result' done' s',
        Ranged po elements max a rest result1 result' done done' s s' →
          Ranged po elements max a (succ :: rest) result result' done done' s s' := by
  obtain ⟨closed, y, mem, step⟩ := start.ahead succ
    (by rw [entry]; exact some_ne_none _) succ mem_cons_self
    (.refl _ _)
  have ⟨⟨inRange', entry', correct⟩, _⟩ := closed
  obtain rfl : inRange = inRange' := Option.some.inj (entry.symm.trans entry')
  have nothing : Progress po elements max (fun y => po.PrecEq elements succ y) done done s s :=
    ⟨start.gathers, subset_rfl, fun _ mem => .inl mem, fun _ _ => rfl⟩
  obtain ⟨isSucc, restSuccs⟩ := forall_mem_cons.mp start.member
  have ahead : ∀ x, s.cache x ≠ none → ∀ b ∈ rest, Reach po.isuccs b x →
      Closed po elements max done s x ∧ ∃ y ∈ done, x ∈ po.isuccs y := fun x isSeen b inRest =>
    start.ahead x isSeen b (mem_cons_of_mem succ inRest)
  cases inRange with
  | true =>
    exact ⟨{ result with minInRange := true }, rfl,
      ⟨restSuccs, (nodup_cons.mp start.nodup).2, start.gathers, ⟨start.pending.ins, start.pending.rm⟩, ahead⟩,
      fun result' done' s' ranged => .cons ranged nothing closed (fun _ isSeen => .inl isSeen)
        (iff_of_true rfl (.inr (correct.mp rfl))) (fun outside => absurd (correct.mp rfl) outside)
        ⟨Subset.refl _, Subset.refl _⟩⟩
  | false =>
    have outside : ¬ po.PrecEq elements succ max := fun inRange => Bool.false_ne_true (correct.mpr inRange)
    refine ⟨{ result with maybeRmSuccs := succ :: result.maybeRmSuccs }, rfl,
      ⟨restSuccs, (nodup_cons.mp start.nodup).2, start.gathers, ⟨start.pending.ins, ?_⟩, ahead⟩,
      fun result' done' s' ranged => .cons ranged nothing closed (fun _ isSeen => .inl isSeen) ?_
        (fun _ => .inr mem_cons_self)
        ⟨Subset.refl _, subset_cons_self _ _⟩⟩
    · exact forall_mem_cons.mpr ⟨⟨isSucc, outside, y, mem, step⟩, start.pending.rm⟩
    · exact (or_iff_left outside).symm

variable (linked : Linked po elements) (irredundant : Irredundant po elements)
  (inside : a ∈ elements)

include linked irredundant inside

omit [DecidableEq α] linked in
private theorem not_between (step : b ∈ po.isuccs a) (step' : x ∈ po.isuccs a) : ¬ po.Prec elements b x :=
  fun path => irredundant a x ⟨inside, step'⟩ b ⟨.single ⟨inside, step⟩, path⟩

omit [DecidableEq α] in
theorem Start.new (start : Start po elements max a (succ :: rest) result done s) (unseen : s.cache succ = none)
    (node : Explored.Node po elements max succ answer done done' s s') :
    ∃ result1, (if answer then { result with minInRange := true }
        else { result with maybeInsSuccs := succ :: result.maybeInsSuccs }) = result1 ∧
      Start po elements max a rest result1 done' s' ∧ ∀ result' done'' s'',
        Ranged po elements max a rest result1 result' done' done'' s' s'' →
          Ranged po elements max a (succ :: rest) result result' done done'' s s'' := by
  obtain ⟨isSucc, restSuccs⟩ := forall_mem_cons.mp start.member
  have isElement := linked.succs a inside succ isSucc
  have apart {b x : α} (step : b ∈ po.isuccs a) (step' : x ∈ po.isuccs a) : ¬ po.Prec elements b x :=
    not_between irredundant inside step step'
  -- Nothing that has been explored from here on is linked to another immediate successor.
  have notAfter {y x : α} (path : po.PrecEq elements succ y) (step : x ∈ po.isuccs a) : x ∉ po.isuccs y := fun step' =>
    apart isSucc step (.tail' path ⟨linked.mem_of_path path isElement, step'⟩)
  have ins : ∀ x ∈ result.maybeInsSuccs, x ∈ po.isuccs a ∧ ¬ po.PrecEq elements x max ∧
      ∀ y ∈ done', x ∉ po.isuccs y := by
    intro x maybe
    obtain ⟨step, outside, others⟩ := start.pending.ins x maybe
    refine ⟨step, outside, fun y mem => ?_⟩
    exact (node.progress.fresh y mem).elim (others y) fun path => notAfter path step
  have rm : ∀ x ∈ result.maybeRmSuccs, x ∈ po.isuccs a ∧ ¬ po.PrecEq elements x max ∧ ∃ y ∈ done', x ∈ po.isuccs y := by
    intro x maybe
    obtain ⟨step, outside, y, mem, step'⟩ := start.pending.rm x maybe
    exact ⟨step, outside, y, node.progress.grows mem, step'⟩
  have fresh : ∀ y ∈ done', succ ∉ po.isuccs y := by
    intro y mem
    rcases node.progress.fresh y mem with before | path
    · exact fun step => start.gathers.looked y before succ step unseen
    · exact notAfter path isSucc
  have ahead : ∀ x, s'.cache x ≠ none → ∀ b ∈ rest, Reach po.isuccs b x →
      Closed po elements max done' s' x ∧ ∃ y ∈ done', x ∈ po.isuccs y := by
    intro x isSeen b inRest reach
    have path := (linked.up_iff (linked.succs a inside b (restSuccs b inRest))).mp reach
    rcases node.new x isSeen with before | ⟨same | origin, closed⟩
    · obtain ⟨closed, y, mem, step⟩ := start.ahead x before b (mem_cons_of_mem succ inRest) reach
      exact ⟨closed.mono node.progress, y, node.progress.grows mem, step⟩
    · rcases precEq_iff.mp path with same' | path
      · exact absurd (same ▸ same' ▸ inRest) (nodup_cons.mp start.nodup).1
      · exact absurd (same ▸ path) (apart (restSuccs b inRest) isSucc)
    · exact ⟨closed, origin⟩
  cases answer with
  | true =>
    exact ⟨{ result with minInRange := true }, rfl,
      ⟨restSuccs, (nodup_cons.mp start.nodup).2, node.progress.gathers, ⟨ins, rm⟩, ahead⟩,
      fun result' done'' s'' ranged => .cons ranged node.progress node.closed node.new
        (iff_of_true rfl (.inr (node.answer.mp rfl))) (fun outside => absurd (node.answer.mp rfl) outside)
        ⟨Subset.refl _, Subset.refl _⟩⟩
  | false =>
    have outside : ¬ po.PrecEq elements succ max := fun inRange => Bool.false_ne_true (node.answer.mpr inRange)
    refine ⟨{ result with maybeInsSuccs := succ :: result.maybeInsSuccs }, rfl,
      ⟨restSuccs, (nodup_cons.mp start.nodup).2, node.progress.gathers, ⟨?_, rm⟩, ahead⟩,
      fun result' done'' s'' ranged => .cons ranged node.progress node.closed node.new (or_iff_left outside).symm
        (fun _ => .inl mem_cons_self) ⟨subset_cons_self _ _, Subset.refl _⟩⟩
    exact forall_mem_cons.mpr ⟨⟨isSucc, outside, fresh⟩, ins⟩

omit irredundant in
theorem Start.top (leveled : Leveled po elements) (start : Start po elements max a (max :: rest) result done s)
    (unseen : s.cache max = none) :
    Explored.Node po elements max max true done (insert max done) s
      ((succsOfMax (po.isuccs max) { s.put max false with range := insert max s.range }).put max true) := by
  have isElement := linked.succs a inside max (start.member max mem_cons_self)
  have above {x : α} (step : x ∈ po.isuccs max) : po.Prec elements max x := .single ⟨isElement, step⟩
  have notMax {x : α} (step : x ∈ po.isuccs max) : x ≠ max := (leveled.ne (above step)).symm
  obtain ⟨range, succs, kept, fresh, only⟩ :=
    succsOfMax_spec (po.isuccs max) { s.put max false with range := insert max s.range }
  generalize succsOfMax (po.isuccs max)
    { s.put max false with range := insert max s.range } = s1 at range succs kept fresh only
  have before {x : α} (ne : x ≠ max) : (s.put max false).cache x = s.cache x := cache_put_of_ne s false ne
  have after {x : α} (ne : x ≠ max) : (s1.put max true).cache x = s1.cache x := cache_put_of_ne s1 true ne
  -- The successors that are in the table have been reached through another element.
  have pending : Pending po elements max max done
      ⟨true, (po.isuccs max).filter fun x => (s.cache x).isNone,
        (po.isuccs max).filter fun x => (s.cache x).isSome⟩ := by
    constructor
    · intro x maybe
      obtain ⟨step, isNew⟩ := mem_filter.mp maybe
      exact ⟨step, leveled.not_back (above step), fun y mem step' =>
        start.gathers.looked y mem x step' (Option.isNone_iff_eq_none.mp isNew)⟩
    · intro x maybe
      obtain ⟨step, isSeen⟩ := mem_filter.mp maybe
      exact ⟨step, leveled.not_back (above step),
        (start.ahead x (Option.isSome_iff_ne_none.mp isSeen) max mem_cons_self
        (.head step (.refl _ _))).2⟩
  have seen {x : α} (isSeen : s.cache x ≠ none) : s1.cache x = s.cache x := by
    have ne : x ≠ max := by
      rintro rfl
      exact isSeen unseen
    rw [kept x (by rwa [before ne]), before ne]
  have answered {x : α} (step : x ∈ po.isuccs max) : s1.cache x ≠ none := by
    by_cases isSeen : s.cache x = none
    · rw [fresh x step ((before (notMax step)).trans isSeen)]
      exact some_ne_none false
    · rwa [seen isSeen]
  have gathers : Gathers po elements max (insert max done) s1 := by
    refine start.gathers.join pending (fun x step _ => ?_) .refl range (fun x => ?_)
      (forall_mem_insert max done _ |>.mpr ⟨fun x step => answered step, fun y mem x step => ?_⟩)
    · rw [mem_filter, mem_filter]
      cases s.cache x with
      | none => exact .inl ⟨step, rfl⟩
      | some => exact .inr ⟨step, rfl⟩
    · rw [succs, mem_filter, Option.isNone_iff_eq_none]
      refine or_congr_right (and_congr_right fun step => ?_)
      rw [before (notMax step)]
    · rw [seen (start.gathers.looked y mem x step)]
      exact start.gathers.looked y mem x step
  have closed : Closed po elements max (insert max done) (s1.put max true) max := by
    refine ⟨⟨true, cache_put_self s1 max true, iff_of_true rfl .refl⟩, fun z path => ?_⟩
    refine (precEq_iff.mp path).imp_left ?_
    rintro rfl
    exact mem_insert_self max done
  refine ⟨⟨gathers.put max true, subset_insert max done, fun y mem => ?_, fun x isSeen => ?_⟩, closed,
    fun x isSeen => ?_, iff_of_true rfl .refl⟩
  · refine (mem_insert.mp mem).symm.imp_right ?_
    rintro rfl
    exact .refl
  · have ne : x ≠ max := by
      rintro rfl
      exact isSeen unseen
    rw [after ne, seen isSeen]
  by_cases same : x = max
  · exact .inr ⟨.inl same, same.symm ▸ closed⟩
  rw [after same] at isSeen
  by_cases already : s.cache x = none
  · have step := (only x isSeen).resolve_left fun cached => cached ((before same).trans already)
    refine .inr ⟨.inr ⟨max, mem_insert_self max done, step⟩, ⟨false, ?_, ?_⟩, fun z path => ?_⟩
    · rw [after same, fresh x step ((before same).trans already)]
    · exact iff_of_false Bool.false_ne_true (leveled.not_back (above step))
    · exact .inr (prec_of_prec (above step) path)
  · exact .inl already

omit irredundant in
theorem Start.node (start : Start po elements max a (succ :: rest) result done s) (unseen : s.cache succ = none)
    (ne : succ ≠ max)
    (ranged : Ranged po elements max succ (po.isuccs succ) ⟨false, [], []⟩ result' done done' (s.put succ false) s') :
    Explored.Node po elements max succ (closeRange succ result' s').1 done (insert succ done') s
      ((closeRange succ result' s').2.put succ (closeRange succ result' s').1) := by
  have isElement := linked.succs a inside succ (start.member succ mem_cons_self)
  have below : result'.minInRange = true ↔ po.PrecEq elements succ max := by
    rw [ranged.answer, or_iff_right Bool.false_ne_true, linked.succ_iff isElement, precEq_iff, or_iff_right ne]
  have looked (x : α) (step : x ∈ po.isuccs succ) : s'.cache x ≠ none := by
    obtain ⟨⟨inRange, entry, _⟩, _⟩ := ranged.closed x step
    exact entry ▸ some_ne_none inRange
  obtain ⟨gathers, isAnswer, same⟩ := ranged.progress.gathers.close ranged.pending ranged.every looked below
  have others {x : α} (ne : x ≠ succ) (inRange : Bool) :
      ((closeRange succ result' s').2.put succ inRange).cache x = s'.cache x :=
    (cache_put_of_ne _ inRange ne).trans (congrFun same x)
  rw [isAnswer]
  have closed : Closed po elements max (insert succ done')
    ((closeRange succ result' s').2.put succ result'.minInRange) succ := by
    refine ⟨⟨result'.minInRange, cache_put_self .., below⟩, fun z path => ?_⟩
    rcases precEq_iff.mp path with rfl | path
    · exact .inl (mem_insert_self succ done')
    · obtain ⟨b, step, path⟩ := (linked.succ_iff isElement).mpr path
      exact ((ranged.closed b step).above z path).imp_left (mem_insert_of_mem ·)
  refine ⟨⟨gathers.put succ _, ranged.progress.grows.trans (subset_insert succ done'), fun y mem => ?_,
    fun x isSeen => ?_⟩, closed, fun x isSeen => ?_, below⟩
  · rcases mem_insert.mp mem with rfl | mem
    · exact .inr .refl
    · refine (ranged.progress.fresh y mem).imp_right ?_
      rintro ⟨b, step, path⟩
      exact .head ⟨isElement, step⟩ path
  · have notSucc : x ≠ succ := by
      rintro rfl
      exact isSeen unseen
    rw [others notSucc, ranged.progress.kept x (by rwa [cache_put_of_ne s false notSucc]),
      cache_put_of_ne s false notSucc]
  by_cases isSucc : x = succ
  · exact .inr ⟨.inl isSucc, isSucc ▸ closed⟩
  rw [others isSucc] at isSeen
  rcases ranged.new x isSeen with before | ⟨origin, ⟨inRange, entry, correct⟩, above⟩
  · exact .inl (by rwa [cache_put_of_ne s false isSucc] at before)
  · refine .inr ⟨.inr ?_, ⟨inRange, (others isSucc _).trans entry, correct⟩, fun z path => ?_⟩
    · rcases origin with step | ⟨y, mem, step⟩
      · exact ⟨succ, mem_insert_self succ done', step⟩
      · exact ⟨y, mem_insert_of_mem mem, step⟩
    · exact (above z path).imp_left (mem_insert_of_mem ·)

end Loop

section Run

variable (linked : Linked po elements) (leveled : Leveled po elements) (irredundant : Irredundant po elements)

include linked leveled irredundant

theorem closedRangeLoop_spec (inside : a ∈ elements)
    (start : Start po elements max a list result done s) :
    ∃ result' done' s', Returns (fun fuel => closedRangeLoop po max fuel list result s) (result', s') ∧
      Ranged po elements max a list result result' done done' s s' := by
  refine Grounded.list_induction (P := fun list => ∀ a result done s, a ∈ elements →
    Start po elements max a list result done s →
    ∃ result' done' s', Returns (fun fuel => closedRangeLoop po max fuel list result s) (result', s') ∧
      Ranged po elements max a list result result' done done' s s')
    ?_ ?_ (fun b mem => linked.grounded_succs leveled.irrefl (linked.succs a inside b (start.member b mem)))
    a result done s inside start
  · intro a result done s _ start
    refine ⟨result, done, s, .step (.const _), ⟨start.gathers, subset_rfl, fun _ mem => .inl mem, fun _ _ => rfl⟩,
      start.pending, by simp, fun _ isSeen => .inl isSeen, by simp, by simp, Subset.refl _, Subset.refl _⟩
  intro succ rest grounded ihNext ihRest a result done s inside start
  have isElement := linked.succs a inside succ (start.member succ mem_cons_self)
  -- The loop goes on after a new element.
  have explored {answer : Bool} {done1 : Finset α} {s1 s2 : RangeSuccs α} (isPut : s1 = s2.put succ answer)
      (unseen : s.cache succ = none) (node : Explored.Node po elements max succ answer done done1 s s1)
      (returns : Returns (fun fuel => if succ = max then
          some (true, succsOfMax (po.isuccs max) { s.put succ false with range := insert max s.range })
        else (closedRangeLoop po max fuel (po.isuccs succ) ⟨false, [], []⟩ (s.put succ false)).map fun explored =>
          closeRange succ explored.1 explored.2) (answer, s2)) :
      ∃ result' done' s', Returns (fun fuel => closedRangeLoop po max fuel (succ :: rest) result s) (result', s') ∧
        Ranged po elements max a (succ :: rest) result result' done done' s s' := by
    obtain ⟨result1, isResult, start', finish⟩ := start.new linked irredundant inside unseen node
    obtain ⟨result', done', s', returns', ranged⟩ := ihRest a result1 done1 s1 inside start'
    refine ⟨result', done', s', .step (returns.andThen returns' fun fuel done => ?_), finish result' done' s' ranged⟩
    rw [closedRangeLoop, unseen]
    simp [done, isResult, isPut]
  cases entry : s.cache succ with
  | some inRange =>
    obtain ⟨result1, isResult, start', finish⟩ := start.seen entry
    obtain ⟨result', done', s', returns, ranged⟩ := ihRest a result1 done s inside start'
    refine ⟨result', done', s', .step (returns.congr fun fuel => ?_), finish result' done' s' ranged⟩
    rw [closedRangeLoop, entry]
    simp only [isResult]
  | none =>
    by_cases same : succ = max
    · subst same
      exact explored rfl entry (start.top linked inside leveled entry) ((Returns.const _).congr fun _ => if_pos rfl)
    have others {x : α} (ne : x ≠ succ) := cache_put_of_ne s false ne
    have start' : Start po elements max succ (po.isuccs succ) ⟨false, [], []⟩ done (s.put succ false) := by
      refine ⟨fun _ step => step, (linked.nodup succ isElement).1, start.gathers.put succ false,
        by constructor <;> simp,
        fun x isSeen b step reach => ?_⟩
      have ne : x ≠ succ := by
        rintro rfl
        exact grounded.acyclic step reach
      rw [others ne] at isSeen
      obtain ⟨⟨⟨inRange, entry', correct⟩, above⟩, origin⟩ :=
        start.ahead x isSeen succ mem_cons_self (.head step reach)
      exact ⟨⟨⟨inRange, (others ne).trans entry', correct⟩, above⟩, origin⟩
    obtain ⟨result1, done1, s1, returns, ranged⟩ := ihNext succ ⟨false, [], []⟩ done
      (s.put succ false) isElement start'
    exact explored rfl entry (start.node linked inside entry same ranged)
      ((returns.map _).congr fun _ => if_neg same)

omit [DecidableEq α] in
theorem Gathers.minimal (insideMin : min ∈ elements) (gathers : Gathers po elements max done s)
    (from_min : ∀ y ∈ done, po.PrecEq elements min y)
    (above : ∀ z, po.PrecEq elements min z → z ∈ done ∨ po.Prec elements max z) :
    (∀ x, x ∈ s.range ↔ po.PrecEq elements min x ∧ po.PrecEq elements x max) ∧
      ∀ x, x ∈ s.succs ↔ po.PrecEq elements min max ∧
        Minimal po elements (fun x => po.PrecEq elements min x ∧ ¬ po.PrecEq elements x max) x := by
  have explored {z : α} (path : po.PrecEq elements min z) (notAbove : ¬ po.Prec elements max z) : z ∈ done :=
    (above z path).resolve_right notAbove
  refine ⟨fun x => ?_, fun x => ?_⟩
  · rw [gathers.range]
    exact and_congr_left fun below => ⟨from_min x, fun path => explored path fun back => leveled.not_back back below⟩
  rw [gathers.succs]
  constructor
  · rintro ⟨outside, ⟨u, mem, below, step⟩, others⟩
    have isElement : u ∈ elements := linked.mem_of_path (from_min u mem) insideMin
    refine ⟨(from_min u mem).trans below, ⟨(from_min u mem).tail ⟨isElement, step⟩, outside⟩, ?_⟩
    rintro y ⟨path, outside'⟩ before
    -- The last element before `x` on the path from `y` is not in the range either.
    obtain ⟨w, path', link⟩ := TransGen.tail'_iff.mp before
    have outsideW : ¬ po.PrecEq elements w max := fun below' => outside' (path'.trans below')
    by_cases aboveMax : po.Prec elements max w
    · exact irredundant u x ⟨isElement, step⟩ w ⟨prec_of_precEq below aboveMax, .single link⟩
    · exact others w (explored (path.trans path') aboveMax) outsideW link.2
  · rintro ⟨below, ⟨path, outside⟩, least⟩
    rcases precEq_iff.mp path with rfl | path
    · exact absurd below outside
    obtain ⟨u, path', link⟩ := TransGen.tail'_iff.mp path
    have belowU : po.PrecEq elements u max := by
      by_contra outsideU
      exact least u ⟨path', outsideU⟩ (.single link)
    refine ⟨outside, ⟨u, explored path' fun back => leveled.not_back back belowU, belowU, link.2⟩,
      fun y mem outsideY step => ?_⟩
    exact least y ⟨from_min y mem, outsideY⟩ (.single ⟨linked.mem_of_path (from_min y mem) insideMin, step⟩)

/-- The answer says whether the bounds are ordered. The range is then closed, the other set has the minimal
elements above it, and else both are empty. -/
theorem closedRangeAndSuccs_minimal {min max : α} (insideMin : min ∈ elements) (insideMax : max ∈ elements) :
    ∃ answer s, Returns (fun fuel => closedRangeAndSuccs fuel po min max) (answer, s) ∧
      (answer = true ↔ po.PrecEq elements min max) ∧
      (answer = true → (∀ x, x ∈ s.range ↔ po.PrecEq elements min x ∧ po.PrecEq elements x max) ∧
        ∀ x, x ∈ s.succs ↔ Minimal po elements (fun x => po.PrecEq elements min x ∧ ¬ po.PrecEq elements x max) x) ∧
      (answer = false → s.range = ∅ ∧ s.succs = ∅) := by
  -- What follows when all below `max` has been explored, whatever the answer is.
  have finish {answer : Bool} {done : Finset α} {s : RangeSuccs α}
      (returns : Returns (fun fuel => closedRangeAndSuccs fuel po min max) (answer, s))
      (isAnswer : answer = true ↔ po.PrecEq elements min max) (gathers : Gathers po elements max done s)
      (from_min : ∀ y ∈ done, po.PrecEq elements min y)
      (above : ∀ z, po.PrecEq elements min z → z ∈ done ∨ po.Prec elements max z) :
      ∃ answer s, Returns (fun fuel => closedRangeAndSuccs fuel po min max) (answer, s) ∧
        (answer = true ↔ po.PrecEq elements min max) ∧
        (answer = true → (∀ x, x ∈ s.range ↔ po.PrecEq elements min x ∧ po.PrecEq elements x max) ∧
          ∀ x, x ∈ s.succs ↔ Minimal po elements (fun x => po.PrecEq elements min x ∧ ¬ po.PrecEq elements x max) x) ∧
        (answer = false → s.range = ∅ ∧ s.succs = ∅) := by
    obtain ⟨range, succs⟩ := gathers.minimal linked leveled irredundant insideMin from_min above
    refine ⟨answer, s, returns, isAnswer, fun below => ⟨range, fun x => ?_⟩, fun apart => ?_⟩
    · rw [succs, and_iff_right (isAnswer.mp below)]
    · have notBelow : ¬ po.PrecEq elements min max := fun below => by rw [isAnswer.mpr below] at apart; cases apart
      constructor
      · exact eq_empty_of_forall_notMem fun x member =>
          notBelow (((range x).mp member).1.trans ((range x).mp member).2)
      · exact eq_empty_of_forall_notMem fun x member => notBelow ((succs x).mp member).1
  by_cases same : min = max
  · subst same
    obtain ⟨range, succs, _, fresh, _⟩ := succsOfMax_spec (po.isuccs min) { RangeSuccs.init with range := insert min ∅ }
    have above {x : α} (step : x ∈ po.isuccs min) : po.Prec elements min x := .single ⟨insideMin, step⟩
    have gathers : Gathers po elements min {min}
        (succsOfMax (po.isuccs min) { RangeSuccs.init with range := insert min ∅ }) := by
      refine ⟨fun x => ?_, fun x => ?_, ?_⟩
      · rw [range, insert_empty_eq, Finset.mem_singleton, iff_self_and]
        rintro rfl
        exact .refl
      · rw [succs]
        constructor
        · rintro (isIn | ⟨step, _⟩)
          · exact absurd isIn (notMem_empty x)
          · refine ⟨leveled.not_back (above step), ⟨min, Finset.mem_singleton_self min, .refl, step⟩,
              fun y member outside => ?_⟩
            exact absurd (Finset.mem_singleton.mp member ▸ .refl) outside
        · rintro ⟨_, ⟨u, member, _, step⟩, _⟩
          exact .inr ⟨Finset.mem_singleton.mp member ▸ step, rfl⟩
      · intro y member x step
        rw [fresh x (Finset.mem_singleton.mp member ▸ step) rfl]
        exact some_ne_none false
    refine finish ((Returns.const _).congr fun _ => if_pos rfl) (iff_of_true rfl .refl) gathers (fun y member => ?_)
      fun z path => ?_
    · exact Finset.mem_singleton.mp member ▸ .refl
    · exact (precEq_iff.mp path).imp_left fun same => Finset.mem_singleton.mpr same.symm
  · have start : Start po elements max min (po.isuccs min) ⟨false, [], []⟩ ∅ .init :=
      ⟨fun _ step => step, (linked.nodup min insideMin).1,
        ⟨by simp [RangeSuccs.init], by simp [RangeSuccs.init], by simp⟩,
        ⟨by simp, by simp⟩, fun x isSeen => absurd rfl isSeen⟩
    obtain ⟨result, done, s, returns, ranged⟩ := closedRangeLoop_spec linked leveled irredundant insideMin start
    have below : result.minInRange = true ↔ po.PrecEq elements min max := by
      rw [ranged.answer, or_iff_right Bool.false_ne_true, linked.succ_iff insideMin, precEq_iff, or_iff_right same]
    have looked (x : α) (step : x ∈ po.isuccs min) : s.cache x ≠ none := by
      obtain ⟨⟨inRange, entry, _⟩, _⟩ := ranged.closed x step
      exact entry ▸ some_ne_none inRange
    obtain ⟨gathers, isAnswer, _⟩ := ranged.progress.gathers.close ranged.pending ranged.every looked below
    have returned : Returns (fun fuel => closedRangeAndSuccs fuel po min max)
        ((closeRange min result s).1, (closeRange min result s).2) :=
      (returns.map fun explored : RangeSuccs.Loop α × RangeSuccs α => closeRange min explored.1 explored.2).congr
        fun _ => if_neg same
    refine finish returned (by rw [isAnswer, below]) gathers (fun y member => ?_) fun z path => ?_
    · rcases mem_insert.mp member with rfl | member
      · exact .refl
      · obtain ⟨b, step, path⟩ := (ranged.progress.fresh y member).resolve_left (notMem_empty y)
        exact .head ⟨insideMin, step⟩ path
    · rcases precEq_iff.mp path with rfl | path
      · exact .inl (mem_insert_self min done)
      · obtain ⟨b, step, path⟩ := (linked.succ_iff insideMin).mpr path
        exact ((ranged.closed b step).above z path).imp_left (mem_insert_of_mem ·)

end Run

theorem closedRangeAndSuccs_minimal_diamond : ∃ answer s,
    Returns (fun fuel => closedRangeAndSuccs fuel diamondPo 2 4) (answer, s) ∧
      (answer = true ↔ diamondPo.PrecEq {0, 1, 2, 3, 4, 5} 2 4) ∧
      (answer = true → (∀ x, x ∈ s.range ↔
          diamondPo.PrecEq {0, 1, 2, 3, 4, 5} 2 x ∧ diamondPo.PrecEq {0, 1, 2, 3, 4, 5} x 4) ∧
        ∀ x, x ∈ s.succs ↔ Minimal diamondPo {0, 1, 2, 3, 4, 5} (fun x =>
          diamondPo.PrecEq {0, 1, 2, 3, 4, 5} 2 x ∧ ¬ diamondPo.PrecEq {0, 1, 2, 3, 4, 5} x 4) x) ∧
      (answer = false → s.range = ∅ ∧ s.succs = ∅) :=
  closedRangeAndSuccs_minimal diamond_ordered.linked diamond_ordered.leveled diamond_irredundant (by decide)
    (by decide)

end Culibs.Cucon.Po
