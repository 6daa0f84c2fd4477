import Culibs.Cugra.AlgoSCC.Basic

namespace Culibs.Cugra.AlgoSCC

open ArcSearch List Option Nat Function

variable {V : Type}

variable {adjacent : V → List V} {vertices active outer done part below base subs : List V} {subs base : List Nat}
  {s s' s0 : Search V} {st st' st0 : State V} {blocks blocks' blocks0 : List (Block V)} {a u v w x : V}
  {c m fuel : Nat}

theorem Grows.trans (first : Grows st0 st s0 s) (second : Grows st st' s s') : Grows st0 st' s0 s' :=
  ⟨fun v seen => (second.info v (first.seen seen)).trans (first.info v seen), Subset.trans first.seen second.seen,
    Subset.trans first.kept second.kept, fun u x kept seen => first.sources u x (second.sources u x kept
      (first.seen seen)) seen⟩

theorem Grows.cpt (grows : Grows st st' s s') (seen : v ∈ s.seen) : st'.cpt v = st.cpt v := by
  rw [State.cpt, grows.info v seen, State.cpt]

theorem Grows.index (grows : Grows st st' s s') (seen : v ∈ s.seen) : st'.index v = st.index v := by
  rw [State.index, grows.info v seen, State.index]

theorem Grows.length (grows : Grows st st' s s') (nodup : s.seen.Nodup) : s.seen.length ≤ s'.seen.length :=
  nodup.length_le_of_subset grows.seen

namespace Inv

section

variable (inv : Inv adjacent vertices active st s blocks)

include inv

theorem seen_of_cpt (known : st.cpt v ≠ none) : v ∈ s.seen := by
  refine (inv.seen v).mpr fun none => known ?_
  rw [State.cpt, none]
  rfl

theorem active_cpt (isActive : x ∈ active) : st.cpt x = none := by
  rw [State.cpt, (inv.visiting x isActive).1]
  rfl

theorem active_seen (isActive : x ∈ active) : x ∈ s.seen := by
  rw [inv.seen, (inv.visiting x isActive).1]
  exact some_ne_none _

theorem active_stack (isActive : x ∈ active) : x ∈ st.vertexStack :=
  (inv.stack x).mpr ⟨inv.active_seen isActive, inv.active_cpt isActive⟩

theorem length_le : s.seen.length ≤ vertices.length :=
  inv.nodup.length_le_of_subset inv.inside

theorem length_lt (isVertex : w ∈ vertices) (new : w ∉ s.seen) : s.seen.length < vertices.length := by
  have nodup := nodup_cons.mpr ⟨new, inv.nodup⟩
  exact nodup.length_le_of_subset (cons_subset.mpr ⟨isVertex, inv.inside⟩)

end

theorem keep (inv : Inv adjacent vertices (a :: outer) st s blocks) (arc : w ∈ adjacent a) :
    Inv adjacent vertices (a :: outer) st (s.keep a w) blocks := by
  have isSeen := inv.active_seen mem_cons_self
  refine ⟨inv.seen, inv.nodup, inv.inside, inv.pool, fun u x kept => ?_, inv.visiting, inv.order, inv.left, inv.stack,
    inv.distinct, inv.top, fun b head v inStack => (inv.reach b head v inStack).keep a w, inv.components, inv.calls,
    inv.closed.mono (subset_cons_self ..) fun u x kept known => ?_⟩
  · rcases Search.kept_keep.mp kept with ⟨rfl, rfl⟩ | kept
    · exact ⟨isSeen, arc⟩
    · exact inv.kept u x kept
  · rcases Search.kept_keep.mp kept with ⟨rfl, rfl⟩ | kept
    · exact absurd (inv.active_cpt mem_cons_self) known
    · exact kept

theorem push (inv : Inv adjacent vertices active st s blocks) (cptStack : List Nat) :
    Inv adjacent vertices active { st with cptStack := cptStack } s blocks :=
  ⟨inv.seen, inv.nodup, inv.inside, inv.pool, inv.kept, inv.visiting, inv.order, inv.left, inv.stack, inv.distinct,
    inv.top, inv.reach, inv.components, inv.calls, inv.closed⟩

end Inv

section

variable [DecidableEq V]

private theorem cpt_create (new : st.vinfoMap w = none) : (st.create w).cpt = st.cpt := by
  funext v
  by_cases same : v = w
  · subst same
    simp [State.cpt, State.create, new]
  · simp [State.cpt, State.create, same]

theorem index_create : (st.create w).index w = st.indexPool := by
  simp [State.index, State.create]

private theorem index_create_of_ne (other : v ≠ w) : (st.create w).index v = st.index v := by
  simp [State.index, State.create, other]

private theorem create_spec (inv : Inv adjacent vertices active st s blocks) (isVertex : w ∈ vertices) (new : w ∉ s.seen)
    (linked : ∀ a, active.head? = some a → s.Kept a w) :
    Inv adjacent vertices (w :: active) (st.create w) (s.see w) blocks := by
  have isNew : st.vinfoMap w = none := by simpa using mt (inv.seen w).mpr new
  have cpt : st.cpt w = none := by
    rw [State.cpt, isNew]
    rfl
  have other {x} (isActive : x ∈ active) : x ≠ w := fun same => new (same ▸ inv.active_seen isActive)
  have info {v} (ne : v ≠ w) : (st.create w).vinfoMap v = st.vinfoMap v := update_of_ne ne ..
  have here : (st.create w).vinfoMap w = some ⟨st.indexPool, none⟩ := update_self ..
  have notStack : w ∉ st.vertexStack := fun inStack => new ((inv.stack w).mp inStack).1
  refine ⟨fun v => ?_, nodup_cons.mpr ⟨new, inv.nodup⟩, cons_subset.mpr ⟨isVertex, inv.inside⟩,
    congrArg (· + 1) inv.pool, fun u x kept => ?_, fun x isActive => ?_, pairwise_cons.mpr ⟨fun x isActive => ?_, ?_⟩,
    fun v i known notActive => ?_, fun v => ?_, nodup_cons.mpr ⟨notStack, inv.distinct⟩, fun nil => ?_,
    fun b head v inStack => ?_, inv.components, inv.calls, ?_⟩
  · by_cases same : v = w
    · subst same
      rw [here]
      exact ⟨fun _ => some_ne_none _, fun _ => .head _⟩
    · rw [info same, Search.seen_see, mem_cons, or_iff_right same]
      exact inv.seen v
  · exact ⟨mem_cons_of_mem w (inv.kept u x kept).1, (inv.kept u x kept).2⟩
  · rcases mem_cons.mp isActive with rfl | isActive
    · rw [here, index_create]
      exact ⟨rfl, lt_succ_self _⟩
    · rw [info (other isActive), index_create_of_ne (other isActive)]
      exact ⟨(inv.visiting x isActive).1, lt_succ_of_lt (inv.visiting x isActive).2⟩
  · rw [index_create, index_create_of_ne (other isActive)]
    exact (inv.visiting x isActive).2
  · refine inv.order.imp_of_mem fun isActive isActive' less => ?_
    rwa [index_create_of_ne (other isActive), index_create_of_ne (other isActive')]
  · obtain ⟨ne, notActive⟩ := not_or.mp (mt mem_cons.mpr notActive)
    rw [info ne] at known
    exact inv.left v i known notActive
  · rw [cpt_create isNew, Search.seen_see, mem_cons, State.create, mem_cons, inv.stack]
    refine ⟨?_, fun ⟨seen, known⟩ => seen.imp_right fun seen => ⟨seen, known⟩⟩
    rintro (rfl | ⟨seen, known⟩)
    · exact ⟨.inl rfl, cpt⟩
    · exact ⟨.inr seen, known⟩
  · cases nil
  · cases head
    rcases mem_cons.mp inStack with rfl | inStack
    · exact .refl
    · cases active with
      | nil =>
        rw [inv.top rfl] at inStack
        cases inStack
      | cons b rest => exact (inv.reach b rfl v inStack).tail (linked b rfl)
  · rw [cpt_create isNew]
    exact inv.closed.mono (Subset.refl _) fun _ _ kept _ => kept

theorem loop_start (inv : Inv adjacent vertices active st s blocks) (isVertex : w ∈ vertices) (new : w ∉ s.seen)
    (linked : ∀ a, active.head? = some a → s.Kept a w) :
    Loop adjacent vertices st s active w [] (st.create w) (s.see w) st.indexPool blocks [] [] := by
  refine ⟨create_spec inv isVertex new linked, ⟨fun v seen => ?_, subset_cons_self .., Subset.refl _,
    fun _ _ kept _ => kept⟩, rfl, rfl, le_of_eq index_create.symm, fun u x scanned => ?_, fun u source x kept => ?_,
    fun c inSubs => ?_, ⟨w, .head _, index_create.symm, .refl⟩, fun u inPart => ?_⟩
  · have other : v ≠ w := fun same => new (same ▸ seen)
    exact update_of_ne other ..
  · rcases scanned with ⟨_, inDone⟩ | ⟨inPart, _⟩
    · cases inDone
    · cases inPart
  · cases mem_singleton.mp source
    exact absurd (inv.kept _ x kept).1 new
  · cases inSubs
  · cases inPart

end

theorem scanned_append : Scanned adjacent a (done ++ [w]) part u x ↔ Scanned adjacent a done part u x ∨ u = a ∧ x = w := by
  simp only [Scanned, mem_append, mem_singleton]
  tauto

section

variable (loop : Loop adjacent vertices st0 s0 outer a done st s m blocks part subs)

include loop

theorem Loop.new (before : Inv adjacent vertices outer st0 s0 blocks0) : a ∉ s0.seen := by
  intro seen
  have inside : a ∈ st0.vertexStack := by
    rw [before.stack, ← loop.grows.cpt seen]
    exact ⟨seen, loop.inv.active_cpt mem_cons_self⟩
  have distinct := loop.inv.distinct
  rw [loop.stack] at distinct
  exact (nodup_cons.mp (nodup_append.mp distinct).2.1).1 inside

theorem Loop.grows_keep (new : a ∉ s0.seen) (w : V) : Grows st0 st s0 (s.keep a w) := by
  refine ⟨loop.grows.info, loop.grows.seen, fun _ kept => .tail _ (loop.grows.kept kept),
    fun u y kept seen => ?_⟩
  rcases Search.kept_keep.mp kept with ⟨rfl, rfl⟩ | kept
  · exact absurd seen new
  · exact loop.grows.sources u y kept seen

theorem Loop.toActive (new : a ∉ s0.seen) (arc : w ∈ adjacent a) (isActive : w ∈ a :: outer) :
    Loop adjacent vertices st0 s0 outer a (done ++ [w]) st (s.keep a w) (min m (st.index w)) blocks part subs := by
  have inStack := loop.inv.active_stack isActive
  obtain ⟨known, low, connected, ⟨x, xActive, least, reach⟩, below⟩ := loop.segment
  refine ⟨loop.inv.keep arc, loop.grows_keep new w, loop.stack, loop.cptStack, le_trans (min_le_left ..) loop.least,
    fun u y scanned => ?_, fun u source y kept => ?_, fun c inSubs => ?_, ?_, fun u inPart => (below u inPart).keep a w⟩
  · rcases scanned_append.mp scanned with scanned | ⟨rfl, rfl⟩
    · exact known u y scanned
    · exact .inr inStack
  · rcases Search.kept_keep.mp kept with ⟨rfl, rfl⟩ | kept
    · exact .inr (.inr ⟨isActive, min_le_right ..⟩)
    · refine (low u source y kept).imp_right fun rest => rest.imp_right fun ⟨isActive, less⟩ => ?_
      exact ⟨isActive, le_trans (min_le_left ..) less⟩
  · obtain ⟨u, y, scanned, sub⟩ := connected c inSubs
    exact ⟨u, y, scanned_append.mpr (.inl scanned), sub⟩
  · rcases le_total m (st.index w) with less | less
    · rw [min_eq_left less]
      exact ⟨x, xActive, least, reach.keep a w⟩
    · rw [min_eq_right less]
      exact ⟨w, isActive, rfl, .single (Search.kept_keep.mpr (.inl ⟨rfl, rfl⟩))⟩

theorem Loop.toStack (inStack : w ∈ st.vertexStack) :
    Loop adjacent vertices st0 s0 outer a (done ++ [w]) st s m blocks part subs := by
  obtain ⟨known, low, connected, least, below⟩ := loop.segment
  refine ⟨loop.inv, loop.grows, loop.stack, loop.cptStack, loop.least, fun u y scanned => ?_, low, fun c inSubs => ?_, least,
    below⟩
  · rcases scanned_append.mp scanned with scanned | ⟨rfl, rfl⟩
    · exact known u y scanned
    · exact .inr inStack
  · obtain ⟨u, y, scanned, sub⟩ := connected c inSubs
    exact ⟨u, y, scanned_append.mpr (.inl scanned), sub⟩

theorem Loop.toClosed (isClosed : st.cpt w = some c) :
    Loop adjacent vertices st0 s0 outer a (done ++ [w]) { st with cptStack := c :: st.cptStack } s m blocks part
      (c :: subs) := by
  obtain ⟨known, low, connected, least, below⟩ := loop.segment
  refine ⟨loop.inv.push _, ⟨loop.grows.info, loop.grows.seen, loop.grows.kept, loop.grows.sources⟩, loop.stack,
    congrArg (c :: ·) loop.cptStack, loop.least, fun u y scanned => ?_, low, fun d inSubs => ?_, least, below⟩
  · rcases scanned_append.mp scanned with scanned | ⟨rfl, rfl⟩
    · exact (known u y scanned).imp_left fun ⟨d, inSubs, sub⟩ => ⟨d, mem_cons_of_mem c inSubs, sub⟩
    · exact .inl ⟨c, .head _, isClosed⟩
  · rcases mem_cons.mp inSubs with rfl | inSubs
    · exact ⟨a, w, scanned_append.mpr (.inr ⟨rfl, rfl⟩), isClosed⟩
    · obtain ⟨u, y, scanned, sub⟩ := connected d inSubs
      exact ⟨u, y, scanned_append.mpr (.inl scanned), sub⟩

theorem Loop.toSeen [DecidableEq V] (new : a ∉ s0.seen) (few : vertices.length ≤ intMax) (arc : w ∈ adjacent a)
    (seen : w ∈ s.seen) (visit : V → Search V → Search V) (fuel : Nat) :
    ∃ st' i subs', detectSCC adjacent (fuel + 1) st w = some (st', i) ∧
      Loop adjacent vertices st0 s0 outer a (done ++ [w]) st' (Search.arc visit outer a s w) (min m i) blocks part subs' := by
  obtain ⟨info, isInfo⟩ := ne_none_iff_exists'.mp ((loop.inv.seen w).mp seen)
  have index : st.index w = info.index := by
    rw [State.index, isInfo]
    rfl
  have cpt : st.cpt w = info.cpt := by
    rw [State.cpt, isInfo]
    rfl
  rw [Search.arc, if_pos seen]
  by_cases isActive : w ∈ a :: outer
  · rw [if_pos isActive]
    have isOpen := loop.inv.active_cpt isActive
    have next := loop.toActive new arc isActive
    rw [index] at next
    refine ⟨st, info.index, subs, ?_, next⟩
    rw [cpt] at isOpen
    simp only [detectSCC, isInfo, isOpen]
  · rw [if_neg isActive]
    have high := loop.inv.left w info isInfo isActive
    have low : m ≤ info.index := by
      have bound := (loop.inv.visiting a mem_cons_self).2
      have total := loop.inv.length_le
      have least := loop.least
      rw [loop.inv.pool] at bound
      omega
    have same : min m info.index = m := min_eq_left low
    cases isClosed : info.cpt with
    | none =>
      refine ⟨st, info.index, subs, by simp only [detectSCC, isInfo, isClosed], ?_⟩
      rw [same]
      exact loop.toStack ((loop.inv.stack w).mpr ⟨seen, cpt.trans isClosed⟩)
    | some c =>
      refine ⟨_, info.index, c :: subs, by simp only [detectSCC, isInfo, isClosed]; rfl, ?_⟩
      rw [same]
      exact loop.toClosed (cpt.trans isClosed)

theorem Loop.toNew (new : a ∉ s0.seen)
    (visited : Visited adjacent vertices (a :: outer) st (s.keep a w) w st' s' c blocks') :
    ∃ part' subs', Loop adjacent vertices st0 s0 outer a (done ++ [w]) st' s' (min m c) blocks' part' subs' := by
  obtain ⟨known, low, connected, ⟨x, xActive, least, reach⟩, below⟩ := loop.segment
  have aSeen := loop.inv.active_seen mem_cons_self
  have kept {u v} (reach : s.Reach u v) : s'.Reach u v := (reach.keep a w).mono visited.grows.kept
  have link : s'.Kept a w := visited.grows.kept mem_cons_self
  have grows : Grows st0 st' s0 s' := (loop.grows_keep new w).trans visited.grows
  have sourceSeen {u} (source : u ∈ a :: part) : u ∈ s.seen := by
    rcases mem_cons.mp source with rfl | inPart
    · exact aSeen
    · have inStack : u ∈ st.vertexStack := by
        rw [loop.stack]
        exact mem_append_left _ inPart
      exact ((loop.inv.stack u).mp inStack).1
  have still {v c} (isClosed : st.cpt v = some c) : st'.cpt v = some c := by
    rw [visited.grows.cpt (loop.inv.seen_of_cpt (by rw [isClosed]; exact some_ne_none c)), isClosed]
  have sameIndex {v} (isActive : v ∈ a :: outer) : st'.index v = st.index v :=
    visited.grows.index (loop.inv.active_seen isActive)
  -- What was known of the arcs that are not new.
  have oldLow {u y} (source : u ∈ a :: part) (isKept : s'.Kept u y) :
      u = a ∧ y = w ∨ st'.cpt y ≠ none ∨ y ∈ part ∨ y ∈ a :: outer ∧ m ≤ st'.index y := by
    rcases Search.kept_keep.mp (visited.grows.sources u y isKept (sourceSeen source)) with same | isKept
    · exact .inl same
    · refine .inr ((low u source y isKept).imp (fun isClosed => ?_) fun rest => rest.imp_right fun ⟨isActive, less⟩ => ?_)
      · obtain ⟨c, isClosed⟩ := ne_none_iff_exists'.mp isClosed
        rw [still isClosed]
        exact some_ne_none c
      · rw [sameIndex isActive]
        exact ⟨isActive, less⟩
  rcases visited.outcome with ⟨stack, ⟨d, cptStack, isClosed⟩, high⟩ | ⟨part', subs', stack, cptStack, inPart, segment⟩
  · have less : m ≤ c := by
      have bound := high a mem_cons_self
      rw [sameIndex mem_cons_self] at bound
      exact le_trans loop.least bound
    refine ⟨part, d :: subs, visited.inv, grows, stack.trans loop.stack, by rw [cptStack, loop.cptStack]; rfl, ?_,
      fun u y scanned => ?_, fun u source y isKept => ?_, fun e inSubs => ?_, ?_, fun u inPart => kept (below u inPart)⟩
    · rw [sameIndex mem_cons_self]
      exact le_trans (min_le_left ..) loop.least
    · rcases scanned_append.mp scanned with scanned | ⟨rfl, rfl⟩
      · refine (known u y scanned).imp (fun ⟨e, inSubs, sub⟩ => ⟨e, mem_cons_of_mem d inSubs, still sub⟩) fun inStack => ?_
        rwa [stack]
      · exact .inl ⟨d, .head _, isClosed⟩
    · rw [min_eq_left less]
      rcases oldLow source isKept with ⟨rfl, rfl⟩ | old
      · rw [isClosed]
        exact .inl (some_ne_none d)
      · exact old
    · rcases mem_cons.mp inSubs with rfl | inSubs
      · exact ⟨a, w, scanned_append.mpr (.inr ⟨rfl, rfl⟩), isClosed⟩
      · obtain ⟨u, y, scanned, sub⟩ := connected e inSubs
        exact ⟨u, y, scanned_append.mpr (.inl scanned), still sub⟩
    · rw [min_eq_left less]
      exact ⟨x, xActive, least.trans (sameIndex xActive).symm, kept reach⟩
  · obtain ⟨known', low', connected', ⟨z, zActive, least', reach'⟩, below'⟩ := segment
    refine ⟨part' ++ part, subs' ++ subs, visited.inv, grows, by rw [stack, loop.stack, append_assoc],
      by rw [cptStack, loop.cptStack, append_assoc], ?_, fun u y scanned => ?_, fun u source y isKept => ?_,
      fun e inSubs => ?_, ?_, fun u inBoth => ?_⟩
    · rw [sameIndex mem_cons_self]
      exact le_trans (min_le_left ..) loop.least
    · have new {y} (arc : y ∈ adjacent u) (inPart : u ∈ part') :
          (∃ c ∈ subs' ++ subs, st'.cpt y = some c) ∨ y ∈ st'.vertexStack :=
        (known' u y ⟨inPart, arc⟩).imp_left fun ⟨e, inSubs, sub⟩ => ⟨e, mem_append_left _ inSubs, sub⟩
      have old (scanned : Scanned adjacent a done part u y) :
          (∃ c ∈ subs' ++ subs, st'.cpt y = some c) ∨ y ∈ st'.vertexStack := by
        refine (known u y scanned).imp (fun ⟨e, inSubs, sub⟩ => ⟨e, mem_append_right _ inSubs, still sub⟩)
          fun inStack => ?_
        rw [stack]
        exact mem_append_right _ inStack
      rcases scanned with ⟨rfl, inDone⟩ | ⟨inBoth, arc⟩
      · rcases mem_append.mp inDone with inDone | single
        · exact old (.inl ⟨rfl, inDone⟩)
        · cases mem_singleton.mp single
          rw [stack]
          exact .inr (mem_append_left _ inPart)
      · rcases mem_append.mp inBoth with inPart | inPart
        · exact new arc inPart
        · exact old (.inr ⟨inPart, arc⟩)
    · have fromOld (source : u ∈ a :: part) : st'.cpt y ≠ none ∨ y ∈ part' ++ part ∨
          y ∈ a :: outer ∧ min m c ≤ st'.index y := by
        rcases oldLow source isKept with ⟨rfl, rfl⟩ | old
        · exact .inr (.inl (mem_append_left _ inPart))
        · exact old.imp_right fun rest => rest.imp (mem_append_right _) fun ⟨isActive, less⟩ =>
            ⟨isActive, le_trans (min_le_left ..) less⟩
      rcases mem_cons.mp source with rfl | inBoth
      · exact fromOld mem_cons_self
      · rcases mem_append.mp inBoth with inPart | inPart
        · exact (low' u inPart y isKept).imp_right fun rest => rest.imp (mem_append_left _) fun ⟨isActive, less⟩ =>
            ⟨isActive, le_trans (min_le_right ..) less⟩
        · exact fromOld (mem_cons_of_mem a inPart)
    · rcases mem_append.mp inSubs with inSubs | inSubs
      · obtain ⟨u, y, ⟨inPart, arc⟩, sub⟩ := connected' e inSubs
        exact ⟨u, y, .inr ⟨mem_append_left _ inPart, arc⟩, sub⟩
      · obtain ⟨u, y, scanned, sub⟩ := connected e inSubs
        rcases scanned with ⟨same, inDone⟩ | ⟨inPart, arc⟩
        · exact ⟨u, y, .inl ⟨same, mem_append_left _ inDone⟩, still sub⟩
        · exact ⟨u, y, .inr ⟨mem_append_right _ inPart, arc⟩, still sub⟩
    · rcases le_total m c with less | less
      · rw [min_eq_left less]
        exact ⟨x, xActive, least.trans (sameIndex xActive).symm, kept reach⟩
      · rw [min_eq_right less]
        exact ⟨z, zActive, least', .head link reach'⟩
    · rcases mem_append.mp inBoth with inPart | inPart
      · exact .head link (below' u inPart)
      · exact kept (below u inPart)

end

end Culibs.Cugra.AlgoSCC
