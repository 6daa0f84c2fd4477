import Culibs.Cugra.AlgoSCC.Visit

namespace Culibs.Cugra.AlgoSCC

open ArcSearch List Option

variable {V : Type} [DecidableEq V]

variable {adjacent : V → List V} {vertices active outer done part below : List V} {subs base : List Nat}
  {s s' s0 : Search V} {st st' st0 st1 : State V} {blocks blocks' blocks0 : List (Block V)} {a u v w x : V}
  {c m fuel : Nat}

private theorem passVertices_eq (st : State V) (part : List V) (other : a ∉ part) :
    st.passVertices c a (part ++ a :: below) =
      some { st with
        vertexStack := below
        calls := st.calls ++ (part ++ [a]).map (.passVertex c)
        vinfoMap := fun v => if v ∈ part ++ [a] then (st.vinfoMap v).map fun info => { info with cpt := some c }
          else st.vinfoMap v } := by
  induction part generalizing st with
  | nil =>
    rw [nil_append, State.passVertices, if_pos rfl]
    simp only [State.setInfo, State.call, nil_append, map_cons, map_nil, mem_singleton, some.injEq]
    congr 1
    funext v
    by_cases same : v = a
    · subst same
      simp
    · simp [same]
  | cons u part ih =>
    obtain ⟨ne, other⟩ := not_or.mp (mt mem_cons.mpr other)
    rw [cons_append, State.passVertices, if_neg (Ne.symm ne), ih _ other]
    simp only [State.setInfo, State.call, cons_append, map_cons, append_assoc, nil_append,
      some.injEq]
    congr 1
    funext v
    by_cases same : v = u
    · subst same
      cases st.vinfoMap v <;> simp
    · simp [same]

omit [DecidableEq V] in
private theorem connectComponents_eq (st : State V) (subs : List Nat) :
    st.connectComponents c base.length (subs ++ base) =
      some { st with cptStack := base, calls := st.calls ++ subs.map (.connectComponents c) } := by
  induction subs generalizing st with
  | nil =>
    cases base with
    | nil => simp [State.connectComponents]
    | cons d base => simp [State.connectComponents]
  | cons d subs ih =>
    rw [cons_append, State.connectComponents, if_neg (by rw [length_append]; omega), ih]
    simp [State.call]

/-- The state after the component of a vertex has been left. -/
def left (st : State V) (a : V) (part below : List V) (subs base : List Nat) : State V :=
  { st with
    vertexStack := below
    cptStack := st.components :: base
    components := st.components + 1
    calls := st.calls ++ Block.calls st.components ⟨part ++ [a], subs⟩
    vinfoMap := fun v => if v ∈ part ++ [a] then (st.vinfoMap v).map fun info => { info with cpt := some st.components }
      else st.vinfoMap v }

private theorem processComponent_eq (stack : st.vertexStack = part ++ a :: below) (other : a ∉ part)
    (cptStack : st.cptStack = subs ++ base) :
    st.processComponent a base.length = some (left st a part below subs base) := by
  simp only [State.processComponent, State.call, bind_eq_bind, stack]
  rw [passVertices_eq _ part other, bind_some]
  simp only [cptStack]
  rw [connectComponents_eq, bind_some, left, Block.calls]
  simp

omit [DecidableEq V] in
/-- What was seen before a call is not in the part of the stack that the call has left there. -/
theorem Loop.old (loop : Loop adjacent vertices st0 s0 outer a done st s m blocks part subs)
    (before : Inv adjacent vertices outer st0 s0 blocks0) (seen : v ∈ s0.seen) : v ∉ part ++ [a] := by
  intro inPart
  have distinct := loop.inv.distinct
  rw [loop.stack, append_cons] at distinct
  have inStack : v ∈ st.vertexStack := by
    rw [loop.stack, append_cons]
    exact mem_append_left _ inPart
  have inBelow : v ∈ st0.vertexStack := by
    rw [before.stack, ← loop.grows.cpt seen]
    exact ⟨seen, ((loop.inv.stack v).mp inStack).2⟩
  exact (nodup_append.mp distinct).2.2 v inPart v inBelow rfl

/-- The end of a call: the vertex is not active any more. -/
def State.leave (st : State V) (a : V) : State V := st.setInfo a fun info => { info with index := intMax }

theorem leave_info : (st.leave a).vinfoMap v = if v = a then (st.vinfoMap v).map fun info => { info with index := intMax }
    else st.vinfoMap v := by
  by_cases same : v = a
  · subst same
    simp [State.leave, State.setInfo]
  · simp [State.leave, State.setInfo, same]

theorem leave_ne_none : (st.leave a).vinfoMap v ≠ none ↔ st.vinfoMap v ≠ none := by
  rw [leave_info]
  split <;> simp

theorem leave_cpt : (st.leave a).cpt = st.cpt := by
  funext v
  rw [State.cpt, State.cpt, leave_info]
  split
  · cases st.vinfoMap v <;> rfl
  · rfl

theorem leave_left (inv : ∀ v info, st.vinfoMap v = some info → v ∉ a :: outer → info.index = intMax)
    (known : (st.leave a).vinfoMap v = some info) (notActive : v ∉ outer) : info.index = intMax := by
  rw [leave_info] at known
  split at known
  · obtain ⟨_, _, rfl⟩ := map_eq_some_iff.mp known
    rfl
  · next other => exact inv v info known (not_mem_cons_of_ne_of_not_mem other notActive)

theorem Loop.finish_open (loop : Loop adjacent vertices st0 s0 outer a (adjacent a) st s m blocks part subs)
    (before : Inv adjacent vertices outer st0 s0 blocks0) (notRoot : st.index a ≠ m) :
    Visited adjacent vertices outer st0 s0 a (st.leave a) s m blocks := by
  obtain ⟨known, low, connected, ⟨x, xActive, least, reach⟩, below⟩ := loop.segment
  have isOuter : x ∈ outer := by
    refine (mem_cons.mp xActive).resolve_left fun same => notRoot ?_
    rw [least, same]
  have kept {u v} (reach : s0.Reach u v) : s.Reach u v := reach.mono loop.grows.kept
  have same {v} (seen : v ∈ s0.seen) : (st.leave a).vinfoMap v = st0.vinfoMap v := by
    have other : v ≠ a := fun same => loop.old before seen (by simp [same])
    rw [leave_info, if_neg other]
    exact loop.grows.info v seen
  have grows : Grows st0 (st.leave a) s0 s := ⟨fun v seen => same seen, loop.grows.seen, loop.grows.kept, loop.grows.sources⟩
  have index {v} (isActive : v ∈ outer) : (st.leave a).index v = st0.index v := grows.index (before.active_seen isActive)
  have index' {v} (isActive : v ∈ outer) : (st.leave a).index v = st.index v :=
    (index isActive).trans (loop.grows.index (before.active_seen isActive)).symm
  have fromPart {u} (inPart : u ∈ part ++ [a]) : s.Reach a u ∧ s.Reach u a := by
    rcases mem_append.mp inPart with inPart | single
    · refine ⟨below u inPart, loop.inv.reach a rfl u ?_⟩
      rw [loop.stack]
      exact mem_append_left _ inPart
    · cases mem_singleton.mp single
      exact ⟨.refl, .refl⟩
  have scanned {u y} (inPart : u ∈ part ++ [a]) (arc : y ∈ adjacent u) : Scanned adjacent a (adjacent a) part u y := by
    rcases mem_append.mp inPart with inPart | single
    · exact .inr ⟨inPart, arc⟩
    · cases mem_singleton.mp single
      exact .inl ⟨rfl, arc⟩
  refine ⟨⟨fun v => (loop.inv.seen v).trans leave_ne_none.symm, loop.inv.nodup, loop.inv.inside, loop.inv.pool, loop.inv.kept,
    fun v isActive => ?_, (pairwise_cons.mp loop.inv.order).2.imp_of_mem fun isActive isActive' less => ?_,
    fun v info isInfo notActive => leave_left loop.inv.left isInfo notActive, fun v => ?_, loop.inv.distinct,
    fun nil => ?_, fun b head v inStack => ?_, loop.inv.components, loop.inv.calls, ?_⟩, grows, ?_,
    .inr ⟨part ++ [a], subs, ?_, loop.cptStack, by simp, ⟨fun u y pair => ?_, fun u inPart y isKept => ?_,
      fun c inSubs => ?_, ⟨x, isOuter, least.trans (index' isOuter).symm, reach⟩, fun u inPart => (fromPart inPart).1⟩⟩⟩
  · have visiting := loop.inv.visiting v (mem_cons_of_mem a isActive)
    rw [← index' isActive] at visiting
    rw [same (before.active_seen isActive), ← loop.grows.info v (before.active_seen isActive)]
    exact visiting
  · rwa [index' isActive, index' isActive']
  · rw [leave_cpt]
    exact loop.inv.stack v
  · rw [nil] at isOuter
    cases isOuter
  · rcases mem_append.mp (show v ∈ part ++ [a] ++ st0.vertexStack by rw [← append_cons, ← loop.stack]; exact inStack)
      with inPart | inBelow
    · have toX := (fromPart inPart).2.trans reach
      exact toX.trans (kept (before.reach b head x (before.active_stack isOuter)))
    · exact kept (before.reach b head v inBelow)
  · rw [leave_cpt]
    exact loop.inv.closed
  · exact loop.inv.active_seen mem_cons_self
  · rw [← append_cons]
    exact loop.stack
  · rw [leave_cpt]
    exact known u y (scanned pair.1 pair.2)
  · have source : u ∈ a :: part := by
      rw [mem_append, mem_singleton] at inPart
      exact mem_cons.mpr inPart.symm
    rw [leave_cpt]
    refine (low u source y isKept).imp_right fun rest => ?_
    rcases rest with inPart | ⟨isActive, less⟩
    · exact .inl (mem_append_left _ inPart)
    · rcases mem_cons.mp isActive with rfl | isActive
      · exact .inl (by simp)
      · exact .inr ⟨isActive, by rwa [index' isActive]⟩
  · obtain ⟨u, y, pair, sub⟩ := connected c inSubs
    rw [leave_cpt]
    rcases pair with ⟨rfl, arc⟩ | ⟨inPart, arc⟩
    · exact ⟨u, y, ⟨by simp, arc⟩, sub⟩
    · exact ⟨u, y, ⟨mem_append_left _ inPart, arc⟩, sub⟩

theorem Loop.finish_root (loop : Loop adjacent vertices st0 s0 outer a (adjacent a) st s m blocks part subs)
    (before : Inv adjacent vertices outer st0 s0 blocks0) (isRoot : st.index a = m) :
    Visited adjacent vertices outer st0 s0 a ((left st a part st0.vertexStack subs st0.cptStack).leave a) s m
      (blocks ++ [⟨part ++ [a], subs⟩]) := by
  obtain ⟨known, low, connected, _, below⟩ := loop.segment
  have kept {u v} (reach : s0.Reach u v) : s.Reach u v := reach.mono loop.grows.kept
  have distinct : ((part ++ [a]) ++ st0.vertexStack).Nodup := by
    rw [← append_cons, ← loop.stack]
    exact loop.inv.distinct
  have inStack {v} (inPart : v ∈ part ++ [a]) : v ∈ st.vertexStack := by
    rw [loop.stack, append_cons]
    exact mem_append_left _ inPart
  -- What is known of a vertex afterwards.
  obtain ⟨st1, isLeft⟩ : ∃ st1, st1 = left st a part st0.vertexStack subs st0.cptStack := ⟨_, rfl⟩
  have info (v) : st1.vinfoMap v =
      if v ∈ part ++ [a] then (st.vinfoMap v).map fun info => { info with cpt := some blocks.length }
      else st.vinfoMap v := by
    rw [isLeft, left, loop.inv.components]
  have here (v) (inPart : v ∈ part ++ [a]) : st1.cpt v = some blocks.length := by
    obtain ⟨i, isInfo⟩ := ne_none_iff_exists'.mp ((loop.inv.seen v).mp ((loop.inv.stack v).mp (inStack inPart)).1)
    rw [State.cpt, info, if_pos inPart, isInfo]
    rfl
  have there (v) (other : v ∉ part ++ [a]) : st1.cpt v = st.cpt v := by
    rw [State.cpt, info, if_neg other]
    rfl
  have some_iff (v) : st1.vinfoMap v ≠ none ↔ st.vinfoMap v ≠ none := by
    rw [info]
    split <;> simp
  have same {v} (seen : v ∈ s0.seen) : (st1.leave a).vinfoMap v = st0.vinfoMap v := by
    have other := loop.old before seen
    have ne : v ≠ a := fun same => other (by simp [same])
    rw [leave_info, if_neg ne, info, if_neg other]
    exact loop.grows.info v seen
  have grows : Grows st0 (st1.leave a) s0 s := ⟨fun v seen => same seen, loop.grows.seen, loop.grows.kept, loop.grows.sources⟩
  have index {v} (isActive : v ∈ outer) : (st1.leave a).index v = st0.index v := grows.index (before.active_seen isActive)
  have index' {v} (isActive : v ∈ outer) : (st1.leave a).index v = st.index v :=
    (index isActive).trans (loop.grows.index (before.active_seen isActive)).symm
  have fromPart {u} (inPart : u ∈ part ++ [a]) : s.Reach a u := by
    rcases mem_append.mp inPart with inPart | single
    · exact below u inPart
    · cases mem_singleton.mp single
      exact .refl
  have toPart {u} (inStack : u ∈ st.vertexStack) : s.Reach u a := loop.inv.reach a rfl u inStack
  have source {u} (inPart : u ∈ part ++ [a]) : u ∈ a :: part := by
    rw [mem_append, mem_singleton] at inPart
    exact mem_cons.mpr inPart.symm
  have closed : Closed adjacent st1.cpt s (blocks ++ [⟨part ++ [a], subs⟩]) := by
    refine loop.inv.closed.close (nodup_append.mp distinct).1 (by simp)
      (fun v inPart => ((loop.inv.stack v).mp (inStack inPart)).2) here there
      (fun u inPart v inPart' => (toPart (inStack inPart)).trans (fromPart inPart')) (fun u inPart y isKept => ?_)
      (fun u inPart y arc => ?_) fun c inSubs => ?_
    · rcases low u (source inPart) y isKept with isClosed | inPart | ⟨isActive, less⟩
      · exact .inr isClosed
      · exact .inl (mem_append_left _ inPart)
      · -- The root has the least number of the active vertices that can be reached.
        rcases mem_cons.mp isActive with rfl | isActive
        · exact .inl (by simp)
        · have lower := (pairwise_cons.mp loop.inv.order).1 y isActive
          omega
    · have scanned : Scanned adjacent a (adjacent a) part u y := by
        rcases mem_append.mp inPart with inPart | single
        · exact .inr ⟨inPart, arc⟩
        · cases mem_singleton.mp single
          exact .inl ⟨rfl, arc⟩
      exact (known u y scanned).imp_right fun inStack => (toPart inStack).trans (fromPart inPart)
    · obtain ⟨u, y, scanned, sub⟩ := connected c inSubs
      rcases scanned with ⟨rfl, arc⟩ | ⟨inPart, arc⟩
      · exact ⟨u, by simp, y, arc, sub⟩
      · exact ⟨u, mem_append_left _ inPart, y, arc, sub⟩
  have vertexStack : (st1.leave a).vertexStack = st0.vertexStack := by
    rw [isLeft]
    rfl
  rw [← isLeft]
  refine ⟨⟨fun v => (loop.inv.seen v).trans ((some_iff v).symm.trans leave_ne_none.symm), loop.inv.nodup, loop.inv.inside, ?_,
    loop.inv.kept, fun v isActive => ?_,
    (pairwise_cons.mp loop.inv.order).2.imp_of_mem fun isActive isActive' less => ?_,
    fun v i isInfo notActive => leave_left (fun v i isInfo notActive => ?_) isInfo notActive, fun v => ?_, ?_,
    fun nil => vertexStack.trans (before.top nil), fun b head v inBelow => ?_, ?_, ?_, ?_⟩, grows,
    loop.inv.active_seen mem_cons_self, .inl ⟨vertexStack, ⟨blocks.length, ?_, ?_⟩, fun x isActive => ?_⟩⟩
  · rw [isLeft]
    exact loop.inv.pool
  · have visiting := loop.inv.visiting v (mem_cons_of_mem a isActive)
    rw [← index' isActive] at visiting
    rw [same (before.active_seen isActive), ← loop.grows.info v (before.active_seen isActive), isLeft]
    rw [isLeft] at visiting
    exact visiting
  · rwa [index' isActive, index' isActive']
  · rw [info] at isInfo
    split at isInfo
    · obtain ⟨old, isOld, rfl⟩ := map_eq_some_iff.mp isInfo
      exact loop.inv.left v old isOld notActive
    · exact loop.inv.left v i isInfo notActive
  · rw [vertexStack, leave_cpt]
    have disjoint := (nodup_append.mp distinct).2.2
    constructor
    · intro inBelow
      have other : v ∉ part ++ [a] := fun inPart => disjoint v inPart v inBelow rfl
      rw [there v other, ← loop.inv.stack, loop.stack, append_cons]
      exact mem_append_right _ inBelow
    rintro ⟨seen, isOpen⟩
    have other : v ∉ part ++ [a] := by
      intro inPart
      rw [here v inPart] at isOpen
      cases isOpen
    rw [there v other] at isOpen
    have inStack := (loop.inv.stack v).mpr ⟨seen, isOpen⟩
    rw [loop.stack, append_cons] at inStack
    exact (mem_append.mp inStack).resolve_left other
  · rw [vertexStack]
    exact before.distinct
  · rw [vertexStack] at inBelow
    exact kept (before.reach b head v inBelow)
  · rw [isLeft, length_append]
    exact congrArg (· + 1) loop.inv.components
  · rw [isLeft, callsOf_append, ← loop.inv.components, ← loop.inv.calls]
    rfl
  · rw [leave_cpt]
    exact closed
  · rw [isLeft, ← loop.inv.components]
    rfl
  · rw [leave_cpt]
    exact here a (by simp)
  · rw [index' isActive, ← isRoot]
    exact le_of_lt ((pairwise_cons.mp loop.inv.order).1 x isActive)

/-- With this depth, calls for new vertices return and keep the invariant. -/
def Visits (adjacent : V → List V) (vertices : List V) (fuel : Nat) : Prop :=
  ∀ active st s blocks w, Inv adjacent vertices active st s blocks → w ∈ vertices → w ∉ s.seen →
    (∀ a, active.head? = some a → s.Kept a w) → vertices.length + 1 ≤ fuel + s.seen.length →
    ∃ st' m blocks', detectSCC adjacent fuel st w = some (st', m) ∧
      Visited adjacent vertices active st s w st' (s.visit adjacent fuel active w) m blocks'

/-- The loop over the arcs. The induction is on the arcs that are left. -/
theorem forArcs_spec (visits : Visits adjacent vertices fuel) (few : vertices.length ≤ intMax)
    (inside : ∀ w ∈ adjacent a, w ∈ vertices) (before : Inv adjacent vertices outer st0 s0 blocks0) (heads : List V)
    (split : done ++ heads = adjacent a)
    (loop : Loop adjacent vertices st0 s0 outer a done st s m blocks part subs)
    (enough : vertices.length + 1 ≤ fuel + s.seen.length) :
    ∃ st' m' blocks' part' subs', forArcs (detectSCC adjacent fuel) heads st m = some (st', m') ∧
      Loop adjacent vertices st0 s0 outer a (adjacent a) st'
        (heads.foldl (Search.arc (fun b s => s.visit adjacent fuel (a :: outer) b) outer a) s) m' blocks' part' subs' := by
  induction heads generalizing done st s m blocks part subs with
  | nil =>
    rw [append_nil] at split
    rw [split] at loop
    exact ⟨st, m, blocks, part, subs, rfl, loop⟩
  | cons w heads ih =>
    have arc : w ∈ adjacent a := by
      rw [← split]
      simp
    have new := loop.new before
    have split' : done ++ [w] ++ heads = adjacent a := by rw [← append_cons, split]
    by_cases seen : w ∈ s.seen
    · have pos : fuel ≠ 0 := by
        have total := loop.inv.length_le
        omega
      obtain ⟨k, rfl⟩ := Nat.exists_eq_succ_of_ne_zero pos
      obtain ⟨st', i, subs', result, next⟩ := loop.toSeen new few arc seen
        (fun b s => s.visit adjacent (k + 1) (a :: outer) b) k
      have sameSeen : (Search.arc (fun b s => s.visit adjacent (k + 1) (a :: outer) b) outer a s w).seen = s.seen := by
        rw [Search.arc, if_pos seen]
        split <;> rfl
      obtain ⟨st'', m', blocks', part', subs'', rest, final⟩ := ih split' next (by rwa [sameSeen])
      refine ⟨st'', m', blocks', part', subs'', ?_, final⟩
      rw [forArcs, result, bind_eq_bind, bind_some]
      exact rest
    · have inv := loop.inv.keep arc
      obtain ⟨st', c, blocks', result, visited⟩ := visits (a :: outer) st (s.keep a w) blocks w inv (inside w arc) seen
        (fun b head => by cases head; exact .head _) enough
      obtain ⟨part', subs', next⟩ := loop.toNew new visited
      have longer := visited.grows.length inv.nodup
      rw [Search.seen_keep] at longer
      obtain ⟨st'', m', blocks'', part'', subs'', rest, final⟩ := ih split' next (by omega)
      refine ⟨st'', m', blocks'', part'', subs'', ?_, ?_⟩
      · rw [forArcs, result, bind_eq_bind, bind_some]
        exact rest
      · rw [foldl_cons, Search.arc, if_neg seen]
        exact final

theorem visits (inside : ∀ v ∈ vertices, ∀ w ∈ adjacent v, w ∈ vertices) (few : vertices.length ≤ intMax) (fuel : Nat) :
    Visits adjacent vertices fuel := by
  induction fuel with
  | zero =>
    intro active st s blocks w inv isVertex new _ enough
    have total := inv.length_le
    omega
  | succ fuel ih =>
    intro active st s blocks w inv isVertex new linked enough
    have isNew : st.vinfoMap w = none := by simpa using mt (inv.seen w).mpr new
    have room : st.indexPool < intMax := by
      rw [inv.pool]
      exact lt_of_lt_of_le (inv.length_lt isVertex new) few
    obtain ⟨st', m, blocks', part, subs, result, loop⟩ := forArcs_spec ih few (inside w isVertex) inv (adjacent w) rfl
      (loop_start inv isVertex new linked) (by rw [Search.seen_see, length_cons]; omega)
    have info := (loop.inv.visiting w mem_cons_self).1
    have test : (st'.vinfoMap w).map Vinfo.index = some m ↔ st'.index w = m := by
      rw [info]
      simp
    by_cases isRoot : st'.index w = m
    · have other : w ∉ part := by
        have distinct := loop.inv.distinct
        rw [loop.stack] at distinct
        exact fun inPart => (nodup_append.mp distinct).2.2 w inPart w mem_cons_self rfl
      refine ⟨_, m, _, ?_, loop.finish_root inv isRoot⟩
      simp only [detectSCC, isNew, bind_eq_bind, if_pos room, bind_some, result, test, if_pos isRoot,
        processComponent_eq loop.stack other loop.cptStack]
      rfl
    · refine ⟨_, m, _, ?_, loop.finish_open inv isRoot⟩
      simp only [detectSCC, isNew, bind_eq_bind, if_pos room, bind_some, result, test, if_neg isRoot]
      rfl

omit [DecidableEq V] in
theorem Inv.start (adjacent : V → List V) (vertices : List V) : Inv adjacent vertices [] State.start Search.start [] := by
  refine ⟨fun v => ?_, nodup_nil, nil_subset _, rfl, ?_, ?_, .nil, ?_, ?_, nodup_nil, fun _ => rfl, ?_, rfl, rfl,
    ?_, ?_, ?_, ?_, ?_, ?_⟩
  · simp [Search.start, State.start]
  all_goals simp [Search.Kept, Search.start, State.start, State.cpt]

/-- The loop over the vertices of the graph, none of which is active. -/
theorem walk_spec (inside : ∀ v ∈ vertices, ∀ w ∈ adjacent v, w ∈ vertices) (few : vertices.length ≤ intMax) (list : List V)
    (within : list ⊆ vertices) (inv : Inv adjacent vertices [] st s blocks) :
    ∃ st' s' blocks', list.foldlM (fun st v => (detectSCC adjacent (vertices.length + 1) st v).map Prod.fst) st = some st' ∧
      list.foldl (fun s a => if a ∈ s.seen then s else s.visit adjacent (vertices.length + 1) [] a) s = s' ∧
      Inv adjacent vertices [] st' s' blocks' ∧ s.seen ⊆ s'.seen ∧ list ⊆ s'.seen := by
  induction list generalizing st s blocks with
  | nil => exact ⟨st, s, blocks, rfl, rfl, inv, Subset.refl _, nil_subset _⟩
  | cons v list ih =>
    obtain ⟨isVertex, within⟩ := cons_subset.mp within
    rw [foldlM_cons, foldl_cons]
    by_cases seen : v ∈ s.seen
    · obtain ⟨info, isInfo⟩ := ne_none_iff_exists'.mp ((inv.seen v).mp seen)
      obtain ⟨st1, result, inv1⟩ : ∃ st1, (detectSCC adjacent (vertices.length + 1) st v).map Prod.fst = some st1 ∧
          Inv adjacent vertices [] st1 s blocks := by
        cases isClosed : info.cpt with
        | none => exact ⟨st, by simp only [detectSCC, isInfo, isClosed, map_some], inv⟩
        | some c => exact ⟨_, by simp only [detectSCC, isInfo, isClosed, map_some]; rfl, inv.push _⟩
      obtain ⟨st', s', blocks', rest, search, inv', more, all⟩ := ih within inv1
      refine ⟨st', s', blocks', ?_, ?_, inv', more, cons_subset.mpr ⟨more seen, all⟩⟩
      · rw [result, bind_eq_bind, bind_some]
        exact rest
      · rw [if_pos seen]
        exact search
    · obtain ⟨st1, m, blocks1, result, visited⟩ := visits inside few (vertices.length + 1) [] st s blocks v inv isVertex seen
        (fun a head => by cases head) (Nat.le_add_right ..)
      obtain ⟨st', s', blocks', rest, search, inv', more, all⟩ := ih within visited.inv
      refine ⟨st', s', blocks', ?_, ?_, inv', Subset.trans visited.grows.seen more,
        cons_subset.mpr ⟨more visited.seen, all⟩⟩
      · rw [result, map_some, bind_eq_bind, bind_some]
        exact rest
      · rw [if_neg seen]
        exact search

end Culibs.Cugra.AlgoSCC
