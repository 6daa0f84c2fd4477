import Culibs.Cugra.AlgoSCC.Walk

/-! When `cugra_walk_SCC` walks through the strongly connected components. -/

namespace Culibs.Cugra

open ArcSearch Relation List Option

variable {V : Type}

namespace AlgoSCC

/-- The component that is entered, passed through or left. -/
def Call.component : Call V → Option Nat
  | .enterComponent cpt => some cpt
  | .passVertex cpt _ => some cpt
  | .leaveComponent cpt => some cpt
  | .connectComponents .. => none

variable {blocks : List (Block V)} {block : Block V} {call : Call V} {c : Nat}

theorem mem_callsOf : call ∈ callsOf blocks ↔ ∃ (c : Nat) (block : Block V), blocks[c]? = some block ∧
    call ∈ block.calls c := by
  rw [callsOf, mem_flatMap]
  constructor
  · rintro ⟨⟨block, c⟩, mem, isCall⟩
    exact ⟨c, block, mk_mem_zipIdx_iff_getElem?.mp mem, isCall⟩
  · rintro ⟨c, block, isBlock, isCall⟩
    exact ⟨⟨block, c⟩, mk_mem_zipIdx_iff_getElem?.mpr isBlock, isCall⟩

theorem component_of_mem (isCall : call ∈ block.calls c) (isComponent : call.component = some d) : d = c := by
  simp only [Block.calls, mem_append, List.mem_cons, List.mem_map] at isCall
  rcases isCall with (rfl | ⟨v, _, rfl⟩) | rfl | ⟨e, _, rfl⟩
  all_goals cases isComponent
  all_goals rfl

/-- The calls for one component are those between the calls for the earlier and the later ones. -/
theorem callsOf_split (isBlock : blocks[c]? = some block) : ∃ after,
    callsOf blocks = callsOf (blocks.take c) ++ block.calls c ++ after ∧
      ∀ call ∈ callsOf (blocks.take c) ++ after, call.component ≠ some c := by
  obtain ⟨low, rfl⟩ := List.getElem?_eq_some_iff.mp isBlock
  refine ⟨((blocks.drop (c + 1)).zipIdx (c + 1)).flatMap fun placed => placed.1.calls placed.2, ?_, fun call isCall same => ?_⟩
  · have parts : blocks = blocks.take c ++ blocks[c] :: blocks.drop (c + 1) := by
      rw [← drop_eq_getElem_cons low, take_append_drop]
    have length : (blocks.take c).length = c := by
      rw [length_take]
      omega
    conv_lhs => rw [parts]
    rw [callsOf, zipIdx_append, flatMap_append, zero_add, length, zipIdx_cons, flatMap_cons, append_assoc]
    rfl
  · rcases mem_append.mp isCall with earlier | later
    · obtain ⟨d, other, isOther, isCall⟩ := mem_callsOf.mp earlier
      have same := component_of_mem isCall same
      obtain ⟨below, _⟩ := List.getElem?_eq_some_iff.mp isOther
      rw [length_take] at below
      omega
    · obtain ⟨⟨other, d⟩, mem, isCall⟩ := mem_flatMap.mp later
      have same := component_of_mem isCall same
      have above := le_snd_of_mem_zipIdx mem
      omega

section

variable [DecidableEq V] {adjacent : V → List V} {vertices : List V} {st st' st1 : State V} {v tail : V}
  {fuel m mark : Nat}

/-- There are at least as many numbers as vertices that have been seen. -/
def Counted (vertices : List V) (st : State V) : Prop :=
  (vertices.filter fun v => (st.vinfoMap v).isSome).length ≤ st.indexPool ∧ st.indexPool ≤ intMax

/-- A step of a walk forgets no vertex. -/
structure Keeps (vertices : List V) (st st' : State V) : Prop where
  more : ∀ v, (st.vinfoMap v).isSome → (st'.vinfoMap v).isSome
  counted : Counted vertices st → Counted vertices st'

omit [DecidableEq V] in
theorem Keeps.trans (first : Keeps vertices st st1) (second : Keeps vertices st1 st') : Keeps vertices st st' :=
  ⟨fun v seen => second.more v (first.more v seen), fun counted => second.counted (first.counted counted)⟩

omit [DecidableEq V] in
theorem Keeps.same (seen : ∀ v, (st'.vinfoMap v).isSome = (st.vinfoMap v).isSome) (pool : st'.indexPool = st.indexPool) :
    Keeps vertices st st' := by
  refine ⟨fun v isSeen => (seen v).trans isSeen, fun counted => ?_⟩
  rw [Counted, pool]
  simp only [seen]
  exact counted

theorem keeps_setInfo (st : State V) (v : V) (f : Vinfo → Vinfo) : Keeps vertices st (st.setInfo v f) := by
  refine .same (fun u => ?_) rfl
  by_cases same : u = v
  · subst same
    simp [State.setInfo]
  · simp [State.setInfo, same]

theorem keeps_passVertices (list : List V) (passed : st.passVertices c tail list = some st') : Keeps vertices st st' := by
  induction list generalizing st with
  | nil => cases passed
  | cons v next ih =>
    have popped : Keeps vertices st ({ st with vertexStack := next }.call (.passVertex c v)) := .same (fun _ => rfl) rfl
    have first := popped.trans (keeps_setInfo _ v fun info => { info with cpt := some c })
    rw [State.passVertices] at passed
    split at passed
    · cases passed
      exact first
    · exact first.trans (ih passed)

omit [DecidableEq V] in
theorem keeps_connectComponents (list : List Nat) (connected : st.connectComponents c mark list = some st') :
    Keeps vertices st st' := by
  induction list generalizing st with
  | nil =>
    rw [State.connectComponents] at connected
    split at connected
    · cases connected
      exact .same (fun _ => rfl) rfl
    · cases connected
  | cons d list ih =>
    rw [State.connectComponents] at connected
    split at connected
    · cases connected
      exact .same (fun _ => rfl) rfl
    · have called : Keeps vertices st (st.call (.connectComponents c d)) := .same (fun _ => rfl) rfl
      exact called.trans (ih connected)

private theorem keeps_processComponent (processed : st.processComponent tail mark = some st') : Keeps vertices st st' := by
  simp only [State.processComponent, bind_eq_bind, bind_eq_some_iff] at processed
  obtain ⟨st1, passed, st2, connected, result⟩ := processed
  cases result
  have entered : Keeps vertices st { st.call (.enterComponent st.components) with components := st.components + 1 } :=
    .same (fun _ => rfl) rfl
  have isLeft : Keeps vertices st1 (st1.call (.leaveComponent st.components)) := .same (fun _ => rfl) rfl
  have pushed : Keeps vertices st2 { st2 with cptStack := st.components :: st2.cptStack } := .same (fun _ => rfl) rfl
  have passes := entered.trans (keeps_passVertices _ passed)
  have connects := isLeft.trans (keeps_connectComponents _ connected)
  exact (passes.trans connects).trans pushed

private theorem keeps_create (nodup : vertices.Nodup) (room : st.indexPool < intMax) : Keeps vertices st (st.create tail) := by
  have info (v) : ((st.create tail).vinfoMap v).isSome ↔ v = tail ∨ (st.vinfoMap v).isSome := by
    by_cases same : v = tail
    · subst same
      simp [State.create]
    · simp [State.create, same]
  refine ⟨fun v seen => (info v).mpr (.inr seen), fun counts => ⟨?_, room⟩⟩
  have subset : (vertices.filter fun v => ((st.create tail).vinfoMap v).isSome) ⊆
      tail :: vertices.filter fun v => (st.vinfoMap v).isSome := by
    intro v mem
    obtain ⟨isVertex, seen⟩ := mem_filter.mp mem
    exact mem_cons.mpr (((info v).mp seen).imp_right fun seen => mem_filter.mpr ⟨isVertex, seen⟩)
  have less := (nodup.filter _).length_le_of_subset subset
  exact le_trans less (Nat.succ_le_succ counts.1)

omit [DecidableEq V] in
private theorem keeps_forArcs
    (each : ∀ st v st' i, detect st v = some (st', i) → Keeps vertices st st') (heads : List V)
    (done : forArcs detect heads st i = some (st', m)) : Keeps vertices st st' := by
  induction heads generalizing st i with
  | nil =>
    cases done
    exact .same (fun _ => rfl) rfl
  | cons head heads ih =>
    simp only [forArcs, bind_eq_bind, bind_eq_some_iff] at done
    obtain ⟨⟨st1, j⟩, first, rest⟩ := done
    exact (each st head st1 j first).trans (ih rest)

private theorem keeps_detectSCC (nodup : vertices.Nodup) (fuel : Nat) (st : State V) (tail : V) (st' : State V) (m : Nat)
    (done : detectSCC adjacent fuel st tail = some (st', m)) :
    Keeps vertices st st' ∧ (st'.vinfoMap tail).isSome := by
  induction fuel generalizing st tail st' m with
  | zero => cases done
  | succ fuel ih =>
    cases isInfo : st.vinfoMap tail with
    | none =>
      simp only [detectSCC, isInfo, bind_eq_bind, bind_eq_some_iff] at done
      obtain ⟨index, numbered, ⟨st1, i⟩, looped, st2, processed, result⟩ := done
      cases result
      have room : st.indexPool < intMax := by
        by_contra full
        rw [if_neg full] at numbered
        cases numbered
      have created : Keeps vertices st (st.create tail) := keeps_create nodup room
      have loop := keeps_forArcs (fun st v st' i done => (ih st v st' i done).1) _ looped
      have process : Keeps vertices st1 st2 := by
        split at processed
        · exact keeps_processComponent processed
        · cases processed
          exact .same (fun _ => rfl) rfl
      have rest := (loop.trans process).trans (keeps_setInfo st2 tail fun info => { info with index := intMax })
      refine ⟨created.trans rest, rest.more tail ?_⟩
      simp [State.create]
    | some info =>
      cases isClosed : info.cpt with
      | none =>
        simp only [detectSCC, isInfo, isClosed] at done
        cases done
        exact ⟨.same (fun _ => rfl) rfl, by rw [isInfo]; rfl⟩
      | some c =>
        simp only [detectSCC, isInfo, isClosed] at done
        cases done
        exact ⟨.same (fun _ => rfl) rfl, by simp only [isInfo]; rfl⟩

private theorem keeps_walk (nodup : vertices.Nodup) (list : List V)
    (done : list.foldlM (fun st v => (detectSCC adjacent fuel st v).map Prod.fst) st = some st') :
    Keeps vertices st st' ∧ ∀ v ∈ list, (st'.vinfoMap v).isSome := by
  induction list generalizing st with
  | nil =>
    cases done
    exact ⟨.same (fun _ => rfl) rfl, fun v mem => by cases mem⟩
  | cons v list ih =>
    rw [foldlM_cons, bind_eq_bind, bind_eq_some_iff] at done
    obtain ⟨st1, first, rest⟩ := done
    obtain ⟨⟨_, m⟩, result, rfl⟩ := map_eq_some_iff.mp first
    obtain ⟨keeps, seen⟩ := keeps_detectSCC nodup fuel st v _ m result
    obtain ⟨keeps', all⟩ := ih rest
    exact ⟨keeps.trans keeps', forall_mem_cons.mpr ⟨keeps'.more v seen, all⟩⟩

end

end AlgoSCC

open AlgoSCC

namespace Graph

/-- There is an arc between two vertices. -/
def Leads (g : Graph V) (dir : Direction) (v w : V) : Prop := w ∈ g.adjacent dir v

variable {g : Graph V} {dir : Direction} {u v : V}

theorem reach_inside (reach : ReflTransGen (g.Leads dir) u v) (isVertex : u ∈ g.vertices) : v ∈ g.vertices := by
  induction reach with
  | refl => exact isVertex
  | tail _ arc ih => exact g.closed dir _ ih _ arc

/-- The components are entered in an order against the arcs, each is passed through between entering and leaving it, and
two components are connected if an arc leads from the one to the other. -/
structure Walks (g : Graph V) (dir : Direction) (calls : List (Call V)) (components : List (List V)) : Prop where
  vertices : ∀ v, v ∈ g.vertices ↔ ∃ members ∈ components, v ∈ members
  strong : ∀ members ∈ components, ∀ u ∈ members, ∀ v, v ∈ members ↔ Strong (g.Leads dir) u v
  nodup : ∀ members ∈ components, members.Nodup ∧ members ≠ []
  disjoint : components.Pairwise Disjoint
  once : ∀ c members, components[c]? = some members → ∃ before after,
    calls = before ++ .enterComponent c :: members.map (.passVertex c) ++ .leaveComponent c :: after ∧
      (∀ call ∈ before ++ after, call.component ≠ some c) ∧
      ∀ c' members', components[c']? = some members' → c' ≠ c →
        (∃ u ∈ members, ∃ v ∈ members', ReflTransGen (g.Leads dir) u v) → .enterComponent c' ∈ before
  others : ∀ call ∈ calls, ∀ c, call.component = some c → c < components.length
  connected : ∀ c c', .connectComponents c c' ∈ calls ↔ c ≠ c' ∧ ∃ members members', components[c]? = some members ∧
    components[c']? = some members' ∧ ∃ u ∈ members, ∃ v ∈ members', g.Leads dir u v

variable [DecidableEq V]
variable {s : Search V} {blocks : List (Block V)}

omit [DecidableEq V] in
/-- Vertices that are strongly connected are in the same component if they are so by the arcs that are kept. -/
theorem same_component
    (closed : Closed (g.adjacent dir) cpt s blocks) (strong : Strong s.Kept u v) (uc : cpt u = some c) (vc : cpt v = some d) :
    c = d := by
  have down {x y : V} {e : Nat} (reach : s.Reach x y) (xc : cpt x = some e) : ∃ e' ≤ e, cpt y = some e' := by
    induction reach with
    | refl => exact ⟨e, le_refl e, xc⟩
    | tail _ kept ih =>
      obtain ⟨e', less, yc⟩ := ih
      obtain ⟨e'', less', zc⟩ := closed.down e' _ _ yc kept
      exact ⟨e'', le_trans less' less, zc⟩
  obtain ⟨d', less, vc'⟩ := down strong.1 uc
  obtain ⟨c', less', uc'⟩ := down strong.2 vc
  cases vc.symm.trans vc'
  cases uc.symm.trans uc'
  exact le_antisymm less' less

omit [DecidableEq V] in
private theorem walks_of_kept
    (inv : Inv (g.adjacent dir) g.vertices [] st s blocks) (all : g.vertices ⊆ s.seen)
    (enough : ∀ u ∈ g.vertices, ∀ v, Strong (g.Leads dir) u v → Strong s.Kept u v) :
    g.Walks dir st.calls (blocks.map Block.members) := by
  have closed := inv.closed
  have vertex {v} : v ∈ g.vertices ↔ ∃ c, st.cpt v = some c := by
    constructor
    · intro isVertex
      refine ne_none_iff_exists'.mp fun isOpen => ?_
      have inStack := (inv.stack v).mpr ⟨all isVertex, isOpen⟩
      rw [inv.top rfl] at inStack
      cases inStack
    · rintro ⟨c, isClosed⟩
      exact inv.inside (inv.seen_of_cpt (by rw [isClosed]; exact some_ne_none c))
  have leads {u v} (reach : s.Reach u v) : ReflTransGen (g.Leads dir) u v :=
    ReflTransGen.mono (fun x y kept => (inv.kept x y kept).2) _ _ reach
  have members {c ms} (isMembers : (blocks.map Block.members)[c]? = some ms) :
      ms.Nodup ∧ ms ≠ [] ∧ ∀ v, v ∈ ms ↔ st.cpt v = some c := by
    rw [List.getElem?_map] at isMembers
    obtain ⟨block, isBlock, rfl⟩ := map_eq_some_iff.mp isMembers
    exact closed.members c block isBlock
  have component {v c} (isClosed : st.cpt v = some c) : ∃ block, blocks[c]? = some block :=
    ⟨_, List.getElem?_eq_getElem (closed.bound v c isClosed)⟩
  have listed {block : Block V} {c : Nat} (isBlock : blocks[c]? = some block) :
      (blocks.map Block.members)[c]? = some block.members := by
    rw [List.getElem?_map, isBlock, map_some]
  have same {u v c} (uc : st.cpt u = some c) (strong : Strong (g.Leads dir) u v) : st.cpt v = some c := by
    have isVertex := vertex.mpr ⟨c, uc⟩
    obtain ⟨d, vc⟩ := vertex.mp (reach_inside strong.1 isVertex)
    rw [same_component closed (enough u isVertex v strong) uc vc, vc]
  -- An arc leads to the same component or to an earlier one that has been connected.
  have arc {u w : V} {c : Nat} {block : Block V} (isBlock : blocks[c]? = some block) (uc : st.cpt u = some c)
      (leads' : g.Leads dir u w) :
      st.cpt w = some c ∨ ∃ c' ∈ block.subs, st.cpt w = some c' := by
    rcases closed.arcs c block u w isBlock uc leads' with sub | back
    · exact .inr sub
    · exact .inl (same uc (.of_arc leads' (leads back)))
  have down {u w c} (reach : ReflTransGen (g.Leads dir) u w) (uc : st.cpt u = some c) : ∃ c' ≤ c, st.cpt w = some c' := by
    induction reach with
    | refl => exact ⟨c, le_refl c, uc⟩
    | tail _ leads' ih =>
      obtain ⟨e, less, xc⟩ := ih
      obtain ⟨block, isBlock⟩ := component xc
      rcases arc isBlock xc leads' with wc | ⟨e', inSubs, wc⟩
      · exact ⟨e, less, wc⟩
      · exact ⟨e', le_of_lt (lt_of_lt_of_le (closed.subs e block e' isBlock inSubs).1 less), wc⟩
  rw [inv.calls]
  refine ⟨fun v => vertex.trans ⟨?_, ?_⟩, ?_, ?_, ?_, fun c ms isMembers => ?_, fun call isCall c isComponent => ?_,
    fun c c' => ⟨fun isCall => ?_, ?_⟩⟩
  · rintro ⟨c, isClosed⟩
    obtain ⟨block, isBlock⟩ := component isClosed
    exact ⟨block.members, mem_of_getElem? (listed isBlock), ((closed.members c block isBlock).2.2 v).mpr isClosed⟩
  · rintro ⟨ms, isMembers, isMember⟩
    obtain ⟨c, isMembers⟩ := mem_iff_getElem?.mp isMembers
    exact ⟨c, ((members isMembers).2.2 v).mp isMember⟩
  · intro ms isMembers u uMember v
    obtain ⟨c, isMembers⟩ := mem_iff_getElem?.mp isMembers
    obtain ⟨_, _, iff⟩ := members isMembers
    have uc := (iff u).mp uMember
    rw [iff v]
    exact ⟨fun vc => ⟨leads (closed.strong c u v uc vc), leads (closed.strong c v u vc uc)⟩, same uc⟩
  · intro ms isMembers
    obtain ⟨c, isMembers⟩ := mem_iff_getElem?.mp isMembers
    exact ⟨(members isMembers).1, (members isMembers).2.1⟩
  · rw [pairwise_iff_getElem]
    intro c d low low' less v inFirst inSecond
    have vc := ((members (List.getElem?_eq_getElem low)).2.2 v).mp inFirst
    have vd := ((members (List.getElem?_eq_getElem low')).2.2 v).mp inSecond
    cases vc.symm.trans vd
    exact lt_irrefl _ less
  · obtain ⟨block, isBlock, rfl⟩ := map_eq_some_iff.mp ((List.getElem?_map ..).symm.trans isMembers)
    obtain ⟨after, parts, others⟩ := callsOf_split isBlock
    refine ⟨callsOf (blocks.take c), block.subs.map (.connectComponents c) ++ after, ?_, fun call isCall => ?_, ?_⟩
    · rw [parts, Block.calls]
      simp only [List.append_assoc, List.cons_append]
    · rcases mem_append.mp isCall with before | rest
      · exact others call (mem_append_left _ before)
      · rcases mem_append.mp rest with connect | later
        · obtain ⟨d, _, rfl⟩ := List.mem_map.mp connect
          intro isComponent
          cases isComponent
        · exact others call (mem_append_right _ later)
    · rintro c' ms' isMembers' ne ⟨u, uMember, v, vMember, reach⟩
      obtain ⟨e, less, vc⟩ := down reach (((members isMembers).2.2 u).mp uMember)
      cases (((members isMembers').2.2 v).mp vMember).symm.trans vc
      obtain ⟨block', isBlock', _⟩ := map_eq_some_iff.mp ((List.getElem?_map ..).symm.trans isMembers')
      refine mem_callsOf.mpr ⟨c', block', ?_, by simp [Block.calls]⟩
      rw [List.getElem?_take, if_pos (by omega), isBlock']
  · obtain ⟨d, block, isBlock, isCall⟩ := mem_callsOf.mp isCall
    rw [component_of_mem isCall isComponent, length_map]
    exact (List.getElem?_eq_some_iff.mp isBlock).1
  · obtain ⟨d, block, isBlock, isCall⟩ := mem_callsOf.mp isCall
    obtain ⟨rfl, inSubs⟩ : c = d ∧ c' ∈ block.subs := by
      simp only [Block.calls, mem_append, List.mem_cons, List.mem_map] at isCall
      rcases isCall with (same | ⟨v, _, same⟩) | same | ⟨e, inSubs, same⟩
      · cases same
      · cases same
      · cases same
      · cases same
        exact ⟨rfl, inSubs⟩
    obtain ⟨less, u, w, uc, leads', wc⟩ := closed.subs c block c' isBlock inSubs
    obtain ⟨block', isBlock'⟩ := component wc
    exact ⟨(ne_of_lt less).symm, block.members, block'.members, listed isBlock, listed isBlock', u,
      ((closed.members c block isBlock).2.2 u).mpr uc, w, ((closed.members c' block' isBlock').2.2 w).mpr wc, leads'⟩
  · rintro ⟨ne, ms, ms', isMembers, isMembers', u, uMember, w, wMember, leads'⟩
    obtain ⟨block, isBlock, _⟩ := map_eq_some_iff.mp ((List.getElem?_map ..).symm.trans isMembers)
    have uc := ((members isMembers).2.2 u).mp uMember
    have wc := ((members isMembers').2.2 w).mp wMember
    rcases arc isBlock uc leads' with same | ⟨e, inSubs, wc'⟩
    · cases wc.symm.trans same
      exact absurd rfl ne
    · cases wc.symm.trans wc'
      exact mem_callsOf.mpr ⟨c, block, isBlock, by simp [Block.calls, inSubs]⟩

private theorem few_of_walkSCC (done : g.walkSCC dir = some calls) : g.vertices.length ≤ intMax := by
  simp only [walkSCC, bind_eq_bind, bind_eq_some_iff] at done
  obtain ⟨st, walked, _⟩ := done
  obtain ⟨keeps, all⟩ := keeps_walk g.nodup g.vertices walked
  have empty : Counted g.vertices (State.start : State V) := by simp [Counted, State.start]
  obtain ⟨counted, bound⟩ := keeps.counted empty
  rw [filter_eq_self.mpr all] at counted
  exact le_trans counted bound

/-- The walk is right if the vertices can be numbered and the arcs that a depth-first search follows, or finds leading to
a vertex that it has not left yet, connect each strong component. The other arcs inside of a component do not count in the
code, because a vertex loses its number when its visit ends and not when its component is left. -/
theorem walkSCC_iff (g : Graph V) (dir : Direction) :
    (∃ calls components, g.walkSCC dir = some calls ∧ g.Walks dir calls components) ↔
      g.vertices.length < 2 ^ 31 ∧ ∀ u ∈ g.vertices, ∀ v, Strong (g.Leads dir) u v →
        Strong (Search.all (g.adjacent dir) g.vertices).Kept u v := by
  have walk (few : g.vertices.length ≤ intMax) :=
    walk_spec (g.closed dir) few g.vertices (Subset.refl _) (.start (g.adjacent dir) g.vertices)
  constructor
  · rintro ⟨calls, components, done, walks⟩
    have few := few_of_walkSCC done
    obtain ⟨st, s, blocks, walked, search, inv, _, all⟩ := walk few
    have same : st.calls = calls := by
      rw [walkSCC, walked] at done
      exact some.inj done
    refine ⟨lt_of_le_of_lt few (by decide), fun u isVertex v strong => ?_⟩
    obtain ⟨members, isMembers, uMember⟩ := (walks.vertices u).mp isVertex
    have vMember := (walks.strong members isMembers u uMember v).mpr strong
    obtain ⟨c, isMembers⟩ := mem_iff_getElem?.mp isMembers
    obtain ⟨before, after, parts, _⟩ := walks.once c members isMembers
    have component {x} (member : x ∈ members) : st.cpt x = some c := by
      have isCall : Call.passVertex c x ∈ callsOf blocks := by
        rw [← inv.calls, same, parts]
        simp [member]
      obtain ⟨d, block, isBlock, isCall⟩ := mem_callsOf.mp isCall
      cases component_of_mem isCall rfl
      refine ((inv.closed.members c block isBlock).2.2 x).mp ?_
      simpa [Block.calls] using isCall
    have reach := inv.closed.strong c
    rw [show Search.all (g.adjacent dir) g.vertices = s from search]
    exact ⟨reach u v (component uMember) (component vMember), reach v u (component vMember) (component uMember)⟩
  · rintro ⟨few, enough⟩
    obtain ⟨st, s, blocks, walked, search, inv, _, all⟩ := walk (Nat.le_of_lt_succ few)
    refine ⟨st.calls, blocks.map Block.members, ?_, walks_of_kept inv all ?_⟩
    · rw [walkSCC, walked]
      rfl
    · rw [show s = Search.all (g.adjacent dir) g.vertices from search.symm]
      exact enough

/-- A triangle with an arc back, where the last vertex reaches the others only by the vertex that was left before. -/
def crossing : Graph (Fin 3) where
  vertices := [0, 1, 2]
  adjacent
    | .directionOut, 0 => [1, 2]
    | .directionOut, 1 => [0]
    | .directionOut, 2 => [1]
    | .directionIn, 0 => [1]
    | .directionIn, 1 => [0, 2]
    | .directionIn, 2 => [0]
  nodup := by decide
  closed := by
    intro dir
    cases dir <;> decide
  converse := by decide

theorem crossing_apart : ¬ ∃ calls components, crossing.walkSCC .directionOut = some calls ∧
    crossing.Walks .directionOut calls components := by
  rintro ⟨calls, components, done, walks⟩
  have result : crossing.walkSCC .directionOut = some [.enterComponent 0, .passVertex 0 2, .leaveComponent 0,
      .enterComponent 1, .passVertex 1 1, .passVertex 1 0, .leaveComponent 1, .connectComponents 1 0] := by decide
  cases done.symm.trans result
  obtain ⟨members, isMembers, first⟩ := (walks.vertices 0).mp (by decide)
  have there : ReflTransGen (crossing.Leads .directionOut) 0 2 := .single (by decide : (2 : Fin 3) ∈ [1, 2])
  have back : ReflTransGen (crossing.Leads .directionOut) 2 0 :=
    .head (by decide : (1 : Fin 3) ∈ [1]) (.single (by decide : (0 : Fin 3) ∈ [0]))
  have last := (walks.strong members isMembers 0 first 2).mpr ⟨there, back⟩
  obtain ⟨c, isMembers⟩ := mem_iff_getElem?.mp isMembers
  obtain ⟨before, after, parts, _⟩ := walks.once c members isMembers
  have pass {x} (member : x ∈ members) : Call.passVertex c x ∈
      [.enterComponent 0, .passVertex 0 2, .leaveComponent 0, .enterComponent 1, .passVertex 1 1, .passVertex 1 0,
        .leaveComponent 1, .connectComponents 1 0] := by
    rw [parts]
    simp [member]
  have one := pass first
  have zero := pass last
  simp at one zero
  omega

end Graph

end Culibs.Cugra
