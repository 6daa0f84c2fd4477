import Culibs.Cuex.Subst.Invariant

namespace Culibs.Cuex.Subst

open Function List Option

open Triangular (Free SolvesOn)

variable {α : Type} {world world' world'' : World α} {subst i j : Nat} {v w : Var} {U U' : Set Var} {t : Expr α}

/-- Classes of a set of variables become larger or get values, and nothing else changes. -/
structure Evolves (world world' : World α) (subst : Nat) (U : Set Var) : Prop where
  inv : Inv world' subst
  qcset : (world'.substs subst).qcset = (world.substs subst).qcset
  closed : ClassClosed world' subst U
  outside : ∀ v, v ∉ U → table world' subst v = table world subst v ∧
    ∀ i, table world subst v = some i → world'.veqvs i = world.veqvs i
  shrinks : ∀ v ∈ U, (step world' subst).Free v → (step world subst).Free v
  refines : ∀ σ, (step world' subst).SolvesOn U σ → (step world subst).SolvesOn U σ

namespace Evolves

theorem refl (inv : Inv world subst) (closed : ClassClosed world subst U) : Evolves world world subst U where
  inv := inv
  qcset := rfl
  closed := closed
  outside _ _ := ⟨rfl, fun _ _ => rfl⟩
  shrinks _ _ free := free
  refines _ solves := solves

theorem trans (first : Evolves world world' subst U) (second : Evolves world' world'' subst U) :
    Evolves world world'' subst U where
  inv := second.inv
  qcset := second.qcset.trans first.qcset
  closed := second.closed
  outside v outer := by
    obtain ⟨table, veqvs⟩ := first.outside v outer
    obtain ⟨table', veqvs'⟩ := second.outside v outer
    exact ⟨table'.trans table, fun i found => (veqvs' i (table.trans found)).trans (veqvs i found)⟩
  shrinks v inside free := first.shrinks v inside (second.shrinks v inside free)
  refines σ solves := first.refines σ (second.refines σ solves)

theorem step_outside (evolves : Evolves world world' subst U) (outer : v ∉ U) :
    step world' subst v = step world subst v := by
  obtain ⟨same, veqvs⟩ := evolves.outside v outer
  rw [step, step, same]
  cases found : table world subst v with
  | none => rfl
  | some i => simp only [veqvs i found]

end Evolves

/-- One class comes in the place of the classes of a set of variables. -/
structure Replaces (world world' : World α) (subst k : Nat) (C : Set Var) : Prop where
  root : (world'.substs subst).shadowed = (world.substs subst).shadowed
  isIdem : (world'.substs subst).isIdem = (world.substs subst).isIdem
  qcset : (world'.substs subst).qcset = (world.substs subst).qcset
  inside : ∀ {v}, v ∈ C → table world' subst v = some k
  outside : ∀ {v}, v ∉ C → table world' subst v = table world subst v
  saturated : ∀ {v w i}, v ∈ C → table world subst v = some i → table world subst w = some i → w ∈ C
  veqvs : ∀ {v i}, v ∉ C → table world subst v = some i → i ≠ k ∧ world'.veqvs i = world.veqvs i
  allocated : k < world'.nextVeqv
  nextVeqv : world.nextVeqv ≤ world'.nextVeqv
  mem_varLink : ∀ w, w ∈ (world'.veqvs k).varLink ↔ w ∈ C
  nodup : (world'.veqvs k).varLink.Nodup
  active : ∀ {v}, v ∈ C → (world.substs subst).qcset.contains v.qcode = true
  passive : ∀ {t}, (world'.veqvs k).value = some t → unifiableVar (world.substs subst).qcset t = none

namespace Replaces

variable {k : Nat} {C : Set Var} (replaces : Replaces world world' subst k C)

include replaces

theorem step_outside (outer : v ∉ C) : step world' subst v = step world subst v := by
  rw [step, step, replaces.outside outer]
  cases found : table world subst v with
  | none => rfl
  | some i => simp only [(replaces.veqvs outer found).2]

theorem step_of_value (mem : v ∈ C) (value : (world'.veqvs k).value = some t) : step world' subst v = t :=
  Subst.step_of_value (replaces.inside mem) value

theorem exists_head (nonempty : v ∈ C) (value : (world'.veqvs k).value = none) :
    ∃ head ∈ C, (world'.veqvs k).varLink.head? = some head ∧ ∀ w ∈ C, step world' subst w = .var head := by
  have mem := (replaces.mem_varLink v).mpr nonempty
  cases link : (world'.veqvs k).varLink with
  | nil =>
    rw [link] at mem
    cases mem
  | cons head rest =>
    have own : head ∈ C := (replaces.mem_varLink head).mp (by rw [link]; exact .head _)
    refine ⟨head, own, rfl, fun w inside => ?_⟩
    rw [step, replaces.inside inside]
    simp only [value, getD_none, headVar, link, head?_cons, getD_some]

theorem of_table (found : table world' subst w = some i) :
    (w ∈ C ∧ i = k) ∨ (w ∉ C ∧ i ≠ k ∧ table world subst w = some i ∧ world'.veqvs i = world.veqvs i) := by
  by_cases mem : w ∈ C
  · rw [replaces.inside mem] at found
    exact .inl ⟨mem, (some.inj found).symm⟩
  · rw [replaces.outside mem] at found
    obtain ⟨other, same⟩ := replaces.veqvs mem found
    exact .inr ⟨mem, other, found, same⟩

/-- A value from which none of the variables was reached closes no cycle. -/
theorem acyclic_of_value (inv : Inv world subst) (value : (world'.veqvs k).value = some t)
    (closed : ClassClosed world subst U) (within : ∀ v ∈ t.vars, v ∈ U) (apart : ∀ v ∈ U, v ∉ C) :
    (step world' subst).Acyclic :=
  inv.acyclic.replace (fun _ outer => replaces.step_outside outer) closed.terms apart
    (fun _ mem => replaces.step_of_value mem value) within

private theorem acyclic_of_no_value (inv : Inv world subst) (nonempty : v ∈ C) (value : (world'.veqvs k).value = none) :
    (step world' subst).Acyclic := by
  obtain ⟨head, own, _, terms⟩ := replaces.exists_head nonempty value
  exact inv.acyclic.merge (fun _ outer => replaces.step_outside outer) own terms

theorem inv (inv : Inv world subst) (acyclic : (step world' subst).Acyclic) : Inv world' subst where
  root := replaces.root.trans inv.root
  isIdem := replaces.isIdem.trans inv.isIdem
  allocated found := by
    rcases replaces.of_table found with ⟨_, rfl⟩ | ⟨_, _, old, _⟩
    · exact replaces.allocated
    · exact lt_of_lt_of_le (inv.allocated old) replaces.nextVeqv
  mem_varLink {v i} found w := by
    rcases replaces.of_table found with ⟨_, rfl⟩ | ⟨outer, other, old, same⟩
    · rw [replaces.mem_varLink]
      refine ⟨replaces.inside, fun found' => ?_⟩
      rcases replaces.of_table found' with ⟨mem, _⟩ | ⟨_, other, _, _⟩
      · exact mem
      · exact absurd rfl other
    rw [same, inv.mem_varLink old]
    constructor
    · intro mate
      rw [replaces.outside fun mem => outer (replaces.saturated mem mate old)]
      exact mate
    · intro found'
      rcases replaces.of_table found' with ⟨_, equal⟩ | ⟨_, _, old', _⟩
      · exact absurd equal other
      · exact old'
  nodup found := by
    rcases replaces.of_table found with ⟨_, rfl⟩ | ⟨_, _, old, same⟩
    · exact replaces.nodup
    · rw [same]
      exact inv.nodup old
  active found := by
    rw [replaces.qcset]
    rcases replaces.of_table found with ⟨mem, _⟩ | ⟨_, _, old, _⟩
    · exact replaces.active mem
    · exact inv.active old
  value found valued := by
    rw [replaces.qcset]
    rcases replaces.of_table found with ⟨_, rfl⟩ | ⟨_, _, old, same⟩
    · exact replaces.passive valued
    · rw [same] at valued
      exact inv.value old valued
  acyclic := acyclic

theorem closed (closed : ClassClosed world subst U) (sub : C ⊆ U)
    (within : ∀ t, (world'.veqvs k).value = some t → ∀ v ∈ t.vars, v ∈ U) : ClassClosed world' subst U where
  terms v inside w occurs := by
    by_cases mem : v ∈ C
    · cases value : (world'.veqvs k).value with
      | none =>
        obtain ⟨head, own, _, terms⟩ := replaces.exists_head mem value
        rw [terms v mem] at occurs
        obtain rfl := mem_singleton.mp occurs
        exact sub own
      | some t =>
        rw [replaces.step_of_value mem value] at occurs
        exact within t value w occurs
    · rw [replaces.step_outside mem] at occurs
      exact closed.terms v inside w occurs
  mates {v w i} inside found found' := by
    rcases replaces.of_table found' with ⟨mem, _⟩ | ⟨_, other, old', _⟩
    · exact sub mem
    · rcases replaces.of_table found with ⟨_, equal⟩ | ⟨_, _, old, _⟩
      · exact absurd equal other
      · exact closed.mates inside old old'

/-- The classes evolve if the new equations imply the old ones, and no variable becomes free. -/
theorem evolves (inv' : Inv world' subst) (closed : ClassClosed world subst U) (sub : C ⊆ U)
    (within : ∀ t, (world'.veqvs k).value = some t → ∀ v ∈ t.vars, v ∈ U)
    (shrinks : ∀ v ∈ C, (step world' subst).Free v → (step world subst).Free v)
    (refines : ∀ σ, (step world' subst).SolvesOn U σ → ∀ v ∈ C, σ v = (step world subst v).bind σ) :
    Evolves world world' subst U where
  inv := inv'
  qcset := replaces.qcset
  closed := replaces.closed closed sub within
  outside v outer := by
    have outer' : v ∉ C := fun mem => outer (sub mem)
    exact ⟨replaces.outside outer', fun i found => (replaces.veqvs outer' found).2⟩
  shrinks v _ free := by
    by_cases mem : v ∈ C
    · exact shrinks v mem free
    · rwa [Free, replaces.step_outside mem] at free
  refines σ solves v inside := by
    by_cases mem : v ∈ C
    · exact refines σ solves v mem
    · rw [← replaces.step_outside mem]
      exact solves v inside

end Replaces

private theorem mref_of_table (found : table world subst v = some i) : mref world subst v = (world, i) := by
  rw [table] at found
  rw [mref, found]

/-- The heap with a class for a variable that had none. -/
def withClass (world : World α) (subst : Nat) (v : Var) : World α :=
  (world.newVeqv (veqvNew v)).1.setTable subst ((world.substs subst).varToVeqv.replace v world.nextVeqv)

theorem mref_of_none (root : (world.substs subst).shadowed = none) (absent : table world subst v = none) :
    mref world subst v = (withClass world subst v, world.nextVeqv) := by
  rw [table] at absent
  simp only [mref, absent, root]
  rfl

theorem table_withClass : table (withClass world subst v) subst w =
    if w = v then some world.nextVeqv else table world subst w := by
  simp only [table, withClass, World.setTable, World.setSubst, World.newVeqv, World.setVeqv, update_self]
  exact Pmap.find_replace ..

private theorem withClass_subst : (withClass world subst v).substs subst =
    { world.substs subst with varToVeqv := (world.substs subst).varToVeqv.replace v world.nextVeqv } := by
  simp only [withClass, World.setTable, World.setSubst, World.newVeqv, World.setVeqv, update_self]

theorem withClass_veqvs : (withClass world subst v).veqvs =
    update world.veqvs world.nextVeqv (veqvNew v) := rfl

namespace Inv

variable (inv : Inv world subst)

include inv

theorem withClass_veqv (found : table world subst w = some i) :
    (withClass world subst v).veqvs i = world.veqvs i :=
  update_of_ne (ne_of_lt (inv.allocated found)) ..

private theorem step_withClass (absent : table world subst v = none) :
    step (withClass world subst v) subst = step world subst := by
  funext w
  rw [step, step, table_withClass]
  by_cases same : w = v
  · subst same
    rw [if_pos rfl, absent]
    simp only [withClass_veqvs, update_self, veqvNew, getD_none, headVar, head?_cons, getD_some]
  · rw [if_neg same]
    cases found : table world subst w with
    | none => rfl
    | some i => simp only [inv.withClass_veqv found]

private theorem replaces_withClass (absent : table world subst v = none)
    (active : (world.substs subst).qcset.contains v.qcode = true) :
    Replaces world (withClass world subst v) subst world.nextVeqv {v} where
  root := by rw [withClass_subst]
  isIdem := by rw [withClass_subst]
  qcset := by rw [withClass_subst]
  inside := by
    rintro _ rfl
    rw [table_withClass, if_pos rfl]
  outside outer := by
    rw [table_withClass]
    exact if_neg outer
  saturated := by
    rintro _ w i rfl found
    rw [absent] at found
    cases found
  veqvs _ found := ⟨ne_of_lt (inv.allocated found), inv.withClass_veqv found⟩
  allocated := Nat.lt_succ_self _
  nextVeqv := Nat.le_succ _
  mem_varLink w := by
    rw [withClass_veqvs, update_self]
    exact mem_singleton
  nodup := by
    rw [withClass_veqvs, update_self]
    exact nodup_singleton v
  active := by
    rintro _ rfl
    exact active
  passive := by
    rw [withClass_veqvs, update_self]
    exact nofun

theorem mref_spec (active : (world.substs subst).qcset.contains v.qcode = true) :
    ∃ world' i, mref world subst v = (world', i) ∧ table world' subst v = some i ∧
      step world' subst = step world subst ∧
      (∀ w j, table world subst w = some j → table world' subst w = some j ∧ world'.veqvs j = world.veqvs j) ∧
      ∀ U, ClassClosed world subst U → v ∈ U → Evolves world world' subst U := by
  cases found : table world subst v with
  | some i =>
    exact ⟨world, i, mref_of_table found, found, rfl, fun _ _ known => ⟨known, rfl⟩, fun U closed _ => .refl inv closed⟩
  | none =>
    have replaces := inv.replaces_withClass found active
    have same := inv.step_withClass found
    have inv' : Inv (withClass world subst v) subst := by
      apply replaces.inv inv
      rw [same]
      exact inv.acyclic
    refine ⟨_, _, mref_of_none inv.root found, replaces.inside rfl, same, fun w j known => ?_, fun U closed inside => ?_⟩
    · have outer : w ≠ v := by
        rintro rfl
        rw [found] at known
        cases known
      exact ⟨(replaces.outside outer).trans known, (replaces.veqvs outer known).2⟩
    apply replaces.evolves inv' closed
    · rintro _ rfl
      exact inside
    · rw [withClass_veqvs, update_self]
      exact nofun
    · rw [same]
      exact fun _ _ free => free
    · rw [same]
      intro σ solves w mem
      obtain rfl : w = v := mem
      exact solves w inside

end Inv

theorem setValue_veqvs (value : Option (Expr α)) : (world.setValue i value).veqvs =
    update world.veqvs i { world.veqvs i with value } := rfl

theorem Inv.replaces_setValue (inv : Inv world subst) (found : table world subst v = some i)
    (passive : unifiableVar (world.substs subst).qcset t = none) :
    Replaces world (world.setValue i (some t)) subst i {w | table world subst w = some i} where
  root := rfl
  isIdem := rfl
  qcset := rfl
  inside mem := mem
  outside _ := rfl
  saturated := by
    intro w u j mem found found'
    exact found'.trans (found.symm.trans mem)
  veqvs := by
    intro w j outer found'
    have other : j ≠ i := fun same => outer (found'.trans (congrArg some same))
    exact ⟨other, update_of_ne other ..⟩
  allocated := inv.allocated found
  nextVeqv := le_rfl
  mem_varLink w := by
    rw [setValue_veqvs, update_self]
    exact inv.mem_varLink found w
  nodup := by
    rw [setValue_veqvs, update_self]
    exact inv.nodup found
  active mem := inv.active mem
  passive := by
    intro t' same
    rw [setValue_veqvs, update_self] at same
    cases same
    exact passive

theorem Inv.setValue_evolves (inv : Inv world subst) (found : table world subst v = some i)
    (passive : unifiableVar (world.substs subst).qcset t = none) (apart : Apart world subst i t)
    (closed : ClassClosed world subst U) (inside : v ∈ U) (within : ∀ v ∈ t.vars, v ∈ U)
    (refines : ∀ σ, (step (world.setValue i (some t)) subst).SolvesOn U σ → ∀ w, table world subst w = some i →
      σ w = t.bind σ → σ w = (step world subst w).bind σ) :
    Evolves world (world.setValue i (some t)) subst U := by
  have replaces := inv.replaces_setValue found passive
  have value : ((world.setValue i (some t)).veqvs i).value = some t := by
    rw [setValue_veqvs, update_self]
  have sub : {w | table world subst w = some i} ⊆ U := fun w mem => closed.mates inside found mem
  obtain ⟨U', closed', within', outer⟩ := apart
  have acyclic := replaces.acyclic_of_value inv value closed' within' fun w mem => outer w mem
  have inv' := replaces.inv inv acyclic
  apply replaces.evolves inv' closed sub
  · intro t' same
    rw [value] at same
    cases same
    exact within
  · intro w mem free
    exact absurd free (inv'.not_free_of_value (replaces.inside mem) value)
  · intro σ solves w mem
    have term := solves w (sub mem)
    rw [replaces.step_of_value mem value] at term
    exact refines σ solves w mem term

private theorem setTable_self (world : World α) (subst : Nat) :
    world.setTable subst (world.substs subst).varToVeqv = world := by
  rw [World.setTable, World.setSubst, update_eq_self]

private theorem setTable_setTable (map map' : Pmap) :
    (world.setTable subst map).setTable subst map' = world.setTable subst map' := by
  simp only [World.setTable, World.setSubst, update_self, update_idem]

theorem setTable_subst (map : Pmap) :
    (world.setTable subst map).substs subst = { world.substs subst with varToVeqv := map } :=
  update_self ..

private theorem pointAll (world : World α) (k : Nat) (links : List Var) (root : (world.substs subst).shadowed = none) :
    ∃ map : Pmap, links.foldl
        (fun world var =>
          let (world, current) := cref world subst var
          if current = some k then world
          else world.setTable subst ((world.substs subst).varToVeqv.replace var k)) world =
        world.setTable subst map ∧
      ∀ w, map.find w = if w ∈ links then some k else table world subst w := by
  induction links generalizing world with
  | nil =>
    refine ⟨_, (setTable_self world subst).symm, fun w => ?_⟩
    rw [if_neg (not_mem_nil), table]
  | cons var rest ih =>
    rw [foldl_cons, cref_root root]
    dsimp only
    by_cases current : table world subst var = some k
    · rw [if_pos current]
      obtain ⟨map, same, finds⟩ := ih world root
      refine ⟨map, same, fun w => ?_⟩
      rw [finds]
      by_cases here : w = var
      · subst here
        rw [if_pos mem_cons_self, current, ite_self]
      · simp only [mem_cons, here, false_or]
    · rw [if_neg current]
      obtain ⟨map, same, finds⟩ := ih (world.setTable subst ((world.substs subst).varToVeqv.replace var k))
        (by rw [setTable_subst]; exact root)
      refine ⟨map, by rw [same, setTable_setTable], fun w => ?_⟩
      rw [finds, table, setTable_subst, Pmap.find_replace]
      by_cases here : w = var
      · subst here
        rw [if_pos rfl, if_pos mem_cons_self, ite_self]
      · simp only [mem_cons, here, false_or, if_false]
        rfl

theorem mem_foldl_link (known links rest : List Var) (w : Var) :
    w ∈ links.foldl (fun link var => if var ∈ known then link else var :: link) rest ↔
      w ∈ rest ∨ (w ∈ links ∧ w ∉ known) := by
  induction links generalizing rest with
  | nil => simp
  | cons var links ih =>
    rw [foldl_cons, ih]
    by_cases old : var ∈ known
    · rw [if_pos old]
      simp only [mem_cons]
      constructor
      · rintro (first | ⟨later, new⟩)
        · exact .inl first
        · exact .inr ⟨.inr later, new⟩
      · rintro (first | ⟨rfl | later, new⟩)
        · exact .inl first
        · exact absurd old new
        · exact .inr ⟨later, new⟩
    · rw [if_neg old]
      simp only [mem_cons]
      constructor
      · rintro ((rfl | first) | ⟨later, new⟩)
        · exact .inr ⟨.inl rfl, old⟩
        · exact .inl first
        · exact .inr ⟨.inr later, new⟩
      · rintro (first | ⟨rfl | later, new⟩)
        · exact .inl (.inr first)
        · exact .inl (.inl rfl)
        · exact .inr ⟨later, new⟩

private theorem nodup_foldl_link (known links rest : List Var) (distinct : links.Nodup) (distinct' : rest.Nodup)
    (apart : ∀ w ∈ links, w ∉ rest) :
    (links.foldl (fun link var => if var ∈ known then link else var :: link) rest).Nodup := by
  induction links generalizing rest with
  | nil => exact distinct'
  | cons var links ih =>
    obtain ⟨fresh, distinct⟩ := nodup_cons.mp distinct
    rw [foldl_cons]
    have later : ∀ w ∈ links, w ∉ rest := fun w mem => apart w (mem_cons_of_mem var mem)
    by_cases old : var ∈ known
    · rw [if_pos old]
      exact ih rest distinct distinct' later
    · rw [if_neg old]
      apply ih (var :: rest) distinct (nodup_cons.mpr ⟨apart var mem_cons_self, distinct'⟩)
      intro w mem inside
      rcases mem_cons.mp inside with rfl | inside
      · exact fresh mem
      · exact later w mem inside

section VeqvUnify

variable {veqv0 veqv1 : Veqv α} {head : Var} {rest : List Var}

variable (value : Option (Expr α))

private theorem mem_veqvUnify (nonempty : veqv1.varLink ≠ []) (w : Var) :
    w ∈ (veqvUnify veqv0 veqv1 value).varLink ↔ w ∈ veqv0.varLink ∨ w ∈ veqv1.varLink := by
  cases link : veqv1.varLink with
  | nil => exact absurd link nonempty
  | cons head rest =>
    simp only [veqvUnify, link]
    rw [mem_cons, mem_foldl_link, mem_cons]
    tauto

theorem nodup_veqvUnify (distinct0 : veqv0.varLink.Nodup) (distinct1 : veqv1.varLink.Nodup)
    (apart : ∀ w ∈ veqv0.varLink, w ∉ veqv1.varLink) : (veqvUnify veqv0 veqv1 value).varLink.Nodup := by
  cases link : veqv1.varLink with
  | nil => simp only [veqvUnify, link, nodup_nil]
  | cons head rest =>
    simp only [veqvUnify, link]
    rw [link] at distinct1 apart
    obtain ⟨fresh, distinct1⟩ := nodup_cons.mp distinct1
    refine nodup_cons.mpr ⟨?_, nodup_foldl_link _ _ _ distinct0 distinct1 ?_⟩
    · rw [mem_foldl_link]
      rintro (inside | ⟨inside, _⟩)
      · exact fresh inside
      · exact apart head inside mem_cons_self
    · exact fun w mem inside => apart w mem (mem_cons_of_mem head inside)

private theorem head_veqvUnify :
    (veqvUnify veqv0 veqv1 value).varLink.head? = veqv1.varLink.head? := by
  cases link : veqv1.varLink with
  | nil => simp only [veqvUnify, link]
  | cons head rest => simp only [veqvUnify, link, head?_cons]

end VeqvUnify

section Merge

variable {v0 v1 : Var} {i0 i1 : Nat} (value : Option (Expr α)) (inv : Inv world subst)
  (found0 : table world subst v0 = some i0) (found1 : table world subst v1 = some i1) (other : i0 ≠ i1)

include inv found0 found1 other

theorem Inv.replaces_unifyVeqvs (passive : ∀ t, value = some t → unifiableVar (world.substs subst).qcset t = none) :
    Replaces world (unifyVeqvs world subst i0 i1 value) subst i1
      {w | table world subst w = some i0 ∨ table world subst w = some i1} ∧
    (unifyVeqvs world subst i0 i1 value).veqvs i1 = veqvUnify (world.veqvs i0) (world.veqvs i1) value := by
  have nonempty : (world.veqvs i1).varLink ≠ [] := by
    obtain ⟨head, rest, link⟩ := inv.varLink_eq found1
    rw [link]
    exact cons_ne_nil head rest
  have members (w : Var) : w ∈ (veqvUnify (world.veqvs i0) (world.veqvs i1) value).varLink ↔
      table world subst w = some i0 ∨ table world subst w = some i1 := by
    rw [mem_veqvUnify value nonempty, inv.mem_varLink found0, inv.mem_varLink found1]
  obtain ⟨map, same, finds⟩ := pointAll (world.setVeqv i1 (veqvUnify (world.veqvs i0) (world.veqvs i1) value))
    i1 (veqvUnify (world.veqvs i0) (world.veqvs i1) value).varLink inv.root
  have result : unifyVeqvs world subst i0 i1 value =
      (world.setVeqv i1 (veqvUnify (world.veqvs i0) (world.veqvs i1) value)).setTable subst map := same
  have changed : (unifyVeqvs world subst i0 i1 value).veqvs =
      update world.veqvs i1 (veqvUnify (world.veqvs i0) (world.veqvs i1) value) := by
    rw [result]
    rfl
  have own : (unifyVeqvs world subst i0 i1 value).veqvs i1 = veqvUnify (world.veqvs i0) (world.veqvs i1) value := by
    rw [changed, update_self]
  have record : (unifyVeqvs world subst i0 i1 value).substs subst = { world.substs subst with varToVeqv := map } := by
    rw [result, setTable_subst]
    rfl
  have tables (w : Var) : table (unifyVeqvs world subst i0 i1 value) subst w =
      if table world subst w = some i0 ∨ table world subst w = some i1 then some i1 else table world subst w := by
    rw [table, record]
    dsimp only
    rw [finds]
    simp only [members]
    rfl
  refine ⟨?_, own⟩
  constructor
  · rw [record]
  · rw [record]
  · rw [record]
  · intro w mem
    rw [tables]
    exact if_pos mem
  · intro w outer
    rw [tables]
    exact if_neg outer
  · intro w u i mem found found'
    change table world subst u = some i0 ∨ table world subst u = some i1
    rw [found', ← found]
    exact mem
  · intro w i outer found
    have apart : i ≠ i1 := by
      rintro rfl
      exact outer (.inr found)
    rw [changed]
    exact ⟨apart, update_of_ne apart ..⟩
  · rw [result]
    exact inv.allocated found1
  · rw [result]
    exact le_rfl
  · intro w
    rw [own]
    exact members w
  · rw [own]
    apply nodup_veqvUnify value (inv.nodup found0) (inv.nodup found1)
    intro w inside0 inside1
    rw [inv.mem_varLink found0] at inside0
    rw [inv.mem_varLink found1] at inside1
    exact other (some.inj (inside0.symm.trans inside1))
  · intro w mem
    exact mem.elim inv.active inv.active
  · intro t valued
    rw [own] at valued
    exact passive t valued

theorem Inv.step_unifyVeqvs_outside (passive : ∀ t, value = some t → unifiableVar (world.substs subst).qcset t = none)
    (outer0 : table world subst w ≠ some i0) (outer1 : table world subst w ≠ some i1) :
    step (unifyVeqvs world subst i0 i1 value) subst w = step world subst w :=
  (inv.replaces_unifyVeqvs value found0 found1 other passive).1.step_outside fun mem => mem.elim outer0 outer1

/-- Two classes become one with a value from which neither was reached. -/
theorem Inv.unifyVeqvs_value (passive : unifiableVar (world.substs subst).qcset t = none)
    (apart0 : Apart world subst i0 t) (apart1 : Apart world subst i1 t) (closed : ClassClosed world subst U)
    (inside0 : v0 ∈ U) (inside1 : v1 ∈ U) (within : ∀ v ∈ t.vars, v ∈ U)
    (refines : ∀ σ, (step (unifyVeqvs world subst i0 i1 (some t)) subst).SolvesOn U σ → ∀ w,
      table world subst w = some i0 ∨ table world subst w = some i1 → σ w = t.bind σ →
      σ w = (step world subst w).bind σ) :
    Evolves world (unifyVeqvs world subst i0 i1 (some t)) subst U ∧
      ∀ w, table world subst w = some i0 ∨ table world subst w = some i1 →
        step (unifyVeqvs world subst i0 i1 (some t)) subst w = t := by
  obtain ⟨replaces, own⟩ := inv.replaces_unifyVeqvs (some t) found0 found1 other fun t' same => by
    cases same
    exact passive
  have value : ((unifyVeqvs world subst i0 i1 (some t)).veqvs i1).value = some t := by
    rw [own]
    rfl
  have sub : {w | table world subst w = some i0 ∨ table world subst w = some i1} ⊆ U := fun w mem =>
    mem.elim (closed.mates inside0 found0) (closed.mates inside1 found1)
  obtain ⟨U0, closed0, within0, outer0⟩ := apart0
  obtain ⟨U1, closed1, within1, outer1⟩ := apart1
  have acyclic := replaces.acyclic_of_value inv value (closed0.inter closed1)
    (fun v occurs => ⟨within0 v occurs, within1 v occurs⟩)
    fun w mem class' => class'.elim (outer0 w mem.1) (outer1 w mem.2)
  have inv' := replaces.inv inv acyclic
  refine ⟨replaces.evolves inv' closed sub ?_ ?_ ?_, fun w mem => replaces.step_of_value mem value⟩
  · intro t' same
    rw [value] at same
    cases same
    exact within
  · intro w mem free
    exact absurd free (inv'.not_free_of_value (replaces.inside mem) value)
  · intro σ solves w mem
    have term := solves w (sub mem)
    rw [replaces.step_of_value mem value] at term
    exact refines σ solves w mem term

/-- Two classes without values become one, with the first variable of the second. -/
theorem Inv.unifyVeqvs_none (closed : ClassClosed world subst U) (inside0 : v0 ∈ U) (inside1 : v1 ∈ U)
    (none0 : (world.veqvs i0).value = none) (none1 : (world.veqvs i1).value = none) :
    Evolves world (unifyVeqvs world subst i0 i1 none) subst U ∧
      ∃ head, table world subst head = some i1 ∧ step world subst head = .var head ∧
        ∀ w, table world subst w = some i0 ∨ table world subst w = some i1 →
          step (unifyVeqvs world subst i0 i1 none) subst w = .var head := by
  obtain ⟨replaces, own⟩ := inv.replaces_unifyVeqvs none found0 found1 other nofun
  have value : ((unifyVeqvs world subst i0 i1 none).veqvs i1).value = none := by
    rw [own]
    rfl
  have sub : {w | table world subst w = some i0 ∨ table world subst w = some i1} ⊆ U := fun w mem =>
    mem.elim (closed.mates inside0 found0) (closed.mates inside1 found1)
  have inv' := replaces.inv inv (replaces.acyclic_of_no_value inv (v := v1) (.inr found1) value)
  obtain ⟨head, mem, first, terms⟩ := replaces.exists_head (v := v1) (.inr found1) value
  obtain ⟨head1, first1, found, term1⟩ := inv.step_of_no_value found1 none1
  have same : head1 = head := by
    rw [own, head_veqvUnify, first1] at first
    exact some.inj first
  subst same
  have own1 : step world subst head1 = .var head1 := (inv.step_mate found1 found).trans term1
  refine ⟨replaces.evolves inv' closed sub ?_ ?_ ?_, head1, found, own1, terms⟩
  · rw [value]
    exact nofun
  · intro w mem free
    rw [Free, terms w mem] at free
    cases free
    exact own1
  intro σ solves w mem
  have equal (u : Var) (mem : table world subst u = some i0 ∨ table world subst u = some i1) : σ u = σ head1 := by
    rw [solves u (sub mem), terms u mem, Term.bind_var]
  rcases mem with found' | found'
  · obtain ⟨head0, _, found0', term0⟩ := inv.step_of_no_value found' none0
    rw [term0, Term.bind_var, equal w (.inl found'), equal head0 (.inl found0')]
  · obtain ⟨head0, _, found1', term0⟩ := inv.step_of_no_value found' none1
    rw [term0, Term.bind_var, equal w (.inr found'), equal head0 (.inr found1')]

end Merge

end Culibs.Cuex.Subst
