import Culibs.Cuex.Subst.Basic

/-! Most specific generalisations, from `cuex/algo.c`. -/

namespace Culibs.Cuex.Algo

open List Term

variable {α : Type} [DecidableEq α]

/-- `cuex_meta`, for an operation. -/
def oprMeta (e : Expr α) : Option (Word × Nat) :=
  match e with
  | .app opr operands => some (opr, operands.length)
  | _ => none

/-- `cuex_opn_at`. -/
def opnAt (e : Expr α) (i : Nat) : Option (Expr α) :=
  match e with
  | .app _ operands => operands[i]?
  | _ => none

mutual

/-- `cuex_msg_unify`. -/
def msgUnify (f : Expr α → Expr α → Expr α) (e0 e1 : Expr α) : Expr α :=
  if e0 = e1 then e0
  else
    match e0, e1 with
    | .app opr operands0, .app opr1 operands1 =>
      if (opr, operands0.length) = (opr1, operands1.length) then .app opr (msgUnifyOperands f operands0 operands1)
      else f (.app opr operands0) (.app opr1 operands1)
    | e0, e1 => f e0 e1

/-- The loop over the operands of two operations with the same operator. -/
def msgUnifyOperands (f : Expr α → Expr α → Expr α) : List (Expr α) → List (Expr α) → List (Expr α)
  | e0 :: operands0, e1 :: operands1 => msgUnify f e0 e1 :: msgUnifyOperands f operands0 operands1
  | _, _ => []

end

mutual

/-- `cuex_msg_unify_by_arr`, for an array that starts with the first argument. -/
def msgUnifyByArr (f : List (Expr α) → Expr α) : Expr α → List (Expr α) → Expr α
  | .app opr operands, arr =>
    if ∀ e ∈ arr, oprMeta e = some (opr, operands.length) then .app opr (msgUnifyColumns f 0 operands arr)
    else f (.app opr operands :: arr)
  | e, arr => if ∀ e' ∈ arr, e' = e then e else f (e :: arr)

/-- The loop over the columns of `sub_arr`, from the operands `j` on. -/
def msgUnifyColumns (f : List (Expr α) → Expr α) (j : Nat) : List (Expr α) → List (Expr α) → List (Expr α)
  | [], _ => []
  | e :: operands, arr =>
    msgUnifyByArr f e (arr.filterMap (opnAt · j)) :: msgUnifyColumns f (j + 1) operands arr

end

mutual

/-- The pairs of subexpressions for which the callback of `cuex_msg_unify` is called. -/
def mismatches (e0 e1 : Expr α) : List (Expr α × Expr α) :=
  if e0 = e1 then []
  else
    match e0, e1 with
    | .app opr operands0, .app opr1 operands1 =>
      if (opr, operands0.length) = (opr1, operands1.length) then mismatchesOperands operands0 operands1
      else [(.app opr operands0, .app opr1 operands1)]
    | e0, e1 => [(e0, e1)]

def mismatchesOperands : List (Expr α) → List (Expr α) → List (Expr α × Expr α)
  | e0 :: operands0, e1 :: operands1 => mismatches e0 e1 ++ mismatchesOperands operands0 operands1
  | _, _ => []

end

/-- The replacement of the variable for a pair by a component of it. -/
def component (fresh : Expr α × Expr α → Var) (pairs : List (Expr α × Expr α)) (pick : Expr α × Expr α → Expr α)
    (v : Var) : Expr α :=
  match pairs.find? fun pair => fresh pair = v with
  | some pair => pick pair
  | none => .var v

section

variable {f : Expr α → Expr α → Expr α} {σ σ0 σ1 : Var → Expr α} {e e0 e1 : Expr α} {opr : Word}
  {operands0 operands1 : List (Expr α)}

theorem msgUnifyOperands_eq (operands0 operands1 : List (Expr α)) :
    msgUnifyOperands f operands0 operands1 = zipWith (msgUnify f) operands0 operands1 := by
  induction operands0 generalizing operands1 with
  | nil => rw [msgUnifyOperands, zipWith_nil_left]; simp
  | cons e0 operands0 ih =>
    cases operands1 with
    | nil => rw [msgUnifyOperands, zipWith_nil_right]; simp
    | cons e1 operands1 => rw [msgUnifyOperands, ih, zipWith_cons_cons]

theorem msgUnify_self (e : Expr α) : msgUnify f e e = e := by
  rw [msgUnify.eq_def, if_pos rfl]

/-- On operations with the same operator the short cut for identical ones changes nothing. -/
theorem msgUnify_app (same : operands0.length = operands1.length) :
    msgUnify f (.app opr operands0) (.app opr operands1) = .app opr (zipWith (msgUnify f) operands0 operands1) := by
  rw [msgUnify.eq_def]
  by_cases identical : app opr operands0 = .app opr operands1
  · cases identical
    rw [if_pos rfl, zipWith_self]
    simp only [msgUnify_self, map_id']
  · rw [if_neg identical]
    simp [same, msgUnifyOperands_eq]

private theorem mismatchesOperands_eq (operands0 operands1 : List (Expr α)) :
    mismatchesOperands operands0 operands1 = (zipWith mismatches operands0 operands1).flatten := by
  induction operands0 generalizing operands1 with
  | nil => rw [mismatchesOperands, zipWith_nil_left, flatten_nil]; simp
  | cons e0 operands0 ih =>
    cases operands1 with
    | nil => rw [mismatchesOperands, zipWith_nil_right, flatten_nil]; simp
    | cons e1 operands1 => rw [mismatchesOperands, ih, zipWith_cons_cons, flatten_cons]

private theorem mismatches_self (e : Expr α) : mismatches e e = [] := by
  rw [mismatches.eq_def, if_pos rfl]

private theorem mismatches_app (same : operands0.length = operands1.length) :
    mismatches (.app opr operands0) (.app opr operands1) = (zipWith mismatches operands0 operands1).flatten := by
  rw [mismatches.eq_def]
  by_cases identical : app opr operands0 = .app opr operands1
  · cases identical
    simp [mismatches_self]
  · rw [if_neg identical]
    simp [same, mismatchesOperands_eq]

/-- The callback is called for different expressions, unless they are operations with the same operator. -/
def Differ (e0 e1 : Expr α) : Prop := e0 ≠ e1 ∧ (oprMeta e0 = none ∨ oprMeta e0 ≠ oprMeta e1)

theorem compare_cases (e0 e1 : Expr α) : e0 = e1 ∨ Differ e0 e1 ∨
    ∃ opr operands0 operands1, operands0.length = operands1.length ∧ e0 = .app opr operands0 ∧
      e1 = .app opr operands1 := by
  by_cases identical : e0 = e1
  · exact .inl identical
  by_cases like : oprMeta e0 = none ∨ oprMeta e0 ≠ oprMeta e1
  · exact .inr (.inl ⟨identical, like⟩)
  obtain ⟨some, same⟩ := not_or.mp like
  rw [not_not] at same
  cases e0 with
  | app opr operands0 =>
    cases e1 with
    | app opr1 operands1 =>
      obtain ⟨rfl, length⟩ := Prod.mk.inj (Option.some.inj same)
      exact .inr (.inr ⟨opr, operands0, operands1, length, rfl, rfl⟩)
    | atom a => cases same
    | var v => cases same
  | atom a => exact absurd rfl some
  | var v => exact absurd rfl some

theorem msgUnify_differ (differ : Differ e0 e1) : msgUnify f e0 e1 = f e0 e1 := by
  obtain ⟨different, unlike⟩ := differ
  rw [msgUnify.eq_def, if_neg different]
  split
  · simp only [oprMeta, reduceCtorEq, false_or, ne_eq, Option.some.injEq] at unlike
    exact if_neg unlike
  · rfl

private theorem mismatches_differ (differ : Differ e0 e1) : mismatches e0 e1 = [(e0, e1)] := by
  obtain ⟨different, unlike⟩ := differ
  rw [mismatches.eq_def, if_neg different]
  split
  · simp only [oprMeta, reduceCtorEq, false_or, ne_eq, Option.some.injEq] at unlike
    exact if_neg unlike
  · rfl

/-- The generalisation of two instances of an expression is an instance of it. -/
theorem msgUnify_bind (h : Expr α) :
    msgUnify f (h.bind σ0) (h.bind σ1) = h.bind fun v => msgUnify f (σ0 v) (σ1 v) := by
  induction h using inductArgs with
  | atom a => exact msgUnify_self _
  | var v => rfl
  | app opr operands ih =>
    rw [bind_app, bind_app, bind_app, msgUnify_app (by rw [length_map, length_map]), zipWith_map,
      zipWith_self]
    exact congrArg (app opr) (map_congr_left ih)

/-- A substitution that takes the variable for a pair to its first component takes the generalisation to the first
expression, and the same holds for the second. -/
theorem bind_msgUnify (pick : Expr α × Expr α → Expr α) (diagonal : ∀ e, pick (e, e) = e)
    (inside : ∀ opr operands0 operands1, operands0.length = operands1.length →
      pick (.app opr operands0, .app opr operands1) = .app opr ((operands0.zip operands1).map pick))
    (picked : ∀ pair ∈ mismatches e0 e1, (f pair.1 pair.2).bind σ = pick pair)
    (fixed0 : ∀ v ∈ e0.vars, σ v = .var v) (fixed1 : ∀ v ∈ e1.vars, σ v = .var v) :
    (msgUnify f e0 e1).bind σ = pick (e0, e1) := by
  have shallow {e0 e1 : Expr α} (picked : ∀ pair ∈ mismatches e0 e1, (f pair.1 pair.2).bind σ = pick pair)
      (fixed : ∀ v ∈ e0.vars, σ v = .var v) (like : e0 = e1 ∨ Differ e0 e1) :
      (msgUnify f e0 e1).bind σ = pick (e0, e1) := by
    rcases like with rfl | differ
    · rw [msgUnify_self, diagonal, bind_eq_self fixed]
    · rw [msgUnify_differ differ]
      exact picked _ (by rw [mismatches_differ differ]; exact mem_singleton_self _)
  induction e0 using inductArgs generalizing e1 with
  | atom a => exact shallow picked fixed0 ((compare_cases ..).imp_right fun cases => cases.resolve_right nofun)
  | var v => exact shallow picked fixed0 ((compare_cases ..).imp_right fun cases => cases.resolve_right nofun)
  | app opr operands0 ih =>
    rcases compare_cases (.app opr operands0) e1 with same | differ | ⟨opr, operands0, operands1, length, shape, rfl⟩
    · exact shallow picked fixed0 (.inl same)
    · exact shallow picked fixed0 (.inr differ)
    · cases shape
      rw [msgUnify_app length, bind_app, inside _ _ _ length, ← map_uncurry_zip_eq_zipWith, map_map]
      refine congrArg (app opr) (map_congr_left fun pair mem => ?_)
      obtain ⟨mem0, mem1⟩ := of_mem_zip mem
      refine ih pair.1 mem0 (fun other called => picked other ?_)
        (fun v occurs => fixed0 v (mem_vars_app.mpr ⟨pair.1, mem0, occurs⟩))
        fun v occurs => fixed1 v (mem_vars_app.mpr ⟨pair.2, mem1, occurs⟩)
      rw [mismatches_app length, ← map_uncurry_zip_eq_zipWith]
      exact mem_flatten.mpr ⟨_, mem_map_of_mem mem, called⟩

end

section

variable {f : Expr α → Expr α → Expr α} {f' : List (Expr α) → Expr α} {e1 : Expr α} {opr : Word}

private theorem msgUnifyColumns_pair
    (length : operands0.length = (operands1.drop j).length)
    (each : ∀ e0 ∈ operands0, ∀ e1, msgUnifyByArr f' e0 [e1] = msgUnify f e0 e1) :
    msgUnifyColumns f' j operands0 [.app opr operands1] = zipWith (msgUnify f) operands0 (operands1.drop j) := by
  induction operands0 generalizing j with
  | nil => rw [msgUnifyColumns, zipWith_nil_left]
  | cons e0 operands0 ih =>
    obtain ⟨first, rest⟩ := forall_mem_cons.mp each
    have inside : j < operands1.length := by
      rw [length_drop] at length
      exact Nat.lt_of_sub_pos (length ▸ Nat.succ_pos _)
    have column : [app opr operands1].filterMap (opnAt · j) = [operands1[j]] := by
      simp [opnAt, getElem?_eq_getElem inside]
    rw [drop_eq_getElem_cons inside] at length ⊢
    rw [msgUnifyColumns, column, first, ih (Nat.succ.inj length) rest, zipWith_cons_cons]

theorem msgUnifyByArr_pair (agree : ∀ a b, f' [a, b] = f a b) (e0 e1 : Expr α) :
    msgUnifyByArr f' e0 [e1] = msgUnify f e0 e1 := by
  induction e0 using inductArgs generalizing e1 with
  | atom a =>
    rw [msgUnifyByArr, msgUnify, agree]
    all_goals simp [eq_comm]
  | var v =>
    rw [msgUnifyByArr, msgUnify, agree]
    all_goals simp [eq_comm]
  | app opr operands0 ih =>
    rw [msgUnifyByArr, agree]
    simp only [forall_mem_singleton]
    have columns (operands1 : List (Expr α)) (length : operands0.length = operands1.length) :
        msgUnifyColumns f' 0 operands0 [.app opr operands1] = zipWith (msgUnify f) operands0 operands1 :=
      msgUnifyColumns_pair length ih
    rcases compare_cases (.app opr operands0) e1 with rfl | ⟨different, unlike⟩ | ⟨_, _, operands1, length, shape, rfl⟩
    · rw [if_pos (by rw [oprMeta]), msgUnify_app rfl, columns operands0 rfl]
    · rw [msgUnify_differ ⟨different, unlike⟩, if_neg]
      exact fun same => unlike.elim nofun fun other => other same.symm
    · cases shape
      rw [if_pos (by rw [oprMeta, length]), msgUnify_app length, columns operands1 length]

end

section

variable {e0 e1 : Expr α} {fresh : Expr α × Expr α → Var} {pairs : List (Expr α × Expr α)}

omit [DecidableEq α] in
theorem component_of_mem (pick : Expr α × Expr α → Expr α)
    (distinct : ∀ p ∈ pairs, ∀ q ∈ pairs, fresh p = fresh q → p = q) (mem : pair ∈ pairs) :
    component fresh pairs pick (fresh pair) = pick pair := by
  rw [component]
  cases found : pairs.find? fun other => fresh other = fresh pair with
  | none => exact absurd (decide_eq_true rfl) (find?_eq_none.mp found pair mem)
  | some other =>
    have same : fresh other = fresh pair := by simpa using find?_some found
    rw [distinct other (mem_of_find?_eq_some found) pair mem same]

omit [DecidableEq α] in
theorem component_of_unused (pick : Expr α × Expr α → Expr α) (unused : ∀ p ∈ pairs, fresh p ≠ v) :
    component fresh pairs pick v = .var v := by
  rw [component, find?_eq_none.mpr fun pair mem => by simpa using unused pair mem]

/-- With a variable of its own for each pair, the result is a least general generalisation: it gives both expressions
back, every other generalisation has it as an instance, and the variant for arrays returns the same. -/
theorem msgUnify_least (e0 e1 : Expr α) (fresh : Expr α × Expr α → Var)
    (distinct : ∀ p ∈ mismatches e0 e1, ∀ q ∈ mismatches e0 e1, fresh p = fresh q → p = q)
    (unused : ∀ p ∈ mismatches e0 e1, fresh p ∉ e0.vars ∧ fresh p ∉ e1.vars) :
    let g := msgUnify (fun a b => .var (fresh (a, b))) e0 e1
    g.bind (component fresh (mismatches e0 e1) Prod.fst) = e0 ∧
      g.bind (component fresh (mismatches e0 e1) Prod.snd) = e1 ∧
      (∀ (h : Expr α) (σ0 σ1 : Var → Expr α), h.bind σ0 = e0 → h.bind σ1 = e1 → ∃ σ, h.bind σ = g) ∧
      ∀ f' : List (Expr α) → Expr α, (∀ a b, f' [a, b] = .var (fresh (a, b))) → msgUnifyByArr f' e0 [e1] = g := by
  intro g
  have fixed (pick : Expr α × Expr α → Expr α) (v : Var) (occurs : v ∈ e0.vars ∨ v ∈ e1.vars) :
      component fresh (mismatches e0 e1) pick v = .var v := by
    refine component_of_unused pick fun p mem same => ?_
    subst same
    exact occurs.elim (unused p mem).1 (unused p mem).2
  refine ⟨?_, ?_, ?_, ?_⟩
  · refine bind_msgUnify Prod.fst (fun _ => rfl) ?_ (fun p mem => component_of_mem _ distinct mem)
      (fun v occurs => fixed _ v (.inl occurs)) fun v occurs => fixed _ v (.inr occurs)
    intro opr operands0 operands1 length
    rw [map_fst_zip (Nat.le_of_eq length)]
  · refine bind_msgUnify Prod.snd (fun _ => rfl) ?_ (fun p mem => component_of_mem _ distinct mem)
      (fun v occurs => fixed _ v (.inl occurs)) fun v occurs => fixed _ v (.inr occurs)
    intro opr operands0 operands1 length
    rw [map_snd_zip (Nat.le_of_eq length.symm)]
  · rintro h σ0 σ1 rfl rfl
    exact ⟨_, (msgUnify_bind h).symm⟩
  · exact fun f' agree => msgUnifyByArr_pair agree e0 e1

end

/-- A variable for each first component. -/
def freshVar (pair : Expr Nat × Expr Nat) : Var := ⟨.n, if pair.1 = .atom 0 then 0 else 1⟩

/-- A pair that comes twice has one variable. -/
theorem msgUnify_least_twice :
    let e0 : Expr Nat := .app 5 [.atom 0, .atom 1, .app 7 [.atom 0]]
    let e1 : Expr Nat := .app 5 [.atom 2, .atom 3, .app 7 [.atom 2]]
    let g : Expr Nat := .app 5 [.var ⟨.n, 0⟩, .var ⟨.n, 1⟩, .app 7 [.var ⟨.n, 0⟩]]
    msgUnify (fun a b => .var (freshVar (a, b))) e0 e1 = g ∧
      ∀ (h : Expr Nat) (σ0 σ1 : Var → Expr Nat), h.bind σ0 = e0 → h.bind σ1 = e1 → ∃ σ, h.bind σ = g :=
  ⟨by decide, (msgUnify_least _ _ freshVar (by decide) (by decide)).2.2.1⟩

end Culibs.Cuex.Algo
