import Mathlib.Data.Finset.Union

/-! Variables in the unfolding of recursive expressions, from `cuex/unfolded_fv_sets.c`.
Expressions are shared, so equal expressions are one pointer. -/

namespace Culibs.Cuex.Binding

section Model

/-- Expressions with de Bruijn indices. The operator of `opn` is in neither of the groups of holes and binders, and
that of `binder` is a binder different from `CUEX_O1_MU`. -/
inductive Expr where
  | hole (index : Nat)
  | opn (opr : Nat) (args : List Expr)
  | binder (opr : Nat) (args : List Expr)
  | mu (body : Expr)

namespace Expr

@[elab_as_elim] theorem inductArgs {P : Expr → Prop} (hole : ∀ index, P (.hole index))
    (opn : ∀ opr args, (∀ e ∈ args, P e) → P (.opn opr args))
    (binder : ∀ opr args, (∀ e ∈ args, P e) → P (.binder opr args)) (mu : ∀ body, P body → P (.mu body)) (e : Expr) :
    P e :=
  @Expr.rec P (fun args => ∀ e ∈ args, P e) hole opn binder mu (fun _ mem => nomatch mem)
    (fun _ _ first rest => List.forall_mem_cons.mpr ⟨first, rest⟩) e

mutual

def decEq : (s t : Expr) → Decidable (s = t)
  | hole i, hole j => decidable_of_iff (i = j) (by simp)
  | opn f ss, opn g ts =>
    have := decEqArgs ss ts
    decidable_of_iff (f = g ∧ ss = ts) (by simp)
  | binder f ss, binder g ts =>
    have := decEqArgs ss ts
    decidable_of_iff (f = g ∧ ss = ts) (by simp)
  | mu s, mu t =>
    have := decEq s t
    decidable_of_iff (s = t) (by simp)
  | hole _, opn .. | hole _, binder .. | hole _, mu _ | opn .., hole _ | opn .., binder .. | opn .., mu _
  | binder .., hole _ | binder .., opn .. | binder .., mu _ | mu _, hole _ | mu _, opn .. | mu _, binder .. =>
    isFalse nofun
termination_by structural x => x

def decEqArgs : (ss ts : List Expr) → Decidable (ss = ts)
  | [], [] => isTrue rfl
  | s :: ss, t :: ts =>
    have := decEq s t
    have := decEqArgs ss ts
    decidable_of_iff (s = t ∧ ss = ts) (by simp)
  | [], _ :: _ | _ :: _, [] => isFalse nofun
termination_by structural x => x

end

instance : DecidableEq Expr := decEq

mutual

def size : Expr → Nat
  | hole _ => 1
  | opn _ args => sizeArgs args + 1
  | binder _ args => sizeArgs args + 1
  | mu body => size body + 1

def sizeArgs : List Expr → Nat
  | [] => 0
  | e :: args => size e + sizeArgs args

end

mutual

def maxBindingDepth : Expr → Nat
  | hole _ => 0
  | opn _ args => maxBindingDepthArgs args
  | binder _ args => maxBindingDepthArgs args + 1
  | mu body => maxBindingDepth body + 1

def maxBindingDepthArgs : List Expr → Nat
  | [] => 0
  | e :: args => max (maxBindingDepth e) (maxBindingDepthArgs args)

end

end Expr

/-- An `FBI_link_s`, which points to the entry of `e` in the map of flat binding infos. -/
structure FbiLink where
  e : Expr
  depth : Nat

/-- The flat binding info of the body of a mu-bind: the free variables, and the next mu-binds inside. -/
structure Fbi where
  fvset : Finset Nat
  subChain : List FbiLink

def Fbi.init : Fbi := { fvset := ∅, subChain := [] }

/-- The variables that `compute_FBI_propagate` moves to the set of the enclosing mu-bind. -/
def propagate (targetIndex : Nat) (fvset : Finset Nat) : Finset Nat :=
  (fvset.filter (targetIndex ≤ ·)).image (· - targetIndex)

mutual

/-- The binding info of the enclosing mu-bind and the map of all of them, after the pass over an expression. -/
def computeFbi : Expr → Nat → Fbi × (Expr → Option Fbi) → Fbi × (Expr → Option Fbi)
  | .hole index, depth, (fbi, eToFbi) =>
    (if depth ≤ index then { fbi with fvset := insert (index - depth) fbi.fvset } else fbi, eToFbi)
  | .opn _ args, depth, st => computeFbiArgs args depth st
  | .binder _ args, depth, st => computeFbiArgs args (depth + 1) st
  | .mu body, depth, (fbi, eToFbi) =>
    let depth := depth + 1
    let subChain := { e := .mu body, depth := depth } :: fbi.subChain
    let st := match eToFbi (.mu body) with
      | some subFbi => (subFbi, eToFbi)
      | none =>
        let st := computeFbi body 0 (.init, Function.update eToFbi (.mu body) (some .init))
        (st.1, Function.update st.2 (.mu body) (some st.1))
    ({ fvset := fbi.fvset ∪ propagate depth st.1.fvset, subChain := subChain }, st.2)

def computeFbiArgs : List Expr → Nat → Fbi × (Expr → Option Fbi) → Fbi × (Expr → Option Fbi)
  | [], _, st => st
  | e :: args, depth, st => computeFbiArgs args depth (computeFbi e depth st)

end

/-- The keys of the result: the null pointer, an expression, or an operation of `CUEX_O2_MUPATH` with its bits. -/
inductive MuCtx where
  | null
  | expr (e : Expr)
  | mupath (select : Nat) (headSeq : MuCtx) (tailComp : Expr)
deriving DecidableEq

/-- The operator number of `CUEX_O2_MUPATH`. -/
def mupathSelect : Nat := 0x7000

/-- The level difference is put on the operator number without a mask. -/
def mupathPair (levelDiff : Nat) (headSeq : MuCtx) (tailComp : Expr) : MuCtx :=
  if headSeq = .null then .expr tailComp else .mupath (mupathSelect ||| levelDiff) headSeq tailComp

/-- The result so far, and the stack of pointers to sets of it. -/
structure Ubi where
  fiimap : MuCtx → Option (Finset Nat)
  usp : Nat → Option MuCtx

/-- What `compute_UBI_mvar` inserts for a variable. -/
def mvarUnion (ubi : Ubi) (sp spMax key : Nat) : Finset Nat :=
  if key = 0 then ∅
  else if sp + key < spMax then
    match ubi.usp (sp + key) with
    | some fiictx => ((ubi.fiimap fiictx).getD ∅).image (· + key)
    | none => {key}
  else {key}

/-- One round of the loop of `compute_UBI`. The assertion on the stack fails with `none`. -/
def ubiLink (eToFbi : Expr → Option Fbi) (spMax : Nat) (rest : List FbiLink → MuCtx → Nat → Ubi → Option Ubi)
    (superFiictx : MuCtx) (superSp : Nat) (ubi : Ubi) (link : FbiLink) : Option Ubi :=
  match eToFbi link.e with
  | none => none
  | some fbi =>
    let fiictx := mupathPair link.depth superFiictx link.e
    if (ubi.fiimap fiictx).isSome then some ubi
    else if superSp < link.depth then none
    else
      let sp := superSp - link.depth
      let usp := fun i => if i = sp then some fiictx else if sp < i ∧ i < superSp then none else ubi.usp i
      let lambdaVars := fbi.fvset.biUnion (mvarUnion { ubi with usp := usp } sp spMax)
      rest fbi.subChain fiictx sp { fiimap := Function.update ubi.fiimap fiictx (some lambdaVars), usp := usp }

def computeUbi (eToFbi : Expr → Option Fbi) (spMax : Nat) : Nat → List FbiLink → MuCtx → Nat → Ubi → Option Ubi
  | 0, _, _, _, _ => none
  | fuel + 1, links, superFiictx, superSp, ubi =>
    links.foldlM (ubiLink eToFbi spMax (computeUbi eToFbi spMax fuel) superFiictx superSp) ubi

def unfoldedFvSets (fuel : Nat) (e : Expr) (maxBindingDepth : Int) : Option (MuCtx → Option (Finset Nat)) :=
  let flat := computeFbi e 0 (.init, fun _ => none)
  let maxDepth := if maxBindingDepth ≥ 0 then maxBindingDepth.toNat else e.maxBindingDepth
  (computeUbi flat.2 maxDepth fuel flat.1.subChain .null maxDepth { fiimap := fun _ => none, usp := fun _ => none }).map
    Ubi.fiimap

end Model

section Unfolding

/-- A variable is free in an expression that is not unfolded. -/
inductive Free : Expr → Nat → Prop
  | hole (index : Nat) : Free (.hole index) index
  | opn {opr : Nat} {args : List Expr} {e : Expr} {k : Nat} (member : e ∈ args) (free : Free e k) : Free (.opn opr args) k
  | binder {opr : Nat} {args : List Expr} {e : Expr} {k : Nat} (member : e ∈ args) (free : Free e (k + 1)) :
      Free (.binder opr args) k
  | mu {body : Expr} {k : Nat} (free : Free body (k + 1)) : Free (.mu body) k

@[simp] theorem free_hole : Free (.hole index) k ↔ k = index := by
  constructor
  · rintro ⟨⟩
    rfl
  · rintro rfl
    exact .hole k

@[simp] theorem free_opn : Free (.opn opr args) k ↔ ∃ e ∈ args, Free e k := by
  constructor
  · rintro (_ | ⟨mem, free⟩)
    exact ⟨_, mem, free⟩
  · rintro ⟨e, mem, free⟩
    exact .opn mem free

@[simp] theorem free_binder :
    Free (.binder opr args) k ↔ ∃ e ∈ args, Free e (k + 1) := by
  constructor
  · rintro (_ | _ | ⟨mem, free⟩)
    exact ⟨_, mem, free⟩
  · rintro ⟨e, mem, free⟩
    exact .binder mem free

@[simp] theorem free_mu : Free (.mu body) k ↔ Free body (k + 1) := by
  constructor
  · rintro (_ | _ | _ | free)
    exact free
  · exact .mu

/-- A binding site around an expression. -/
inductive Site where
  | lambda
  | mu (body : Expr)

/-- The variable `k` occurs free in the infinite unfolding of an expression inside of the given sites, the innermost
first. A variable of a mu-bind is expanded where the mu-bind stands. -/
inductive Occurs : List Site → Expr → Nat → Prop
  | hole {sites : List Site} {index : Nat} (other : ∀ body, sites[index]? ≠ some (.mu body)) :
      Occurs sites (.hole index) index
  | expand {sites : List Site} {index k : Nat} {body : Expr} (site : sites[index]? = some (.mu body))
      (occurs : Occurs (sites.drop index) body k) : Occurs sites (.hole index) (index + k)
  | opn {sites : List Site} {opr k : Nat} {args : List Expr} {e : Expr} (member : e ∈ args) (occurs : Occurs sites e k) :
      Occurs sites (.opn opr args) k
  | binder {sites : List Site} {opr k : Nat} {args : List Expr} {e : Expr} (member : e ∈ args)
      (occurs : Occurs (.lambda :: sites) e (k + 1)) : Occurs sites (.binder opr args) k
  | mu {sites : List Site} {k : Nat} {body : Expr} (occurs : Occurs (.mu body :: sites) body (k + 1)) :
      Occurs sites (.mu body) k

/-- The variables that a free variable stands for, when the mu-binds are expanded from the inside out. -/
inductive Reaches : List Site → Nat → Nat → Prop
  | stop {sites : List Site} {key : Nat} (other : ∀ body, sites[key]? ≠ some (.mu body)) : Reaches sites key key
  | expand {sites : List Site} {key key' k : Nat} {body : Expr} (site : sites[key]? = some (.mu body))
      (free : Free body key') (outward : key' ≠ 0) (reaches : Reaches (sites.drop key) key' k) :
      Reaches sites key (key + k)

variable {sites : List Site} {site : Site} {body e : Expr} {key k : Nat}

theorem reaches_succ_iff : Reaches (site :: sites) (key + 1) (k + 1) ↔ Reaches sites key k := by
  constructor
  · intro reaches
    generalize isKey : key + 1 = key1 at reaches
    generalize isVar : k + 1 = k1 at reaches
    cases reaches with
    | stop other =>
      have same : k = key := by omega
      subst isKey same
      exact .stop fun body => by simpa using other body
    | @expand _ _ key' k' body isSite free outward rest =>
      subst isKey
      have same : k = key + k' := by omega
      subst same
      exact .expand (by simpa using isSite) free outward (by simpa using rest)
  · intro reaches
    cases reaches with
    | stop other => exact .stop fun body => by simpa using other body
    | @expand _ _ key' k' body isSite free outward rest =>
      have same : key + k' + 1 = key + 1 + k' := by omega
      rw [same]
      exact .expand (by simpa using isSite) free outward (by simpa using rest)

theorem reaches_lambda_zero : ¬ Reaches (.lambda :: sites) 0 (k + 1) := by
  intro reaches
  generalize isVar : k + 1 = k1 at reaches
  cases reaches with
  | stop _ => omega
  | expand isSite _ _ _ => simp at isSite

/-- The variable of a mu-bind stands for its other free variables. -/
theorem reaches_mu_zero_iff : Reaches (.mu body :: sites) 0 k ↔
    ∃ key, Free body key ∧ key ≠ 0 ∧ Reaches (.mu body :: sites) key k := by
  constructor
  · intro reaches
    cases reaches with
    | stop other => exact absurd rfl (other body)
    | expand isSite free outward rest =>
      cases isSite
      exact ⟨_, free, outward, by simpa using rest⟩
  · rintro ⟨key, free, outward, rest⟩
    have reaches : Reaches (.mu body :: sites) 0 (0 + k) := .expand rfl free outward rest
    rwa [zero_add] at reaches

theorem occurs_hole_succ (occurs : Occurs sites (.hole key) k) : Occurs (site :: sites) (.hole (key + 1)) (k + 1) := by
  cases occurs with
  | hole other => exact .hole fun body => by simpa using other body
  | @expand _ _ k' body isSite rest =>
    have same : key + k' + 1 = key + 1 + k' := by omega
    rw [same]
    exact .expand (by simpa using isSite) (by simpa using rest)

theorem occurs_of_free (free : Free e key) (occurs : Occurs sites (.hole key) k) : Occurs sites e k := by
  induction free generalizing sites k with
  | hole index => exact occurs
  | opn mem free ih => exact .opn mem (ih occurs)
  | binder mem free ih => exact .binder mem (ih (occurs_hole_succ occurs))
  | mu free ih => exact .mu (ih (occurs_hole_succ occurs))

theorem Reaches.occurs (reaches : Reaches sites key k) : Occurs sites (.hole key) k := by
  induction reaches with
  | stop other => exact .hole other
  | expand isSite free outward rest ih => exact .expand isSite (occurs_of_free free ih)

/-- The variables that occur in the unfolding are those that a free variable stands for. -/
theorem occurs_iff : Occurs sites e k ↔ ∃ key, Free e key ∧ Reaches sites key k := by
  constructor
  · intro occurs
    induction occurs with
    | hole other => exact ⟨_, .hole _, .stop other⟩
    | @expand sites index k body isSite occurs ih =>
      obtain ⟨key, free, reaches⟩ := ih
      refine ⟨index, .hole index, ?_⟩
      by_cases own : key = 0
      · subst own
        obtain ⟨rest, split⟩ : ∃ rest, sites.drop index = .mu body :: rest := by
          obtain ⟨bound, isMu⟩ := List.getElem?_eq_some_iff.mp isSite
          exact ⟨sites.drop (index + 1), by rw [List.drop_eq_getElem_cons bound, isMu]⟩
        rw [split] at reaches
        obtain ⟨key, free', outward, reaches⟩ := reaches_mu_zero_iff.mp reaches
        rw [← split] at reaches
        exact .expand isSite free' outward reaches
      · exact .expand isSite free own reaches
    | opn mem occurs ih =>
      obtain ⟨key, free, reaches⟩ := ih
      exact ⟨key, .opn mem free, reaches⟩
    | binder mem occurs ih =>
      obtain ⟨_ | key, free, reaches⟩ := ih
      · exact absurd reaches reaches_lambda_zero
      · exact ⟨key, .binder mem free, reaches_succ_iff.mp reaches⟩
    | mu occurs ih =>
      obtain ⟨key, free, reaches⟩ := ih
      obtain ⟨_ | key, free, reaches, outward⟩ : ∃ key, Free _ key ∧ Reaches _ key _ ∧ key ≠ 0 := by
        by_cases own : key = 0
        · subst own
          obtain ⟨key, free', outward, reaches⟩ := reaches_mu_zero_iff.mp reaches
          exact ⟨key, free', reaches, outward⟩
        · exact ⟨key, free, reaches, own⟩
      · exact absurd rfl outward
      · exact ⟨key, .mu free, reaches_succ_iff.mp reaches⟩
  · rintro ⟨key, free, reaches⟩
    exact occurs_of_free free reaches.occurs

/-- No variable of a mu-bind itself occurs, all other indices stay outside of it. -/
theorem not_occurs_zero : ¬ Occurs (.mu body :: sites) e 0 := by
  rw [occurs_iff]
  rintro ⟨key, -, reaches⟩
  generalize isVar : 0 = k at reaches
  generalize isSites : Site.mu body :: sites = all at reaches
  induction reaches generalizing sites body with
  | stop other =>
    subst isVar isSites
    exact other body rfl
  | @expand all key key' k body' isSite free outward rest ih =>
    have zero : key = 0 ∧ k = 0 := by omega
    obtain ⟨rfl, rfl⟩ := zero
    subst isSites
    exact ih rfl (by rw [List.drop_zero])

end Unfolding

end Culibs.Cuex.Binding
