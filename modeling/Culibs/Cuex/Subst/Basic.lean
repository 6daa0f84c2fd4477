import Culibs.Cu.Int
import Culibs.Foundation.Term

/-! Substitutions of `cuex/subst.c`: tables from variables to classes of variables
with an optional value, where a clone looks up in the substitution it shadows what
is not in its own table. -/

namespace Culibs.Cuex

/-- `cuex_qcode_t`. -/
inductive Qcode where
  | u | e | w | n
deriving DecidableEq

/-- `cuex_qcset_t` as the bit field it is stored in. -/
abbrev Qcset := BitVec 8

def Qcode.toNat : Qcode → Nat
  | u => 0
  | e => 1
  | w => 2
  | n => 3

/-- `cuex_qcset_contains`. -/
def Qcset.contains (S : Qcset) (qc : Qcode) : Bool := (1#8 <<< qc.toNat) &&& S != 0

/-- `cuex_var_t`. -/
structure Var where
  qcode : Qcode
  index : Nat
deriving DecidableEq

/-- The expressions that substitutions look into: operators, variables, and anything else as atoms. The operator and
the number of operands are the meta of an operation. -/
abbrev Expr (α : Type) := Term α Word Var

namespace Subst

/-- A `cucon_pmap` of the variables of a substitution to the addresses of their classes. -/
abbrev Pmap := List (Var × Nat)

/-- `cucon_pmap_find_ptr`. -/
def Pmap.find (map : Pmap) (var : Var) : Option Nat :=
  match map with
  | [] => none
  | (key, veqv) :: rest => if key = var then some veqv else Pmap.find rest var

/-- `cucon_pmap_replace_ptr`. -/
def Pmap.replace (map : Pmap) (var : Var) (veqv : Nat) : Pmap :=
  match map with
  | [] => [(var, veqv)]
  | (key, old) :: rest => if key = var then (key, veqv) :: rest else (key, old) :: Pmap.replace rest var veqv

end Subst

open Subst

/-- `struct cuex_veqv`, where `varLink` is never empty. -/
structure Veqv (α : Type) where
  qcode : Qcode
  varLink : List Var
  value : Option (Expr α)

/-- `struct cuex_subst`. -/
structure Subst where
  cloneCnt : Nat
  shadowAccessCnt : Nat
  shadowed : Option Nat
  varToVeqv : Pmap
  qcset : Qcset
  isIdem : Bool

/-- The substitutions and classes of the heap, and the order in which the elements of a table come in an iteration. -/
structure World (α : Type) where
  substs : Nat → Subst
  nextSubst : Nat
  veqvs : Nat → Veqv α
  nextVeqv : Nat
  iterOrder : Pmap → Pmap

namespace World

variable {α : Type} (world : World α)

def setSubst (subst : Nat) (new : Subst) : World α := { world with substs := Function.update world.substs subst new }

def setTable (subst : Nat) (varToVeqv : Pmap) : World α :=
  world.setSubst subst { world.substs subst with varToVeqv }

def setVeqv (veqv : Nat) (new : Veqv α) : World α := { world with veqvs := Function.update world.veqvs veqv new }

def setValue (veqv : Nat) (value : Option (Expr α)) : World α :=
  world.setVeqv veqv { world.veqvs veqv with value }

def newVeqv (new : Veqv α) : World α × Nat :=
  ({ world.setVeqv world.nextVeqv new with nextVeqv := world.nextVeqv + 1 }, world.nextVeqv)

def newSubst (new : Subst) : World α × Nat :=
  ({ world.setSubst world.nextSubst new with nextSubst := world.nextSubst + 1 }, world.nextSubst)

end World

namespace Subst

variable {α : Type}

/-- `cuex_veqv_new`. -/
def veqvNew (var : Var) : Veqv α := { qcode := var.qcode, varLink := [var], value := none }

/-- `cuex_veqv_unify`, as the new contents of `veqv1`. -/
def veqvUnify (veqv0 veqv1 : Veqv α) (newValue : Option (Expr α)) : Veqv α where
  qcode := if veqv1.qcode = .w then veqv0.qcode else veqv1.qcode
  varLink :=
    match veqv1.varLink with
    | [] => []
    | headVar :: rest =>
      headVar :: veqv0.varLink.foldl (fun link var => if var ∈ veqv1.varLink then link else var :: link) rest
  value := newValue

/-- `cuex_subst_new`. -/
def new (world : World α) (qcset : Qcset) : World α × Nat :=
  world.newSubst { cloneCnt := 1, shadowAccessCnt := 0, shadowed := none, varToVeqv := [], qcset, isIdem := true }

/-- `_subst_merge_cb_copy`. -/
def mergeCbCopy (dst : Nat) (world : World α) (entry : Var × Nat) : World α :=
  match (world.veqvs entry.2).varLink with
  | [] => world
  | headVar :: rest =>
    if entry.1 = headVar ∧ (world.substs dst).varToVeqv.find entry.1 = none then
      let (world, veqv) := world.newVeqv (world.veqvs entry.2)
      world.setTable dst ((headVar :: rest).foldl (fun map var => map.replace var veqv) (world.substs dst).varToVeqv)
    else world

/-- `cuexP_subst_merge`, for a substitution that shadows another. -/
def merge (world : World α) (dst : Nat) : World α :=
  match (world.substs dst).shadowed with
  | none => world
  | some src =>
    let next := (world.substs src).shadowed
    let world :=
      if (world.substs src).cloneCnt = 1 then
        let srcMap := (world.substs src).varToVeqv
        let dstMap := (world.substs dst).varToVeqv
        let swap := decide (srcMap.length > dstMap.length)
        let world := if swap then (world.setTable src dstMap).setTable dst srcMap else world
        world.setTable dst ((world.iterOrder (world.substs src).varToVeqv).foldl
          (fun map entry => map.replace entry.1 entry.2) (world.substs dst).varToVeqv)
      else (world.iterOrder (world.substs src).varToVeqv).foldl (mergeCbCopy dst) world
    world.setSubst dst { world.substs dst with shadowed := next }

/-- The loop of `cuex_subst_cref`. Each round leaves one substitution less to look into. -/
def crefLoop : Nat → World α → Nat → Var → World α × Option Nat
  | 0, world, _, _ => (world, none)
  | rounds + 1, world, subst, var =>
    match (world.substs subst).varToVeqv.find var with
    | some veqv => (world, some veqv)
    | none =>
      match (world.substs subst).shadowed with
      | none => (world, none)
      | some substSh =>
        let accesses := (world.substs subst).shadowAccessCnt + 1
        let world := world.setSubst subst { world.substs subst with shadowAccessCnt := accesses }
        if 4 * (world.substs substSh).varToVeqv.length < accesses then
          crefLoop rounds (merge world subst) subst var
        else crefLoop rounds world substSh var

/-- `cuex_subst_cref`. What a substitution shadows is older, which bounds the rounds. -/
def cref (world : World α) (subst : Nat) (var : Var) : World α × Option Nat := crefLoop (subst + 1) world subst var

/-- `cuex_subst_mref`. -/
def mref (world : World α) (subst : Nat) (var : Var) : World α × Nat :=
  match (world.substs subst).varToVeqv.find var with
  | some veqv => (world, veqv)
  | none =>
    let (world, source) :=
      match (world.substs subst).shadowed with
      | none => (world, none)
      | some shadowed => cref world shadowed var
    match source with
    | some veqvSrc =>
      let (world, veqv) := world.newVeqv (world.veqvs veqvSrc)
      let map := (world.substs subst).varToVeqv.replace var veqv
      (world.setTable subst ((world.veqvs veqv).varLink.foldl
        (fun map var0 => if var0 = var then map else map.replace var0 veqv) map), veqv)
    | none =>
      let (world, veqv) := world.newVeqv (veqvNew var)
      (world.setTable subst ((world.substs subst).varToVeqv.replace var veqv), veqv)

/-! Functions that recurse through the values of variables have a bound on the depth of the recursion, and are
`none` where it does not suffice. -/

/-- A test of operands up to the first for which it is true. -/
def anyOperand (test : World α → Expr α → Option (World α × Bool)) (world : World α) :
    List (Expr α) → Option (World α × Bool)
  | [] => some (world, false)
  | operand :: operands => do
    let (world, found) ← test world operand
    if found then some (world, true) else anyOperand test world operands

/-- `cuex_subst_ex_contains_veqv`. -/
def exContainsVeqv (subst veqv : Nat) : Nat → World α → Expr α → Option (World α × Bool)
  | 0, _, _ => none
  | fuel + 1, world, ex =>
    match ex with
    | .app _ operands => anyOperand (exContainsVeqv subst veqv fuel) world operands
    | .var var =>
      match cref world subst var with
      | (world, none) => some (world, false)
      | (world, some subveqv) =>
        if subveqv = veqv then some (world, true)
        else
          match (world.veqvs subveqv).value with
          | some value => exContainsVeqv subst veqv fuel world value
          | none => some (world, false)
    | .atom _ => some (world, false)

/-- `occur_check_and_set_var`. -/
def occurCheckAndSetVar (subst : Nat) (fuel : Nat) (world : World α) (veqv : Nat) (ex : Expr α) :
    Option (World α × Bool) := do
  let (world, contains) ←
    if (world.substs subst).isIdem then exContainsVeqv subst veqv fuel world ex else some (world, false)
  if contains then some (world, false) else some (world.setValue veqv (some ex), true)

/-- Whether the value of a class, if it has one, contains a class. -/
def valueContains (subst : Nat) (fuel : Nat) (world : World α) (vq other : Nat) : Option (World α × Bool) :=
  match (world.veqvs vq).value with
  | some value => exContainsVeqv subst other fuel world value
  | none => some (world, false)

/-- The test of two classes before they are unified. -/
def mutuallyContain (subst : Nat) (fuel : Nat) (world : World α) (vq0 vq1 : Nat) : Option (World α × Bool) :=
  if (world.substs subst).isIdem then do
    let (world, contains) ← valueContains subst fuel world vq0 vq1
    if contains then some (world, true) else valueContains subst fuel world vq1 vq0
  else some (world, false)

/-- The end of unification of variables: `vq1` becomes the class of all variables of both. -/
def unifyVeqvs (world : World α) (subst vq0 vq1 : Nat) (value : Option (Expr α)) : World α :=
  let vq2 := veqvUnify (world.veqvs vq0) (world.veqvs vq1) value
  vq2.varLink.foldl
    (fun world var =>
      let (world, current) := cref world subst var
      if current = some vq1 then world
      else world.setTable subst ((world.substs subst).varToVeqv.replace var vq1))
    (world.setVeqv vq1 vq2)

/-- A variable that may be substituted. -/
def unifiableVar (qcset : Qcset) (ex : Expr α) : Option Var :=
  match ex with
  | .var var => if qcset.contains var.qcode then some var else none
  | _ => none

/-- The loop over the operands of two operations. -/
def unifyOperands (unify : World α → Expr α → Expr α → Option (World α × Option (Expr α))) (world : World α) :
    List (Expr α) → List (Expr α) → Option (World α × Option (List (Expr α)))
  | ex0 :: operands0, ex1 :: operands1 => do
    let (world, operand) ← unify world ex0 ex1
    match operand with
    | none => some (world, none)
    | some operand =>
      let (world, operands) ← unifyOperands unify world operands0 operands1
      some (world, operands.map (operand :: ·))
  | _, _ => some (world, some [])

variable [DecidableEq α]

/-- `cuex_subst_unify_aux` without `aux_unify`. The result is `none` where the code returns `NULL`. -/
def unifyAux (subst : Nat) : Nat → World α → Expr α → Expr α → Option (World α × Option (Expr α))
  | 0, _, _, _ => none
  | fuel + 1, world, ex0, ex1 =>
    if ex0 = ex1 then some (world, some ex0)
    else
      let qcset := (world.substs subst).qcset
      match unifiableVar qcset ex0, unifiableVar qcset ex1 with
      | some var0, some var1 =>
        let (world, vq0) := mref world subst var0
        let (world, vq1) := mref world subst var1
        if vq0 = vq1 then some (world, some ex0)
        else do
          let (world, cyclic) ← mutuallyContain subst fuel world vq0 vq1
          if cyclic then some (world, none)
          else
            match (world.veqvs vq0).value, (world.veqvs vq1).value with
            | some value0, some value1 => do
              let (world, value) ← unifyAux subst fuel world value0 value1
              match value with
              | none => some (world, none)
              | some value => some (unifyVeqvs world subst vq0 vq1 (some value), some value)
            | some value, none => some (unifyVeqvs world subst vq0 vq1 (some value), some value)
            | none, some value => some (unifyVeqvs world subst vq0 vq1 (some value), some value)
            | none, none => some (unifyVeqvs world subst vq0 vq1 none, some ex0)
      | some var0, none =>
        let (world, vq0) := mref world subst var0
        match (world.veqvs vq0).value with
        | some value0 => do
          let (world, value) ← unifyAux subst fuel world value0 ex1
          match value with
          | none => some (world, none)
          | some value => some (world.setValue vq0 (some value), some value)
        | none => do
          let (world, set) ← occurCheckAndSetVar subst fuel world vq0 ex1
          some (world, if set then some ex0 else none)
      | none, some var1 =>
        let (world, vq1) := mref world subst var1
        match (world.veqvs vq1).value with
        | some value1 => do
          let (world, value) ← unifyAux subst fuel world ex0 value1
          match value with
          | none => some (world, none)
          | some value => some (world.setValue vq1 (some value), some value)
        | none => do
          let (world, set) ← occurCheckAndSetVar subst fuel world vq1 ex0
          some (world, if set then some ex1 else none)
      | none, none =>
        match ex0, ex1 with
        | .app opr0 operands0, .app opr1 operands1 =>
          if opr0 = opr1 ∧ operands0.length = operands1.length then do
            let (world, operands) ← unifyOperands (unifyAux subst fuel) world operands0 operands1
            some (world, operands.map (.app opr0))
          else some (world, none)
        | _, _ => some (world, none)

/-- `cuex_subst_unify`. -/
def unify (subst : Nat) (fuel : Nat) (world : World α) (ex0 ex1 : Expr α) : Option (World α × Bool) := do
  let (world, ex) ← unifyAux subst fuel world ex0 ex1
  some (world, ex.isSome)

/-! The operator `CUEX_O1_SUBST_BLOCK` at the top of a value blocks the variable. -/

def isBlock (o1SubstBlock : Word) (value : Expr α) : Bool :=
  match value with
  | .app opr _ => opr = o1SubstBlock
  | _ => false

/-- The loop over the operands in `CUEX_OPN_TRAN`. -/
def tranOperands (tran : World α → Expr α → Option (World α × Expr α)) (world : World α) :
    List (Expr α) → Option (World α × List (Expr α))
  | [] => some (world, [])
  | operand :: operands => do
    let (world, operand) ← tran world operand
    let (world, operands) ← tranOperands tran world operands
    some (world, operand :: operands)

/-- `cuexP_subst_apply`, which is `cuex_subst_apply` for an idempotent substitution. -/
def apply (o1SubstBlock : Word) (subst : Nat) : Nat → World α → Expr α → Option (World α × Expr α)
  | 0, _, _ => none
  | fuel + 1, world, ex =>
    match ex with
    | .var var =>
      match cref world subst var with
      | (world, none) => some (world, ex)
      | (world, some vq) =>
        match (world.veqvs vq).value with
        | some value =>
          if isBlock o1SubstBlock value then some (world, ex) else apply o1SubstBlock subst fuel world value
        | none => some (world, ((world.veqvs vq).varLink.head?.map .var).getD ex)
    | .app opr operands => do
      let (world, operands) ← tranOperands (apply o1SubstBlock subst fuel) world operands
      some (world, .app opr operands)
    | .atom _ => some (world, ex)

end Subst

end Culibs.Cuex
