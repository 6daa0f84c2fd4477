import Culibs.Cuex.Atree.Basic
import Culibs.Cuex.Ltree.Basic

namespace Culibs.Cuex

/-- `cuex_t`: an operation, a compound object of `semilattice.c`, `labelling.c` or
`monoid.c`, or any other object. -/
inductive Ex (α : Type) where
  | object (object : α)
  | opn (opr : Word) (operands : List (Ex α))
  | semilattice (meet : Word) (atree : Option (Atree (Ex α)))
  | labelling (atree : Option (Atree (Ex α)))
  | monoid (opr : Word) (ltree : Option (Ltree (Ex α)))

namespace Ex

variable {α : Type} [DecidableEq α]

mutual

def decEq : (x y : Ex α) → Decidable (x = y)
  | object a, object b => decidable_of_iff (a = b) (by simp)
  | opn f v, opn g w =>
    have := decEqOperands v w
    decidable_of_iff (f = g ∧ v = w) (by simp)
  | semilattice m s, semilattice n t =>
    have := decEqTree s t
    decidable_of_iff (m = n ∧ s = t) (by simp)
  | labelling s, labelling t =>
    have := decEqTree s t
    decidable_of_iff (s = t) (by simp)
  | monoid f s, monoid g t =>
    have := decEqSequence s t
    decidable_of_iff (f = g ∧ s = t) (by simp)
  | object _, opn .. | object _, semilattice .. | object _, labelling .. | object _, monoid .. => isFalse nofun
  | opn .., object _ | opn .., semilattice .. | opn .., labelling .. | opn .., monoid .. => isFalse nofun
  | semilattice .., object _ | semilattice .., opn .. | semilattice .., labelling .. | semilattice .., monoid .. =>
    isFalse nofun
  | labelling _, object _ | labelling _, opn .. | labelling _, semilattice .. | labelling _, monoid .. =>
    isFalse nofun
  | monoid .., object _ | monoid .., opn .. | monoid .., semilattice .. | monoid .., labelling _ => isFalse nofun
termination_by structural x => x

def decEqOperands : (v w : List (Ex α)) → Decidable (v = w)
  | [], [] => isTrue rfl
  | x :: v, y :: w =>
    have := decEq x y
    have := decEqOperands v w
    decidable_of_iff (x = y ∧ v = w) (by simp)
  | [], _ :: _ | _ :: _, [] => isFalse nofun
termination_by structural x => x

def decEqTree : (s t : Option (Atree (Ex α))) → Decidable (s = t)
  | none, none => isTrue rfl
  | some s, some t =>
    have := decEqAnode s t
    decidable_of_iff (s = t) (by simp)
  | none, some _ | some _, none => isFalse nofun
termination_by structural x => x

def decEqAnode : (s t : Atree (Ex α)) → Decidable (s = t)
  | .leaf x, .leaf y =>
    have := decEq x y
    decidable_of_iff (x = y) (by simp)
  | .anode c l r, .anode c' l' r' =>
    have := decEqAnode l l'
    have := decEqAnode r r'
    decidable_of_iff (c = c' ∧ l = l' ∧ r = r') (by simp)
  | .leaf _, .anode .. | .anode .., .leaf _ => isFalse nofun
termination_by structural x => x

def decEqSequence : (s t : Option (Ltree (Ex α))) → Decidable (s = t)
  | none, none => isTrue rfl
  | some s, some t =>
    have := decEqLnode s t
    decidable_of_iff (s = t) (by simp)
  | none, some _ | some _, none => isFalse nofun
termination_by structural x => x

def decEqLnode : (s t : Ltree (Ex α)) → Decidable (s = t)
  | .leaf x, .leaf y =>
    have := decEq x y
    decidable_of_iff (x = y) (by simp)
  | .node d subs, .node d' subs' =>
    have := decEqSubs subs subs'
    decidable_of_iff (d = d' ∧ subs = subs') (by simp)
  | .leaf _, .node .. | .node .., .leaf _ => isFalse nofun
termination_by structural x => x

def decEqSubs : (v w : List (Ltree (Ex α))) → Decidable (v = w)
  | [], [] => isTrue rfl
  | x :: v, y :: w =>
    have := decEqLnode x y
    have := decEqSubs v w
    decidable_of_iff (x = y ∧ v = w) (by simp)
  | [], _ :: _ | _ :: _, [] => isFalse nofun
termination_by structural x => x

end

instance : DecidableEq (Ex α) := decEq

end Ex

/-- The objects of a heap: distinct, not `NULL`, aligned, and in the lower half of the address space. -/
structure Addresses {α : Type} (address : Ex α → Word) (live : Ex α → Prop) : Prop where
  injective : ∀ x y, live x → live y → address x = address y → x = y
  nonzero : ∀ x, live x → address x ≠ 0
  low : ∀ x, live x → (address x).msb = false
  aligned : ∀ x, live x → 2 ∣ (address x).toNat

end Culibs.Cuex
