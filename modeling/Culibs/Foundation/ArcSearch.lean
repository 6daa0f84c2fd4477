import Mathlib.Logic.Relation

/-! Strong connection, and a depth-first search that keeps some of the arcs. -/

namespace Culibs.ArcSearch

open Relation

variable {α : Type*}

/-- Each of two nodes is reachable from the other. -/
def Strong (next : α → α → Prop) (a b : α) : Prop := ReflTransGen next a b ∧ ReflTransGen next b a

theorem Strong.of_arc (arc : next a b) (back : ReflTransGen next b a) :
    Strong next a b :=
  ⟨.single arc, back⟩

structure Search (α : Type*) where
  seen : List α
  kept : List (α × α)

namespace Search

variable [DecidableEq α]

def start : Search α := ⟨[], []⟩

def keep (s : Search α) (a b : α) : Search α := { s with kept := (a, b) :: s.kept }

def see (s : Search α) (a : α) : Search α := { s with seen := a :: s.seen }

/-- One arc, from an active node to `b`. It is kept if it leads to a new node or to an active one. -/
def arc (visit : α → Search α → Search α) (active : List α) (a : α) (s : Search α) (b : α) : Search α :=
  if b ∈ s.seen then if b ∈ a :: active then s.keep a b else s else visit b (s.keep a b)

/-- Visit a new node from the active ones. -/
def visit (adjacent : α → List α) : Nat → List α → α → Search α → Search α
  | 0, _, _, s => s
  | fuel + 1, active, a, s =>
    (adjacent a).foldl (arc (fun b s => visit adjacent fuel (a :: active) b s) active a) (s.see a)

/-- Visit all nodes of a list, in its order. -/
def all (adjacent : α → List α) (nodes : List α) : Search α :=
  nodes.foldl (fun s a => if a ∈ s.seen then s else visit adjacent (nodes.length + 1) [] a s) start

omit [DecidableEq α]

/-- The arcs that have been kept. -/
def Kept (s : Search α) (a b : α) : Prop := (a, b) ∈ s.kept

abbrev Reach (s : Search α) : α → α → Prop := ReflTransGen s.Kept

variable {s s' : Search α} {a b c d : α}

theorem Reach.mono (more : s.kept ⊆ s'.kept) (reach : s.Reach a b) : s'.Reach a b :=
  ReflTransGen.mono (fun _ _ kept => more kept) _ _ reach

theorem Reach.keep (c d : α) (reach : s.Reach a b) : (s.keep c d).Reach a b :=
  reach.mono (List.subset_cons_self ..)

@[simp] theorem seen_keep : (s.keep a b).seen = s.seen := rfl

@[simp] theorem seen_see : (s.see a).seen = a :: s.seen := rfl

theorem kept_keep : (s.keep c d).Kept a b ↔ a = c ∧ b = d ∨ s.Kept a b := by
  simp [Kept, keep]

end Search

end Culibs.ArcSearch
