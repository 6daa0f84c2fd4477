import Culibs.Cuex.Subst.Basic
import Culibs.Cuoo.Halloc.Consing

/-! Expressions in a hash-consing set, from `cuex/opn.c` and `cuex/var.h`. -/

namespace Culibs.Cuex

open Cuoo.Halloc Function List

/-- The meta and the key words of an object. Those of an operation are pointers to its operands. -/
inductive ExKey (α : Type) where
  | atom (a : α)
  | var (v : Var)
  | opn (opr : Word) (operands : List Nat)
deriving DecidableEq

variable {α : Type}

/-- The expression that an object stands for. -/
inductive Denotes (alive : Nat → Option (ExKey α)) : Nat → Expr α → Prop
  | atom {o : Nat} {a : α} : alive o = some (.atom a) → Denotes alive o (.atom a)
  | var {o : Nat} {v : Var} : alive o = some (.var v) → Denotes alive o (.var v)
  | opn {o : Nat} {opr : Word} {os : List Nat} {operands : List (Expr α)} : alive o = some (.opn opr os) →
      Forall₂ (Denotes alive) os operands → Denotes alive o (.app opr operands)

variable {alive : Nat → Option (ExKey α)} {os os' : List Nat} {es es' : List (Expr α)}

private theorem eq_iff_of_each (each : Forall₂ (Denotes alive) os es) (each' : Forall₂ (Denotes alive) os' es')
    (own : ∀ e ∈ es, ∀ o o' e', Denotes alive o e → Denotes alive o' e' → (o = o' ↔ e = e')) :
    os = os' ↔ es = es' := by
  induction each generalizing os' es' with
  | nil => cases each' <;> simp
  | cons first _ ih =>
    obtain ⟨own, others⟩ := forall_mem_cons.mp own
    cases each' with
    | nil => simp
    | cons first' rest' => rw [cons.injEq, cons.injEq, own _ _ _ first first', ih rest' others]

/-- Each key has one object, so that an expression has one object too. -/
theorem Denotes.eq_iff (unique : ∀ o o' key, alive o = some key → alive o' = some key → o = o')
    (denotes : Denotes alive o e) (denotes' : Denotes alive o' e') : o = o' ↔ e = e' := by
  have keys {o o' : Nat} {key key' : ExKey α} (isKey : alive o = some key) (isKey' : alive o' = some key') :
      o = o' ↔ key = key' :=
    ⟨fun same => Option.some.inj (isKey.symm.trans (same ▸ isKey')), fun same => unique o o' key isKey (same ▸ isKey')⟩
  induction e using Term.inductArgs generalizing o o' e' with
  | atom | var =>
    cases denotes with | _ isKey => cases denotes' with | _ isKey' => rw [keys isKey isKey']; simp
  | app opr operands ih =>
    cases denotes with
    | opn isKey each =>
      cases denotes' with
      | opn isKey' each' =>
        rw [keys isKey isKey', ExKey.opn.injEq, Term.app.injEq,
          eq_iff_of_each each each' fun e mem _ _ _ denotes denotes' => ih e mem denotes denotes']
      | atom isKey' | var isKey' => rw [keys isKey isKey']; simp

theorem Denotes.mono (kept : ∀ o key, alive o = some key → alive' o = some key) (denotes : Denotes alive o e) :
    Denotes alive' o e := by
  induction e using Term.inductArgs generalizing o with
  | atom | var => cases denotes with | _ isKey => constructor; exact kept _ _ isKey
  | app opr operands ih =>
    cases denotes with
    | opn isKey each =>
      refine .opn (kept _ _ isKey) ?_
      clear isKey
      induction each with
      | nil => exact .nil
      | cons first _ rest => exact .cons (ih _ mem_cons_self first) (rest fun e mem => ih e (.tail _ mem))

section Run

/-- `cuex_opr_has_ctor`, which tests `CUEX_OPRFLAG_CTOR`. -/
def oprHasCtor (opr : Word) : Bool := opr &&& 4 != 0

variable [DecidableEq α] {C : Type} {hash : ExKey α → Word} {oprinfo : Word → Option ((Nat → Option C) → List Nat → C)}
  {m : Memory (ExKey α)} {events : List (Event (ExKey α))} {caches : Nat → Option C}

/-- `cuex_opn`. The `cache_ctor` in `cuex_oprinfo` computes what an object keeps behind its operands, `C`, from these
and what other objects keep. -/
def opn (hash : ExKey α → Word) (oprinfo : Word → Option ((Nat → Option C) → List Nat → C)) (m : Memory (ExKey α))
    (caches : Nat → Option C) (opr : Word) (os : List Nat) :
    Except Failure (Nat × Memory (ExKey α) × (Nat → Option C)) :=
  if !oprHasCtor opr then (m.hallocRaw hash (.opn opr os)).map fun (o, m) => (o, m, caches)
  else
    match oprinfo opr with
    | none => .error .fault
    | some cacheCtor => m.hxallocRaw hash caches (.opn opr os) fun _ => cacheCtor caches os

/-- Only a new object of an operator with a constructor gets a cache. -/
def cachesAfter (oprinfo : Word → Option ((Nat → Option C) → List Nat → C)) (alive : Nat → Option (ExKey α))
    (caches : Nat → Option C) (opr : Word) (os : List Nat) (o : Nat) : Nat → Option C :=
  if oprHasCtor opr ∧ alive o = none then update caches o ((oprinfo opr).map fun cacheCtor => cacheCtor caches os)
  else caches

private theorem opn_made (follows : Follows hash m hset alive)
    (registered : oprHasCtor opr → (oprinfo opr).isSome) (os : List Nat) :
    opn hash oprinfo m caches opr os = .error .outOfMemory ∨ ∃ o m',
      opn hash oprinfo m caches opr os = .ok (o, m', cachesAfter oprinfo alive caches opr os o) ∧
        m.hallocRaw hash (.opn opr os) = .ok (o, m') ∧ ∀ key, alive o = some key → key = .opn opr os := by
  have made : m.hallocRaw hash (.opn opr os) = .error .outOfMemory ∨ ∃ o m', m.hallocRaw hash (.opn opr os) = .ok (o, m') ∧
      ∀ key, alive o = some key → key = .opn opr os := by
    rcases follows.halloc (.opn opr os) with ⟨o, isKey, made⟩ | ⟨_, ⟨full, _⟩ | ⟨o, m', _, made, fresh, _⟩⟩
    · exact .inr ⟨o, m, made, fun key isKey' => Option.some.inj (isKey'.symm.trans isKey)⟩
    · exact .inl full
    · refine .inr ⟨o, m', made, fun key isKey => ?_⟩
      cases fresh.symm.trans ((follows.live o key).mp isKey).2
  rw [opn]
  cases ctor : oprHasCtor opr with
  | false =>
    rcases made with full | ⟨o, m', made, own⟩
    · exact .inl (by rw [full]; rfl)
    · exact .inr ⟨o, m', by rw [made, cachesAfter, ctor]; rfl, made, own⟩
  | true =>
    obtain ⟨cacheCtor, isCtor⟩ := Option.isSome_iff_exists.mp (registered ctor)
    rw [isCtor]
    rcases follows.hxalloc caches (.opn opr os) fun _ => cacheCtor caches os with
      ⟨o, isKey, found, kept⟩ | ⟨absent, same⟩
    · have after : cachesAfter oprinfo alive caches opr os o = caches := if_neg (by simp [isKey])
      exact .inr ⟨o, m, kept.trans (by rw [after]), found, fun key isKey' => Option.some.inj (isKey'.symm.trans isKey)⟩
    · rcases made with full | ⟨o, m', made, own⟩
      · exact .inl (by rw [full] at same; exact same)
      · have isNew : alive o = none := by
          cases held : alive o with
          | none => rfl
          | some key => exact absurd (own key held ▸ held) (absent o)
        have after : cachesAfter oprinfo alive caches opr os o = update caches o (some (cacheCtor caches os)) := by
          rw [cachesAfter, if_pos ⟨ctor, isNew⟩, isCtor, Option.map_some]
        rw [made] at same
        exact .inr ⟨o, m', same.trans (by rw [after]; rfl), made, own⟩

/-- In every run, objects are the same if and only if they stand for the same expression. An operation on objects gives
one that stands for the operation on what they stand for, and leaves what other objects stand for and keep. -/
theorem opn_shares (run : Memory.Run hash events m) (registered : ∀ opr, oprHasCtor opr → (oprinfo opr).isSome) :
    (∀ o o' e e', Denotes (live events) o e → Denotes (live events) o' e' → (o = o' ↔ e = e')) ∧
      ∀ caches opr os operands, Forall₂ (Denotes (live events)) os operands →
        opn hash oprinfo m caches opr os = .error .outOfMemory ∨ ∃ o m' events',
          opn hash oprinfo m caches opr os = .ok (o, m', cachesAfter oprinfo (live events) caches opr os o) ∧
          Memory.Run hash (events ++ events') m' ∧ Denotes (live (events ++ events')) o (.app opr operands) ∧
          ∀ o' e, Denotes (live events) o' e → Denotes (live (events ++ events')) o' e := by
  obtain ⟨hset, follows⟩ := run.follows
  refine ⟨fun o o' e e' => Denotes.eq_iff follows.holding.unique, fun caches opr os operands each => ?_⟩
  rcases opn_made follows (registered opr) os with full | ⟨o, m', done, made, own⟩
  · exact .inl full
  have kept (o' : Nat) (key : ExKey α) (isKey : live events o' = some key) :
      live (events ++ [.halloc (.opn opr os) o]) o' = some key := by
    rw [live_halloc]
    by_cases here : o' = o
    · subst here
      rw [update_self, own key isKey]
    · rwa [update_of_ne here]
  refine .inr ⟨o, m', _, done, .halloc _ run made, .opn ?_ (each.imp fun _ _ => .mono kept), fun _ _ => .mono kept⟩
  rw [live_halloc, update_self]

/-- Two operations without operands and one on both, whose operator has a constructor. It is not made a second time. -/
theorem opn_shares_pair :
    let oprinfo : Word → Option ((Nat → Option Nat) → List Nat → Nat) := fun _ => some fun _ os => os.length
    let caches : Nat → Option Nat := update (fun _ => none) 2 (some 2)
    ∃ (m m' : Memory (ExKey Unit)) (events : List (Event (ExKey Unit))),
      Memory.Run (fun _ => 0) [.halloc (.opn 1 []) 0, .halloc (.opn 0x8000001 []) 1] m ∧
        opn (fun _ => 0) oprinfo m (fun _ => none) 21 [0, 1] = .ok (2, m', caches) ∧
        Denotes (live events) 2 (.app 21 [.app 1 [], .app 0x8000001 []]) ∧
        ∃ m'', opn (fun _ => 0) oprinfo m' caches 21 [0, 1] = .ok (2, m'', caches) := by
  intro oprinfo caches
  have run : Memory.Run (fun _ => 0) [.halloc (ExKey.opn (α := Unit) 1 []) 0, .halloc (.opn 0x8000001 []) 1] _ :=
    .halloc _ (.halloc _ .init rfl) rfl
  have registered (opr : Word) (_ : oprHasCtor opr) : (oprinfo opr).isSome := rfl
  have each : Forall₂ (Denotes (live [.halloc (ExKey.opn (α := Unit) 1 []) 0, .halloc (.opn 0x8000001 []) 1])) [0, 1]
      [.app 1 [], .app 0x8000001 []] := .cons (.opn rfl .nil) (.cons (.opn rfl .nil) .nil)
  rcases (opn_shares run registered).2 (fun _ => none) 21 _ _ each with full | ⟨_, _, _, made, _, denotes, _⟩
  · cases full
  cases made
  exact ⟨_, _, _, run, rfl, denotes, _, rfl⟩

end Run

/-- `cuex_opn2_left`, where the next round of the loop is a call. -/
def opn2Left (opr : Word) : Expr α → Expr α → Expr α
  | x, .app f [y0, y1] =>
    if f = opr then opn2Left opr (opn2Left opr x y0) y1 else .app opr [x, .app f [y0, y1]]
  | x, y => .app opr [x, y]

/-- `cuex_opn2_right`, in the same way. -/
def opn2Right (opr : Word) : Expr α → Expr α → Expr α
  | .app f [x0, x1], y =>
    if f = opr then opn2Right opr x0 (opn2Right opr x1 y) else .app opr [.app f [x0, x1], y]
  | x, y => .app opr [x, y]

/-- What an operator is applied to at the top. -/
def factors (opr : Word) : Expr α → List (Expr α)
  | .app f [x, y] => if f = opr then factors opr x ++ factors opr y else [.app f [x, y]]
  | x => [x]

variable {opr : Word} (x y z : Expr α)

private theorem opn2Left_eq : opn2Left opr x y = (factors opr y).foldl (fun x y => .app opr [x, y]) x ∧
    factors opr (opn2Left opr x y) = factors opr x ++ factors opr y := by
  fun_induction opn2Left opr x y with
  | case1 x y0 y1 ih0 ih1 =>
    rw [factors, if_pos rfl, foldl_append, ← ih0.1, ih1.2, ih0.2, append_assoc]
    exact ⟨ih1.1, rfl⟩
  | case2 | case3 => simp_all [factors]

private theorem opn2Right_eq : opn2Right opr x y = (factors opr x).foldr (fun x y => .app opr [x, y]) y ∧
    factors opr (opn2Right opr x y) = factors opr x ++ factors opr y := by
  fun_induction opn2Right opr x y with
  | case1 x0 x1 y ih1 ih0 =>
    rw [factors, if_pos rfl, foldr_append, ← ih1.1, ih0.2, ih1.2, append_assoc]
    exact ⟨ih0.1, rfl⟩
  | case2 | case3 => simp_all [factors]

/-- Both are associative, and apply the operator to the same in the same order. -/
theorem opn2_assoc : opn2Left opr (opn2Left opr x y) z = opn2Left opr x (opn2Left opr y z) ∧
    opn2Right opr (opn2Right opr x y) z = opn2Right opr x (opn2Right opr y z) ∧
    factors opr (opn2Left opr x y) = factors opr (opn2Right opr x y) := by
  refine ⟨?_, ?_, (opn2Left_eq x y).2.trans (opn2Right_eq x y).2.symm⟩
  · rw [(opn2Left_eq _ z).1, (opn2Left_eq x _).1, (opn2Left_eq x _).1, (opn2Left_eq y z).2, foldl_append]
  · rw [(opn2Right_eq _ z).1, (opn2Right_eq x y).2, (opn2Right_eq x _).1, (opn2Right_eq y z).1, foldr_append]

end Culibs.Cuex
