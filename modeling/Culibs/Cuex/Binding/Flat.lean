import Culibs.Cuex.Binding.Basic

namespace Culibs.Cuex.Binding

open Binding.Expr Function Finset List

/-- The mu-bind of `body` is reached in an expression across `depth` binders, itself the last and only one of them that
is a mu-bind. -/
inductive SubMu : Expr → Nat → Expr → Prop
  | mu (body : Expr) : SubMu (.mu body) 1 body
  | opn {opr depth : Nat} {args : List Expr} {e body : Expr} (member : e ∈ args) (sub : SubMu e depth body) :
      SubMu (.opn opr args) depth body
  | binder {opr depth : Nat} {args : List Expr} {e body : Expr} (member : e ∈ args) (sub : SubMu e depth body) :
      SubMu (.binder opr args) (depth + 1) body

variable {e body : Expr} {depth d k n : Nat} {fbi : Fbi} {eToFbi : Expr → Option Fbi}

@[simp] theorem subMu_hole : ¬ SubMu (.hole index) d body := nofun

variable {args : List Expr}

@[simp] theorem subMu_opn : SubMu (.opn opr args) d body ↔ ∃ e ∈ args, SubMu e d body := by
  constructor
  · rintro (_ | ⟨mem, sub⟩)
    exact ⟨_, mem, sub⟩
  · rintro ⟨e, mem, sub⟩
    exact .opn mem sub

@[simp] theorem subMu_binder :
    SubMu (.binder opr args) d body ↔ ∃ d', d = d' + 1 ∧ ∃ e ∈ args, SubMu e d' body := by
  constructor
  · rintro (_ | _ | ⟨mem, sub⟩)
    exact ⟨_, rfl, _, mem, sub⟩
  · rintro ⟨d', rfl, e, mem, sub⟩
    exact .binder mem sub

@[simp] theorem subMu_mu : SubMu (.mu body) d body' ↔ d = 1 ∧ body' = body := by
  constructor
  · rintro ⟨⟩
    exact ⟨rfl, rfl⟩
  · rintro ⟨rfl, rfl⟩
    exact .mu body'

theorem size_le_sizeArgs (mem : e ∈ args) : size e ≤ sizeArgs args := by
  induction args with
  | nil => cases mem
  | cons first args ih =>
    unfold sizeArgs
    rcases mem_cons.mp mem with rfl | later
    · omega
    · have := ih later
      omega

private theorem depth_le_args (mem : e ∈ args) : maxBindingDepth e ≤ maxBindingDepthArgs args := by
  induction args with
  | nil => cases mem
  | cons first args ih =>
    unfold maxBindingDepthArgs
    rcases mem_cons.mp mem with rfl | later
    · omega
    · have := ih later
      omega

theorem SubMu.size_le (sub : SubMu e d body) : size (.mu body) ≤ size e := by
  induction sub with
  | mu body => exact le_rfl
  | opn mem sub ih | binder mem sub ih =>
    have := size_le_sizeArgs mem
    rw [size]
    omega

theorem SubMu.depth_le (sub : SubMu e d body) : 0 < d ∧ d + maxBindingDepth body ≤ maxBindingDepth e := by
  induction sub with
  | mu body =>
    rw [maxBindingDepth]
    omega
  | opn mem sub ih | binder mem sub ih =>
    have := depth_le_args mem
    rw [maxBindingDepth]
    omega

/-- The binding info of a body. -/
structure IsFbi (body : Expr) (fbi : Fbi) : Prop where
  free : ∀ k, k ∈ fbi.fvset ↔ Free body k
  chain : ∀ link, link ∈ fbi.subChain ↔ ∃ sub, link.e = .mu sub ∧ SubMu body link.depth sub

/-- The entries of small mu-binds are complete. Larger ones may still be worked on. -/
def Complete (n : Nat) (eToFbi : Expr → Option Fbi) : Prop :=
  ∀ body fbi, eToFbi (.mu body) = some fbi → size (.mu body) ≤ n →
    IsFbi body fbi ∧ ∀ d sub, SubMu body d sub → (eToFbi (.mu sub)).isSome

/-- What the pass over expressions with given free variables and next mu-binds adds at a depth. Only mu-binds up to
the size `limit` are entered. -/
structure FbiAdded (frees : Nat → Prop) (subs : Nat → Expr → Prop) (limit depth n : Nat)
    (before after : Fbi × (Expr → Option Fbi)) : Prop where
  free : ∀ k, k ∈ after.1.fvset ↔ k ∈ before.1.fvset ∨ frees (k + depth)
  chain : ∀ link, link ∈ after.1.subChain ↔ link ∈ before.1.subChain ∨
    ∃ sub d, link.e = .mu sub ∧ link.depth = d + depth ∧ subs d sub
  complete : Complete n after.2
  present : ∀ d sub, subs d sub → (after.2 (.mu sub)).isSome
  kept : ∀ x sub, before.2 x = some sub → after.2 x = some sub
  larger : ∀ x, limit < size x → after.2 x = before.2 x

theorem FbiAdded.isSome_kept
    {before after : Fbi × (Expr → Option Fbi)} (added : FbiAdded frees subs limit depth n before after) {x : Expr}
    (held : (before.2 x).isSome) : (after.2 x).isSome := by
  obtain ⟨sub, isSub⟩ := Option.isSome_iff_exists.mp held
  rw [added.kept x sub isSub]
  rfl

variable {st : Fbi × (Expr → Option Fbi)}

theorem FbiAdded.trans (left : FbiAdded frees subs limit depth n first second)
    (right : FbiAdded frees' subs' limit' depth n second third) :
    FbiAdded (fun k => frees k ∨ frees' k) (fun d sub => subs d sub ∨ subs' d sub) (limit + limit') depth n
      first third := by
  refine ⟨fun k => ?_, fun link => ?_, right.complete, fun d sub inside => ?_, fun x sub held => ?_, fun x more => ?_⟩
  · rw [right.free, left.free, or_assoc]
  · rw [right.chain, left.chain, or_assoc]
    refine or_congr_right ⟨?_, ?_⟩
    · rintro (⟨sub, d, isMu, isDepth, inside⟩ | ⟨sub, d, isMu, isDepth, inside⟩)
      · exact ⟨sub, d, isMu, isDepth, .inl inside⟩
      · exact ⟨sub, d, isMu, isDepth, .inr inside⟩
    · rintro ⟨sub, d, isMu, isDepth, inside | inside⟩
      · exact .inl ⟨sub, d, isMu, isDepth, inside⟩
      · exact .inr ⟨sub, d, isMu, isDepth, inside⟩
  · exact inside.elim (fun inFirst => right.isSome_kept (left.present d sub inFirst)) (right.present d sub)
  · exact right.kept x sub (left.kept x sub held)
  · rw [right.larger x (by omega), left.larger x (by omega)]

@[simp] theorem mem_propagate : k ∈ propagate depth fvset ↔ k + depth ∈ fvset := by
  unfold propagate
  rw [mem_image]
  constructor
  · rintro ⟨index, mem, rfl⟩
    rw [Finset.mem_filter] at mem
    rw [Nat.sub_add_cancel mem.2]
    exact mem.1
  · intro mem
    exact ⟨k + depth, Finset.mem_filter.mpr ⟨mem, Nat.le_add_left ..⟩, Nat.add_sub_cancel ..⟩

private theorem computeFbiArgs_added
    (operands : ∀ e ∈ args, ∀ st, size e ≤ n → Complete n st.2 → FbiAdded (Free e) (SubMu e) (size e) depth n st
      (computeFbi e depth st))
    (bound : sizeArgs args ≤ n) (complete : Complete n st.2) :
    FbiAdded (fun k => ∃ e ∈ args, Free e k) (fun d sub => ∃ e ∈ args, SubMu e d sub) (sizeArgs args) depth n st
      (computeFbiArgs args depth st) := by
  induction args generalizing st with
  | nil => simpa [computeFbiArgs, sizeArgs] using (⟨by simp, by simp, complete, fun _ _ inside => inside.elim, fun _
    _ held => held, fun _ _ => rfl⟩)
  | cons e args ih =>
    rw [sizeArgs] at bound
    have first := operands e (mem_cons_self ..) st (by omega) complete
    have rest := ih (fun e mem => operands e (.tail _ mem)) (by omega) first.complete
    simpa [computeFbiArgs, sizeArgs] using first.trans rest

/-- The entry of a mu-bind that is not there yet. While its body is worked on the entry is empty. -/
theorem FbiAdded.enter (bound : size (.mu body) ≤ n) (complete : Complete n eToFbi)
    (absent : eToFbi (.mu body) = none)
    (added : FbiAdded (Free body) (SubMu body) (size body) 0 (size body) (.init, update eToFbi (.mu body) (some .init)) st) :
    IsFbi body st.1 ∧ Complete n (update st.2 (.mu body) (some st.1)) ∧
      (∀ x sub, eToFbi x = some sub → update st.2 (.mu body) (some st.1) x = some sub) ∧
      ∀ x, size (.mu body) < size x → update st.2 (.mu body) (some st.1) x = eToFbi x := by
  have isSize : size (.mu body) = size body + 1 := by rw [size]
  have isFbi : IsFbi body st.1 := by
    refine ⟨fun k => ?_, fun link => ?_⟩
    · rw [added.free]
      simp [Fbi.init]
    · rw [added.chain]
      simp only [Fbi.init, not_mem_nil, false_or, add_zero]
      constructor
      · rintro ⟨sub, d, isMu, rfl, inside⟩
        exact ⟨sub, isMu, inside⟩
      · rintro ⟨sub, isMu, inside⟩
        exact ⟨sub, _, isMu, rfl, inside⟩
  have after : ∀ x ≠ .mu body, size body < size x → st.2 x = eToFbi x := by
    intro x ne more
    rw [added.larger x more]
    exact update_of_ne ne ..
  have before : ∀ x sub, eToFbi x = some sub → st.2 x = some sub := by
    intro x sub held
    have ne : x ≠ .mu body := by
      rintro rfl
      rw [absent] at held
      cases held
    exact added.kept x sub ((update_of_ne ne ..).trans held)
  have keepsSome : ∀ x, (st.2 x).isSome → (update st.2 (.mu body) (some st.1) x).isSome := by
    intro x held
    by_cases same : x = .mu body
    · subst same
      rw [update_self]
      rfl
    · rwa [update_of_ne same]
  refine ⟨isFbi, fun inner sub held small => ?_, fun x sub held => ?_, fun x more => ?_⟩
  · by_cases same : inner = body
    · subst same
      rw [update_self] at held
      cases held
      exact ⟨isFbi, fun d sub inside => keepsSome _ (added.present d sub inside)⟩
    have ne : Expr.mu inner ≠ .mu body := fun equal => same (Expr.mu.inj equal)
    rw [update_of_ne ne] at held
    by_cases inside : size (.mu inner) ≤ size body
    · obtain ⟨isSub, present⟩ := added.complete inner sub held inside
      exact ⟨isSub, fun d sub inside => keepsSome _ (present d sub inside)⟩
    · rw [after _ ne (by omega)] at held
      obtain ⟨isSub, present⟩ := complete inner sub held small
      refine ⟨isSub, fun d sub inside => keepsSome _ ?_⟩
      obtain ⟨entry, isEntry⟩ := Option.isSome_iff_exists.mp (present d sub inside)
      rw [before _ entry isEntry]
      rfl
  · have ne : x ≠ .mu body := by
      rintro rfl
      rw [absent] at held
      cases held
    rw [update_of_ne ne]
    exact before x sub held
  · have ne : x ≠ .mu body := by
      rintro rfl
      omega
    rw [update_of_ne ne]
    exact after x ne (by omega)

theorem computeFbi_added (e : Expr) (depth n : Nat) (st : Fbi × (Expr → Option Fbi)) (bound : size e ≤ n)
    (complete : Complete n st.2) : FbiAdded (Free e) (SubMu e) (size e) depth n st (computeFbi e depth st) := by
  induction e using inductArgs generalizing depth n st with
  | hole index =>
    obtain ⟨fbi, eToFbi⟩ := st
    have free : ∀ k, k ∈ (computeFbi (.hole index) depth (fbi, eToFbi)).1.fvset ↔ k ∈ fbi.fvset ∨ k + depth = index := by
      intro k
      unfold computeFbi
      split
      · next isFree =>
        have same : k = index - depth ↔ k + depth = index := by omega
        rw [mem_insert, same, or_comm]
      · next bound =>
        have other : k + depth ≠ index := by omega
        simp [other]
    have chain : (computeFbi (.hole index) depth (fbi, eToFbi)).1.subChain = fbi.subChain := by
      unfold computeFbi
      split <;> rfl
    refine ⟨fun k => ?_, fun link => ?_, complete, by simp, fun _ _ held => held, fun _ _ => rfl⟩
    · rw [free, free_hole]
    · rw [chain]
      simp
  | opn opr args ih =>
    have added := computeFbiArgs_added (fun e mem st small => ih e mem depth n st small) (Nat.le_of_succ_le bound)
      complete
    rw [computeFbi]
    refine ⟨fun k => ?_, fun link => ?_, added.complete, fun d sub inside => ?_, added.kept, fun x more => ?_⟩
    · rw [added.free, free_opn]
    · simp only [added.chain, subMu_opn]
    · exact added.present d sub (subMu_opn.mp inside)
    · rw [size] at more
      exact added.larger x (by omega)
  | binder opr args ih =>
    have added := computeFbiArgs_added (fun e mem st small => ih e mem (depth + 1) n st small)
      (Nat.le_of_succ_le bound) complete
    rw [computeFbi]
    refine ⟨fun k => ?_, fun link => ?_, added.complete, fun d sub inside => ?_, added.kept, fun x more => ?_⟩
    · rw [added.free, free_binder, add_assoc]
    · rw [added.chain]
      refine or_congr_right ⟨?_, ?_⟩
      · rintro ⟨sub, d, isMu, isDepth, inside⟩
        exact ⟨sub, d + 1, isMu, by omega, subMu_binder.mpr ⟨d, rfl, inside⟩⟩
      · rintro ⟨sub, _, isMu, isDepth, inside⟩
        obtain ⟨d, rfl, inArgs⟩ := subMu_binder.mp inside
        exact ⟨sub, d, isMu, by omega, inArgs⟩
    · obtain ⟨d, rfl, inArgs⟩ := subMu_binder.mp inside
      exact added.present d sub inArgs
    · rw [size] at more
      exact added.larger x (by omega)
  | mu body ih =>
    obtain ⟨fbi, eToFbi⟩ := st
    have isSize : size (.mu body) = size body + 1 := by rw [size]
    obtain ⟨st, isSt, isFbi, complete', kept, larger, isHeld⟩ : ∃ st : Fbi × (Expr → Option Fbi),
        computeFbi (.mu body) depth (fbi, eToFbi) =
          ({ fvset := fbi.fvset ∪ propagate (depth + 1) st.1.fvset,
             subChain := { e := .mu body, depth := depth + 1 } :: fbi.subChain }, st.2) ∧
        IsFbi body st.1 ∧ Complete n st.2 ∧ (∀ x sub, eToFbi x = some sub → st.2 x = some sub) ∧
        (∀ x, size (.mu body) < size x → st.2 x = eToFbi x) ∧ (st.2 (.mu body)).isSome := by
      cases held : eToFbi (.mu body) with
      | some sub =>
        refine ⟨(sub, eToFbi), by simp [computeFbi, held], (complete body sub held bound).1, complete,
          fun _ _ held => held, fun _ _ => rfl, ?_⟩
        simp [held]
      | none =>
        have open' : Complete (size body) (update eToFbi (.mu body) (some .init)) := by
          intro inner sub isSub small
          have ne : Expr.mu inner ≠ .mu body := by
            intro same
            rw [same] at small
            omega
          rw [update_of_ne ne] at isSub
          obtain ⟨isFbi, present⟩ := complete inner sub isSub (by omega)
          refine ⟨isFbi, fun d x inside => ?_⟩
          by_cases same : Expr.mu x = .mu body
          · rw [same, update_self]
            rfl
          · rw [update_of_ne same]
            exact present d x inside
        have added := ih 0 (size body) (.init, update eToFbi (.mu body) (some .init)) (le_rfl) open'
        obtain ⟨isFbi, complete', kept, larger⟩ := added.enter bound complete held
        refine ⟨(_, update _ (.mu body) _), ?_, isFbi, complete', kept, larger, ?_⟩
        · simp only [computeFbi, held]
        · simp
    rw [isSt]
    refine ⟨fun k => ?_, fun link => ?_, complete', fun d sub inside => ?_, kept, larger⟩
    · rw [mem_union, mem_propagate, isFbi.free, free_mu, add_assoc]
    · rw [List.mem_cons, or_comm]
      refine or_congr_right ⟨?_, ?_⟩
      · rintro rfl
        exact ⟨body, 1, rfl, add_comm depth 1, .mu body⟩
      · rintro ⟨sub, d, isMu, isDepth, inside⟩
        obtain ⟨rfl, rfl⟩ := subMu_mu.mp inside
        obtain ⟨e, depth'⟩ := link
        simp only at isMu isDepth
        rw [isMu, isDepth, add_comm]
    · obtain ⟨rfl, rfl⟩ := subMu_mu.mp inside
      exact isHeld

end Culibs.Cuex.Binding
