import Culibs.Cuex.Binding.Correct

/-! When the sets of `cuex_unfolded_fv_sets` are those of the infinite unfolding. -/

namespace Culibs.Cuex.Binding

open Binding.Expr Option List

variable {e body : Expr} {path : MuPath} {depth depth' fuel sp : Nat} {eToFbi : Expr → Option Fbi}
  {sets : MuCtx → Option (Finset Nat)} {maxDepth : Int}

/-- Each path of mu-binds has one entry of its own, with the variables that occur free in the unfolding of its last
mu-bind, counted from the body of that mu-bind. -/
structure Correct (e : Expr) (sets : MuCtx → Option (Finset Nat)) : Prop where
  entries : ∀ ctx, (sets ctx).isSome ↔ ∃ path, IsPath e path ∧ path.encode = ctx
  single : Separate e
  free : ∀ path set, IsPath e path → sets path.encode = some set →
    ∀ k, k ∈ set ↔ 1 ≤ k ∧ Occurs path.sites path.last k

/-- Below no path a mu-bind stands at two level differences that only differ in the bits of `CUEX_O2_MUPATH`. -/
def LevelsDistinct (e : Expr) : Prop := ∀ path depth depth' body, IsPath e path → SubMu path.last depth body →
  SubMu path.last depth' body → mupathSelect ||| depth = mupathSelect ||| depth' → depth = depth'

private theorem separate_iff : Separate e ↔ LevelsDistinct e := by
  constructor
  · intro separate path depth depth' body isPath sub sub' same
    have equal := separate (.step path depth body) (.step path depth' body) (isPath.step sub) (isPath.step sub')
      (by rw [encode_step, encode_step, same])
    cases equal
    rfl
  intro distinct path
  induction path with
  | first body =>
    intro other _ _ same
    cases other with
    | first body' =>
      cases same
      rfl
    | step path' depth' body' =>
      rw [encode_step] at same
      cases same
  | step path depth body ih =>
    intro other isPath isOther same
    cases other with
    | first body' =>
      rw [encode_step] at same
      cases same
    | step path' depth' body' =>
      rw [encode_step, encode_step] at same
      obtain ⟨levels, heads, bodies⟩ := MuCtx.mupath.inj same
      cases Expr.mu.inj bodies
      cases isPath with
      | step inner sub =>
        cases isOther with
        | step inner' sub' =>
          obtain rfl := ih path' inner inner' heads
          rw [distinct path depth depth' body inner sub sub' levels]

/-- With fuel for the size of the mu-binds and a stack for their depth, the pass over them ends. -/
theorem computeUbi_total (complete : Complete n eToFbi) (links : List FbiLink) (ctx : MuCtx) (ubi : Ubi)
    (pos : 0 < fuel) (room : ∀ link ∈ links, ∃ body, link.e = .mu body ∧ size (.mu body) < fuel ∧
      size (.mu body) ≤ n ∧ (eToFbi (.mu body)).isSome ∧ link.depth + maxBindingDepth body ≤ sp) :
    ∃ ubi', computeUbi eToFbi spMax fuel links ctx sp ubi = some ubi' := by
  induction fuel generalizing links ctx sp ubi with
  | zero => omega
  | succ fuel ih =>
    rw [computeUbi]
    induction links generalizing ubi with
    | nil => exact ⟨ubi, rfl⟩
    | cons link links loop =>
      obtain ⟨body, isMu, small, known, present, deep⟩ := room link (mem_cons_self ..)
      obtain ⟨fbi, entry⟩ := isSome_iff_exists.mp present
      obtain ⟨isFbi, below⟩ := complete body fbi entry known
      have isSize : size (.mu body) = size body + 1 := by rw [size]
      have first : ∃ ubi1, ubiLink eToFbi spMax (computeUbi eToFbi spMax fuel) ctx sp ubi link = some ubi1 := by
        unfold ubiLink
        rw [isMu, entry]
        simp only
        split
        · exact ⟨ubi, rfl⟩
        · rw [if_neg (by omega)]
          refine ih _ _ _ (by omega) fun next mem => ?_
          obtain ⟨sub, isSub, inside⟩ := (isFbi.chain next).mp mem
          have sizes := inside.size_le
          have depths := inside.depth_le.2
          exact ⟨sub, isSub, by omega, by omega, below _ sub inside, by omega⟩
      obtain ⟨ubi1, isFirst⟩ := first
      obtain ⟨ubi', isRest⟩ := loop ubi1 fun link mem => room link (.tail _ mem)
      rw [foldlM_cons, isFirst]
      exact ⟨ubi', isRest⟩

theorem computeFbi_top (e : Expr) : FbiAdded (Free e) (SubMu e) (size e) 0 (size e) (.init, fun _ => none)
    (computeFbi e 0 (.init, fun _ => none)) :=
  computeFbi_added e 0 (size e) _ (le_rfl) fun _ _ held => by cases held

theorem linksOf_top (e : Expr) : LinksOf e (computeFbi e 0 (.init, fun _ => none)).1.subChain := by
  intro link mem
  rcases ((computeFbi_top e).chain link).mp mem with none | ⟨sub, depth, isMu, isDepth, inside⟩
  · cases none
  · rw [isDepth]
    exact ⟨sub, isMu, inside⟩

theorem unfoldedFvSets_total (e : Expr) (known : maxDepth < 0 ∨ maxDepth = maxBindingDepth e) (enough : size e < fuel) :
    ∃ sets, unfoldedFvSets fuel e maxDepth = some sets := by
  have isDepth : (if maxDepth ≥ 0 then maxDepth.toNat else maxBindingDepth e) = maxBindingDepth e := by
    split <;> omega
  have added := computeFbi_top e
  obtain ⟨ubi, ended⟩ : ∃ ubi, computeUbi (computeFbi e 0 (.init, fun _ => none)).2 (maxBindingDepth e) fuel
      (computeFbi e 0 (.init, fun _ => none)).1.subChain .null (maxBindingDepth e)
      { fiimap := fun _ => none, usp := fun _ => none } = some ubi := by
    refine computeUbi_total added.complete _ _ _ (by omega) fun link mem => ?_
    obtain ⟨sub, isMu, inside⟩ := linksOf_top e link mem
    have sizes := inside.size_le
    exact ⟨sub, isMu, by omega, sizes, added.present _ sub inside, inside.depth_le.2⟩
  unfold unfoldedFvSets
  simp only [isDepth]
  rw [ended]
  exact ⟨ubi.fiimap, rfl⟩

theorem sound_init : Sound e none { fiimap := fun _ => none, usp := fun _ => none } := by
  refine ⟨fun _ _ held => ?_, fun _ mem => ?_, fun _ _ held => ?_⟩
  · cases held
  · cases mem
  · cases held

theorem stacked_init : Stacked { fiimap := fun _ => none, usp := fun _ => none } spMax spMax none := by
  intro key
  rw [if_neg (by omega)]
  rfl

private theorem unfoldedFvSets_correct (separate : Separate e) (ended : unfoldedFvSets fuel e maxDepth = some sets) :
    Correct e sets := by
  have added := computeFbi_top e
  obtain ⟨ubi, isUbi, rfl⟩ := map_eq_some_iff.mp ended
  obtain ⟨sound, _, done⟩ := computeUbi_passes separate added.complete _ fuel none _ _ _ ubi (fun _ held => by cases held)
    (linksOf_top e) (le_rfl) sound_init stacked_init isUbi
  have present : ∀ path, IsPath e path → (ubi.fiimap path.encode).isSome := by
    intro path isPath
    have begins : ∃ depth body, SubMu e depth body ∧ Begins (.first body) path := by
      induction isPath with
      | first sub => exact ⟨_, _, sub, .refl⟩
      | step inner sub ih =>
        obtain ⟨depth, body, top, begins⟩ := ih
        exact ⟨depth, body, top, begins.step⟩
    obtain ⟨depth, body, sub, begins⟩ := begins
    have mem := (added.chain ⟨.mu body, depth⟩).mpr (.inr ⟨body, depth, rfl, rfl, sub⟩)
    exact done _ mem body rfl path begins isPath
  refine ⟨fun ctx => ⟨fun entry => ?_, ?_⟩, separate, fun path set isPath entry k => ?_⟩
  · obtain ⟨set, isSet⟩ := isSome_iff_exists.mp entry
    obtain ⟨path, isPath, same, _⟩ := sound.keys ctx set isSet
    exact ⟨path, isPath, same⟩
  · rintro ⟨path, isPath, rfl⟩
    exact present path isPath
  obtain ⟨other, isOther, same, holds⟩ := sound.keys _ set entry
  rw [separate other path isOther isPath same] at holds
  rw [holds k]
  refine ⟨fun occurs => ⟨Nat.pos_of_ne_zero ?_, occurs⟩, And.right⟩
  rintro rfl
  obtain ⟨outer, isSites⟩ := sites_eq path
  rw [isSites] at occurs
  exact not_occurs_zero occurs

/-- The sets are right exactly if the level differences of the paths can be told apart. -/
theorem unfoldedFvSets_correct_iff (e : Expr) (maxDepth : Int) (known : maxDepth < 0 ∨ maxDepth = maxBindingDepth e)
    (fuel : Nat) (enough : size e < fuel) :
    ∃ sets, unfoldedFvSets fuel e maxDepth = some sets ∧ (Correct e sets ↔ LevelsDistinct e) := by
  obtain ⟨sets, ended⟩ := unfoldedFvSets_total e known enough
  refine ⟨sets, ended, ?_⟩
  rw [← separate_iff]
  exact ⟨Correct.single, fun separate => unfoldedFvSets_correct separate ended⟩

theorem unfoldedFvSets_correct_nested :
    ∃ sets, unfoldedFvSets 12 (.mu (.opn 0 [.binder 1 [.hole 10], .mu (.opn 0 [.hole 0, .hole 2])])) (-1) = some sets ∧
      (Correct (.mu (.opn 0 [.binder 1 [.hole 10], .mu (.opn 0 [.hole 0, .hole 2])])) sets ↔
        LevelsDistinct (.mu (.opn 0 [.binder 1 [.hole 10], .mu (.opn 0 [.hole 0, .hole 2])]))) :=
  unfoldedFvSets_correct_iff _ (-1) (by decide) 12 (by decide)

/-- An expression below a number of binders. -/
def lambdas : Nat → Expr → Expr
  | 0, e => e
  | n + 1, e => .binder 1 [lambdas n e]

theorem SubMu.lambdas (sub : SubMu e depth body) (n : Nat) : SubMu (lambdas n e) (depth + n) body := by
  induction n with
  | zero => exact sub
  | succ n ih => exact .binder (mem_singleton_self _) ih

/-- The body of a mu-bind with another one twice inside, the second time below `n` more binders. The variable of the
inner one belongs to the outer mu-bind at the first place, and to a binder at the second place. -/
def twice (n : Nat) : Expr := .opn 0 [.mu (.hole 1), lambdas n (.mu (.hole 1))]

private theorem isPath_twice (n : Nat) : IsPath (.mu (twice n)) (.step (.first (twice n)) 1 (.hole 1)) ∧
    IsPath (.mu (twice n)) (.step (.first (twice n)) (1 + n) (.hole 1)) := by
  have outer : IsPath (.mu (twice n)) (.first (twice n)) := .first (.mu _)
  have near : SubMu (twice n) 1 (.hole 1) := .opn (mem_cons_self ..) (.mu _)
  have far : SubMu (twice n) (1 + n) (.hole 1) :=
    .opn (.tail _ (mem_singleton_self _)) ((SubMu.mu (.hole 1)).lambdas n)
  exact ⟨outer.step near, outer.step far⟩

/-- At a level difference with the same bits the two paths have one key, but not the same variables. -/
theorem not_free_twice (pos : 0 < n) (same : mupathSelect ||| 1 = mupathSelect ||| (1 + n))
    (sets : MuCtx → Option (Finset Nat)) : ¬ ∀ path, IsPath (.mu (twice n)) path → ∃ set, sets path.encode = some set ∧
      ∀ k, k ∈ set ↔ 1 ≤ k ∧ Occurs path.sites path.last k := by
  intro right
  obtain ⟨near, far⟩ := isPath_twice n
  obtain ⟨set, isSet, nearSet⟩ := right _ near
  obtain ⟨set', isSet', farSet⟩ := right _ far
  rw [encode_step, ← same, ← encode_step, isSet] at isSet'
  cases isSet'
  have farOccurs : 1 ∈ set := by
    refine (farSet 1).mpr ⟨le_refl 1, occurs_path_iff.mpr ⟨1, .hole 1, one_ne_zero, ?_⟩⟩
    have beyond : (MuPath.step (.first (twice n)) (1 + n) (.hole 1)).upTo 1 = none := by
      rw [MuPath.upTo, if_neg one_ne_zero, if_pos (by omega)]
    rw [reaches_path_iff far, beyond]
  obtain ⟨key, free, _, reaches⟩ := occurs_path_iff.mp ((nearSet 1).mp farOccurs).2
  obtain rfl := free_hole.mp free
  have outer : (MuPath.step (.first (twice n)) 1 (.hole 1)).upTo 1 = some (.first (twice n)) := by
    simp [MuPath.upTo]
  rw [reaches_path_iff near] at reaches
  obtain ⟨k, isOne, occurs⟩ := reaches
  obtain rfl : k = 0 := by omega
  exact not_occurs_zero occurs

/-- Two paths of one expression have the same key, but not the same variables. -/
theorem unfoldedFvSets_collides : ∃ sets,
    unfoldedFvSets (size (.mu (twice 4096)) + 1) (.mu (twice 4096)) (-1) = some sets ∧
      ¬ ∀ path, IsPath (.mu (twice 4096)) path → ∃ set, sets path.encode = some set ∧
        ∀ k, k ∈ set ↔ 1 ≤ k ∧ Occurs path.sites path.last k := by
  have total := unfoldedFvSets_total (.mu (twice 4096)) (.inl (by decide : (-1 : Int) < 0)) (Nat.lt_add_one _)
  exact total.imp fun sets ended => ⟨ended, not_free_twice (by decide) (by decide) sets⟩

end Culibs.Cuex.Binding
