import Culibs.Cuex.Binding.Path

namespace Culibs.Cuex.Binding

open Binding.Expr Function Option

variable {e body : Expr} {path part : MuPath} {super : Option MuPath} {depth key k sp spMax fuel : Nat}
  {eToFbi : Expr → Option Fbi} {ubi ubi' : Ubi} {links : List FbiLink} {fbi : Fbi}

/-- A mu-bind below a path, or at the top. -/
def extend (super : Option MuPath) (depth : Nat) (body : Expr) : MuPath :=
  match super with
  | none => .first body
  | some path => .step path depth body

/-- The key of the paths below a path. -/
def superCtx : Option MuPath → MuCtx
  | none => .null
  | some path => path.encode

/-- The expression in which the next mu-binds are. -/
def inside (e : Expr) : Option MuPath → Expr
  | none => e
  | some path => path.last

def IsSuper (e : Expr) (super : Option MuPath) : Prop := ∀ path ∈ super, IsPath e path

private theorem mupathPair_extend (super : Option MuPath) (depth : Nat) (body : Expr) :
    mupathPair depth (superCtx super) (.mu body) = (extend super depth body).encode := by
  cases super <;> rfl

theorem last_extend (super : Option MuPath) (depth : Nat) (body : Expr) : (extend super depth body).last = body := by
  cases super <;> rfl

theorem isPath_extend (isSuper : IsSuper e super) (sub : SubMu (inside e super) depth body) :
    IsPath e (extend super depth body) := by
  cases super with
  | none => exact .first sub
  | some path => exact .step (isSuper path rfl) sub

/-- The stack holds the mu-binds around a body, each as far from the upper end as its body is deep. -/
def Stacked (ubi : Ubi) (spMax sp : Nat) (super : Option MuPath) : Prop :=
  ∀ key, (if sp + key < spMax then ubi.usp (sp + key) else none) =
    (super.bind fun path => path.upTo key).map MuPath.encode

/-- The set of a path holds what occurs in the unfolding of its last mu-bind. -/
def Holds (set : Finset Nat) (path : MuPath) : Prop := ∀ k, k ∈ set ↔ Occurs path.sites path.last k

/-- A path and all longer ones have entries. -/
def Done (e : Expr) (ubi : Ubi) (path : MuPath) : Prop :=
  ∀ longer, Begins path longer → IsPath e longer → (ubi.fiimap longer.encode).isSome

/-- The entries made so far, while the mu-binds below `super` are worked on. -/
structure Sound (e : Expr) (super : Option MuPath) (ubi : Ubi) : Prop where
  keys : ∀ ctx set, ubi.fiimap ctx = some set → ∃ path, IsPath e path ∧ path.encode = ctx ∧ Holds set path
  above : ∀ path ∈ super, ∀ part, Begins part path → (ubi.fiimap part.encode).isSome
  done : ∀ path, IsPath e path → (ubi.fiimap path.encode).isSome → (∃ longer ∈ super, Begins path longer) ∨ Done e ubi path

/-- Entries stay, and so does the stack from a place on. -/
structure Grown (sp : Nat) (before after : Ubi) : Prop where
  entries : ∀ ctx set, before.fiimap ctx = some set → after.fiimap ctx = some set
  stack : ∀ i, sp ≤ i → after.usp i = before.usp i

theorem Grown.refl (ubi : Ubi) : Grown sp ubi ubi := ⟨fun _ _ held => held, fun _ _ => rfl⟩

theorem Grown.isSome (grown : Grown sp ubi ubi') (held : (ubi.fiimap ctx).isSome) :
    (ubi'.fiimap ctx).isSome := by
  obtain ⟨set, isSet⟩ := isSome_iff_exists.mp held
  rw [grown.entries ctx set isSet]
  rfl

theorem Done.grown (done : Done e ubi path) (grown : Grown sp ubi ubi') : Done e ubi' path :=
  fun longer begins isPath => grown.isSome (done longer begins isPath)

theorem Stacked.grown (stacked : Stacked ubi spMax sp super) (grown : Grown sp ubi ubi') :
    Stacked ubi' spMax sp super := by
  intro key
  rw [grown.stack _ (Nat.le_add_right ..)]
  exact stacked key

/-- No two paths have one key. -/
def Separate (e : Expr) : Prop := ∀ path other, IsPath e path → IsPath e other → path.encode = other.encode → path = other

theorem Stacked.push (stacked : Stacked ubi spMax sp super) (pos : 0 < depth) (room : depth ≤ sp) (top : sp ≤ spMax)
    (fiimap : MuCtx → Option (Finset Nat)) :
    Stacked { fiimap := fiimap, usp := fun i => if i = sp - depth then some (extend super depth body).encode
      else if sp - depth < i ∧ i < sp then none else ubi.usp i } spMax (sp - depth) (some (extend super depth body)) := by
  intro key
  simp only [bind_some]
  by_cases own : key = 0
  · subst own
    rw [if_pos (by omega), if_pos (by omega), upTo_zero]
    rfl
  rw [if_neg (by omega : ¬ sp - depth + key = sp - depth)]
  by_cases between : key < depth
  · rw [if_pos (by omega : sp - depth < sp - depth + key ∧ sp - depth + key < sp)]
    have none : (extend super depth body).upTo key = Option.none := by
      cases super <;> simp [extend, MuPath.upTo, own, between]
    rw [none]
    split <;> rfl
  · rw [if_neg (by omega : ¬ (sp - depth < sp - depth + key ∧ sp - depth + key < sp))]
    have offset : sp - depth + key = sp + (key - depth) := by omega
    have below : (extend super depth body).upTo key = super.bind fun path => path.upTo (key - depth) := by
      cases super <;> simp [extend, MuPath.upTo, own, between]
    rw [offset, below]
    exact stacked (key - depth)

theorem mem_mvarUnion (isPath : IsPath e path) (stacked : Stacked ubi spMax sp (some path)) (outward : key ≠ 0)
    (held : ∀ part, Begins part path → part ≠ path → ∃ set, ubi.fiimap part.encode = some set ∧ Holds set part) :
    k ∈ mvarUnion ubi sp spMax key ↔ Reaches path.sites key k := by
  have read := stacked key
  rw [reaches_path_iff isPath]
  have same : mvarUnion ubi sp spMax key = (if sp + key < spMax then ubi.usp (sp + key) else none).elim {key}
      fun fiictx => ((ubi.fiimap fiictx).getD ∅).image (· + key) := by
    unfold mvarUnion
    rw [if_neg outward]
    by_cases inside : sp + key < spMax
    · simp only [if_pos inside]
      cases ubi.usp (sp + key) <;> rfl
    · simp only [if_neg inside, elim_none]
  rw [same, read]
  cases found : path.upTo key with
  | none => simp [found]
  | some part =>
    obtain ⟨set, isSet, holds⟩ := held part (begins_of_upTo found) (ne_of_upTo found outward)
    simp only [bind_some, found, map_some, elim_some, isSet, getD_some, Finset.mem_image]
    constructor
    · rintro ⟨k', mem, rfl⟩
      exact ⟨k', add_comm .., (holds k').mp mem⟩
    · rintro ⟨k', rfl, occurs⟩
      exact ⟨k', (holds k').mpr occurs, add_comm ..⟩

private theorem holds_biUnion (isPath : IsPath e path) (stacked : Stacked ubi spMax sp (some path))
    (isFbi : IsFbi path.last fbi)
    (held : ∀ part, Begins part path → part ≠ path → ∃ set, ubi.fiimap part.encode = some set ∧ Holds set part) :
    Holds (fbi.fvset.biUnion (mvarUnion ubi sp spMax)) path := by
  intro k
  rw [Finset.mem_biUnion, occurs_path_iff]
  constructor
  · rintro ⟨key, free, mem⟩
    have outward : key ≠ 0 := by
      rintro rfl
      simp [mvarUnion] at mem
    exact ⟨key, (isFbi.free key).mp free, outward, (mem_mvarUnion isPath stacked outward held).mp mem⟩
  · rintro ⟨key, free, outward, reaches⟩
    exact ⟨key, (isFbi.free key).mpr free, (mem_mvarUnion isPath stacked outward held).mpr reaches⟩

/-- Links to mu-binds of an expression. -/
def LinksOf (source : Expr) (links : List FbiLink) : Prop :=
  ∀ link ∈ links, ∃ body, link.e = .mu body ∧ SubMu source link.depth body

/-- A pass over links keeps the entries right, and ends with entries for all paths through the links. -/
def Passes (e : Expr) (spMax : Nat) (pass : List FbiLink → MuCtx → Nat → Ubi → Option Ubi) : Prop :=
  ∀ super links sp ubi ubi', IsSuper e super → LinksOf (inside e super) links → sp ≤ spMax → Sound e super ubi →
    Stacked ubi spMax sp super → pass links (superCtx super) sp ubi = some ubi' →
      Sound e super ubi' ∧ Grown sp ubi ubi' ∧
        ∀ link ∈ links, ∀ body, link.e = .mu body → Done e ubi' (extend super link.depth body)

theorem Sound.held (sound : Sound e super ubi) (separate : Separate e) (isSuper : IsSuper e super)
    (mem : longer ∈ super) (begins : Begins part longer) :
    ∃ set, ubi.fiimap part.encode = some set ∧ Holds set part := by
  obtain ⟨set, isSet⟩ := isSome_iff_exists.mp (sound.above longer mem part begins)
  obtain ⟨path, isPath, same, holds⟩ := sound.keys _ set isSet
  rw [separate path part isPath (begins.isPath (isSuper longer mem)) same] at holds
  exact ⟨set, isSet, holds⟩

theorem begins_extend (begins : Begins part (extend super depth body)) (ne : part ≠ extend super depth body) :
    ∃ longer ∈ super, Begins part longer := by
  cases super with
  | none =>
    cases begins
    exact absurd rfl ne
  | some path =>
    cases begins with
    | refl => exact absurd rfl ne
    | step begins => exact ⟨path, rfl, begins⟩

/-- When all mu-binds of the last body are done and the path has an entry, the path is done. -/
theorem done_of_next (isPath : IsPath e path) (entry : (ubi.fiimap path.encode).isSome)
    (next : ∀ depth body, SubMu path.last depth body → Done e ubi (.step path depth body)) : Done e ubi path := by
  intro longer begins isLonger
  rcases begins.next isLonger with rfl | ⟨depth, body, sub, begins⟩
  · exact entry
  · exact next depth body sub longer begins isLonger

theorem begins_super (begins : ∃ longer ∈ super, Begins part longer) : Begins part (extend super depth body) := by
  obtain ⟨longer, mem, begins⟩ := begins
  cases mem
  exact begins.step

theorem Sound.enter (sound : Sound e super ubi) (separate : Separate e) (isPath : IsPath e (extend super depth body))
    {set : Finset Nat} (holds : Holds set (extend super depth body)) (usp : Nat → Option MuCtx) :
    Sound e (some (extend super depth body))
      { fiimap := update ubi.fiimap (extend super depth body).encode (some set), usp := usp } := by
  have kept : ∀ ctx, (ubi.fiimap ctx).isSome →
      (update ubi.fiimap (extend super depth body).encode (some set) ctx).isSome := by
    intro ctx held
    by_cases same : ctx = (extend super depth body).encode
    · rw [same, update_self]
      rfl
    · rwa [update_of_ne same]
  refine ⟨fun ctx held isHeld => ?_, fun path isNew part begins => ?_, fun path inPaths entry => ?_⟩
  · by_cases same : ctx = (extend super depth body).encode
    · simp only [same, update_self, Option.some.injEq] at isHeld
      rw [← isHeld]
      exact ⟨_, isPath, same.symm, holds⟩
    · simp only [update_of_ne same] at isHeld
      exact sound.keys ctx held isHeld
  · cases isNew
    by_cases same : part = extend super depth body
    · simp [same]
    · obtain ⟨longer, mem, begins⟩ := begins_extend begins same
      exact kept _ (sound.above longer mem part begins)
  · by_cases same : path.encode = (extend super depth body).encode
    · rw [separate _ _ inPaths isPath same]
      exact .inl ⟨_, rfl, .refl⟩
    · simp only [update_of_ne same] at entry
      rcases sound.done path inPaths entry with begins | done
      · exact .inl ⟨_, rfl, begins_super begins⟩
      · exact .inr fun longer begins inLonger => kept _ (done longer begins inLonger)

theorem Sound.leave (sound : Sound e (some (extend super depth body)) ubi) (done : Done e ubi (extend super depth body)) :
    Sound e super ubi := by
  refine ⟨sound.keys, fun path mem part begins => ?_, fun path inPaths entry => ?_⟩
  · exact sound.above _ rfl part (begins_super ⟨path, mem, begins⟩)
  · rcases sound.done path inPaths entry with ⟨longer, isNew, begins⟩ | isDone
    · cases isNew
      by_cases same : path = extend super depth body
      · rw [same]
        exact .inr done
      · exact .inl (begins_extend begins same)
    · exact .inr isDone

private theorem ubiLink_sound (separate : Separate e) (complete : Complete (size e) eToFbi) (passes : Passes e spMax
    rest) (isSuper : IsSuper e super) (isMu : link.e = .mu body) (sub : SubMu (inside e super) link.depth body)
    (top : sp ≤ spMax)
    (sound : Sound e super ubi) (stacked : Stacked ubi spMax sp super)
    (ended : ubiLink eToFbi spMax rest (superCtx super) sp ubi link = some ubi') :
    Sound e super ubi' ∧ Grown sp ubi ubi' ∧ Done e ubi' (extend super link.depth body) := by
  have isPath := isPath_extend isSuper sub
  have isLast := last_extend super link.depth body
  have pos := sub.depth_le.1
  unfold ubiLink at ended
  rw [isMu] at ended
  split at ended
  · cases ended
  · next fbi entry =>
    have isFbi : IsFbi (extend super link.depth body).last fbi := by
      have small := isPath.size_le
      rw [isLast] at small ⊢
      exact (complete body fbi entry small).1
    rw [mupathPair_extend] at ended
    simp only at ended
    split at ended
    · next present =>
      cases ended
      refine ⟨sound, .refl ubi, (sound.done _ isPath present).resolve_left fun begins => ?_⟩
      obtain ⟨longer, mem, begins⟩ := begins
      have := begins.sizeOf_le
      cases mem
      simp only [extend, MuPath.step.sizeOf_spec] at this
      omega
    · next absent =>
      split at ended
      · cases ended
      · next room =>
        have holds := holds_biUnion isPath (stacked.push pos (not_lt.mp room) top ubi.fiimap) isFbi
          fun part begins ne => by
            obtain ⟨longer, mem, begins⟩ := begins_extend begins ne
            exact sound.held separate isSuper mem begins
        obtain ⟨sound', grown', done'⟩ := passes (some (extend super link.depth body)) fbi.subChain (sp - link.depth) _
          ubi' (fun path isNew => by cases isNew; exact isPath) (fun link mem => (isFbi.chain link).mp mem) (by omega)
          (sound.enter separate isPath holds _) (stacked.push pos (not_lt.mp room) top _) ended
        have done : Done e ubi' (extend super link.depth body) := by
          refine done_of_next isPath (sound'.above _ rfl _ .refl) fun depth inner sub => ?_
          exact done' ⟨.mu inner, depth⟩ ((isFbi.chain _).mpr ⟨inner, rfl, sub⟩) inner rfl
        refine ⟨sound'.leave done, ⟨fun ctx set held => ?_, fun i beyond => ?_⟩, done⟩
        · have ne : ctx ≠ (extend super link.depth body).encode := by
            rintro rfl
            rw [held] at absent
            exact absent rfl
          exact grown'.entries ctx set ((update_of_ne ne ..).trans held)
        · rw [grown'.stack i (by omega)]
          simp only
          rw [if_neg (by omega), if_neg (by omega)]

theorem computeUbi_passes (separate : Separate e) (complete : Complete (size e) eToFbi) (spMax fuel : Nat) :
    Passes e spMax (computeUbi eToFbi spMax fuel) := by
  induction fuel with
  | zero =>
    intro super links sp ubi ubi' _ _ _ _ _ ended
    cases ended
  | succ fuel ih =>
    intro super links sp ubi ubi' isSuper linksOf top sound stacked ended
    induction links generalizing ubi with
    | nil =>
      cases ended
      exact ⟨sound, .refl _, by simp⟩
    | cons link links loop =>
      obtain ⟨ubi1, first, rest⟩ := bind_eq_some_iff.mp ended
      obtain ⟨body, isMu, sub⟩ := linksOf link (List.mem_cons_self ..)
      obtain ⟨sound1, grown1, done1⟩ := ubiLink_sound separate complete ih isSuper isMu sub top sound stacked first
      obtain ⟨sound', grown', done'⟩ := loop ubi1 (fun link mem => linksOf link (.tail _ mem))
        sound1 (stacked.grown grown1) rest
      refine ⟨sound', (⟨fun ctx set held => grown'.entries ctx set (grown1.entries ctx set held), fun i beyond =>
        (grown'.stack i beyond).trans (grown1.stack i beyond)⟩), fun other mem inner isInner => ?_⟩
      rcases List.mem_cons.mp mem with rfl | later
      · rw [isMu] at isInner
        cases isInner
        exact done1.grown grown'
      · exact done' other later inner isInner

end Culibs.Cuex.Binding
