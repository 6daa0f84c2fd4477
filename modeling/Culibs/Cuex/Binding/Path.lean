import Culibs.Cuex.Binding.Flat

namespace Culibs.Cuex.Binding

open Binding.Expr List

/-- Mu-binds from the outermost to the innermost one, with the number of binders from each body to the next. -/
inductive MuPath where
  | first (body : Expr)
  | step (path : MuPath) (depth : Nat) (body : Expr)

namespace MuPath

/-- The body of the innermost mu-bind. -/
def last : MuPath → Expr
  | first body => body
  | step _ _ body => body

/-- The binding sites on the path around its last body. What is above the outermost mu-bind is not on the path. -/
def sites : MuPath → List Site
  | first body => [.mu body]
  | step path depth body => .mu body :: (replicate (depth - 1) .lambda ++ path.sites)

/-- The key of a path in the result. -/
def encode : MuPath → MuCtx
  | first body => .expr (.mu body)
  | step path depth body => mupathPair depth path.encode (.mu body)

/-- The part of a path up to the mu-bind that a variable of the last body belongs to. -/
def upTo : MuPath → Nat → Option MuPath
  | first body, key => if key = 0 then some (first body) else none
  | step path depth body, key =>
    if key = 0 then some (step path depth body) else if key < depth then none else path.upTo (key - depth)

end MuPath

/-- A path of mu-binds of an expression. -/
inductive IsPath (e : Expr) : MuPath → Prop
  | first {depth : Nat} {body : Expr} (sub : SubMu e depth body) : IsPath e (.first body)
  | step {path : MuPath} {depth : Nat} {body : Expr} (isPath : IsPath e path) (sub : SubMu path.last depth body) :
      IsPath e (.step path depth body)

/-- A path is a beginning of another one. -/
inductive Begins (path : MuPath) : MuPath → Prop
  | refl : Begins path path
  | step {longer : MuPath} {depth : Nat} {body : Expr} (begins : Begins path longer) :
      Begins path (.step longer depth body)

variable {e body : Expr} {path longer part : MuPath} {depth key k : Nat}

private theorem encode_ne_null : path.encode ≠ .null := by
  cases path with
  | first body => exact nofun
  | step path depth body =>
    unfold MuPath.encode mupathPair
    split <;> exact nofun

theorem encode_step : (path.step depth body).encode = .mupath (mupathSelect ||| depth) path.encode (.mu body) := by
  rw [MuPath.encode, mupathPair, if_neg encode_ne_null]

theorem sites_eq (path : MuPath) : ∃ outer, path.sites = .mu path.last :: outer := by
  cases path <;> exact ⟨_, rfl⟩

theorem Begins.isPath (begins : Begins path longer) (isPath : IsPath e longer) : IsPath e path := by
  induction begins with
  | refl => exact isPath
  | step begins ih =>
    cases isPath with
    | step inner sub => exact ih inner

theorem Begins.next (begins : Begins path longer) (isPath : IsPath e longer) :
    longer = path ∨ ∃ depth body, SubMu path.last depth body ∧ Begins (path.step depth body) longer := by
  induction begins with
  | refl => exact .inl rfl
  | step begins ih =>
    cases isPath with
    | step inner sub =>
      rcases ih inner with rfl | ⟨depth, body, next, begins⟩
      · exact .inr ⟨_, _, sub, .refl⟩
      · exact .inr ⟨depth, body, next, begins.step⟩

theorem upTo_zero : path.upTo 0 = some path := by
  cases path <;> simp [MuPath.upTo]

theorem begins_of_upTo (found : path.upTo key = some part) : Begins part path := by
  induction path generalizing key with
  | first body =>
    unfold MuPath.upTo at found
    split at found <;> cases found
    exact .refl
  | step path depth body ih =>
    unfold MuPath.upTo at found
    split at found
    · cases found
      exact .refl
    · split at found
      · cases found
      · exact (ih found).step

theorem Begins.sizeOf_le (begins : Begins path longer) : sizeOf path ≤ sizeOf longer := by
  induction begins with
  | refl => exact le_rfl
  | step begins ih =>
    simp only [MuPath.step.sizeOf_spec]
    omega

theorem ne_of_upTo (found : path.upTo key = some part) (outward : key ≠ 0) : part ≠ path := by
  rintro rfl
  cases part with
  | first body => simp [MuPath.upTo, outward] at found
  | step path depth body =>
    rw [MuPath.upTo, if_neg outward] at found
    split at found
    · cases found
    · have := (begins_of_upTo found).sizeOf_le
      simp only [MuPath.step.sizeOf_spec] at this
      omega

theorem IsPath.size_le (isPath : IsPath e path) : size (.mu path.last) ≤ size e := by
  induction isPath with
  | first sub => exact sub.size_le
  | step inner sub ih =>
    have := sub.size_le
    exact le_trans this (Nat.le_of_succ_le ih)

theorem sites_step (pos : 0 < depth) (outward : key ≠ 0) :
    (key < depth → (path.step depth body).sites[key]? = some .lambda) ∧
      (depth ≤ key → (path.step depth body).sites[key]? = path.sites[key - depth]? ∧
        (path.step depth body).sites.drop key = path.sites.drop (key - depth)) := by
  obtain ⟨key, rfl⟩ := Nat.exists_eq_succ_of_ne_zero outward
  constructor
  · intro inside
    rw [MuPath.sites, getElem?_cons_succ, getElem?_append_left (by simp; omega)]
    simp [getElem?_replicate]
    omega
  · intro beyond
    have offset : key - (depth - 1) = key + 1 - depth := by omega
    constructor
    · rw [MuPath.sites, getElem?_cons_succ, getElem?_append_right (by simp; omega), length_replicate, offset]
    · rw [MuPath.sites, drop_succ_cons, drop_append, length_replicate, offset,
        drop_eq_nil_of_le (by simp; omega), nil_append]

private theorem upTo_some (isPath : IsPath e path) (found : path.upTo key = some part) :
    path.sites[key]? = some (.mu part.last) ∧ path.sites.drop key = part.sites := by
  induction path generalizing key with
  | first body =>
    unfold MuPath.upTo at found
    split at found <;> cases found
    next own =>
      subst own
      exact ⟨rfl, rfl⟩
  | step path depth body ih =>
    cases isPath with
    | step inner sub =>
      unfold MuPath.upTo at found
      split at found
      · next own =>
        subst own
        cases found
        exact ⟨rfl, rfl⟩
      · next outward =>
        split at found
        · cases found
        · next beyond =>
          obtain ⟨site, drop⟩ := (sites_step sub.depth_le.1 outward).2 (not_lt.mp beyond)
          rw [site, drop]
          exact ih inner found

private theorem upTo_none (isPath : IsPath e path) (found : path.upTo key = none) (body : Expr) :
    path.sites[key]? ≠ some (.mu body) := by
  induction path generalizing key with
  | first body' =>
    unfold MuPath.upTo at found
    split at found
    · cases found
    · next outward =>
      obtain ⟨key, rfl⟩ := Nat.exists_eq_succ_of_ne_zero outward
      simp [MuPath.sites]
  | step path depth body' ih =>
    cases isPath with
    | step inner sub =>
      unfold MuPath.upTo at found
      split at found
      · cases found
      · next outward =>
        split at found
        · next inside =>
          rw [(sites_step sub.depth_le.1 outward).1 inside]
          simp
        · next beyond =>
          rw [((sites_step sub.depth_le.1 outward).2 (not_lt.mp beyond)).1]
          exact ih inner found

/-- A variable of the last body stands for itself or for what the mu-bind it belongs to stands for. -/
theorem reaches_path_iff (isPath : IsPath e path) : Reaches path.sites key k ↔
    match path.upTo key with
    | none => k = key
    | some part => ∃ k', k = key + k' ∧ Occurs part.sites part.last k' := by
  cases found : path.upTo key with
  | none =>
    constructor
    · intro reaches
      cases reaches with
      | stop other => rfl
      | expand site free outward rest => exact absurd site (upTo_none isPath found _)
    · rintro rfl
      exact .stop (upTo_none isPath found)
  | some part =>
    obtain ⟨site, drop⟩ := upTo_some isPath found
    constructor
    · intro reaches
      cases reaches with
      | stop other => exact absurd site (other _)
      | @expand _ _ key' k' body' site' free outward rest =>
        rw [site] at site'
        cases site'
        rw [drop] at rest
        exact ⟨k', rfl, occurs_iff.mpr ⟨key', free, rest⟩⟩
    · rintro ⟨k', rfl, occurs⟩
      obtain ⟨key', free, rest⟩ := occurs_iff.mp occurs
      by_cases own : key' = 0
      · subst own
        obtain ⟨outer, isSites⟩ := sites_eq part
        rw [isSites] at rest
        obtain ⟨key', free', outward, rest⟩ := reaches_mu_zero_iff.mp rest
        rw [← isSites] at rest
        exact .expand site free' outward (by rwa [drop])
      · exact .expand site free own (by rwa [drop])

/-- What occurs in the unfolding of the last mu-bind comes from its free variables that are not its own. -/
theorem occurs_path_iff : Occurs path.sites path.last k ↔
    ∃ key, Free path.last key ∧ key ≠ 0 ∧ Reaches path.sites key k := by
  obtain ⟨outer, isSites⟩ := sites_eq path
  rw [occurs_iff, isSites]
  constructor
  · rintro ⟨key, free, reaches⟩
    by_cases own : key = 0
    · subst own
      exact reaches_mu_zero_iff.mp reaches
    · exact ⟨key, free, own, reaches⟩
  · rintro ⟨key, free, _, reaches⟩
    exact ⟨key, free, reaches⟩

end Culibs.Cuex.Binding
