import Culibs.Cuos.Path.Basic

namespace Culibs.Cuos

open List

variable {s t comp : List Byte} {comps : List (List Byte)}

theorem exists_component (s : List Byte) : ∃ comp, slash ∉ comp ∧ (s = comp ∨ ∃ t, s = comp ++ slash :: t) := by
  induction s with
  | nil => exact ⟨[], not_mem_nil, .inl rfl⟩
  | cons b s ih =>
    by_cases here : b = slash
    · exact ⟨[], not_mem_nil, .inr ⟨s, by rw [here]; rfl⟩⟩
    · obtain ⟨comp, free, whole | ⟨t, parts⟩⟩ := ih
      · exact ⟨b :: comp, by simp [Ne.symm here, free], .inl (by rw [whole])⟩
      · exact ⟨b :: comp, by simp [Ne.symm here, free], .inr ⟨t, by rw [parts]; rfl⟩⟩

theorem splitOn_component (free : slash ∉ comp) : comp.splitOn slash = [comp] := splitOn_eq_singleton free

theorem splitOn_append (free : slash ∉ comp) (t : List Byte) :
    (comp ++ slash :: t).splitOn slash = comp :: t.splitOn slash := splitOn_append_cons_self_of_not_mem free t

theorem not_mem_of_mem_splitOn (s : List Byte) : ∀ c ∈ s.splitOn slash, slash ∉ c := by
  induction length : s.length using Nat.strongRecOn generalizing s with
  | ind n ih =>
    obtain ⟨comp, free, rfl | ⟨t, rfl⟩⟩ := exists_component s
    · rw [splitOn_component free]
      exact forall_mem_singleton.mpr free
    · rw [splitOn_append free]
      refine forall_mem_cons.mpr ⟨free, ih t.length ?_ t rfl⟩
      rw [← length, length_append, length_cons]
      omega

theorem joined_splitOn (s : List Byte) : joined (s.splitOn slash) = s := intercalate_splitOn slash

theorem splitOn_joined (free : ∀ comp ∈ comps, slash ∉ comp) (nonempty : comps ≠ []) :
    (joined comps).splitOn slash = comps := splitOn_intercalate slash free nonempty

theorem joined_cons_cons (comp comp' : List Byte) (comps : List (List Byte)) :
    joined (comp :: comp' :: comps) = comp ++ slash :: joined (comp' :: comps) := by
  simp [joined, intercalate_cons_cons]

theorem flatMap_slash (comps : List (List Byte)) (nonempty : comps ≠ []) :
    comps.flatMap (slash :: ·) = joined ([] :: comps) := by
  cases comps with
  | nil => exact absurd rfl nonempty
  | cons comp comps =>
    rw [joined_cons_cons, nil_append, flatMap_cons, cons_append]
    congr 1
    induction comps generalizing comp with
    | nil => simp [joined]
    | cons comp' comps ih =>
      rw [flatMap_cons, cons_append, ih comp' (cons_ne_nil comp' comps), joined_cons_cons]

/-- A component may begin with dots, but is neither `.` nor `..`. -/
def Plain (comp : List Byte) : Prop := comp ≠ [dot] ∧ comp ≠ up

instance (comp : List Byte) : Decidable (Plain comp) := inferInstanceAs (Decidable (_ ∧ _))

section

variable (free : slash ∉ comp)

include free

private theorem skipName_component : skipName comp = none := by
  induction comp with
  | nil => rfl
  | cons b comp ih =>
    rw [mem_cons, not_or] at free
    rw [skipName, if_neg (Ne.symm free.1), ih free.2]

private theorem skipName_append (t : List Byte) : skipName (comp ++ slash :: t) = some t := by
  induction comp with
  | nil => exact if_pos rfl
  | cons b comp ih =>
    rw [mem_cons, not_or] at free
    rw [cons_append, skipName, if_neg (Ne.symm free.1), ih free.2]

theorem afterDots_spec (rest : List Byte) (ends : rest = [] ∨ ∃ t, rest = slash :: t) :
    (¬ Plain comp ∧ afterDots (comp ++ rest) = none) ∨
      (Plain comp ∧ ∃ left, slash ∉ left ∧ afterDots (comp ++ rest) = some (left ++ rest)) := by
  have other : slash ≠ dot := by decide
  cases comp with
  | nil =>
    refine .inr ⟨by decide, [], not_mem_nil, ?_⟩
    rcases ends with rfl | ⟨t, rfl⟩
    · rfl
    · simp [afterDots, other]
  | cons b0 comp =>
    by_cases first : b0 = dot
    · subst first
      cases comp with
      | nil =>
        refine .inl ⟨by decide, ?_⟩
        rcases ends with rfl | ⟨t, rfl⟩ <;> rfl
      | cons b1 comp =>
        simp only [mem_cons, not_or] at free
        by_cases second : b1 = dot
        · subst second
          cases comp with
          | nil =>
            refine .inl ⟨by decide, ?_⟩
            rcases ends with rfl | ⟨t, rfl⟩ <;> rfl
          | cons b2 comp =>
            simp only [mem_cons, not_or] at free
            refine .inr ⟨by simp [Plain, up], b2 :: comp, by simp [free], ?_⟩
            simp [afterDots, Ne.symm other, Ne.symm free.2.2.1]
        · refine .inr ⟨by simp [Plain, up, second], b1 :: comp, by simp [free], ?_⟩
          simp [afterDots, Ne.symm free.2.1, second]
    · refine .inr ⟨by simp [Plain, up, first], b0 :: comp, free, ?_⟩
      simp [afterDots, first]

private theorem isComps_component : isComps comp = decide (Plain comp) := by
  by_cases empty : comp = []
  · subst empty
    rw [isComps, if_pos rfl]
    decide
  rw [isComps, if_neg empty]
  rcases afterDots_spec free [] (.inl rfl) with ⟨special, dots⟩ | ⟨plain, left, free', dots⟩
  · rw [append_nil] at dots
    rw [decide_eq_false special]
    split
    · rfl
    · next found => exact absurd (dots.symm.trans found) (by intro same; cases same)
  rw [append_nil, append_nil] at dots
  rw [decide_eq_true plain]
  split
  · next found => exact absurd (dots.symm.trans found) (by intro same; cases same)
  · next left' found =>
    cases Option.some.inj (dots.symm.trans found)
    split
    · rfl
    · next t more => exact absurd ((skipName_component free').symm.trans more) (by intro same; cases same)

private theorem isComps_append (t : List Byte) :
    isComps (comp ++ slash :: t) = (decide (Plain comp) && (t.head? ≠ some slash && isComps t)) := by
  rw [isComps, if_neg (by simp)]
  rcases afterDots_spec free (slash :: t) (.inr ⟨t, rfl⟩) with ⟨special, dots⟩ | ⟨plain, left, free', dots⟩
  · rw [decide_eq_false special, Bool.false_and]
    split
    · rfl
    · next found => exact absurd (dots.symm.trans found) (by intro same; cases same)
  rw [decide_eq_true plain, Bool.true_and]
  split
  · next found => exact absurd (dots.symm.trans found) (by intro same; cases same)
  · next left' found =>
    cases Option.some.inj (dots.symm.trans found)
    split
    · next more => exact absurd ((skipName_append free' t).symm.trans more) (by intro same; cases same)
    · next t' more =>
      cases Option.some.inj ((skipName_append free' t).symm.trans more)
      by_cases again : t.head? = some slash <;> simp [again]

end

theorem getLast?_append_slash (comp t : List Byte) (nonempty : t ≠ []) :
    (comp ++ slash :: t).getLast? = t.getLast? := by
  rw [getLast?_append, getLast?_cons]
  cases last : t.getLast? with
  | none => exact absurd (getLast?_eq_none_iff.mp last) nonempty
  | some b => rfl

private theorem head_splitOn (t : List Byte) (comps : List (List Byte)) (split : t.splitOn slash = comp :: comps)
    (nonempty : t ≠ []) : t.head? = some slash ↔ comp = [] := by
  obtain ⟨comp', free, rfl | ⟨t', rfl⟩⟩ := exists_component t
  · rw [splitOn_component free] at split
    cases split
    simp only [nonempty, iff_false]
    intro headed
    exact free (mem_of_mem_head? headed)
  · rw [splitOn_append free] at split
    cases split
    cases comp with
    | nil => simp
    | cons b comp =>
      simp only [mem_cons, not_or] at free
      simp [Ne.symm free.1]

/-- The components that the loop goes through are neither `.` nor `..`, and only the first may be empty. -/
theorem isComps_iff (s : List Byte) (ends : s.getLast? ≠ some slash) :
    isComps s = true ↔ ∃ comp comps, s.splitOn slash = comp :: comps ∧ Plain comp ∧ ∀ c ∈ comps, NonSpecial c := by
  induction length : s.length using Nat.strongRecOn generalizing s with
  | ind n ih =>
    obtain ⟨comp, free, rfl | ⟨t, rfl⟩⟩ := exists_component s
    · rw [isComps_component free, splitOn_component free, decide_eq_true_iff]
      constructor
      · exact fun plain => ⟨s, [], rfl, plain, nofun⟩
      · rintro ⟨_, _, same, plain, _⟩
        cases same
        exact plain
    · by_cases nonempty : t = []
      · subst nonempty
        simp at ends
      rw [getLast?_append_slash comp t nonempty] at ends
      have tail := ih t.length (by rw [← length, length_append, length_cons]; omega) t ends rfl
      have slashless := not_mem_of_mem_splitOn t
      rw [isComps_append free, splitOn_append free, Bool.and_eq_true, Bool.and_eq_true, decide_eq_true_iff,
        decide_eq_true_iff, tail]
      constructor
      · rintro ⟨plain, apart, comp', comps, split, plain', rest⟩
        refine ⟨comp, _, rfl, plain, ?_⟩
        rw [split]
        refine forall_mem_cons.mpr ⟨⟨slashless comp' (by rw [split]; exact .head _), ?_, plain'⟩, rest⟩
        exact mt (head_splitOn t comps split nonempty).mpr apart
      rintro ⟨_, _, same, plain, rest⟩
      cases same
      cases split : t.splitOn slash with
      | nil => exact absurd split (splitOn_ne_nil slash t)
      | cons comp' comps =>
        rw [split] at rest
        obtain ⟨⟨_, nonempty', plain'⟩, rest⟩ := forall_mem_cons.mp rest
        exact ⟨plain, mt (head_splitOn t comps split nonempty).mp nonempty', comp', comps, rfl, plain', rest⟩

theorem skipUps_up (t : List Byte) : skipUps (up ++ slash :: t) = skipUps t := by
  rw [up, cons_append, cons_append, nil_append, skipUps, if_pos ⟨rfl, rfl, rfl⟩]

theorem skipUps_spec (s : List Byte) :
    ∃ k, s.splitOn slash = replicate k up ++ (skipUps s).splitOn slash ∧
      (s.getLast? ≠ some slash → (skipUps s).getLast? ≠ some slash ∧ (skipUps s = [] → s = [])) := by
  induction s using skipUps.induct with
  | case1 b0 b1 b2 s same ih =>
    obtain ⟨rfl, rfl, rfl⟩ := same
    obtain ⟨k, split, forth⟩ := ih
    have free : slash ∉ up := by decide
    have whole : dot :: dot :: slash :: s = up ++ slash :: s := rfl
    refine ⟨k + 1, ?_, ?_⟩
    · rw [whole, splitOn_append free, skipUps_up, split]
      rfl
    · rw [whole, skipUps_up]
      by_cases nonempty : s = []
      · subst nonempty
        simp [skipUps]
      · rw [getLast?_append_slash up s nonempty]
        exact fun ends => ⟨(forth ends).1, fun none => absurd ((forth ends).2 none) nonempty⟩
  | case2 b0 b1 b2 s other =>
    rw [skipUps, if_neg other]
    exact ⟨0, rfl, fun ends => ⟨ends, id⟩⟩
  | case3 s short =>
    have same : skipUps s = s := by
      rw [skipUps.eq_def]
      split
      · exact absurd rfl (short _ _ _ _)
      · rfl
    rw [same]
    exact ⟨0, rfl, fun ends => ⟨ends, id⟩⟩

theorem skipUps_of_other (split : s.splitOn slash = comp :: comps) (other : comp ≠ up) : skipUps s = s := by
  rw [skipUps.eq_def]
  split
  · next b0 b1 b2 t =>
    by_cases same : b0 = dot ∧ b1 = dot ∧ b2 = slash
    · obtain ⟨rfl, rfl, rfl⟩ := same
      have whole : (up ++ slash :: t).splitOn slash = up :: t.splitOn slash := splitOn_append (by decide) t
      exact absurd (cons.inj (split.symm.trans whole)).1 other
    · rw [if_neg same]
  · rfl

private theorem eq_of_splitOn (same : s.splitOn slash = t.splitOn slash) : s = t := by
  rw [← joined_splitOn s, same, joined_splitOn]

theorem skipUps_of_ups (k : Nat) (split : s.splitOn slash = replicate k up ++ t.splitOn slash) :
    skipUps s = skipUps t := by
  induction k generalizing s with
  | zero => rw [eq_of_splitOn split]
  | succ k ih =>
    have whole : s = up ++ slash :: joined (replicate k up ++ t.splitOn slash) := by
      apply eq_of_splitOn
      have slashless : ∀ c ∈ replicate k up ++ t.splitOn slash, slash ∉ c := by
        intro c mem
        rcases mem_append.mp mem with mem | mem
        · rw [eq_of_mem_replicate mem]
          decide
        · exact not_mem_of_mem_splitOn t c mem
      rw [split, splitOn_append (by decide), splitOn_joined slashless (by simp)]
      rfl
    rw [whole, skipUps_up]
    apply ih
    rw [whole, splitOn_append (by decide)] at split
    exact (cons.inj split).2

theorem getLast?_splitOn (ends : s.getLast? = some slash) : (s.splitOn slash).getLast? = some [] := by
  induction length : s.length using Nat.strongRecOn generalizing s with
  | ind n ih =>
    obtain ⟨comp, free, rfl | ⟨t, rfl⟩⟩ := exists_component s
    · exact absurd (mem_of_getLast? ends) free
    · rw [splitOn_append free, getLast?_cons]
      by_cases nonempty : t = []
      · subst nonempty
        rfl
      · rw [getLast?_append_slash comp t nonempty] at ends
        rw [ih t.length (by rw [← length, length_append, length_cons]; omega) ends rfl]
        rfl

/-- An empty component comes between the leading `..` and the others. -/
def Doubled (s : List Byte) : Prop :=
  ∃ k comps, comps ≠ [] ∧ (∀ comp ∈ comps, NonSpecial comp) ∧
    s.splitOn slash = replicate (k + 1) up ++ [] :: comps

private theorem nonempty_last (nonempty : comps ≠ []) (ordinary : ∀ c ∈ comps, NonSpecial c) (before : List (List Byte))
    (split : s.splitOn slash = before ++ comps) : s.getLast? ≠ some slash := by
  intro ends
  have last := getLast?_splitOn ends
  rw [split, getLast?_append, getLast?_eq_some_getLast nonempty] at last
  exact (ordinary _ (getLast_mem nonempty)).2.1 (Option.some.inj last)

private theorem isPathCharr_of_split (k : Nat) (split : s.splitOn slash = replicate k up ++ comp :: comps)
    (plain : Plain comp) (ordinary : ∀ c ∈ comps, NonSpecial c) (ends : s.getLast? ≠ some slash) (nonempty : s ≠ []) :
    isPathCharr s = true := by
  rw [isPathCharr, if_neg nonempty]
  by_cases short : s = [dot] ∨ s = [slash]
  · rw [if_pos short]
  rw [if_neg short, if_neg ends]
  obtain ⟨_, _, forth⟩ := skipUps_spec s
  have slashless : ∀ c ∈ comp :: comps, slash ∉ c := by
    intro c mem
    apply not_mem_of_mem_splitOn s c
    rw [split]
    exact mem_append_right _ mem
  have parts : (joined (comp :: comps)).splitOn slash = comp :: comps :=
    splitOn_joined slashless (cons_ne_nil comp comps)
  have left : skipUps s = joined (comp :: comps) := by
    rw [skipUps_of_ups k (t := joined (comp :: comps)) (by rw [parts, split]), skipUps_of_other parts plain.2]
  rw [left] at forth ⊢
  dsimp only
  split
  · rfl
  · exact (isComps_iff _ (forth ends).1).mpr ⟨comp, comps, parts, plain, ordinary⟩

theorem plain_up (k : Nat) : isPathCharr (joined (replicate (k + 1) up)) = true := by
  have slashless : ∀ c ∈ replicate (k + 1) up, slash ∉ c := by
    intro c mem
    rw [eq_of_mem_replicate mem]
    decide
  have parts : (joined (replicate (k + 1) up)).splitOn slash = replicate (k + 1) up :=
    splitOn_joined slashless (by simp)
  have ends : (joined (replicate (k + 1) up)).getLast? ≠ some slash := by
    intro ends
    have last := getLast?_splitOn ends
    rw [parts, getLast?_replicate, if_neg (Nat.succ_ne_zero k)] at last
    cases last
  have left : skipUps (joined (replicate (k + 1) up)) = up := by
    rw [skipUps_of_ups k (t := up) (by rw [parts, splitOn_component (by decide), replicate_succ'])]
    rfl
  have other (bs : List Byte) (ne : (bs.splitOn slash).head? ≠ some up) :
      joined (replicate (k + 1) up) ≠ bs := by
    rintro rfl
    apply ne
    rw [parts, replicate_succ]
    rfl
  rw [isPathCharr, if_neg (other [] (by rw [splitOn_component (by decide)]; decide)), if_neg, if_neg ends]
  · dsimp only
    rw [left, if_pos rfl]
  · rintro (same | same)
    · exact other [dot] (by rw [splitOn_component (by decide)]; decide) same
    · exact other [slash] (by rw [← nil_append [slash], splitOn_append (by decide)]; decide) same

/-- The recogniser accepts normalised file names, and names with an empty component after leading `..`. -/
theorem isPathCharr_iff (s : List Byte) : isPathCharr s = true ↔ Nfn s ∨ Doubled s := by
  constructor
  · intro accepted
    rw [isPathCharr] at accepted
    by_cases empty : s = []
    · rw [if_pos empty] at accepted
      cases accepted
    rw [if_neg empty] at accepted
    by_cases short : s = [dot] ∨ s = [slash]
    · rcases short with rfl | rfl
      · exact .inl (.inl .here)
      · exact .inl (.inr .root)
    rw [if_neg short] at accepted
    by_cases ends : s.getLast? = some slash
    · rw [if_pos ends] at accepted
      cases accepted
    rw [if_neg ends] at accepted
    obtain ⟨k, split, forth⟩ := skipUps_spec s
    obtain ⟨ends', kept⟩ := forth ends
    by_cases last : skipUps s = up
    · rw [last, splitOn_component (show slash ∉ up by decide), ← replicate_succ'] at split
      rw [← joined_splitOn s, split]
      exact .inl (.inl (.ups k))
    rw [if_neg last] at accepted
    obtain ⟨comp, comps, parts, plain, ordinary⟩ := (isComps_iff _ ends').mp accepted
    have free : slash ∉ comp := not_mem_of_mem_splitOn _ comp (by rw [parts]; exact .head _)
    rw [parts] at split
    by_cases named : comp = []
    · subst named
      have more : comps ≠ [] := by
        rintro rfl
        refine empty (kept ?_)
        rw [← joined_splitOn (skipUps s), parts]
        rfl
      cases k with
      | zero =>
        rw [← joined_splitOn s, split, replicate_zero, nil_append, ← flatMap_slash comps more]
        exact .inl (.inr (.names comps more ordinary))
      | succ k => exact .inr ⟨k, comps, more, ordinary, split⟩
    · rw [← joined_splitOn s, split]
      exact .inl (.inl (.names k _ (cons_ne_nil comp comps)
        (forall_mem_cons.mpr ⟨⟨free, named, plain⟩, ordinary⟩)))
  · rintro (((_ | ⟨k⟩ | ⟨k, comps, more, ordinary⟩) | (_ | ⟨comps, more, ordinary⟩)) | ⟨k, comps, more, ordinary, split⟩)
    · rfl
    · exact plain_up k
    · have slashless : ∀ c ∈ replicate k up ++ comps, slash ∉ c := by
        intro c mem
        rcases mem_append.mp mem with mem | mem
        · rw [eq_of_mem_replicate mem]
          decide
        · exact (ordinary c mem).1
      have parts := splitOn_joined slashless (by simp [more])
      have ends := nonempty_last more ordinary _ parts
      cases comps with
      | nil => exact absurd rfl more
      | cons comp comps =>
        obtain ⟨own, rest⟩ := forall_mem_cons.mp ordinary
        refine isPathCharr_of_split k parts own.2.2 rest ends ?_
        rintro empty
        rw [empty, splitOn_component (by decide)] at parts
        cases k with
        | zero =>
          exact own.2.1 (cons.inj parts).1.symm
        | succ k => cases parts
    · rfl
    · have slashless : ∀ c ∈ [] :: comps, slash ∉ c :=
        forall_mem_cons.mpr ⟨not_mem_nil, fun c mem => (ordinary c mem).1⟩
      have parts := splitOn_joined slashless (cons_ne_nil [] comps)
      rw [flatMap_slash comps more]
      refine isPathCharr_of_split 0 parts (by decide) ordinary (nonempty_last more ordinary [[]] parts) ?_
      rintro empty
      rw [empty, splitOn_component (by decide)] at parts
      exact more (cons.inj parts).2.symm
    · have ends : s.getLast? ≠ some slash := by
        apply nonempty_last more ordinary (replicate (k + 1) up ++ [[]])
        rw [split, append_assoc, singleton_append]
      refine isPathCharr_of_split (k + 1) split (by decide) ordinary ends ?_
      rintro rfl
      cases split

end Culibs.Cuos
