import Culibs.Cuos.Path.Recognise

namespace Culibs.Cuos

open List Nat Option

variable {s t comp : List Byte} {comps : List (List Byte)} {isAbs : Bool} {found : Found}

theorem components_append_slash (s t : List Byte) : components (s ++ slash :: t) = components s ++ components t := by
  rw [components, splitOn_append_cons_self, filter_append]
  rfl

theorem components_nil : components [] = [] := by
  rfl

theorem components_dot : components [dot] = [] := by
  rfl

theorem components_slash (s : List Byte) : components (slash :: s) = components s := by
  have parts := components_append_slash [] s
  rwa [components_nil, nil_append, nil_append] at parts

private theorem components_snoc (s : List Byte) : components (s ++ [slash]) = components s := by
  rw [components_append_slash, components_nil, append_nil]

private theorem components_component (free : slash ∉ comp) (nonempty : comp ≠ []) :
    components comp = if comp = [dot] then [] else [comp] := by
  rw [components, splitOn_component free]
  by_cases here : comp = [dot]
  · rw [if_pos here, here]
    rfl
  · rw [if_neg here, filter_cons_of_pos (by simp [here, nonempty]), filter_nil]

theorem mem_components (mem : comp ∈ components s) : slash ∉ comp ∧ comp ≠ [] ∧ comp ≠ [dot] := by
  obtain ⟨part, kept⟩ := mem_filter.mp mem
  exact ⟨not_mem_of_mem_splitOn s comp part, of_decide_eq_true kept⟩

private theorem components_of_splitOn (split : s.splitOn slash = comps) (kept : ∀ c ∈ comps, c ≠ [] ∧ c ≠ [dot]) :
    components s = comps := by
  rw [components, split]
  exact filter_eq_self.mpr fun c mem => decide_eq_true (kept c mem)

private theorem components_skipSlashes (s : List Byte) : components (skipSlashes s) = components s := by
  induction s with
  | nil => rfl
  | cons b s ih =>
    rw [skipSlashes]
    split
    · next here => rw [ih, here, components_slash]
    · rfl

/-- What the loop does about a component. -/
def visit (isAbs : Bool) (comp : List Byte) (found : Found) : Option Found :=
  if comp = [dot] then some found
  else if comp = up then goUp isAbs found
  else some { found with stack := comp :: found.stack }

theorem splitName_append (free : slash ∉ comp) (rest : List Byte) (ends : rest = [] ∨ ∃ t, rest = slash :: t) :
    splitName (comp ++ rest) = (comp, rest) := by
  induction comp with
  | nil =>
    rcases ends with rfl | ⟨t, rfl⟩
    · rfl
    · exact if_pos rfl
  | cons b comp ih =>
    rw [mem_cons, not_or] at free
    rw [cons_append, splitName, if_neg (Ne.symm free.1), ih free.2]

private theorem extract_component (free : slash ∉ comp) (nonempty : comp ≠ []) :
    extract isAbs comp found = match visit isAbs comp found with
      | none => .null
      | some found => .found found := by
  cases comp with
  | nil => exact absurd rfl nonempty
  | cons b0 t =>
    have named := splitName_append free [] (.inl rfl)
    rw [append_nil] at named
    rw [extract, named, visit]
    by_cases here : b0 = dot ∧ t = []
    · obtain ⟨rfl, rfl⟩ := here
      rw [if_pos ⟨rfl, rfl⟩, if_pos rfl]
    have unheaded : ¬(b0 = dot ∧ t.head? = some slash) := fun headed =>
      free (.tail _ (mem_of_mem_head? headed.2))
    have untaken : ¬(b0 = dot ∧ t.take 2 = [dot, slash]) := fun taken =>
      free (.tail _ (mem_of_mem_take (by rw [taken.2]; simp)))
    have single : b0 :: t ≠ [dot] := by simpa using here
    rw [if_neg here, if_neg unheaded, if_neg single]
    by_cases double : b0 = dot ∧ t = [dot]
    · obtain ⟨rfl, rfl⟩ := double
      rw [if_pos ⟨rfl, rfl⟩]
      cases goUp isAbs found <;> simp only [up, if_true]
    · have other : b0 :: t ≠ up := by simpa [up] using double
      rw [if_neg double, if_neg untaken, if_pos rfl, if_neg other]

theorem extract_append (free : slash ∉ comp) (nonempty : comp ≠ []) (more : skipSlashes t ≠ []) :
    extract isAbs (comp ++ slash :: t) found = match visit isAbs comp found with
      | none => .null
      | some found => extract isAbs (skipSlashes t) found := by
  have skip : skipSlashes (slash :: t) = skipSlashes t := if_pos rfl
  cases comp with
  | nil => exact absurd rfl nonempty
  | cons b0 c =>
    have named := splitName_append free (slash :: t) (.inr ⟨t, rfl⟩)
    rw [cons_append] at named ⊢
    rw [extract, named, visit, if_neg (by simp)]
    by_cases here : b0 = dot ∧ c = []
    · obtain ⟨rfl, rfl⟩ := here
      rw [if_pos ⟨rfl, rfl⟩, if_pos rfl, nil_append, skip]
    have unheaded : ¬(b0 = dot ∧ (c ++ slash :: t).head? = some slash) := by
      rintro ⟨rfl, headed⟩
      cases c with
      | nil => exact here ⟨rfl, rfl⟩
      | cons b1 c =>
        simp only [mem_cons, not_or] at free
        exact free.2.1 (some.inj headed).symm
    have single : b0 :: c ≠ [dot] := by simpa using here
    have unended : ¬(b0 = dot ∧ c ++ slash :: t = [dot]) := by
      rintro ⟨rfl, ended⟩
      rcases c with _ | ⟨b1, c⟩
      · exact here ⟨rfl, rfl⟩
      · simp at ended
    rw [if_neg unheaded, if_neg unended, if_neg single]
    by_cases double : b0 = dot ∧ c = [dot]
    · obtain ⟨rfl, rfl⟩ := double
      rw [if_pos ⟨rfl, rfl⟩, singleton_append, tail_cons, skip, if_neg more]
      cases goUp isAbs found <;> simp only [up, if_true]
    have untaken : ¬(b0 = dot ∧ (c ++ slash :: t).take 2 = [dot, slash]) := by
      rintro ⟨rfl, taken⟩
      rcases c with _ | ⟨b1, _ | ⟨b2, c⟩⟩
      · exact here ⟨rfl, rfl⟩
      · simp only [cons_append, nil_append, take_succ_cons, take_zero] at taken
        exact double ⟨rfl, by rw [(cons.inj taken).1]⟩
      · simp only [mem_cons, not_or] at free
        exact free.2.2.1 (cons.inj (cons.inj taken).2).1.symm
    have other : b0 :: c ≠ up := by simpa [up] using double
    rw [if_neg untaken, if_neg other]
    simp only [cons_ne_nil, if_false, skip]

def visitAll (isAbs : Bool) : List (List Byte) → Found → Option Found
  | [], found => some found
  | comp :: comps, found => (visit isAbs comp found).bind (visitAll isAbs comps)

private theorem skipSlashes_spec (ends : t.getLast? ≠ some slash) (nonempty : t ≠ []) :
    skipSlashes t ≠ [] ∧ (skipSlashes t).head? ≠ some slash ∧ (skipSlashes t).getLast? ≠ some slash := by
  induction t with
  | nil => exact absurd rfl nonempty
  | cons b t ih =>
    rw [skipSlashes]
    by_cases here : b = slash
    · subst here
      by_cases last : t = []
      · subst last
        exact absurd rfl ends
      · refine ih ?_ last
        rwa [← nil_append (slash :: t), getLast?_append_slash [] t last] at ends
    · rw [if_neg here]
      exact ⟨cons_ne_nil b t, fun headed => here (some.inj headed), ends⟩

private theorem extract_spec (s : List Byte) (found : Found) (nonempty : s ≠ []) (starts : s.head? ≠ some slash)
    (ends : s.getLast? ≠ some slash) :
    extract isAbs s found = match visitAll isAbs (components s) found with
      | none => .null
      | some found => .found found := by
  induction length : s.length using Nat.strongRecOn generalizing s found with
  | ind n ih =>
    obtain ⟨comp, free, rfl | ⟨t, rfl⟩⟩ := exists_component s
    · rw [extract_component free nonempty, components_component free nonempty, visit]
      by_cases here : s = [dot]
      · rw [if_pos here, if_pos here]
        rfl
      · rw [if_neg here, if_neg here, visitAll, visit, if_neg here]
        by_cases double : s = up
        · rw [if_pos double]
          cases goUp isAbs found <;> rfl
        · rw [if_neg double]
          rfl
    · have named : comp ≠ [] := by
        rintro rfl
        exact starts rfl
      have last : t ≠ [] := by
        rintro rfl
        simp at ends
      rw [getLast?_append_slash comp t last] at ends
      obtain ⟨more, starts', ends'⟩ := skipSlashes_spec ends last
      have less : (skipSlashes t).length < n := by
        have := skipSlashes_length t
        rw [← length, length_append, length_cons]
        omega
      rw [extract_append free named more, components_append_slash, components_component free named, visit]
      have rest (found : Found) := ih _ less (skipSlashes t) found more starts' ends' rfl
      rw [components_skipSlashes] at rest
      by_cases here : comp = [dot]
      · rw [if_pos here, if_pos here]
        exact rest found
      rw [if_neg here, if_neg here, singleton_append, visitAll, visit, if_neg here]
      by_cases double : comp = up
      · rw [if_pos double]
        cases goUp isAbs found with
        | none => rfl
        | some found => exact rest found
      · rw [if_neg double]
        exact rest _

variable (ups : Nat)

theorem cancel_up_nil : cancel (ups, []) up = (ups + 1, []) := rfl

theorem cancel_up_cons (name : List Byte) (names : List (List Byte)) :
    cancel (ups, name :: names) up = (ups, names) := rfl

variable (names : List (List Byte))

theorem cancel_name (other : comp ≠ up) :
    cancel (ups, names) comp = (ups, comp :: names) := if_neg other

theorem cancel_le (comps : List (List Byte)) (state : Nat × List (List Byte)) :
    state.1 ≤ (comps.foldl cancel state).1 := by
  induction comps generalizing state with
  | nil => exact Nat.le_refl _
  | cons comp comps ih =>
    refine Nat.le_trans ?_ (ih (cancel state comp))
    obtain ⟨ups, names⟩ := state
    by_cases double : comp = up
    · rw [double]
      cases names with
      | nil => exact le_succ ups
      | cons name names => exact Nat.le_refl ups
    · exact Nat.le_of_eq (by rw [cancel_name ups names double])

private theorem visitAll_relative (comps : List (List Byte)) (kept : ∀ c ∈ comps, c ≠ [dot]) (found : Found) :
    visitAll false comps found = some
      { stack := (comps.foldl cancel (found.topUp, found.stack)).2
        topUp := (comps.foldl cancel (found.topUp, found.stack)).1 } := by
  induction comps generalizing found with
  | nil => rfl
  | cons comp comps ih =>
    obtain ⟨here, kept'⟩ := forall_mem_cons.mp kept
    obtain ⟨stack, topUp⟩ := found
    rw [visitAll, visit, if_neg here, foldl_cons]
    by_cases double : comp = up
    · subst double
      cases stack with
      | nil => exact ih kept' _
      | cons name stack => exact ih kept' _
    · rw [if_neg double, cancel_name topUp stack double, bind_some, ih kept']

theorem visitAll_absolute (comps : List (List Byte)) (kept : ∀ c ∈ comps, c ≠ [dot]) (stack : List (List Byte)) :
    visitAll true comps { stack, topUp := 0 } =
      if (comps.foldl cancel (0, stack)).1 = 0 then some { stack := (comps.foldl cancel (0, stack)).2, topUp := 0 }
      else none := by
  induction comps generalizing stack with
  | nil => rfl
  | cons comp comps ih =>
    obtain ⟨here, kept'⟩ := forall_mem_cons.mp kept
    rw [visitAll, visit, if_neg here, foldl_cons]
    by_cases double : comp = up
    · subst double
      cases stack with
      | nil =>
        have risen := cancel_le comps (1, [])
        rw [cancel_up_nil, if_neg (Nat.ne_of_gt risen)]
        rfl
      | cons name stack => exact ih kept' stack
    · rw [if_neg double, cancel_name 0 stack double, bind_some, ih kept']

theorem cancel_pos_iff (comps : List (List Byte)) (names : List (List Byte)) :
    0 < (comps.foldl cancel (0, names)).1 ↔
      ∃ before, before <+: comps ∧ before.countP (· ≠ up) + names.length < before.countP (· = up) := by
  induction comps generalizing names with
  | nil =>
    constructor
    · intro pos
      cases pos
    · rintro ⟨before, part, more⟩
      rw [prefix_nil.mp part] at more
      cases more
  | cons comp comps ih =>
    rw [foldl_cons]
    have shape (P : List (List Byte) → Prop) (empty : ¬ P []) :
        (∃ before, before <+: comp :: comps ∧ P before) ↔ ∃ before, before <+: comps ∧ P (comp :: before) := by
      constructor
      · rintro ⟨before, part, holds⟩
        rcases prefix_cons_iff.mp part with rfl | ⟨rest, rfl, _⟩
        · exact absurd holds empty
        · exact ⟨rest, (prefix_cons_inj comp).mp part, holds⟩
      · rintro ⟨before, part, holds⟩
        exact ⟨comp :: before, (prefix_cons_inj comp).mpr part, holds⟩
    rw [shape (fun before => before.countP (· ≠ up) + names.length < before.countP (· = up)) (by simp)]
    by_cases double : comp = up
    · subst double
      simp only [countP_cons, ne_eq, not_true_eq_false, decide_false, Bool.false_eq_true, if_false, decide_true,
        if_true, Nat.add_zero]
      cases names with
      | nil =>
        constructor
        · exact fun _ => ⟨[], nil_prefix, by simp⟩
        · exact fun _ => cancel_le comps (1, [])
      | cons name names =>
        rw [cancel_up_cons, ih]
        simp only [length_cons, ← Nat.add_assoc, Nat.add_lt_add_iff_right, ne_eq, decide_not]
    · rw [cancel_name 0 names double, ih]
      simp only [countP_cons, ne_eq, double, not_false_eq_true, decide_true, if_true, decide_false,
        Bool.false_eq_true, if_false, Nat.add_zero, length_cons]
      simp only [Nat.add_assoc, Nat.add_comm 1]

private theorem climbs_iff (s : List Byte) : Climbs s ↔ 0 < (cancelled s).1 := by
  rw [cancelled, cancel_pos_iff]
  rfl

theorem names_ordinary (comps : List (List Byte)) (state : Nat × List (List Byte))
    (before : ∀ c ∈ state.2, NonSpecial c) (kept : ∀ c ∈ comps, slash ∉ c ∧ c ≠ [] ∧ c ≠ [dot]) :
    ∀ c ∈ (comps.foldl cancel state).2, NonSpecial c := by
  induction comps generalizing state with
  | nil => exact before
  | cons comp comps ih =>
    obtain ⟨own, kept⟩ := forall_mem_cons.mp kept
    obtain ⟨ups, names⟩ := state
    apply ih _ _ kept
    by_cases double : comp = up
    · subst double
      cases names with
      | nil => exact nofun
      | cons name names => exact fun c mem => before c (mem_cons_of_mem name mem)
    · rw [cancel_name ups names double]
      exact forall_mem_cons.mpr ⟨⟨own.1, own.2.1, own.2.2, double⟩, before⟩

private theorem cancelled_ordinary (s : List Byte) : ∀ c ∈ (cancelled s).2, NonSpecial c :=
  names_ordinary _ _ nofun fun _ mem => mem_components mem

theorem stripLeading_spec (t : List Byte) :
    ∃ before, t = before ++ stripLeading t ∧ components (stripLeading t) = components t ∧
      (before = [] ∨ before.getLast? = some slash) ∧ (stripLeading t).head? ≠ some slash := by
  have cons (b : Byte) {before : List Byte} (ends : before = [] ∨ before.getLast? = some slash)
      (last : before = [] → b = slash) : (b :: before).getLast? = some slash := by
    rcases ends with rfl | ends
    · rw [last rfl]
      rfl
    · rw [getLast?_cons, ends]
      rfl
  induction t using stripLeading.induct with
  | case1 => exact ⟨[], rfl, rfl, .inl rfl, nofun⟩
  | case2 => exact ⟨[slash], rfl, by rw [components_slash]; rfl, .inr rfl, nofun⟩
  | case3 b0 other =>
    rw [stripLeading, if_neg other]
    exact ⟨[], rfl, rfl, .inl rfl, fun headed => other (some.inj headed)⟩
  | case4 b1 s ih =>
    obtain ⟨before, split, same, ends, starts⟩ := ih
    rw [stripLeading, if_pos rfl]
    refine ⟨slash :: before, by rw [cons_append, ← split], ?_, .inr (cons slash ends fun _ => rfl), starts⟩
    rw [same, components_slash]
  | case5 b0 b1 s other step ih =>
    obtain ⟨rfl, rfl⟩ := step
    obtain ⟨before, split, same, ends, starts⟩ := ih
    rw [stripLeading, if_neg other, if_pos ⟨rfl, rfl⟩]
    refine ⟨dot :: slash :: before, by rw [cons_append, cons_append, ← split], ?_, .inr ?_, starts⟩
    · have parts := components_append_slash [dot] s
      rw [components_dot, nil_append, singleton_append] at parts
      rw [same, parts]
    · exact cons dot (.inr (cons slash ends fun _ => rfl)) nofun
  | case6 b0 b1 s other stop =>
    rw [stripLeading, if_neg other, if_neg stop]
    exact ⟨[], rfl, rfl, .inl rfl, fun headed => other (some.inj headed)⟩

variable (rev : List Byte)

theorem components_trailing : components (skipSlashes rev).reverse = components rev.reverse := by
  induction rev with
  | nil => rfl
  | cons b rev ih =>
    rw [skipSlashes]
    split
    · next here => rw [ih, here, reverse_cons, components_snoc]
    · rfl

theorem skipSlashes_head : (skipSlashes rev).head? ≠ some slash := by
  induction rev with
  | nil => exact nofun
  | cons b rev ih =>
    rw [skipSlashes]
    split
    · exact ih
    · next other => exact fun headed => other (some.inj headed)

theorem skipSlashes_suffix : skipSlashes rev <:+ rev := by
  induction rev with
  | nil => exact suffix_refl []
  | cons b rev ih =>
    rw [skipSlashes]
    split
    · exact ih.trans (suffix_cons b rev)
    · exact suffix_refl _

section StripTrailing

variable {passed : Nat} {preceding : Nat → Byte}

/-- After a slash nothing is read outside the string, and nothing but slashes is stripped. -/
theorem stripTrailing_inside (some : 0 < passed) (after : preceding 1 = slash) (rev : List Byte) :
    stripTrailing passed preceding rev = (false, skipSlashes rev) := by
  have other : slash ≠ dot := by decide
  induction rev with
  | nil => rfl
  | cons b rev ih =>
    cases rev with
    | nil =>
      rfl
    | cons b' rest =>
      rw [stripTrailing, skipSlashes]
      by_cases here : b = slash
      · rw [if_pos here, if_pos here, ih]
      · rw [if_neg here, if_neg here, after, if_neg other, if_neg fun both => other both.1]
        simp only [Nat.not_lt.mpr (show 1 ≤ passed from some), decide_false]

/-- At the start of the string a byte outside is read unless at most one byte is left. -/
theorem stripTrailing_start (preceding : Nat → Byte) (rev : List Byte) :
    ((stripTrailing 0 preceding rev).1 = true ↔ 2 ≤ (skipSlashes rev).length) ∧
      ((skipSlashes rev).length < 2 → stripTrailing 0 preceding rev = (false, skipSlashes rev)) := by
  induction rev with
  | nil => exact ⟨⟨fun none => (by cases none), fun long => absurd long (by decide)⟩, fun _ => rfl⟩
  | cons b rev ih =>
    cases rev with
    | nil =>
      rw [stripTrailing, skipSlashes]
      by_cases here : b = slash
      · rw [if_pos here, if_pos here]
        exact ⟨⟨fun none => (by cases none), fun long => absurd long (by decide)⟩, fun _ => rfl⟩
      · rw [if_neg here, if_neg here]
        exact ⟨⟨fun none => (by cases none), fun long => absurd long (Nat.lt_irrefl 1)⟩, fun _ => rfl⟩
    | cons b' rest =>
      rw [stripTrailing, skipSlashes]
      by_cases here : b = slash
      · rw [if_pos here, if_pos here]
        exact ih
      have read : decide (0 < if preceding 1 = dot then 2 else 1) = true := by
        split <;> decide
      rw [if_neg here, if_neg here, read]
      refine ⟨⟨fun _ => ?_, fun _ => ?_⟩, fun short => ?_⟩
      · simp only [length_cons]
        omega
      · dsimp only
        split <;> rfl
      · simp only [length_cons] at short
        omega

end StripTrailing

theorem joined_cons (comp : List Byte) (comps : List (List Byte)) :
    joined (comp :: comps) = comp ++ comps.flatMap (slash :: ·) := by
  induction comps generalizing comp with
  | nil => simp [joined]
  | cons comp' comps ih => rw [joined_cons_cons, ih, flatMap_cons, cons_append]

private theorem foldl_comps (path : List Byte) (comps : List (List Byte)) :
    comps.foldl (fun path comp => path ++ [slash] ++ comp) path = path ++ comps.flatMap (slash :: ·) := by
  induction comps generalizing path with
  | nil => simp
  | cons comp comps ih => rw [foldl_cons, ih, flatMap_cons]; simp

theorem appendComps_eq (path : List Byte) (comps : List (List Byte)) : appendComps path comps = path ++ joined comps := by
  cases comps with
  | nil => simp [appendComps, joined]
  | cons comp comps => rw [appendComps, foldl_comps, joined_cons, append_assoc]

private theorem joined_ups (k : Nat) (nonempty : comps ≠ []) :
    joined (replicate k up ++ comps) = (replicate k (up ++ [slash])).flatten ++ joined comps := by
  induction k with
  | zero => rfl
  | succ k ih =>
    rw [replicate_succ, cons_append, replicate_succ, flatten_cons, append_assoc, ← ih]
    cases parts : replicate k up ++ comps with
    | nil => exact absurd (append_eq_nil_iff.mp parts).2 nonempty
    | cons comp rest =>
      rfl

private theorem compose_eq (isAbs : Bool) (ups : Nat) (names : List (List Byte)) :
    compose isAbs { stack := names, topUp := ups } =
      if isAbs then slash :: joined names.reverse
      else if (ups, names) = (0, []) then [dot]
      else joined (replicate ups up ++ names.reverse) := by
  rw [compose]
  cases isAbs with
  | true =>
    rw [if_pos rfl, if_pos rfl, appendComps_eq]
    rfl
  | false =>
    rw [if_neg Bool.false_ne_true, if_neg Bool.false_ne_true]
    cases names with
    | nil =>
      cases ups with
      | zero => rfl
      | succ k =>
        have flat : (replicate k up).flatMap (slash :: ·) = (replicate k (slash :: up)).flatten := by
          rw [flatMap_def, map_replicate]
        rw [if_pos rfl, if_pos (succ_ne_zero k), if_neg (by simp), reverse_nil, append_nil,
          List.replicate_succ, joined_cons, flat, Nat.add_sub_cancel]
    | cons name names =>
      rw [if_neg (cons_ne_nil name names), if_neg (by simp), appendComps_eq, ← joined_ups]
      simp

/-- Strings that the normaliser never leaves: they are empty, absolute, or start with `./`, or have only slashes after the
first byte. -/
def Enclosed (s : List Byte) : Prop :=
  s = [] ∨ s.head? = some slash ∨ [dot, slash] <+: s ∨ ∃ b n, s = b :: replicate n slash

private theorem stripLeading_self (starts : t.head? ≠ some slash) (undotted : ¬[dot, slash] <+: t) : stripLeading t = t := by
  rw [stripLeading.eq_def]
  split
  · rfl
  · next b0 => exact if_neg fun here => starts (by rw [here]; rfl)
  · next b0 b1 s =>
    rw [if_neg fun here => starts (by rw [here]; rfl), if_neg]
    rintro ⟨rfl, rfl⟩
    exact undotted ⟨s, rfl⟩

theorem skipSlashes_eq_nil (short : skipSlashes s = []) : s = replicate s.length slash := by
  induction s with
  | nil => rfl
  | cons b s ih =>
    rw [skipSlashes] at short
    split at short
    · next here =>
      rw [here, length_cons, replicate_succ, ← ih short]
    · cases short

private theorem skipSlashes_singleton (short : skipSlashes s = [b]) :
    ∃ n, s = replicate n slash ++ [b] := by
  induction s with
  | nil => cases short
  | cons a s ih =>
    rw [skipSlashes] at short
    split at short
    · next here =>
      obtain ⟨n, rfl⟩ := ih short
      exact ⟨n + 1, by rw [here, replicate_succ]; rfl⟩
    · cases short
      exact ⟨0, rfl⟩

private theorem skipSlashes_replicate (n : Nat) (t : List Byte) : skipSlashes (replicate n slash ++ t) = skipSlashes t := by
  induction n with
  | zero => rfl
  | succ n ih => rw [replicate_succ, cons_append, skipSlashes, if_pos rfl, ih]

theorem short_iff (starts : s.head? ≠ some slash) (nonempty : s ≠ []) :
    (skipSlashes s.reverse).length < 2 ↔ ∃ b n, s = b :: replicate n slash := by
  constructor
  · intro short
    cases left : skipSlashes s.reverse with
    | nil =>
      have all := skipSlashes_eq_nil left
      rw [reverse_eq_iff, reverse_replicate] at all
      cases s with
      | nil => exact absurd rfl nonempty
      | cons b s =>
        rw [length_reverse, length_cons, replicate_succ] at all
        exact absurd (congrArg some (cons.inj all).1) starts
    | cons b rest =>
      rw [left, length_cons] at short
      obtain rfl : rest = [] := eq_nil_of_length_eq_zero (by omega)
      obtain ⟨n, all⟩ := skipSlashes_singleton left
      rw [reverse_eq_iff, reverse_append, reverse_replicate] at all
      exact ⟨b, n, all⟩
  · rintro ⟨b, n, rfl⟩
    rw [reverse_cons, reverse_replicate, skipSlashes_replicate, skipSlashes]
    split
    · exact Nat.two_pos
    · exact lt_succ_self 1

private theorem extract_stripped (outside : Bool) (s1 : List Byte) (starts : s1.head? ≠ some slash)
    (same : components s1 = components s)
    (more : skipSlashes s1.reverse ≠ []) :
    (match extract (decide (IsAbs s)) (skipSlashes s1.reverse).reverse { stack := [], topUp := 0 } with
      | .beyond => (true, none)
      | .null => (outside, none)
      | .found found => (outside, some (compose (decide (IsAbs s)) found))) =
    (outside, if IsAbs s ∧ 0 < (cancelled s).1 then none else some (normalised s)) := by
  have kept : ∀ c ∈ components s, c ≠ [dot] := fun c mem => (mem_components mem).2.2
  have parts : components (skipSlashes s1.reverse).reverse = components s := by
    rw [components_trailing, reverse_reverse, same]
  have nonempty : (skipSlashes s1.reverse).reverse ≠ [] := by
    rwa [ne_eq, reverse_eq_nil_iff]
  have starts' : (skipSlashes s1.reverse).reverse.head? ≠ some slash := by
    obtain ⟨after, whole⟩ := reverse_prefix.mpr (skipSlashes_suffix s1.reverse)
    rw [reverse_reverse] at whole
    rw [← whole, head?_append] at starts
    intro headed
    rw [headed] at starts
    exact starts rfl
  have ends : (skipSlashes s1.reverse).reverse.getLast? ≠ some slash := by
    rw [getLast?_reverse]
    exact skipSlashes_head _
  rw [extract_spec _ _ nonempty starts' ends, parts, normalised]
  by_cases isAbs : IsAbs s
  · rw [decide_eq_true isAbs, visitAll_absolute _ kept, if_pos isAbs, ← cancelled]
    by_cases above : (cancelled s).1 = 0
    · rw [if_pos above, if_neg fun both => Nat.ne_of_gt both.2 above]
      simp only [compose_eq, if_true]
    · rw [if_neg above, if_pos ⟨isAbs, Nat.pos_of_ne_zero above⟩]
  · rw [decide_eq_false isAbs, visitAll_relative _ kept, if_neg isAbs, if_neg fun both => isAbs both.1]
    simp only [compose_eq, Bool.false_eq_true, if_false]
    rfl

private theorem getD_last (ends : before.getLast? = some slash) (t : List Byte) :
    0 < before.length ∧ (before ++ t).getD (before.length - 1) 0 = slash := by
  have pos : 0 < before.length := by
    cases before with
    | nil => cases ends
    | cons b before => exact succ_pos _
  rw [getLast?_eq_getElem?] at ends
  refine ⟨pos, ?_⟩
  rw [getD_eq_getElem?_getD, getElem?_append_left (by omega), ends]
  rfl

theorem passed_spec (s : List Byte) :
    (stripLeading (if IsAbs s then s.tail else s)).head? ≠ some slash ∧
      components (stripLeading (if IsAbs s then s.tail else s)) = components s ∧
      (stripLeading (if IsAbs s then s.tail else s) = s ∨
        ∃ before, before.getLast? = some slash ∧ s = before ++ stripLeading (if IsAbs s then s.tail else s)) := by
  by_cases isAbs : IsAbs s
  · rw [if_pos isAbs]
    cases s with
    | nil => cases isAbs
    | cons b s =>
      obtain rfl : b = slash := some.inj isAbs
      rw [tail_cons, components_slash]
      obtain ⟨before, split, same, ends, starts⟩ := stripLeading_spec s
      refine ⟨starts, same, .inr ⟨slash :: before, ?_, by rw [cons_append, ← split]⟩⟩
      rcases ends with rfl | ends
      · rfl
      · rw [getLast?_cons, ends]
        rfl
  · rw [if_neg isAbs]
    obtain ⟨before, split, same, ends, starts⟩ := stripLeading_spec s
    refine ⟨starts, same, ?_⟩
    rcases ends with rfl | ends
    · exact .inl split.symm
    · exact .inr ⟨before, ends, split⟩

theorem cancelled_of_components (none : components s = []) : cancelled s = (0, []) := by
  rw [cancelled, none]
  rfl

private theorem pathFromCharr_stripped (before : Nat → Byte) (nonempty : s ≠ []) (other : s ≠ [slash])
    (stripped : ∀ passed preceding, passed = s.length - (stripLeading (if IsAbs s then s.tail else s)).length →
      (preceding = fun i => if i ≤ passed then s.getD (passed - i) 0 else before (i - passed - 1)) →
      stripTrailing passed preceding (stripLeading (if IsAbs s then s.tail else s)).reverse =
        (outside, skipSlashes (stripLeading (if IsAbs s then s.tail else s)).reverse)) :
    pathFromCharr before s = (outside, if IsAbs s ∧ 0 < (cancelled s).1 then none else some (normalised s)) := by
  obtain ⟨starts, same, _⟩ := passed_spec s
  rw [pathFromCharr, if_neg nonempty, if_neg other]
  simp only [decide_eq_true_eq]
  rw [stripped _ _ rfl rfl]
  dsimp only
  by_cases empty : skipSlashes (stripLeading (if IsAbs s then s.tail else s)).reverse = []
  · rw [if_pos empty]
    have none : components s = [] := by
      rw [← same, ← reverse_reverse (stripLeading _), ← components_trailing, empty]
      exact components_nil
    have nothing := cancelled_of_components none
    have stays : ¬(IsAbs s ∧ 0 < (cancelled s).1) := by
      rw [nothing]
      exact fun both => Nat.lt_irrefl 0 both.2
    rw [if_neg stays, normalised, nothing]
    by_cases isAbs : IsAbs s
    · rw [if_pos isAbs, if_pos isAbs]
      rfl
    · rw [if_neg isAbs, if_neg isAbs, if_pos rfl]
  · rw [if_neg empty]
    exact extract_stripped _ _ starts same empty

/-- Inside the strings that the normaliser never leaves, it returns what it is for. -/
theorem pathFromCharr_enclosed (before : Nat → Byte) (enclosed : Enclosed s) (nonempty : s ≠ []) :
    pathFromCharr before s = (false, if IsAbs s ∧ 0 < (cancelled s).1 then none else some (normalised s)) := by
  by_cases root : s = [slash]
  · have none : components s = [] := by
      rw [root, components_slash, components_nil]
    have nothing := cancelled_of_components none
    have isAbs : IsAbs s := by rw [root]; rfl
    have stays : ¬(IsAbs s ∧ 0 < (cancelled s).1) := by
      rw [nothing]
      exact fun both => Nat.lt_irrefl 0 both.2
    rw [if_neg stays, normalised, nothing, if_pos isAbs, pathFromCharr, if_neg nonempty, if_pos root]
    rfl
  · apply pathFromCharr_stripped before nonempty root
    obtain ⟨starts, _, whole | ⟨passed, ends, split⟩⟩ := passed_spec s
    · intro passed preceding count _
      rw [whole, Nat.sub_self] at count
      rw [whole] at starts
      rw [whole, count]
      apply (stripTrailing_start _ s.reverse).2
      rw [short_iff starts nonempty]
      rcases enclosed with empty | absolute | ⟨t, rfl⟩ | short
      · exact absurd empty nonempty
      · exact absurd absolute starts
      · have shorter : stripLeading ([dot, slash] ++ t) = stripLeading t := by
          rw [cons_append, singleton_append, stripLeading, if_neg (by decide), if_pos ⟨rfl, rfl⟩]
        obtain ⟨passed, split, _⟩ := stripLeading_spec t
        rw [if_neg (by intro isAbs; cases isAbs), shorter] at whole
        have lengths := congrArg length split
        rw [whole, length_append, length_append, length_cons, length_singleton] at lengths
        omega
      · exact short
    · intro count preceding counted values
      obtain ⟨pos, last⟩ := getD_last ends (stripLeading (if IsAbs s then s.tail else s))
      have lengths := congrArg length split
      rw [length_append] at lengths
      have same : count = passed.length := by omega
      apply stripTrailing_inside
      · omega
      · rw [values]
        dsimp only
        rw [if_pos (by omega), same, split]
        rw [← split]
        rw [← split] at last
        exact last

theorem pathFromCharr_outside (before : Nat → Byte) (outside : ¬ Enclosed s) : (pathFromCharr before s).1 = true := by
  have nonempty : s ≠ [] := fun empty => outside (.inl empty)
  have relative : ¬ IsAbs s := fun isAbs => outside (.inr (.inl isAbs))
  have undotted : ¬[dot, slash] <+: s := fun dotted => outside (.inr (.inr (.inl dotted)))
  have long : ¬ ∃ b n, s = b :: List.replicate n slash := fun short => outside (.inr (.inr (.inr short)))
  have other : s ≠ [slash] := fun root => relative (by rw [root]; rfl)
  rw [← short_iff relative nonempty, Nat.not_lt] at long
  rw [pathFromCharr, if_neg nonempty, if_neg other]
  simp only [decide_eq_true_eq, if_neg relative, stripLeading_self relative undotted, Nat.sub_self]
  have read := ((stripTrailing_start
    (fun i => if i ≤ 0 then s.getD (0 - i) 0 else before (i - 0 - 1)) s.reverse).1).mpr long
  split
  · exact read
  · split
    · rfl
    · exact read
    · exact read

private theorem normalised_nfn (s : List Byte) : Nfn (normalised s) := by
  have ordinary : ∀ c ∈ (cancelled s).2.reverse, NonSpecial c := fun c mem =>
    cancelled_ordinary s c (mem_reverse.mp mem)
  rw [normalised]
  by_cases isAbs : IsAbs s
  · rw [if_pos isAbs]
    by_cases root : (cancelled s).2.reverse = []
    · rw [root]
      exact .inr .root
    cases names : (cancelled s).2.reverse with
    | nil => exact absurd names root
    | cons name names' =>
      rw [names] at ordinary
      have whole : slash :: joined (name :: names') = (name :: names').flatMap (slash :: ·) := by
        rw [flatMap_slash _ (cons_ne_nil name names'), joined_cons_cons]
        rfl
      rw [whole]
      exact .inr (.names _ (cons_ne_nil name names') ordinary)
  · rw [if_neg isAbs]
    by_cases here : cancelled s = (0, [])
    · rw [if_pos here]
      exact .inl .here
    · rw [if_neg here]
      by_cases root : (cancelled s).2.reverse = []
      · rw [root, append_nil]
        cases ups : (cancelled s).1 with
        | zero => exact absurd (Prod.ext ups (reverse_eq_nil_iff.mp root)) here
        | succ k => exact .inl (.ups k)
      · exact .inl (.names _ _ root ordinary)

private theorem cancel_names (ordinary : ∀ c ∈ comps, NonSpecial c) (ups : Nat) :
    comps.foldl cancel (ups, names) = (ups, comps.reverse ++ names) := by
  induction comps generalizing names with
  | nil => rfl
  | cons comp comps ih =>
    obtain ⟨own, rest⟩ := forall_mem_cons.mp ordinary
    rw [foldl_cons, cancel_name ups names own.2.2.2, ih _ rest]
    simp

private theorem cancel_ups (k ups : Nat) : (replicate k up).foldl cancel (ups, []) = (ups + k, []) := by
  induction k generalizing ups with
  | zero => rfl
  | succ k ih => rw [List.replicate_succ, foldl_cons, cancel_up_nil, ih, Nat.add_assoc, Nat.add_comm 1]

section

variable (k : Nat) (ordinary : ∀ c ∈ comps, NonSpecial c) (nonempty : replicate k up ++ comps ≠ [])

include ordinary nonempty

theorem cancelled_of_splitOn :
    components (joined (replicate k up ++ comps)) = replicate k up ++ comps ∧
      cancelled (joined (List.replicate k up ++ comps)) = (k, comps.reverse) := by
  have kept : ∀ c ∈ replicate k up ++ comps, slash ∉ c ∧ c ≠ [] ∧ c ≠ [dot] := by
    intro c mem
    rcases mem_append.mp mem with mem | mem
    · rw [eq_of_mem_replicate mem]
      decide
    · exact ⟨(ordinary c mem).1, (ordinary c mem).2.1, (ordinary c mem).2.2.1⟩
  have parts : components (joined (replicate k up ++ comps)) = replicate k up ++ comps :=
    components_of_splitOn (splitOn_joined (fun c mem => (kept c mem).1) nonempty) fun c mem => (kept c mem).2
  refine ⟨parts, ?_⟩
  rw [cancelled, parts, foldl_append, cancel_ups, cancel_names [] ordinary, Nat.zero_add, List.append_nil]

theorem joined_relative : ¬ IsAbs (joined (replicate k up ++ comps)) := by
  cases parts : replicate k up ++ comps with
  | nil => exact absurd parts nonempty
  | cons comp rest =>
    have own : slash ∉ comp ∧ comp ≠ [] := by
      have mem : comp ∈ replicate k up ++ comps := by
        rw [parts]
        exact .head _
      rcases mem_append.mp mem with mem | mem
      · rw [eq_of_mem_replicate mem]
        decide
      · exact ⟨(ordinary comp mem).1, (ordinary comp mem).2.1⟩
    rw [joined_cons, IsAbs, head?_append]
    cases comp with
    | nil => exact absurd rfl own.2
    | cons b comp => exact fun headed => own.1 (by rw [← some.inj headed]; exact .head _)

theorem normalised_relative :
    normalised (joined (replicate k up ++ comps)) = joined (replicate k up ++ comps) := by
  rw [normalised, if_neg (joined_relative k ordinary nonempty), (cancelled_of_splitOn k ordinary nonempty).2,
    reverse_reverse, if_neg]
  intro same
  obtain ⟨rfl, none⟩ := Prod.mk.inj same
  exact nonempty (reverse_eq_nil_iff.mp none)

end

private theorem normalised_of_nfn (nfn : Nfn s) :
    s ≠ [] ∧ ¬(IsAbs s ∧ 0 < (cancelled s).1) ∧ normalised s = s := by
  have relative (k : Nat) (comps : List (List Byte)) (ordinary : ∀ c ∈ comps, NonSpecial c)
      (nonempty : replicate k up ++ comps ≠ []) :
      joined (replicate k up ++ comps) ≠ [] ∧
        ¬(IsAbs (joined (replicate k up ++ comps)) ∧ 0 < (cancelled (joined (replicate k up ++ comps))).1) ∧
        normalised (joined (replicate k up ++ comps)) = joined (replicate k up ++ comps) := by
    refine ⟨fun empty => nonempty ?_, fun both => joined_relative k ordinary nonempty both.1,
      normalised_relative k ordinary nonempty⟩
    rw [← (cancelled_of_splitOn k ordinary nonempty).1, empty, components_nil]
  rcases nfn with (_ | ⟨k⟩ | ⟨k, comps, more, ordinary⟩) | (_ | ⟨comps, more, ordinary⟩)
  · refine ⟨cons_ne_nil _ _, fun both => absurd both.1 (by decide), ?_⟩
    rw [normalised, if_neg (by decide), if_pos (cancelled_of_components components_dot)]
  · have whole := relative (k + 1) [] nofun (by simp)
    rwa [append_nil] at whole
  · exact relative k comps ordinary (by simp [more])
  · have nothing := cancelled_of_components (s := [slash]) (by rw [components_slash, components_nil])
    refine ⟨cons_ne_nil _ _, ?_, ?_⟩
    · rw [nothing]
      exact fun both => Nat.lt_irrefl 0 both.2
    · rw [normalised, nothing, if_pos (by decide)]
      rfl
  · have whole : comps.flatMap (slash :: ·) = slash :: joined comps := by
      rw [flatMap_slash comps more]
      cases comps with
      | nil => exact absurd rfl more
      | cons comp comps =>
        rfl
    have found : cancelled (slash :: joined comps) = (0, comps.reverse) := by
      have own := (cancelled_of_splitOn 0 ordinary (by simpa using more)).2
      exact own
    rw [whole]
    refine ⟨cons_ne_nil _ _, ?_, ?_⟩
    · rw [found]
      exact fun both => Nat.lt_irrefl 0 both.2
    · rw [normalised, found, if_pos (show IsAbs (slash :: joined comps) from rfl), reverse_reverse]

private theorem not_doubled (enclosed : Enclosed s) : ¬ Doubled s := by
  rintro ⟨k, comps, more, ordinary, split⟩
  have whole : s = up ++ slash :: joined (replicate k up ++ [] :: comps) := by
    rw [← joined_splitOn s, split, replicate_succ, cons_append]
    cases parts : replicate k up ++ [] :: comps with
    | nil => simp at parts
    | cons comp rest => rw [joined_cons_cons]
  rcases enclosed with rfl | absolute | dotted | ⟨b, n, short⟩
  · cases whole
  · rw [whole] at absolute
    cases absolute
  · rw [whole] at dotted
    obtain ⟨t, same⟩ := dotted
    cases same
  · rw [whole] at short
    cases n with
    | zero => cases short
    | succ n =>
      cases short

/-- The recogniser and the normaliser do what they are for exactly on the strings that the normaliser never leaves. -/
theorem path_iff_enclosed (s : List Byte) :
    ((isPathCharr s = true ↔ Nfn s) ∧ ∀ before : Nat → Byte, (pathFromCharr before s).1 = false ∧
      ((pathFromCharr before s).2 = none ↔ s = [] ∨ (IsAbs s ∧ Climbs s)) ∧
      (∀ path, (pathFromCharr before s).2 = some path → path = normalised s ∧ isPathCharr path = true) ∧
      ((pathFromCharr before s).2 = some s ↔ isPathCharr s = true)) ↔ Enclosed s := by
  constructor
  · rintro ⟨_, right⟩
    have inside := (right fun _ => 0).1
    apply Classical.byContradiction
    intro outside
    rw [pathFromCharr_outside _ outside] at inside
    cases inside
  · intro enclosed
    have recognised : isPathCharr s = true ↔ Nfn s := by
      rw [isPathCharr_iff]
      exact or_iff_left (not_doubled enclosed)
    refine ⟨recognised, fun before => ?_⟩
    rw [recognised]
    by_cases empty : s = []
    · subst empty
      exact ⟨rfl, ⟨fun _ => .inl rfl, fun _ => rfl⟩, nofun, nofun, fun nfn => absurd rfl (normalised_of_nfn nfn).1⟩
    rw [pathFromCharr_enclosed before enclosed empty, climbs_iff]
    by_cases above : IsAbs s ∧ 0 < (cancelled s).1
    · rw [if_pos above]
      exact ⟨rfl, ⟨fun _ => .inr above, fun _ => rfl⟩, nofun, nofun, fun nfn => absurd above (normalised_of_nfn nfn).2.1⟩
    rw [if_neg above]
    have nfn := normalised_nfn s
    refine ⟨rfl, ⟨nofun, fun either => (either.elim empty above).elim⟩, ?_, ?_, ?_⟩
    · rintro path same
      cases same
      exact ⟨rfl, (isPathCharr_iff _).mpr (.inl nfn)⟩
    · intro same
      rw [← some.inj same]
      exact nfn
    · exact fun nfn => congrArg some (normalised_of_nfn nfn).2.2

/-- The string `ab`, before which a byte is read. -/
theorem path_reads_before : ¬ ∀ before : Nat → Byte, (pathFromCharr before [0x61, 0x62]).1 = false := by
  intro inside
  have first := inside fun _ => 0
  rw [pathFromCharr_outside] at first
  · cases first
  rintro (empty | absolute | ⟨t, dotted⟩ | ⟨b, n, short⟩)
  · cases empty
  · cases absolute
  · cases dotted
  · cases n with
    | zero => cases short
    | succ n =>
      cases short

end Culibs.Cuos
