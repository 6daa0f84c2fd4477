import Culibs.Cucon.Stack.Basic

namespace Culibs.Cucon.Stack

open Foundation List

variable {mem : Memory} {c : Chunk} {prev : List Chunk} {elements : List Element} {itr : Itr} {e : Element} {m n i j a : Nat}

/-- The chunk of the iterator, from where it is. -/
def Itr.here (itr : Itr) : Chunk := { itr.stack.chunk with sp := itr.sp }

/-- `elements` are what the iterator has not returned. -/
def Itr.Left (itr : Itr) (mem : Memory) (elements : List Element) : Prop := Holds mem itr.here itr.stack.prev elements

/-- `cucon_stack_at` from the iterator on. -/
def Itr.at (itr : Itr) (pos : Nat) : Option Nat := stackAt itr.here itr.stack.prev pos

private theorem stackAt_shift : stackAt c prev (n + m) = stackAt { c with sp := c.sp + n } prev m := by
  cases prev <;> simp only [stackAt, add_assoc]

theorem itrGet_spec (left : itr.Left mem (e :: elements)) : ∃ a next, itrGet itr e.length = some (a, next) ∧
    next.Left mem elements ∧ (e ≠ [] → itr.at 0 = some a) ∧ ∀ n, itr.at (e.length + n) = next.at n := by
  obtain ⟨⟨c, prev⟩, sp⟩ := itr
  rcases left.cons_cases with ⟨position, prev_nil, rfl, empty⟩ | ⟨p, rest, below, low, order, filled, next⟩
  · simp only [Itr.here, StackChunk.mk.injEq] at position prev_nil
    obtain ⟨begin, rfl, limit⟩ := position
    subst prev_nil
    refine ⟨0, ⟨⟨c, []⟩, 0⟩, by simp [itrGet, limit], ?_, fun some => absurd rfl some, fun n => ?_⟩
    · simp only [Itr.Left, Itr.here, begin, limit]
      exact .base empty
    · rw [length_nil, zero_add]
  · simp only [Itr.here] at below low order filled next
    subst below
    rcases next with ⟨inside, holds⟩ | ⟨whole, holds⟩
    · refine ⟨sp, ⟨⟨c, p :: rest⟩, sp + e.length⟩, ?_, holds, fun _ => ?_, fun n => ?_⟩
      · simp only [itrGet, if_neg (Nat.not_le_of_lt inside)]
      · exact stackAt_inside filled
      · exact stackAt_shift
    · refine ⟨sp, ⟨⟨p, rest⟩, p.sp⟩, ?_, holds, fun _ => ?_, fun n => ?_⟩
      · simp only [itrGet, if_pos (le_of_eq whole.symm), if_pos whole]
      · exact stackAt_inside filled
      · have length : e.length = c.limit - sp := by omega
        rw [length]
        exact stackAt_below (le_of_lt filled)

/-- The addresses of a sequence of calls of `cucon_stack_itr_get`. -/
def itrGets (itr : Itr) : List Nat → Option (List Nat × Itr)
  | [] => some ([], itr)
  | size :: sizes => do
    let (slot, itr) ← itrGet itr size
    let (slots, itr) ← itrGets itr sizes
    some (slot :: slots, itr)

private theorem itrGet_done (left : itr.Left mem []) (n : Nat) : ∃ next, itrGet itr n = some (0, next) := by
  obtain ⟨⟨c, prev⟩, sp⟩ := itr
  obtain ⟨position, prev_nil⟩ := left.empty_cases rfl
  simp only [Itr.here, StackChunk.mk.injEq] at position prev_nil
  obtain ⟨_, rfl, limit⟩ := position
  subst prev_nil
  by_cases nothing : n = 0
  · exact ⟨⟨⟨c, []⟩, 0⟩, by simp [itrGet, limit, nothing]⟩
  · exact ⟨⟨⟨c, []⟩, 0⟩, by simp [itrGet, limit, nothing]⟩

theorem itrGets_spec (left : itr.Left mem elements) : ∃ slots last,
    itrGets itr (elements.map length) = some (slots, last) ∧ slots.length = elements.length ∧
    (∀ i e, elements[i]? = some e → e ≠ [] → slots[i]? = itr.at (offset elements i)) ∧
    ∀ n, ∃ next, itrGet last n = some (0, next) := by
  induction elements generalizing itr with
  | nil => exact ⟨[], itr, rfl, rfl, by simp, itrGet_done left⟩
  | cons first rest ih =>
    obtain ⟨a, next, get, later, here, shift⟩ := itrGet_spec left
    obtain ⟨slots, last, gets, length, each, done⟩ := ih later
    refine ⟨a :: slots, last, ?_, by rw [length_cons, length, length_cons], fun i e found some => ?_, done⟩
    · rw [map_cons, itrGets, get]
      simp [gets]
    · cases i with
      | zero =>
        cases found
        exact (here some).symm
      | succ i =>
        rw [getElem?_cons_succ, each i e found some, ← shift, offset, offset, take_succ_cons,
          flatten_cons, length_append]

private theorem itrTurn_inside (inside : a < c.limit) : itrTurn a c prev = some ⟨⟨c, prev⟩, a⟩ := by
  cases prev with
  | nil => rw [itrTurn, if_neg fun beyond => Nat.not_le_of_lt inside beyond.1]
  | cons p rest => rw [itrTurn, if_neg (Nat.not_le_of_lt inside)]

private theorem itrGet_inside (holds : Holds mem c prev elements) (found : elements[i]? = some e)
    (position : n = offset elements i + j) (inside : n < c.limit - c.sp) (short : m ≤ e.length - j) :
    ∃ next, itrGet ⟨⟨c, prev⟩, c.sp + n⟩ m = some (c.sp + n, next) := by
  have ends := holds.element_inside found (by omega)
  rcases lt_or_ge (c.sp + n + m) c.limit with before | beyond
  · exact ⟨⟨⟨c, prev⟩, c.sp + n + m⟩, by simp only [itrGet, if_neg (Nat.not_le_of_lt before)]⟩
  · have whole : c.sp + n + m = c.limit := by omega
    cases prev with
    | nil => exact ⟨⟨⟨c, []⟩, c.sp + n + m⟩, by simp only [itrGet, if_pos beyond, if_pos whole]⟩
    | cons p rest => exact ⟨⟨⟨p, rest⟩, p.sp⟩, by simp only [itrGet, if_pos beyond, if_pos whole]⟩

/-- `cucon_stack_itr_advance` agrees with `cucon_stack_at` inside the top chunk and at its end. -/
theorem itrAdvance_spec (holds : Holds mem c prev elements) (within : n ≤ c.limit - c.sp)
    (found : elements[i]? = some e) (short : j < e.length) (position : n = offset elements i + j) :
    ∃ itr a, itrAdvance (itrInit ⟨c, prev⟩) n = some itr ∧ stackAt c prev n = some a ∧
      ∀ m, m ≤ e.length - j → ∃ next, itrGet itr m = some (a, next) := by
  rcases lt_or_ge n (c.limit - c.sp) with inside | last
  · have below : c.sp + n < c.limit := by omega
    refine ⟨⟨⟨c, prev⟩, c.sp + n⟩, c.sp + n, itrTurn_inside below, stackAt_inside below, fun m fits => ?_⟩
    exact itrGet_inside holds found position inside fits
  cases holds with
  | base empty =>
    have bound := offset_add_length found
    rw [empty, length_nil] at bound
    omega
  | @chunk _ p rest own below low order filled high bytes holds =>
    have length := bytes_length bytes
    obtain ⟨k, rfl⟩ : ∃ k, i = own.length + k := by
      refine Nat.exists_eq_add_of_le (Nat.le_of_not_lt fun early => ?_)
      rw [getElem?_append_left early] at found
      rw [offset_append_left (le_of_lt early)] at position
      have bound := offset_add_length found
      omega
    rw [getElem?_append_right (Nat.le_add_right _ _), Nat.add_sub_cancel_left] at found
    rw [offset_append_right] at position
    have bound := offset_add_length found
    have deeper := holds.filled (by omega)
    have start : n = c.limit - c.sp := le_antisymm within last
    refine ⟨⟨⟨p, rest⟩, p.sp⟩, p.sp, ?_, ?_, fun m fits => ?_⟩
    · have high := holds.order
      have turn : c.limit + 2 ^ 64 - c.limit = 2 ^ 64 := by omega
      simp only [itrAdvance, itrInit, itrTurn, start, Nat.add_sub_cancel' (le_of_lt filled), ge_iff_le, le_refl,
        if_true, turn, Nat.mod_self, add_zero, Nat.mod_eq_of_lt (lt_of_le_of_lt high.2.1 high.2.2)]
      exact itrTurn_inside deeper
    · rw [start, ← add_zero (c.limit - c.sp), stackAt_below (le_of_lt filled), stackAt_inside deeper, add_zero]
    · exact itrGet_inside holds found (by omega : 0 = offset below k + j) (by omega) fits

end Culibs.Cucon.Stack
