import Culibs.Cucon.Stack.Basic

namespace Culibs.Cucon.Stack

open Foundation ByteMemory List Option

variable {mem mem' : Memory} {c p : Chunk} {prev rest chunks : List Chunk} {elements own below : List Element}
variable {stack : Stack} {e : Element} {k n m j a block : Nat}

theorem Holds.frame (holds : Holds mem c prev elements)
    (same : ∀ d ∈ c :: prev, ∀ p, d.sp ≤ p → p < d.limit → mem p = mem' p) : Holds mem' c prev elements := by
  induction holds with
  | base empty => exact .base empty
  | chunk low order filled high bytes rest ih =>
    refine .chunk low order filled high ?_ (ih fun d mem => same d (.tail _ mem))
    rw [← bytes]
    refine (read_congr fun p start stop => ?_).symm
    exact same _ (mem_cons_self ..) p start (by omega)

theorem alloc_cases (stack : Stack) (size block : Nat) :
    (stack.chunk.begin + size ≤ stack.chunk.sp ∧
      alloc stack size block = { stack with chunk := { stack.chunk with sp := stack.chunk.sp - size } }) ∨
    (stack.chunk.sp < stack.chunk.begin + size ∧ alloc stack size block = expand stack size block) := by
  by_cases short : (stack.chunk.sp : Int) - size - stack.chunk.begin < 0
  · exact .inr ⟨by omega, by rw [alloc, if_pos short]⟩
  · exact .inl ⟨by omega, by rw [alloc, if_neg short]⟩

theorem le_chunkSize : n ≤ chunkSize n := by
  rw [chunkSize]
  split <;> omega

/-- The memory of the chunks is apart, with the address after the last one, which pointers reach. -/
def Apart (c d : Chunk) : Prop := c.limit < d.begin ∨ d.limit < c.begin

/-- `block` is a block of `size` bytes that is apart from the chunks. -/
structure Fresh (chunks : List Chunk) (block size : Nat) : Prop where
  low : 0 < block
  high : block + size < 2 ^ 64
  apart : ∀ d ∈ chunks, d.limit < block ∨ block + size < d.begin

theorem Holds.chunk_order (holds : Holds mem c prev elements) : ∀ d ∈ c :: prev, d.begin ≤ d.sp ∧ d.sp ≤ d.limit := by
  induction holds with
  | base empty => simp
  | chunk low order filled high bytes rest ih =>
    exact forall_mem_cons.mpr ⟨⟨order, le_of_lt filled⟩, ih⟩

theorem Holds.begin_pos (holds : Holds mem c prev elements) : ∀ d ∈ c :: prev, d.begin < d.limit → 0 < d.begin := by
  induction holds with
  | base empty => simp
  | chunk low order filled high bytes rest ih => exact forall_mem_cons.mpr ⟨fun _ => low, ih⟩

theorem Holds.frame_apart (holds : Holds mem p rest elements) (apart : ∀ d ∈ p :: rest, Apart c d)
    (inside : ∀ q, q < c.begin ∨ c.limit ≤ q → mem' q = mem q) : Holds mem' p rest elements := by
  refine holds.frame fun d member q start stop => (inside q ?_).symm
  have order := holds.chunk_order d member
  rcases apart d member with before | after <;> omega

theorem Holds.alloc_inside (holds : Holds mem c prev elements) (room : c.begin + e.length ≤ c.sp)
    (apart : ∀ d ∈ prev, Apart c d) :
    Holds (write mem (c.sp - e.length) e) { c with sp := c.sp - e.length } prev (e :: elements) := by
  cases holds with
  | base empty =>
    obtain rfl : e = [] := eq_nil_of_length_eq_zero (by simp only at room; omega)
    exact .base (by simpa using empty)
  | @chunk c p rest own below low order filled high bytes holds =>
    rw [← cons_append]
    refine .chunk low (by simp only; omega) (by simp only; omega) high ?_ (holds.frame_apart apart fun q outside => ?_)
    · have split : c.limit - (c.sp - e.length) = e.length + (c.limit - c.sp) := by omega
      simp only
      rw [split, read_add, read_write, Nat.sub_add_cancel (by omega), read_write_apart (by omega), bytes,
        flatten_cons]
    · exact write_outside (by omega)

theorem Fresh.expand_apart {size : Nat} (fresh : Fresh chunks block (headerSize + chunkSize size)) (stack : Stack) :
    ∀ d ∈ chunks, Apart (expand stack size block).chunk d := by
  intro d mem
  have apart := fresh.apart d mem
  simp only [Apart, expand]
  omega

theorem Holds.alloc_expand (holds : Holds mem stack.chunk stack.prev elements) (some : e ≠ [])
    (fresh : Fresh stack.chunks block (headerSize + chunkSize e.length)) :
    Holds (write mem (expand stack e.length block).chunk.sp e) (expand stack e.length block).chunk
      (expand stack e.length block).prev (e :: elements) := by
  have room := le_chunkSize (n := e.length)
  have pos := length_pos_iff.mpr some
  rw [show e :: elements = [e] ++ elements from rfl]
  refine .chunk (c := (expand stack e.length block).chunk) ?_ ?_ ?_ (by rw [expand, add_assoc]; exact fresh.high) ?_ ?_
  · simp [expand, headerSize]
  · simp only [expand]
    omega
  · simp only [expand]
    omega
  · have length : (expand stack e.length block).chunk.limit - (expand stack e.length block).chunk.sp = e.length := by
      simp only [expand]
      omega
    rw [length, read_write, flatten_singleton]
  · refine holds.frame_apart (fresh.expand_apart stack) fun q outside => write_outside ?_
    simp only [expand] at outside ⊢
    omega

/-- `stack'` is what is left of `stack`. -/
def Cut (stack stack' : Stack) : Prop :=
  ∃ popped d x, stack.chunks = popped ++ d :: stack'.prev ∧ stack'.chunk = { d with sp := x } ∧ d.sp ≤ x

theorem Holds.drop_inside (holds : Holds mem c prev elements) (inside : offset elements k < c.limit - c.sp) :
    Holds mem { c with sp := c.sp + offset elements k } prev (elements.drop k) := by
  cases holds with
  | base empty => cases inside
  | @chunk c p rest own below low order filled high bytes holds =>
    have length := bytes_length bytes
    have early : k ≤ own.length := by
      refine Nat.le_of_not_lt fun late => ?_
      obtain ⟨k, rfl⟩ := Nat.exists_eq_add_of_lt late
      rw [add_assoc, offset_append_right] at inside
      omega
    rw [offset_append_left early] at inside ⊢
    rw [drop_append_of_le_length early]
    refine .chunk low (by simp only; omega) (by simp only; omega) high ?_ holds
    simp only
    rw [← Nat.sub_sub, read_drop (Nat.le_of_lt inside), bytes]
    calc own.flatten.drop (offset own k)
        = ((own.take k).flatten ++ (own.drop k).flatten).drop (offset own k) := by
          rw [← flatten_append, take_append_drop]
      _ = (own.drop k).flatten := drop_left' rfl

theorem Holds.drop_empty (holds : Holds mem c prev elements) (empty : offset elements k = 0) :
    Holds mem c prev (elements.drop k) := by
  cases holds with
  | base empty =>
    refine .base ?_
    rw [← take_append_drop k elements, flatten_append, append_eq_nil_iff] at empty
    exact empty.2
  | chunk low order filled high bytes rest =>
    have inside := (Holds.chunk low order filled high bytes rest).drop_inside (k := k) (by omega)
    rwa [empty] at inside

variable {stack' : Stack}

theorem Cut.push (cut : Cut ⟨p, prev⟩ stack') (c : Chunk) : Cut ⟨c, p :: prev⟩ stack' := by
  obtain ⟨popped, d, x, split, top, order⟩ := cut
  exact ⟨c :: popped, d, x, congrArg (cons c) split, top, order⟩

/-- What is freed of `own ++ below` beyond `own` is freed of `below`, and what is left of `own` has no bytes. -/
theorem offset_beyond (enough : own.flatten.length ≤ offset (own ++ below) k) :
    ∃ extra j, (own ++ below).drop k = extra ++ below.drop j ∧ extra.flatten = [] ∧
      offset (own ++ below) k = own.flatten.length + offset below j := by
  rcases le_total own.length k with late | early
  · obtain ⟨j, rfl⟩ := Nat.exists_eq_add_of_le late
    refine ⟨[], j, ?_, rfl, offset_append_right⟩
    rw [drop_append, drop_eq_nil_of_le (Nat.le_add_right _ _), Nat.add_sub_cancel_left]
  have split : own.flatten.length = offset own k + (own.drop k).flatten.length := by
    conv => lhs; rw [← take_append_drop k own, flatten_append, length_append]
    rfl
  rw [offset_append_left early] at enough ⊢
  refine ⟨own.drop k, 0, ?_, eq_nil_of_length_eq_zero (by omega), ?_⟩
  · rw [drop_append_of_le_length early, drop_zero]
  · have none : offset below 0 = 0 := rfl
    omega

theorem Holds.shrink_spec (holds : Holds mem c prev elements) (enough : c.limit - c.sp ≤ offset elements k) :
    ∃ stack', shrink { c with sp := c.sp + offset elements k } prev = some stack' ∧
      Holds mem stack'.chunk stack'.prev (elements.drop k) ∧ Cut ⟨c, prev⟩ stack' := by
  induction holds generalizing k with
  | @base elements empty =>
    have none : offset elements k = 0 := by
      rw [offset, length_eq_zero_iff]
      rw [← take_append_drop k elements, flatten_append, append_eq_nil_iff] at empty
      exact empty.1
    refine ⟨⟨⟨0, 0, 0⟩, []⟩, by rw [none]; rfl, (Holds.base empty).drop_empty none, [], ⟨0, 0, 0⟩, 0, rfl, rfl, ?_⟩
    exact le_refl 0
  | @chunk c p prev own below low order filled high bytes rest ih =>
    have length := bytes_length bytes
    have beyond : own.flatten.length ≤ offset (own ++ below) k := by omega
    obtain ⟨extra, j, dropped, empty, split⟩ := offset_beyond beyond
    have carried : c.sp + offset (own ++ below) k - c.limit = offset below j := by omega
    rw [shrink, dropped]
    simp only [carried]
    split
    · next whole =>
      obtain ⟨stack', result, left, cut⟩ := ih (k := j) (by omega)
      exact ⟨stack', result, left.prepend empty, cut.push c⟩
    · next inside =>
      refine ⟨_, rfl, (rest.drop_inside (by omega)).prepend empty, [c], p, _, rfl, rfl, Nat.le_add_right _ _⟩

theorem Holds.free_spec (holds : Holds mem stack.chunk stack.prev elements) (k : Nat) :
    ∃ stack', free stack (offset elements k) = some stack' ∧ Holds mem stack'.chunk stack'.prev (elements.drop k) ∧
      Cut stack stack' := by
  rw [free]
  split
  · next none => exact ⟨stack, rfl, holds.drop_empty none, [], stack.chunk, stack.chunk.sp, rfl, rfl, le_rfl⟩
  · next some =>
    simp only
    split
    · next whole =>
      rw [if_neg]
      · exact holds.shrink_spec (by omega)
      · intro none
        rw [holds.isEmpty_iff] at none
        rw [← take_append_drop k elements, flatten_append, append_eq_nil_iff] at none
        rw [offset, none.1] at some
        exact some rfl
    · next inside =>
      refine ⟨_, rfl, holds.drop_inside (by omega), [], stack.chunk, _, rfl, rfl, Nat.le_add_right _ _⟩

def contents (mem : Memory) (chunks : List Chunk) : List (BitVec 8) :=
  (chunks.map fun chunk => read mem chunk.sp (chunk.limit - chunk.sp)).flatten

theorem Holds.contents_eq (holds : Holds mem c prev elements) : contents mem (c :: prev) = elements.flatten := by
  induction holds with
  | base empty => rw [empty]; rfl
  | chunk low order filled high bytes rest ih =>
    rw [contents, map_cons, bytes, flatten_append, ← ih]
    rfl

private theorem contents_congr (same : ∀ d ∈ chunks, ∀ q, d.sp ≤ q → q < d.limit → mem q = mem' q) :
    contents mem chunks = contents mem' chunks := by
  rw [contents]
  congr 1
  refine map_congr_left fun d member => read_congr fun q start stop => ?_
  exact same d member q start (by omega)

theorem copyChunks_spec (mem : Memory) (chunks : List Chunk) (room : a + (contents mem chunks).length ≤ m)
    (apart : ∀ d ∈ chunks, d.limit ≤ a ∨ m ≤ d.sp) :
    read (copyChunks mem a chunks) a (contents mem chunks).length = contents mem chunks ∧
      ∀ q, q < a ∨ m ≤ q → copyChunks mem a chunks q = mem q := by
  induction chunks generalizing mem a with
  | nil => exact ⟨rfl, fun q _ => rfl⟩
  | cons c prev ih =>
    have split : contents mem (c :: prev) = read mem c.sp (c.limit - c.sp) ++ contents mem prev := rfl
    have length : (contents mem (c :: prev)).length = c.limit - c.sp + (contents mem prev).length := by
      rw [split, length_append, length_read]
    generalize copied : ByteMemory.copy mem a c.sp (c.limit - c.sp) = mem1
    have outside : ∀ q, q < a ∨ a + (c.limit - c.sp) ≤ q → mem1 q = mem q := by
      intro q outside
      rw [← copied]
      exact write_outside (by rw [length_read]; omega)
    have same : contents mem1 prev = contents mem prev := by
      refine contents_congr fun d member q start stop => outside q ?_
      rcases apart d (.tail _ member) with before | after <;> omega
    obtain ⟨bytes, kept⟩ := ih mem1 (a := a + (c.limit - c.sp)) (by rw [same]; omega) fun d member => by
      rcases apart d (.tail _ member) with before | after
      · exact .inl (by omega)
      · exact .inr after
    rw [copyChunks, copied]
    refine ⟨?_, fun q range => ?_⟩
    · rw [same] at bytes
      rw [length, read_add]
      congr 1
      calc read (copyChunks mem1 (a + (c.limit - c.sp)) prev) a (c.limit - c.sp)
          = read mem1 a (c.limit - c.sp) := read_congr fun q _ stop => kept q (.inl stop)
        _ = read (write mem a (read mem c.sp (c.limit - c.sp))) a (read mem c.sp (c.limit - c.sp)).length := by
          rw [length_read, ← copied, ByteMemory.copy]
        _ = read mem c.sp (c.limit - c.sp) := read_write
    · rw [kept q (by omega), outside q (by omega)]

/-- The first loop of `cucon_stack_continuous_top` takes chunks until enough bytes are there. -/
theorem Holds.gather_spec {need : Int} (holds : Holds mem c prev elements) (pos : 0 < need)
    (bound : need ≤ elements.flatten.length) : ∃ taken q rest own below, gather (c :: prev) need =
      some (taken, need - own.flatten.length, q :: rest) ∧ c :: prev = taken ++ q :: rest ∧ elements = own ++ below ∧
        contents mem taken = own.flatten ∧ need ≤ own.flatten.length ∧ Holds mem q rest below := by
  induction holds generalizing need with
  | base empty =>
    rw [empty, length_nil] at bound
    omega
  | @chunk c p prev own below low order filled high bytes rest ih =>
    have length := bytes_length bytes
    rw [flatten_append, length_append] at bound
    rw [gather, ← length]
    simp only
    split
    · next more =>
      obtain ⟨taken, q, remaining, own', below', result, split, parts, copied, enough, holds⟩ := ih more (by omega)
      refine ⟨c :: taken, q, remaining, own ++ own', below', ?_, by rw [split]; rfl, ?_, ?_, ?_, holds⟩
      · rw [result, flatten_append, length_append]
        simp only [map_some, some.injEq, Prod.mk.injEq, true_and, and_true]
        omega
      · rw [parts, append_assoc]
      · rw [flatten_append, ← copied, ← bytes]
        rfl
      · rw [flatten_append, length_append]
        omega
    · next done =>
      refine ⟨[c], p, prev, own, below, rfl, rfl, rfl, ?_, by omega, rest⟩
      rw [contents, map_singleton, flatten_singleton, bytes]

/-- The argument of `cu_galloc` in `cucon_stack_continuous_top`. -/
def continuousSize (stack : Stack) (size : Nat) : Option Nat :=
  (gather stack.prev (size - (stack.chunk.limit - stack.chunk.sp : Nat))).map fun (_, n, _) => (size - n).toNat

/-- `cucon_stack_continuous_top` either finds the bytes in the top chunk or moves them into a new one, which is put on
the chunks that remain. -/
theorem Holds.continuousTop_spec (holds : Holds mem stack.chunk stack.prev elements)
    (bound : n ≤ elements.flatten.length) (fresh : stack.chunk.limit < stack.chunk.sp + n →
      ∀ total, continuousSize stack n = some total → Fresh stack.chunks block total) :
    (stack.chunk.sp + n ≤ stack.chunk.limit ∧ continuousTop mem stack n block = some (mem, stack)) ∨
    ∃ mem' taken q rest total, continuousTop mem stack n block = some (mem', ⟨⟨block, block, block + total⟩, q :: rest⟩) ∧
      stack.chunks = taken ++ q :: rest ∧ n ≤ total ∧
      stack.chunk.limit < stack.chunk.sp + n ∧ continuousSize stack n = some total ∧
      Holds mem' ⟨block, block, block + total⟩ (q :: rest) elements ∧
      ∀ a, a < block ∨ block + total ≤ a → mem' a = mem a := by
  rw [continuousTop]
  split
  · next short =>
    refine .inr ?_
    obtain ⟨c, prev⟩ := stack
    simp only at holds short ⊢
    generalize reach : elements = all at holds
    cases holds with
    | base empty =>
      subst reach
      rw [empty, length_nil] at bound
      simp only at short
      omega
    | @chunk _ p prev own below low order filled high bytes rest =>
      subst reach
      have length := bytes_length bytes
      have order := (Holds.chunk low order filled high bytes rest).chunk_order
      rw [flatten_append, length_append] at bound
      obtain ⟨taken, q, remaining, own', below', result, split, rfl, copied, enough, deeper⟩ :=
        rest.gather_spec (show (0 : Int) < n - (c.limit - c.sp : Nat) by omega) (by omega)
      have whole : contents mem (c :: taken) = (own ++ own').flatten := by
        rw [flatten_append, ← copied, ← bytes]
        rfl
      have taking : (n - (n - (c.limit - c.sp : Nat) - own'.flatten.length) : Int).toNat = (own ++ own').flatten.length := by
        rw [flatten_append, length_append]
        omega
      have called : continuousSize ⟨c, p :: prev⟩ n = some (own ++ own').flatten.length := by
        rw [continuousSize, result]
        exact congrArg some taking
      replace fresh := fresh short _ called
      have member : ∀ d ∈ c :: taken, d ∈ c :: p :: prev := by
        rw [split]
        intro d member
        exact mem_append_left (q :: remaining) member
      obtain ⟨moved, kept⟩ := copyChunks_spec mem (c :: taken) (a := block)
        (m := block + (own ++ own').flatten.length) (le_of_eq (by rw [whole])) fun d taken => by
          have within := order d (member d taken)
          rcases fresh.apart d (member d taken) with before | after
          · exact .inl (le_of_lt before)
          · exact .inr (by omega)
      refine ⟨copyChunks mem block (c :: taken), c :: taken, q, remaining, (own ++ own').flatten.length, ?_, ?_, ?_, short,
        called, ?_, kept⟩
      · rw [result, map_some]
        simp only [taking]
      · rw [split]
        rfl
      · rw [flatten_append, length_append]
        omega
      rw [← append_assoc]
      rw [whole] at moved
      have high := fresh.high
      refine .chunk fresh.low (Nat.le_refl _) (by simp only; omega) (by simp only; omega) ?_ ?_
      · simp only [Nat.add_sub_cancel_left]
        exact moved
      · refine deeper.frame fun d member a start stop => (kept a ?_).symm
        have later : d ∈ c :: p :: prev := by
          rw [split]
          exact mem_append_right (c :: taken) member
        have within := order d later
        rcases fresh.apart d later with before | after <;> omega
  · next inside => exact .inl ⟨Nat.le_of_not_lt inside, rfl⟩

theorem Holds.initCopy_spec (holds : Holds mem stack.chunk stack.prev elements)
    (fresh : elements.flatten ≠ [] → Fresh stack.chunks block (headerSize + chunkSize elements.flatten.length)) :
    (elements.flatten = [] ∧ initCopy mem stack block = (mem, init)) ∨
    ∃ mem', elements.flatten ≠ [] ∧ initCopy mem stack block = (mem', expand init elements.flatten.length block) ∧
      Holds mem' (expand init elements.flatten.length block).chunk [init.chunk] elements ∧
      ∀ a, a < block + headerSize ∨ block + headerSize + chunkSize elements.flatten.length ≤ a → mem' a = mem a := by
  have size_eq : size stack = elements.flatten.length := holds.size_eq
  have copied : contents mem stack.chunks = elements.flatten := holds.contents_eq
  rcases alloc_cases init (size stack) block with ⟨room, result⟩ | ⟨short, result⟩
  · have none : elements.flatten = [] := by
      simp only [init] at room
      exact eq_nil_of_length_eq_zero (by omega)
    obtain ⟨top, prev_nil⟩ := holds.empty_cases none
    refine .inl ⟨none, ?_⟩
    rw [initCopy, size_eq, none, chunks, top, prev_nil]
    rfl
  · have some : 0 < elements.flatten.length := by
      simp only [init] at short
      omega
    have nonempty : elements.flatten ≠ [] := ne_nil_of_length_pos some
    have fits := le_chunkSize (n := elements.flatten.length)
    replace fresh := fresh nonempty
    have high := fresh.high
    have low := fresh.low
    rw [size_eq] at result
    generalize target : (expand init elements.flatten.length block).chunk.sp = sp
    simp only [expand] at target
    obtain ⟨moved, kept⟩ := copyChunks_spec mem stack.chunks (a := sp)
      (m := sp + elements.flatten.length) (le_of_eq (by rw [copied])) fun d member => by
        have within := holds.chunk_order d member
        rcases fresh.apart d member with before | after
        · exact .inl (by omega)
        · exact .inr (by omega)
    refine .inr ⟨copyChunks mem sp stack.chunks, nonempty, ?_, ?_, fun a outside => kept a (by omega)⟩
    · rw [initCopy, size_eq, result]
      simp only [expand, target]
    conv => rhs; rw [← append_nil elements]
    refine .chunk (c := (expand init elements.flatten.length block).chunk) ?_ ?_ ?_ ?_ ?_ (.base rfl)
    all_goals simp only [expand, target]
    · omega
    · omega
    · omega
    · omega
    · rw [copied] at moved
      rw [← moved]
      congr 1
      rw [moved]
      omega

/-- The stack held `saved` when the top was at `mark`, and still has these elements. -/
def Marks (mem : Memory) (stack : Stack) (mark : Nat) (saved : List Element) : Prop :=
  ∃ above d rest, stack.chunks = above ++ d :: rest ∧ d.sp ≤ mark ∧ Holds mem { d with sp := mark } rest saved

private theorem unwindToMark_here (inside : c.begin ≤ m ∧ m ≤ c.limit) : unwindToMark m c prev = some
    ⟨{ c with sp := m }, prev⟩ := by
  cases prev <;> rw [unwindToMark, if_neg (by omega)]

private theorem unwindToMark_skip (outside : m < c.begin ∨ c.limit < m) : unwindToMark m c (p :: prev) =
    unwindToMark m p prev := by
  rw [unwindToMark, if_pos outside]

theorem Marks.unwind_spec (marks : Marks mem stack m elements) (apart : stack.chunks.Pairwise Apart) :
    ∃ stack', unwindToMark m stack.chunk stack.prev = some stack' ∧ Holds mem stack'.chunk stack'.prev elements ∧
      Cut stack stack' := by
  obtain ⟨above, d, rest, split, later, holds⟩ := marks
  have within := holds.order
  refine ⟨⟨{ d with sp := m }, rest⟩, ?_, holds, above, d, m, split, rfl, later⟩
  obtain ⟨c, prev⟩ := stack
  induction above generalizing c prev with
  | nil =>
    obtain ⟨rfl, rfl⟩ := cons.inj split
    exact unwindToMark_here ⟨within.1, within.2.1⟩
  | cons first above ih =>
    obtain ⟨rfl, rfl⟩ := cons.inj split
    have outside : m < c.begin ∨ c.limit < m := by
      have disjoint := (pairwise_cons.mp apart).1 d (mem_append_right _ (mem_cons_self ..))
      simp only [Apart] at disjoint within
      omega
    cases above with
    | nil =>
      refine (unwindToMark_skip outside).trans ?_
      exact unwindToMark_here ⟨within.1, within.2.1⟩
    | cons second above =>
      refine (unwindToMark_skip outside).trans ?_
      exact ih second (above ++ d :: rest) (pairwise_cons.mp apart).2 rfl

theorem Marks.frame (marks : Marks mem stack m elements)
    (same : ∀ d ∈ stack.chunks, ∀ p, d.begin ≤ p → p < d.limit → mem p = mem' p) : Marks mem' stack m elements := by
  obtain ⟨above, d, rest, split, later, holds⟩ := marks
  refine ⟨above, d, rest, split, later, holds.frame fun x member p start stop => ?_⟩
  have within := holds.chunk_order x member
  rcases mem_cons.mp member with rfl | member
  · refine same d ?_ p (by simp only at start within; omega) stop
    rw [split]
    exact mem_append_right _ (mem_cons_self ..)
  · refine same x ?_ p (by omega) stop
    rw [split]
    exact mem_append_right _ (.tail _ member)

theorem Holds.mark (holds : Holds mem stack.chunk stack.prev elements) : Marks mem stack stack.chunk.sp elements :=
  ⟨[], stack.chunk, stack.prev, rfl, le_rfl, holds⟩

theorem Marks.write_above (marks : Marks mem stack m elements) (apart : ∀ d ∈ stack.prev, Apart stack.chunk d)
    (start : stack.chunk.begin ≤ a) (stop : a + e.length ≤ stack.chunk.sp) (order : stack.chunk.sp ≤ stack.chunk.limit) :
    Marks (write mem a e) stack m elements := by
  obtain ⟨above, d, rest, split, later, holds⟩ := marks
  refine ⟨above, d, rest, split, later, holds.frame fun x member q low high => (write_outside ?_).symm⟩
  have within := holds.chunk_order x member
  have top : x ∈ stack.prev ∨ x = { stack.chunk with sp := m } ∧ d = stack.chunk ∨
      ∃ y ∈ stack.prev, x.begin = y.begin ∧ x.limit = y.limit := by
    cases above with
    | nil =>
      obtain ⟨same, same'⟩ := cons.inj split
      rcases mem_cons.mp member with rfl | member
      · exact .inr (.inl ⟨by rw [same], same.symm⟩)
      · exact .inl (same' ▸ member)
    | cons first above =>
      obtain ⟨_, same⟩ := cons.inj split
      rcases mem_cons.mp member with rfl | member
      · exact .inr (.inr ⟨d, by rw [same]; exact mem_append_right _ (mem_cons_self ..), rfl, rfl⟩)
      · exact .inl (by rw [same]; exact mem_append_right _ (.tail _ member))
  rcases top with member | ⟨rfl, rfl⟩ | ⟨y, member, begin, limit⟩
  · have disjoint := apart x member
    simp only [Apart] at disjoint
    omega
  · simp only at low
    omega
  · have disjoint := apart y member
    simp only [Apart] at disjoint
    omega

theorem Marks.lower (marks : Marks mem stack m elements) (lower : n ≤ stack.chunk.sp) :
    Marks mem { stack with chunk := { stack.chunk with sp := n } } m elements := by
  obtain ⟨above, d, rest, split, later, holds⟩ := marks
  cases above with
  | nil =>
    obtain ⟨rfl, rfl⟩ := cons.inj split
    exact ⟨[], _, _, rfl, le_trans lower later, holds⟩
  | cons first above =>
    obtain ⟨rfl, same⟩ := cons.inj split
    exact ⟨{ stack.chunk with sp := n } :: above, d, rest, congrArg _ same, later, holds⟩

theorem Marks.push (marks : Marks mem stack m elements) (above : stack'.prev = stack.chunks) :
    Marks mem stack' m elements := by
  obtain ⟨popped, d, rest, split, later, holds⟩ := marks
  exact ⟨stack'.chunk :: popped, d, rest, by rw [chunks, above, split]; rfl, later, holds⟩

theorem Holds.sp_lt (holds : Holds mem c (p :: prev) elements) : c.sp < c.limit := by
  cases holds with
  | chunk low order filled high bytes rest => exact filled

theorem Marks.cut (marks : Marks mem stack m saved) (cut : Cut stack stack')
    (holds : Holds mem stack'.chunk stack'.prev left) (fewer : saved.flatten.length ≤ left.flatten.length) :
    Marks mem stack' m saved := by
  obtain ⟨above, d, rest, split, later, marked⟩ := marks
  obtain ⟨popped, d', x, split', top, order⟩ := cut
  have bytes := marked.size_eq
  have bytes' := holds.size_eq
  rw [top] at bytes'
  simp only [size, chunks, map_cons, sum_cons] at bytes bytes'
  have chunks' : stack'.chunks = { d' with sp := x } :: stack'.prev := by rw [chunks, top]
  rw [split] at split'
  have same (same : d :: rest = d' :: stack'.prev) : Marks mem stack' m saved := by
    obtain ⟨rfl, rfl⟩ := cons.inj same
    have within := marked.order
    have within' := holds.order
    rw [top] at within'
    simp only at within within'
    exact ⟨[], { d with sp := x }, stack'.prev, chunks', by simp only; omega, marked⟩
  rcases append_eq_append_iff.mp split' with ⟨a, inside, after⟩ | ⟨a, inside, after⟩
  · cases a with
    | nil => exact same after
    | cons first a =>
      -- The chunk of the mark has been taken off, and so have been bytes of the mark.
      exfalso
      obtain ⟨rfl, rest_eq⟩ := cons.inj after
      have rest_eq : rest = a ++ d' :: stack'.prev := rest_eq
      have filled : m < d.limit := by
        cases rest with
        | nil => exact absurd rest_eq.symm (append_ne_nil_of_right_ne_nil _ (cons_ne_nil _ _))
        | cons second rest => exact marked.sp_lt
      rw [rest_eq, map_append, sum_append, map_cons, sum_cons] at bytes
      omega
  · cases a with
    | nil => exact same after.symm
    | cons first a =>
      obtain ⟨rfl, rest_eq⟩ := cons.inj after
      exact ⟨{ d' with sp := x } :: a, d, rest, by rw [chunks', rest_eq]; rfl, later, marked⟩

end Culibs.Cucon.Stack
