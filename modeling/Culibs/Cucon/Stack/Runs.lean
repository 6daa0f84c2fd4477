import Culibs.Cucon.Stack.Update
import Culibs.Cucon.Stack.Iterator

namespace Culibs.Cucon.Stack

open Foundation ByteMemory List

/-- The stacks of a program and the marks it has taken. -/
structure World where
  mem : Memory
  family : Nat → Stack
  marks : List Nat

def World.start (mem : Memory) : World := ⟨mem, fun _ => init, []⟩

/-- `block` is the address that `cu_galloc` returns if it is called. -/
inductive Op where
  | init (i : Nat)
  /-- The caller fills in the element. -/
  | alloc (i : Nat) (e : Element) (block : Nat)
  /-- The `k` elements on the top have `size` bytes. -/
  | free (i k size : Nat)
  | continuousTop (i size block : Nat)
  | initCopy (dst src block : Nat)
  | swap (i j : Nat)
  | mark (i : Nat)
  /-- `k` counts the marks that have been taken. -/
  | unwindToMark (i k : Nat)

open Function (update)

def World.step (w : World) : Op → Option World
  | .init i => some { w with family := update w.family i init }
  | .alloc i e block =>
    let stack := alloc (w.family i) e.length block
    some { w with mem := write w.mem stack.chunk.sp e, family := update w.family i stack }
  | .free i _ size => (free (w.family i) size).map fun stack => { w with family := update w.family i stack }
  | .continuousTop i size block => (continuousTop w.mem (w.family i) size block).map fun (mem, stack) =>
      { w with mem := mem, family := update w.family i stack }
  | .initCopy dst src block =>
    let (mem, stack) := initCopy w.mem (w.family src) block
    some { w with mem := mem, family := update w.family dst stack }
  | .swap i j => some { w with family := update (update w.family i (w.family j)) j (w.family i) }
  | .mark i => some { w with marks := w.marks ++ [(w.family i).chunk.sp] }
  | .unwindToMark i k => do
    let mark ← w.marks[k]?
    let stack ← unwindToMark mark (w.family i).chunk (w.family i).prev
    some { w with family := update w.family i stack }

def World.run (w : World) : List Op → Option World
  | [] => some w
  | op :: ops => (w.step op).bind fun w => w.run ops

/-- What a stack is meant to hold, and the marks it can be unwound to with the elements it had. -/
structure Content where
  elements : List Element
  marks : List (Nat × List Element)

def Content.empty : Content := ⟨[], []⟩

/-- Marks above the top are lost. -/
def Content.leave (content : Content) (elements : List Element) : Content :=
  ⟨elements, content.marks.filter fun mark => mark.2.length ≤ elements.length⟩

structure Meaning where
  content : Nat → Content
  taken : Nat

def Meaning.start : Meaning := ⟨fun _ => .empty, 0⟩

def Meaning.step (v : Meaning) : Op → Meaning
  | .init i => { v with content := update v.content i .empty }
  | .alloc i e _ => { v with content := update v.content i ⟨e :: (v.content i).elements, (v.content i).marks⟩ }
  | .free i k _ => { v with content := update v.content i ((v.content i).leave ((v.content i).elements.drop k)) }
  | .continuousTop i _ _ => { v with content := update v.content i ⟨(v.content i).elements, []⟩ }
  | .initCopy dst src _ => { v with content := update v.content dst ⟨(v.content src).elements, []⟩ }
  | .swap i j => { v with content := update (update v.content i (v.content j)) j (v.content i) }
  | .mark i => ⟨update v.content i ⟨(v.content i).elements, (v.taken, (v.content i).elements) :: (v.content i).marks⟩,
      v.taken + 1⟩
  | .unwindToMark i k =>
    match (v.content i).marks.find? fun mark => mark.1 = k with
    | none => v
    | some (_, saved) => { v with content := update v.content i ((v.content i).leave saved) }

def Meaning.run (v : Meaning) (ops : List Op) : Meaning := ops.foldl Meaning.step v

/-- A new block is apart from the chunks of all family. -/
def World.Fresh (w : World) (block size : Nat) : Prop := ∀ i, Stack.Fresh (w.family i).chunks block size

/-- Whole elements are freed, no more bytes are asked for than there are, a stack is not copied to itself, marks are of
this stack and not above its top, and `cu_galloc` returns new memory. -/
def Legal (w : World) (v : Meaning) : Op → Prop
  | .alloc i e block => (w.family i).chunk.sp < (w.family i).chunk.begin + e.length →
      w.Fresh block (headerSize + chunkSize e.length)
  | .free i k size => k ≤ (v.content i).elements.length ∧ size = offset (v.content i).elements k
  | .continuousTop i size block => size ≤ (v.content i).elements.flatten.length ∧
      ((w.family i).chunk.limit < (w.family i).chunk.sp + size →
        ∀ total, continuousSize (w.family i) size = some total → w.Fresh block total)
  | .initCopy dst src block => dst ≠ src ∧
      ((v.content src).elements.flatten ≠ [] →
        w.Fresh block (headerSize + chunkSize (v.content src).elements.flatten.length))
  | .unwindToMark i k => ∃ saved, (k, saved) ∈ (v.content i).marks
  | _ => True

def LegalRun (w : World) (v : Meaning) : List Op → Prop
  | [] => True
  | op :: ops => Legal w v op ∧ ∀ w', w.step op = some w' → LegalRun w' (v.step op) ops

/-- The stacks hold what they are meant to hold, in memory of their own. -/
structure Sound (w : World) (v : Meaning) : Prop where
  holds : ∀ i, Holds w.mem (w.family i).chunk (w.family i).prev (v.content i).elements
  apart : ∀ i, (w.family i).chunks.Pairwise Apart
  separate : ∀ i j, i ≠ j → ∀ c ∈ (w.family i).chunks, ∀ d ∈ (w.family j).chunks, 0 < c.begin → 0 < d.begin → Apart c d
  marks : ∀ i k saved, (k, saved) ∈ (v.content i).marks → saved <:+ (v.content i).elements ∧
    ∃ m, w.marks[k]? = some m ∧ Marks w.mem (w.family i) m saved
  count : w.marks.length = v.taken

variable {w : World} {v : Meaning} {c d : Chunk} {stack stack' : Stack} {mem mem' : Memory} {content : Content}
variable {i j k n block : Nat} {e : Element} {elements : List Element}

theorem Apart.symm (apart : Apart c d) : Apart d c := Or.symm apart

/-- The memory of a chunk was that of a chunk of `stack`, or is new. -/
def Origin (w : World) (stack : Stack) (d : Chunk) : Prop :=
  (∃ c ∈ stack.chunks, c.begin = d.begin ∧ c.limit = d.limit) ∨ ∀ j, ∀ c ∈ (w.family j).chunks, Apart c d

theorem Sound.update (sound : Sound w v) (i : Nat) (holds : Holds mem' stack'.chunk stack'.prev content.elements)
    (apart : stack'.chunks.Pairwise Apart) (origin : ∀ d ∈ stack'.chunks, 0 < d.begin → Origin w (w.family i) d)
    (inside : ∀ a, mem' a = w.mem a ∨
      0 < stack'.chunk.begin ∧ stack'.chunk.begin ≤ a ∧ a < stack'.chunk.limit)
    (marks : ∀ k saved, (k, saved) ∈ content.marks → saved <:+ content.elements ∧
      ∃ m, w.marks[k]? = some m ∧ Marks mem' stack' m saved) :
    Sound { w with mem := mem', family := Function.update w.family i stack' }
      { v with content := Function.update v.content i content } := by
  have others : ∀ j, j ≠ i → ∀ c ∈ (w.family j).chunks, ∀ d ∈ stack'.chunks, 0 < c.begin → 0 < d.begin → Apart c d := by
    intro j other c member d member' pos positive'
    rcases origin d member' positive' with ⟨d', present, begin, limit⟩ | fresh
    · have disjoint := sound.separate j i other c member d' present pos (by omega)
      simpa only [Apart, begin, limit] using disjoint
    · exact fresh j c member
  have same : ∀ j, j ≠ i → ∀ c ∈ (w.family j).chunks, ∀ a, c.begin ≤ a → a < c.limit → w.mem a = mem' a := by
    intro j other c member a start stop
    rcases inside a with same | ⟨pos, start', stop'⟩
    · exact same.symm
    · have nonempty := (sound.holds j).begin_pos c member (by omega)
      have disjoint := others j other c member stack'.chunk (mem_cons_self ..) nonempty pos
      simp only [Apart] at disjoint
      omega
  refine ⟨fun j => ?_, fun j => ?_, ?_, fun j k saved => ?_, sound.count⟩
  · by_cases here : j = i
    · subst here
      simpa using holds
    · simp only [Function.update_of_ne here]
      refine (sound.holds j).frame fun d member a start stop => same j here d member a ?_ stop
      exact le_trans ((sound.holds j).chunk_order d member).1 start
  · by_cases here : j = i
    · subst here
      simpa using apart
    · simpa only [Function.update_of_ne here] using sound.apart j
  · intro j l other c member d member'
    simp only at member member'
    by_cases here : j = i
    · subst here
      rw [Function.update_self] at member
      rw [Function.update_of_ne other.symm] at member'
      exact fun pos positive' => (others l other.symm d member' c member positive' pos).symm
    · rw [Function.update_of_ne here] at member
      by_cases there : l = i
      · subst there
        rw [Function.update_self] at member'
        exact others j here c member d member'
      · rw [Function.update_of_ne there] at member'
        exact sound.separate j l other c member d member'
  · by_cases here : j = i
    · subst here
      simpa using marks k saved
    · simp only [Function.update_of_ne here]
      intro present
      obtain ⟨suffix, m, found, marks⟩ := sound.marks j k saved present
      exact ⟨suffix, m, found, marks.frame (same j here)⟩

theorem Cut.origin (cut : Cut (w.family i) stack') (d : Chunk) (mem : d ∈ stack'.chunks) : Origin w (w.family i) d := by
  obtain ⟨popped, top, x, split, chunk, _⟩ := cut
  refine .inl ?_
  rw [split]
  rcases mem_cons.mp mem with rfl | mem
  · exact ⟨top, mem_append_right _ (mem_cons_self ..), by rw [chunk], by rw [chunk]⟩
  · exact ⟨d, mem_append_right _ (.tail _ mem), rfl, rfl⟩

theorem Cut.apart (cut : Cut stack stack') (apart : stack.chunks.Pairwise Apart) : stack'.chunks.Pairwise Apart := by
  obtain ⟨popped, top, x, split, chunk, _⟩ := cut
  rw [split] at apart
  rw [chunks, chunk]
  have below := pairwise_cons.mp (pairwise_append.mp apart).2.1
  exact pairwise_cons.mpr below

section

variable (sound : Sound w v)

include sound

theorem Sound.cut (cut : Cut (w.family i) stack') (holds : Holds w.mem stack'.chunk stack'.prev elements)
    (suffix : elements <:+ (v.content i).elements) :
    Sound { w with family := Function.update w.family i stack' }
      { v with content := Function.update v.content i ((v.content i).leave elements) } := by
  refine sound.update i holds (cut.apart (sound.apart i)) (fun d mem _ => cut.origin d mem)
    (fun a => .inl rfl) fun k saved present => ?_
  obtain ⟨present, fewer⟩ := by simpa [Content.leave] using present
  obtain ⟨suffix', m, found, marks⟩ := sound.marks i k saved present
  have inner : saved <:+ elements := suffix_of_suffix_length_le suffix' suffix fewer
  refine ⟨inner, m, found, marks.cut cut holds ?_⟩
  obtain ⟨above, split⟩ := inner
  rw [← split, flatten_append, length_append]
  exact Nat.le_add_left _ _

theorem Sound.init (i : Nat) : Sound { w with family := Function.update w.family i init }
    { v with content := Function.update v.content i .empty } :=
  sound.update i (.base rfl) (pairwise_singleton _ _) (fun d mem pos => by
    rw [chunks, Stack.init, mem_singleton] at mem
    rw [mem] at pos
    cases pos) (fun a => .inl rfl) (fun k saved present => by cases present)

theorem Sound.alloc (i : Nat) (e : Element)
    (fresh : (w.family i).chunk.sp < (w.family i).chunk.begin + e.length →
      w.Fresh block (headerSize + chunkSize e.length)) :
    ∃ w', w.step (.alloc i e block) = some w' ∧ Sound w' (v.step (.alloc i e block)) := by
  refine ⟨_, rfl, ?_⟩
  have holds := sound.holds i
  have apart := pairwise_cons.mp (sound.apart i)
  have order := holds.order
  rcases alloc_cases (w.family i) e.length block with ⟨room, result⟩ | ⟨short, result⟩
  · rw [result]
    refine sound.update i (holds.alloc_inside room apart.1) (pairwise_cons.mpr apart) ?_ ?_ ?_
    · intro d mem _
      rcases mem_cons.mp mem with rfl | mem
      · exact .inl ⟨_, .head _ .., rfl, rfl⟩
      · exact .inl ⟨d, .tail _ mem, rfl, rfl⟩
    · intro a
      by_cases inside : (w.family i).chunk.sp - e.length ≤ a ∧ a < (w.family i).chunk.sp
      · have pos := holds.begin_pos _ (mem_cons_self ..) (by omega)
        exact .inr ⟨pos, by simp only; omega, by simp only; omega⟩
      · exact .inl (write_outside (by simp only; omega))
    · intro k saved present
      obtain ⟨suffix, m, found, marks⟩ := sound.marks i k saved present
      refine ⟨suffix.trans (suffix_cons _ _), m, found, Marks.lower ?_ (Nat.sub_le _ _)⟩
      exact marks.write_above apart.1 (by simp only; omega) (by simp only; omega) order.2.1
  · rw [result]
    have new := fresh short
    have some : e ≠ [] := by
      rintro rfl
      simp only [length_nil] at short
      omega
    have disjoint := (new i).expand_apart (w.family i)
    have room := le_chunkSize (n := e.length)
    have inside : ∀ a, write w.mem (expand (w.family i) e.length block).chunk.sp e a = w.mem a ∨
        0 < (expand (w.family i) e.length block).chunk.begin ∧ (expand (w.family i) e.length block).chunk.begin ≤ a ∧
          a < (expand (w.family i) e.length block).chunk.limit := by
      intro a
      simp only [expand]
      by_cases inside : block + headerSize ≤ a ∧ a < block + headerSize + chunkSize e.length
      · exact .inr ⟨by simp [headerSize], inside⟩
      · exact .inl (write_outside (by omega))
    refine sound.update i (holds.alloc_expand some (new i)) (pairwise_cons.mpr ⟨disjoint, sound.apart i⟩) ?_ inside ?_
    · intro d mem _
      rcases mem_cons.mp mem with rfl | mem
      · exact .inr fun j c mem => ((new j).expand_apart _ c mem).symm
      · exact .inl ⟨d, mem, rfl, rfl⟩
    intro k saved present
    obtain ⟨suffix, m, found, marks⟩ := sound.marks i k saved present
    refine ⟨suffix.trans (suffix_cons _ _), m, found, Marks.push ?_ rfl⟩
    refine marks.frame fun d mem a start stop => ?_
    rcases inside a with same | ⟨_, start', stop'⟩
    · exact same.symm
    · have apart := disjoint d mem
      simp only [Apart] at apart
      omega

theorem Sound.free (i k : Nat) :
    ∃ w', w.step (.free i k (offset (v.content i).elements k)) = some w' ∧
      Sound w' (v.step (.free i k (offset (v.content i).elements k))) := by
  obtain ⟨stack', result, holds, cut⟩ := (sound.holds i).free_spec k
  exact ⟨_, by rw [World.step, result]; rfl, sound.cut cut holds (drop_suffix _ _)⟩

theorem Sound.continuousTop (i : Nat) (bound : n ≤ (v.content i).elements.flatten.length)
    (fresh : (w.family i).chunk.limit < (w.family i).chunk.sp + n →
      ∀ total, continuousSize (w.family i) n = some total → w.Fresh block total) :
    ∃ w', w.step (.continuousTop i n block) = some w' ∧ Sound w' (v.step (.continuousTop i n block)) := by
  rcases (sound.holds i).continuousTop_spec bound fun short total same => fresh short total same i with
    ⟨_, result⟩ | ⟨mem', taken, q, rest, total, result, split, _, short, called, holds, outside⟩
  · refine ⟨_, by rw [World.step, result]; rfl, ?_⟩
    refine sound.update i (sound.holds i) (sound.apart i) (fun d mem _ => .inl ⟨d, mem, rfl, rfl⟩)
      (fun a => .inl rfl) fun k saved present => ?_
    cases present
  refine ⟨_, by rw [World.step, result]; rfl, ?_⟩
  have new := fresh short total called
  have apart := sound.apart i
  have kept : ∀ d ∈ q :: rest, d ∈ (w.family i).chunks := by
    intro d mem
    rw [split]
    exact mem_append_right _ mem
  have disjoint (j : Nat) : ∀ d ∈ (w.family j).chunks, Apart ⟨block, block, block + total⟩ d := fun d mem =>
    Or.symm ((new j).apart d mem)
  rw [split] at apart
  refine sound.update i holds ?_ ?_ (fun a => ?_) fun k saved present => ?_
  · exact pairwise_cons.mpr ⟨fun d mem => disjoint i d (kept d mem), (pairwise_append.mp apart).2.1⟩
  · intro d mem _
    rcases mem_cons.mp mem with rfl | mem
    · exact .inr fun j c mem => (disjoint j c mem).symm
    · exact .inl ⟨d, kept d mem, rfl, rfl⟩
  · by_cases inside : block ≤ a ∧ a < block + total
    · exact .inr ⟨(new i).low, inside⟩
    · exact .inl (outside a (by omega))
  · cases present

theorem Sound.initCopy (dst src : Nat)
    (fresh : (v.content src).elements.flatten ≠ [] →
      w.Fresh block (headerSize + chunkSize (v.content src).elements.flatten.length)) :
    ∃ w', w.step (.initCopy dst src block) = some w' ∧ Sound w' (v.step (.initCopy dst src block)) := by
  refine ⟨{ w with
    mem := (Stack.initCopy w.mem (w.family src) block).1
    family := Function.update w.family dst (Stack.initCopy w.mem (w.family src) block).2 }, rfl, ?_⟩
  rcases (sound.holds src).initCopy_spec fun some => fresh some src with
    ⟨none, result⟩ | ⟨mem', some, result, holds, outside⟩
  · rw [result]
    refine sound.update dst (.base none) (pairwise_singleton _ _) (fun d member pos => ?_) (fun a => .inl rfl)
      fun k saved present => ?_
    · rw [mem_singleton.mp member] at pos
      cases pos
    · cases present
  · rw [result]
    have new := fresh some
    have disjoint (j : Nat) := (new j).expand_apart Stack.init
    refine sound.update dst holds ?_ ?_ (fun a => ?_) fun k saved present => ?_
    · refine pairwise_cons.mpr ⟨fun d member => ?_, pairwise_singleton _ _⟩
      rw [mem_singleton.mp member]
      simp [Apart, expand, Stack.init, headerSize]
    · intro d member pos
      rcases mem_cons.mp member with rfl | member
      · exact .inr fun j c member => (disjoint j c member).symm
      · rw [mem_singleton.mp member] at pos
        cases pos
    · simp only [expand]
      by_cases inside : block + headerSize ≤ a ∧
          a < block + headerSize + chunkSize (v.content src).elements.flatten.length
      · exact .inr ⟨by simp [headerSize], inside⟩
      · exact .inl (outside a (by omega))
    · cases present

end

private theorem update_swap (f : Nat → β) (i j : Nat) :
    Function.update (Function.update f i (f j)) j (f i) = fun l => f (if l = j then i else if l = i then j else l) := by
  funext l
  by_cases second : l = j
  · subst second
    simp
  · by_cases first : l = i
    · subst first
      simp [second]
    · simp [second, first]

theorem Sound.swap (sound : Sound w v) (i j : Nat) :
    ∃ w', w.step (.swap i j) = some w' ∧ Sound w' (v.step (.swap i j)) := by
  refine ⟨_, rfl, ?_⟩
  rw [Meaning.step, update_swap, update_swap]
  refine ⟨fun l => sound.holds _, fun l => sound.apart _, fun l m other => ?_, fun l => sound.marks _, sound.count⟩
  refine sound.separate _ _ ?_
  grind

theorem Sound.mark (sound : Sound w v) (i : Nat) :
    ∃ w', w.step (.mark i) = some w' ∧ Sound w' (v.step (.mark i)) := by
  refine ⟨_, rfl, fun j => ?_, sound.apart, sound.separate, fun j k saved => ?_, ?_⟩
  · by_cases here : j = i
    · subst here
      simpa [Meaning.step] using sound.holds j
    · simpa [Meaning.step, here] using sound.holds j
  · have older (present : (k, saved) ∈ (v.content j).marks) : saved <:+ (v.content j).elements ∧
        ∃ m, (w.marks ++ [(w.family i).chunk.sp])[k]? = some m ∧ Marks w.mem (w.family j) m saved := by
      obtain ⟨suffix, m, found, marks⟩ := sound.marks j k saved present
      have below := (List.getElem?_eq_some_iff.mp found).1
      exact ⟨suffix, m, by rw [getElem?_append_left below, found], marks⟩
    by_cases here : j = i
    · subst here
      simp only [Meaning.step, Function.update_self, mem_cons, Prod.mk.injEq]
      rintro (⟨rfl, rfl⟩ | present)
      · refine ⟨suffix_refl _, (w.family j).chunk.sp, ?_, (sound.holds j).mark⟩
        rw [← sound.count, getElem?_append_right (Nat.le_refl _), Nat.sub_self]
        rfl
      · exact older present
    · simpa [Meaning.step, here] using older
  · simp [Meaning.step, sound.count]

theorem Sound.unwindToMark (sound : Sound w v) (i k : Nat) (marked : ∃ saved, (k, saved) ∈ (v.content i).marks) :
    ∃ w', w.step (.unwindToMark i k) = some w' ∧ Sound w' (v.step (.unwindToMark i k)) := by
  obtain ⟨saved, present⟩ := marked
  cases found : (v.content i).marks.find? fun mark => mark.1 = k with
  | none =>
    have absent := find?_eq_none.mp found (k, saved) present
    simp at absent
  | some mark =>
    obtain ⟨k', saved⟩ := mark
    obtain rfl : k' = k := by simpa using find?_some found
    obtain ⟨suffix, m, address, marks⟩ := sound.marks i _ _ (mem_of_find?_eq_some found)
    obtain ⟨stack', result, holds, cut⟩ := marks.unwind_spec (sound.apart i)
    refine ⟨{ w with family := Function.update w.family i stack' }, ?_, ?_⟩
    · rw [World.step, address]
      simp [result]
    · rw [Meaning.step, found]
      exact sound.cut cut holds suffix

theorem step_sound (sound : Sound w v) (op : Op) (legal : Legal w v op) :
    ∃ w', w.step op = some w' ∧ Sound w' (v.step op) := by
  cases op with
  | init i => exact ⟨_, rfl, sound.init i⟩
  | alloc i e block => exact sound.alloc i e legal
  | free i k size =>
    obtain ⟨_, rfl⟩ := legal
    exact sound.free i k
  | continuousTop i size block => exact sound.continuousTop i legal.1 legal.2
  | initCopy dst src block => exact sound.initCopy dst src legal.2
  | swap i j => exact sound.swap i j
  | mark i => exact sound.mark i
  | unwindToMark i k => exact sound.unwindToMark i k legal

theorem start_sound (mem : Memory) : Sound (World.start mem) Meaning.start where
  holds _ := .base rfl
  apart _ := pairwise_singleton _ _
  separate i j _ c member _ _ pos _ := by
    rw [mem_singleton.mp member] at pos
    cases pos
  marks _ _ _ present := by cases present
  count := rfl

theorem run_sound (ops : List Op) (sound : Sound w v) (legal : LegalRun w v ops) :
    ∃ w', w.run ops = some w' ∧ Sound w' (v.run ops) := by
  induction ops generalizing w v with
  | nil => exact ⟨w, rfl, sound⟩
  | cons op ops ih =>
    obtain ⟨w', result, sound'⟩ := step_sound sound op legal.1
    obtain ⟨last, results, agrees⟩ := ih sound' (legal.2 w' result)
    exact ⟨last, by rw [World.run, result]; exact results, agrees⟩

/-- The functions that only read a stack return what the list of elements has. -/
structure Agrees (mem : Memory) (stack : Stack) (elements : List Element) : Prop where
  top : ∀ e rest, elements = e :: rest → read mem (top stack) e.length = e
  byte : ∀ n, n < elements.flatten.length →
    ∃ a, stackAt stack.chunk stack.prev n = some a ∧ a ≠ 0 ∧ elements.flatten[n]? = some (mem a)
  element : ∀ i e j, elements[i]? = some e → j < e.length →
    ∃ a, stackAt stack.chunk stack.prev (offset elements i + j) = some a ∧ read mem a (e.length - j) = e.drop j
  size : size stack = elements.flatten.length
  isEmpty : isEmpty stack = true ↔ elements.flatten = []
  iterate : ∃ slots last, itrGets (itrInit stack) (elements.map length) = some (slots, last) ∧
    slots.length = elements.length ∧
    (∀ i e, elements[i]? = some e → e ≠ [] → slots[i]? = stackAt stack.chunk stack.prev (offset elements i)) ∧
    ∀ n, ∃ next, itrGet last n = some (0, next)
  advance : ∀ n i e j, n ≤ stack.chunk.limit - stack.chunk.sp → elements[i]? = some e → j < e.length →
    n = offset elements i + j → ∃ itr a, itrAdvance (itrInit stack) n = some itr ∧
      stackAt stack.chunk stack.prev n = some a ∧ ∀ m, m ≤ e.length - j → ∃ next, itrGet itr m = some (a, next)

theorem Holds.agrees (holds : Holds mem stack.chunk stack.prev elements) : Agrees mem stack elements where
  top e rest reach := by
    subst reach
    rcases holds.cons_cases with ⟨_, _, rfl, _⟩ | ⟨p, below, _, _, _, filled, _⟩
    · rfl
    · cases e with
      | nil => rfl
      | cons first e =>
        obtain ⟨a, address, bytes⟩ := holds.stackAt_element (i := 0) (j := 0) rfl (Nat.zero_lt_succ _)
        rw [stackAt_inside (by simpa [offset] using filled)] at address
        cases address
        simpa [offset, Stack.top] using bytes
  byte n below := holds.stackAt_spec below
  element i e j found short := holds.stackAt_element found short
  size := holds.size_eq
  isEmpty := holds.isEmpty_iff
  iterate := itrGets_spec (holds)
  advance n i e j within found short position := itrAdvance_spec holds within found short position

/-- Every legal run gives family that agree with the lists of elements, where `cucon_stack_itr_advance` is called with
no more than the bytes of the top chunk. -/
theorem run_agrees (mem : Memory) (ops : List Op) (legal : LegalRun (World.start mem) Meaning.start ops) :
    ∃ w, (World.start mem).run ops = some w ∧
      ∀ i, Agrees w.mem (w.family i) ((Meaning.start.run ops).content i).elements := by
  obtain ⟨w, result, sound⟩ := run_sound ops (start_sound mem) legal
  exact ⟨w, result, fun i => (sound.holds i).agrees⟩

/-- Two elements, of which the second does not fit into the chunk of the first. -/
def twoChunks : List Op :=
  [.alloc 0 (replicate 4 1) 1000, .alloc 0 (replicate 4095 2) 10000]

theorem alloc_first : Stack.alloc init 4 1000 = ⟨⟨1032, 5124, 5128⟩, [⟨0, 0, 0⟩]⟩ := by decide

private theorem alloc_second : Stack.alloc ⟨⟨1032, 5124, 5128⟩, [⟨0, 0, 0⟩]⟩ 4095 10000 =
    ⟨⟨10032, 10033, 14128⟩, [⟨1032, 5124, 5128⟩, ⟨0, 0, 0⟩]⟩ := by decide

theorem twoChunks_legal (mem : Memory) : LegalRun (World.start mem) Meaning.start twoChunks := by
  refine ⟨fun _ i => ⟨by decide, by decide, fun d member => ?_⟩, fun w result => ⟨fun _ i => ?_, fun _ _ => trivial⟩⟩
  · rw [mem_singleton.mp member]
    exact .inl (show 0 < 1000 by decide)
  cases result
  refine ⟨by decide, by rw [length_replicate]; decide, fun d member => .inl ?_⟩
  by_cases here : i = 0
  · subst here
    simp only [Function.update_self, World.start, length_replicate, alloc_first, chunks] at member
    revert d
    decide
  · simp only [Function.update_of_ne here, World.start] at member
    rw [mem_singleton.mp member]
    exact show 0 < 10000 by decide

theorem twoChunks_agrees : ∃ w, (World.start fun _ => 0).run twoChunks = some w ∧
    ∀ i, Agrees w.mem (w.family i) ((Meaning.start.run twoChunks).content i).elements :=
  run_agrees (fun _ => 0) twoChunks (twoChunks_legal _)

/-- Beyond the end of the top chunk the iterator goes to another address. -/
theorem advance_differs : LegalRun (World.start fun _ => 0) Meaning.start twoChunks ∧
    ∃ w, (World.start fun _ => 0).run twoChunks = some w ∧ 4096 < size (w.family 0) ∧
      ((itrAdvance (itrInit (w.family 0)) 4096).bind fun itr => (itrGet itr 1).map Prod.fst) = some 5123 ∧
      stackAt (w.family 0).chunk (w.family 0).prev 4096 = some 5125 := by
  refine ⟨twoChunks_legal _, _, rfl, ?_⟩
  simp only [Function.update_self, World.start, length_replicate, alloc_first, alloc_second]
  decide

end Culibs.Cucon.Stack
