import Culibs.Cuoo.Halloc.Memory

/-! The pairs and quads of a set in memory. Those that links lead to are apart from each other and
from those on the free lists, so that a free list overwrites none that is in use. -/

namespace Culibs.Cuoo.Halloc

open Function List BitVec Memory Nat

variable {Key : Type}

/-- A chain in memory, and the pairs and quads it uses. -/
inductive Chain (words : Nat → Nat → Cell) : Ref → Link Nat → List Nat → Prop
  | null : Chain words .null .null []
  | obj (o : Nat) : Chain words (.obj o) (.obj o) []
  | pair {p a b : Nat} : words p 0 = .obj a → words p 1 = .obj b → Chain words (.pair p) (.pair a b) [p]
  | quad {q a b c : Nat} {ln : Ref} {link : Link Nat} {used : List Nat} : words q 0 = .obj a → words q 1 = .obj b →
      words q 2 = .obj c → words q 3 = .link ln → Chain words ln link used →
      Chain words (.quad q) (.quad a b c link) (q :: used)

variable {words words' : Nat → Nat → Cell}

theorem Chain.frame {ln : Ref} {used : List Nat}
    (chain : Chain words ln link used) (same : ∀ p ∈ used, words' p = words p) : Chain words' ln link used := by
  induction chain with
  | null => exact .null
  | obj o => exact .obj o
  | pair first second =>
    have at_ := same _ (mem_singleton.mpr rfl)
    exact .pair (by rw [at_, first]) (by rw [at_, second])
  | quad first second third next _ ih =>
    have at_ := same _ (mem_cons_self ..)
    exact .quad (by rw [at_, first]) (by rw [at_, second]) (by rw [at_, third]) (by rw [at_, next])
      (ih fun p mem => same p (.tail _ mem))

/-- The blocks of a free list. -/
inductive Listed (words : Nat → Nat → Cell) : Option Nat → List Nat → Prop
  | nil : Listed words none []
  | cons {fl : Nat} {next : Option Nat} {rest : List Nat} : words fl 0 = .next next → Listed words next rest →
      Listed words (some fl) (fl :: rest)

variable {fl : Option Nat}

theorem Listed.frame {rest : List Nat}
    (listed : Listed words fl rest) (same : ∀ p ∈ rest, words' p = words p) : Listed words' fl rest := by
  induction listed with
  | nil => exact .nil
  | cons next _ ih =>
    exact .cons (by rw [same _ (mem_cons_self ..), next])
      (ih fun p mem => same p (.tail _ mem))

/-- The blocks in use are different, and none of them is on a free list. A count may be less than the length of its
free list after it has overflown. -/
structure Owned (m : Memory Key) (used : List Nat) (freed : Kind → List Nat) : Prop where
  listed : ∀ kind, Listed m.words (m.free kind).head (freed kind)
  count : ∀ kind, (m.free kind).count.toNat ≤ (freed kind).length
  distinct : used.Nodup
  apart : ∀ kind, (freed kind).Nodup ∧ ∀ p ∈ freed kind, p ∉ used ∧ p < m.top
  kinds : ∀ kind kind' p, p ∈ freed kind → p ∈ freed kind' → kind = kind'
  below : ∀ p ∈ used, p < m.top

def Uses (m : Memory Key) (used : List Nat) : Prop := ∃ freed, Owned m used freed

/-- The blocks in `others`, the array and the objects are the same. -/
structure Frame (m m' : Memory Key) (others : List Nat) : Prop where
  words : ∀ p ∈ others, m'.words p = m.words p
  arr : m'.arr = m.arr
  objs : m'.objs = m.objs
  mask : m'.mask = m.mask
  size : m'.size = m.size

section Words

variable {m : Memory Key} {p q : Nat}

theorem Memory.words_setWord_ne (other : q ≠ p) (i : Nat) (cell : Cell) : (m.setWord p i cell).words q = m.words q :=
  update_of_ne other ..

theorem Memory.words_stash_ne (other : q ≠ p) (kind : Kind) : (m.stash kind p).words q = m.words q :=
  update_of_ne other ..

theorem Memory.words_ufreeAtomic_ne (other : q ≠ p) : (m.ufreeAtomic p).words q = m.words q :=
  update_of_ne other ..

end Words

section Frame

variable {m m' m'' : Memory Key} {used others : List Nat} {p : Nat}

theorem Frame.refl (m : Memory Key) (others : List Nat) : Frame m m others :=
  ⟨fun _ _ => rfl, rfl, rfl, rfl, rfl⟩

theorem Frame.trans (first : Frame m m' others) (second : Frame m' m'' others) : Frame m m'' others :=
  ⟨fun p mem => (second.words p mem).trans (first.words p mem), second.arr.trans first.arr,
    second.objs.trans first.objs, second.mask.trans first.mask, second.size.trans first.size⟩

theorem Frame.mono (frame : Frame m m' others) (subset : fewer ⊆ others) : Frame m m' fewer :=
  ⟨fun p mem => frame.words p (subset mem), frame.arr, frame.objs, frame.mask, frame.size⟩

theorem Frame.setWord (outside : p ∉ others) (i : Nat) (cell : Cell) : Frame m (m.setWord p i cell) others :=
  ⟨fun _ mem => words_setWord_ne (ne_of_mem_of_not_mem mem outside) .., rfl, rfl, rfl, rfl⟩

theorem Frame.stash (outside : p ∉ others) (kind : Kind) : Frame m (m.stash kind p) others :=
  ⟨fun _ mem => words_stash_ne (ne_of_mem_of_not_mem mem outside) .., rfl, rfl, rfl, rfl⟩

theorem Frame.ufreeAtomic (outside : p ∉ others) : Frame m (m.ufreeAtomic p) others :=
  ⟨fun _ mem => words_ufreeAtomic_ne (ne_of_mem_of_not_mem mem outside), rfl, rfl, rfl, rfl⟩

end Frame

section Uses

variable {m : Memory Key} {used : List Nat} {p : Nat}

theorem Uses.perm (uses : Uses m used) (perm : used.Perm used') : Uses m used' := by
  obtain ⟨freed, owned⟩ := uses
  refine ⟨freed, owned.listed, owned.count, perm.nodup_iff.mp owned.distinct, fun kind => ?_, owned.kinds,
    fun p mem => owned.below p (perm.mem_iff.mpr mem)⟩
  refine ⟨(owned.apart kind).1, fun p mem => ?_⟩
  rw [← perm.mem_iff]
  exact (owned.apart kind).2 p mem

theorem Uses.nodup (uses : Uses m used) : used.Nodup := by
  obtain ⟨freed, owned⟩ := uses
  exact owned.distinct

theorem Uses.congr (uses : Uses m used) (words : m'.words = m.words) (free : m'.free = m.free)
    (top : m'.top = m.top) : Uses m' used := by
  obtain ⟨freed, owned⟩ := uses
  refine ⟨freed, ?_, ?_, owned.distinct, ?_, owned.kinds, ?_⟩
  · rw [words, free]
    exact owned.listed
  · rw [free]
    exact owned.count
  · rw [top]
    exact owned.apart
  · rw [top]
    exact owned.below

theorem Uses.length_le (uses : Uses m used) : used.length ≤ m.top := by
  obtain ⟨freed, owned⟩ := uses
  have subset : used ⊆ range m.top := fun p mem => mem_range.mpr (owned.below p mem)
  have bound := (subperm_of_subset owned.distinct subset).length_le
  rwa [length_range] at bound

variable {freed : Kind → List Nat}

theorem Owned.ne (owned : Owned m used freed) {kind : Kind} {fl : Nat}
    (listed : fl ∈ freed kind) (mem : p ∈ used) : fl ≠ p :=
  (ne_of_mem_of_not_mem mem ((owned.apart kind).2 fl listed).1).symm

theorem Uses.setWord (uses : Uses m used) (mem : p ∈ used) (i : Nat) (cell : Cell) :
    Uses (m.setWord p i cell) used := by
  obtain ⟨freed, owned⟩ := uses
  exact ⟨freed, fun kind => (owned.listed kind).frame fun fl listed =>
    words_setWord_ne (owned.ne listed mem) .., owned.count, owned.distinct, owned.apart, owned.kinds,
    owned.below⟩

theorem Owned.apart_tail (owned : Owned m (p :: used) freed) (kind : Kind) :
    (freed kind).Nodup ∧ ∀ fl ∈ freed kind, fl ∉ used ∧ fl < m.top :=
  ⟨(owned.apart kind).1, fun fl listed =>
    ⟨fun mem => ((owned.apart kind).2 fl listed).1 (mem_cons_of_mem p mem),
      ((owned.apart kind).2 fl listed).2⟩⟩

theorem Owned.below_tail (owned : Owned m (p :: used) freed) : ∀ fl ∈ used, fl < m.top :=
  fun fl mem => owned.below fl (mem_cons_of_mem p mem)

theorem Uses.ufreeAtomic (uses : Uses m (p :: used)) : Uses (m.ufreeAtomic p) used := by
  obtain ⟨freed, owned⟩ := uses
  exact ⟨freed, fun kind => (owned.listed kind).frame fun fl listed =>
    words_ufreeAtomic_ne (owned.ne listed (mem_cons_self ..)), owned.count,
    (nodup_cons.mp owned.distinct).2, owned.apart_tail, owned.kinds, owned.below_tail⟩

theorem Uses.stash (uses : Uses m (p :: used)) (kind : Kind) : Uses (m.stash kind p) used := by
  obtain ⟨freed, owned⟩ := uses
  have apart := owned.apart_tail
  have notFree (kind : Kind) : p ∉ freed kind := fun listed => owned.ne listed (mem_cons_self ..) rfl
  have first : (m.stash kind p).words p 0 = .next (m.free kind).head := by
    rw [Memory.stash, Memory.setWord]
    simp only [update_self]
  refine ⟨update freed kind (p :: freed kind), fun other => ?_, fun other => ?_,
    (nodup_cons.mp owned.distinct).2, fun other => ?_, fun one two fl listed listed' => ?_, owned.below_tail⟩
  · have rest := (owned.listed other).frame fun fl listed =>
      words_stash_ne (owned.ne listed (mem_cons_self ..)) kind
    by_cases same : other = kind
    · subst same
      simp only [Memory.stash, update_self] at first rest ⊢
      exact .cons first rest
    · simp only [Memory.stash, update_of_ne same] at rest ⊢
      exact rest
  · have fewer := owned.count other
    by_cases same : other = kind
    · subst same
      simp only [Memory.stash, update_self, length_cons, toNat_add]
      exact (Nat.mod_le _ _).trans (Nat.add_le_add_right fewer 1)
    · simp only [Memory.stash, update_of_ne same]
      exact fewer
  · by_cases same : other = kind
    · subst same
      rw [update_self]
      refine ⟨nodup_cons.mpr ⟨notFree other, (apart other).1⟩, fun fl listed => ?_⟩
      rcases mem_cons.mp listed with rfl | listed
      · exact ⟨(nodup_cons.mp owned.distinct).1, owned.below _ (mem_cons_self ..)⟩
      · exact (apart other).2 fl listed
    · rw [update_of_ne same]
      exact apart other
  · have place {other : Kind} (listed : fl ∈ update freed kind (p :: freed kind) other) :
        fl = p ∧ other = kind ∨ fl ∈ freed other := by
      by_cases same : other = kind
      · subst same
        rw [update_self] at listed
        exact (mem_cons.mp listed).imp_left fun isP => ⟨isP, rfl⟩
      · rw [update_of_ne same] at listed
        exact .inr listed
    rcases place listed with ⟨rfl, rfl⟩ | old
    · rcases place listed' with ⟨_, rfl⟩ | old'
      · rfl
      · exact (notFree two old').elim
    · rcases place listed' with ⟨rfl, rfl⟩ | old'
      · exact (notFree one old).elim
      · exact owned.kinds one two fl old old'

theorem Owned.tail (owned : Owned m used freed) {kind : Kind} {fl : Nat} {rest : List Nat}
    (isFreed : freed kind = fl :: rest) {next : Option Nat} (listed : Listed m.words next rest) {count : BitVec 16}
    (bound : count.toNat ≤ rest.length) :
    Owned { m with free := update m.free kind { head := next, count } } (fl :: used)
      (update freed kind rest) := by
  have mem : fl ∈ freed kind := isFreed ▸ .head _ ..
  have own := (owned.apart kind).1
  rw [isFreed, nodup_cons] at own
  have subset (other : Kind) {q : Nat} (inside : q ∈ update freed kind rest other) :
      q ∈ freed other ∧ q ≠ fl := by
    by_cases same : other = kind
    · subst same
      rw [update_self] at inside
      exact ⟨isFreed ▸ mem_cons_of_mem fl inside, ne_of_mem_of_not_mem inside own.1⟩
    · rw [update_of_ne same] at inside
      refine ⟨inside, fun isFl => same ?_⟩
      subst isFl
      exact owned.kinds _ _ _ inside mem
  refine ⟨fun other => ?_, fun other => ?_, nodup_cons.mpr ⟨((owned.apart kind).2 fl mem).1, owned.distinct⟩,
    fun other => ⟨?_, fun q inside => ?_⟩, fun one two q inside inside' => ?_, fun q inside => ?_⟩
  · by_cases same : other = kind
    · subst same
      simp only [update_self]
      exact listed
    · simp only [update_of_ne same]
      exact owned.listed other
  · by_cases same : other = kind
    · subst same
      simp only [update_self]
      exact bound
    · simp only [update_of_ne same]
      exact owned.count other
  · by_cases same : other = kind
    · subst same
      rw [update_self]
      exact own.2
    · rw [update_of_ne same]
      exact (owned.apart other).1
  · obtain ⟨old, other_⟩ := subset other inside
    obtain ⟨unused, below⟩ := (owned.apart other).2 q old
    exact ⟨fun used => (mem_cons.mp used).elim other_ unused, below⟩
  · exact owned.kinds one two q (subset one inside).1 (subset two inside').1
  · rcases mem_cons.mp inside with rfl | inside
    · exact ((owned.apart kind).2 _ mem).2
    · exact owned.below q inside

/-- Allocation gives a block that is not in use, from the free list if its count is not zero. -/
theorem Uses.alloc (uses : Uses m used) (kind : Kind) :
    ∃ p m', m.alloc kind = .ok (p, m') ∧ Uses m' (p :: used) ∧ m'.words = m.words ∧ ∀ others, Frame m m' others := by
  obtain ⟨freed, owned⟩ := uses
  rw [Memory.alloc]
  by_cases pos : (m.free kind).count ≠ 0
  · have listed := owned.listed kind
    have count := owned.count kind
    have some : 0 < (m.free kind).count.toNat := pos_of_ne_zero fun zero => pos (eq_of_toNat_eq zero)
    obtain ⟨fl, rest, isFreed⟩ := exists_cons_of_length_pos (some.trans_le count)
    rw [isFreed] at listed count
    generalize isHead : (m.free kind).head = head at listed
    cases listed with
    | @cons _ next _ isNext listed =>
      have fewer : ((m.free kind).count - 1).toNat ≤ rest.length := by
        rw [toNat_sub_of_le (by rw [le_def]; exact some)]
        exact sub_le_of_le_add count
      refine ⟨fl, _, ?_, ⟨_, owned.tail isFreed listed fewer⟩, rfl, fun _ => ⟨fun _ _ => rfl, rfl, rfl, rfl, rfl⟩⟩
      simp only [if_pos pos, Memory.nextAt, isNext]
      rfl
  · rw [if_neg pos]
    refine ⟨m.top, _, rfl, ⟨freed, owned.listed, owned.count, ?_,
      fun kind => ⟨(owned.apart kind).1, fun fl listed => ?_⟩, owned.kinds, fun fl mem => ?_⟩, rfl,
      fun _ => ⟨fun _ _ => rfl, rfl, rfl, rfl, rfl⟩⟩
    · exact nodup_cons.mpr ⟨fun mem => (owned.below _ mem).false, owned.distinct⟩
    · obtain ⟨unused, below⟩ := (owned.apart kind).2 fl listed
      exact ⟨fun mem => (mem_cons.mp mem).elim below.ne unused, lt_succ_of_lt below⟩
    · rcases mem_cons.mp mem with rfl | mem
      · exact lt_succ_self _
      · exact lt_succ_of_lt (owned.below fl mem)

private theorem pruneLoop_spec {kind : Kind} (rounds : Nat) {count : BitVec 16}
    (uses : Uses { m with free := update m.free kind { head := fl, count } } used) {count' : BitVec 16}
    (enough : rounds + count'.toNat ≤ count.toNat) :
    ∃ fl' m', Memory.pruneLoop rounds m fl = .ok (fl', m') ∧ Frame m m' used ∧
      Uses { m' with free := update m'.free kind { head := fl', count := count' } } used := by
  induction rounds generalizing m fl count with
  | zero =>
    obtain ⟨freed, owned⟩ := uses
    refine ⟨fl, m, rfl, .refl m used, freed, fun other => ?_, fun other => ?_, owned.distinct, owned.apart, owned.kinds,
      owned.below⟩
    · have listed := owned.listed other
      by_cases same : other = kind
      · subst same
        simp only [update_self] at listed ⊢
        exact listed
      · simp only [update_of_ne same] at listed ⊢
        exact listed
    · have bound := owned.count other
      by_cases same : other = kind
      · subst same
        simp only [update_self] at bound ⊢
        omega
      · simp only [update_of_ne same] at bound ⊢
        exact bound
  | succ rounds ih =>
    obtain ⟨freed, owned⟩ := uses
    have listed := owned.listed kind
    have bound := owned.count kind
    simp only [update_self] at listed bound
    obtain ⟨head, rest, isFreed⟩ := exists_cons_of_length_pos (show 0 < (freed kind).length by omega)
    rw [isFreed] at listed bound
    rw [length_cons] at bound
    cases listed with
    | @cons _ next _ isNext listed =>
      have fewer : (count - 1).toNat = count.toNat - 1 := toNat_sub_of_le (by
        show 1 ≤ count.toNat
        omega)
      have rest := @Owned.tail _ _ _ _ owned kind _ _ isFreed _ listed (count - 1) (by omega)
      simp only [update_idem] at rest
      have freedOne : Uses { m.ufreeAtomic head with
          free := update m.free kind { head := next, count := count - 1 } } used := Uses.ufreeAtomic ⟨_, rest⟩
      obtain ⟨fl', m', done, frame, uses'⟩ := ih freedOne (by omega)
      refine ⟨fl', m', ?_, (Frame.ufreeAtomic (nodup_cons.mp rest.distinct).1).trans frame, uses'⟩
      simp only [Memory.pruneLoop, Memory.nextAt, isNext]
      exact done

theorem Uses.prune (uses : Uses m used) (kind : Kind) :
    ∃ m', m.prune kind = .ok m' ∧ Uses m' used ∧ Frame m m' used := by
  rw [Memory.prune]
  by_cases many : (m.free kind).count > Memory.maxFreeCount kind
  · have start : Uses { m with
        free := update m.free kind { head := (m.free kind).head, count := (m.free kind).count } } used := by
      simp only [update_eq_self]
      exact uses
    have less : (Memory.maxFreeCount kind).toNat < (m.free kind).count.toNat := many
    obtain ⟨fl', m', done, frame, uses'⟩ := pruneLoop_spec _ start (Nat.sub_add_cancel less.le).le
    refine ⟨_, ?_, uses', frame.words, frame.arr, frame.objs, frame.mask, frame.size⟩
    simp only [if_pos many, done]
    rfl
  · exact ⟨m, by simp only [if_neg many], uses, .refl m used⟩

theorem Uses.hsetPruneFreelists (uses : Uses m used) :
    ∃ m', m.hsetPruneFreelists = .ok m' ∧ Uses m' used ∧ Frame m m' used := by
  obtain ⟨m1, done, uses, frame⟩ := uses.prune .pair
  obtain ⟨m2, done', uses, frame'⟩ := uses.prune .quad
  refine ⟨m2, ?_, uses, frame.trans frame'⟩
  rw [Memory.hsetPruneFreelists, done]
  exact done'

end Uses

end Culibs.Cuoo.Halloc
