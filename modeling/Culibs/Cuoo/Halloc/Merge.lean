import Culibs.Cuoo.Halloc.Chains

namespace Culibs.Cuoo.Halloc

open Function List Nat

variable {Key : Type}

/-- The slot is a bucket or in one of the blocks. -/
def Slot.Within : Slot → List Nat → Prop
  | .bucket _, _ => True
  | .link q, blocks => q ∈ blocks

/-- A slot with its chain, where other blocks are in use. -/
structure Holds (m : Memory Key) (slot : Slot) (ln : Ref) (link : Link Nat) (used others : List Nat) : Prop where
  read : m.read slot = .ok ln
  chain : Chain m.words ln link used
  uses : Uses m (used ++ others)
  within : slot.Within others

/-- What an operation on a slot leaves there. Only the slot is changed, and blocks that were not in use. -/
def Leaves (m : Memory Key) (slot : Slot) (link : Link Nat) (others : List Nat) (m' : Memory Key) : Prop :=
  ∃ ln used, Chain m'.words ln link used ∧ Uses m' (used ++ others) ∧ Frame (m.write slot ln) m' others

theorem Chain.long
    (chain : Chain words ln link used) (nonnull : ln ≠ .null) : link.isNull = false := by
  cases chain with
  | null => exact (nonnull rfl).elim
  | _ => rfl

section Write

variable {m m' : Memory Key} {slot : Slot} {ln : Ref} {used others : List Nat} {p : Nat}

theorem Slot.Within.mono (within : slot.Within others) (subset : others ⊆ blocks) :
    slot.Within blocks := by
  cases slot with
  | bucket i => trivial
  | link q => exact subset within

theorem Memory.words_setWord_self (i : Nat) (cell : Cell) :
    (m.setWord p i cell).words p = update (m.words p) i cell := update_self ..

theorem Memory.words_write_ne (within : slot.Within others) (distinct : (used ++ others).Nodup) (mem : p ∈ used) :
    (m.write slot ln).words p = m.words p := by
  cases slot with
  | bucket i => rfl
  | link q =>
    refine Memory.words_setWord_ne (fun same => ?_) ..
    subst same
    exact disjoint_of_nodup_append distinct mem within

theorem Memory.write_read (read : m.read slot = .ok ln) : m.write slot ln = m := by
  cases slot with
  | bucket i =>
    rw [Memory.read] at read
    cases held : m.arr[i]? with
    | none =>
      rw [held] at read
      cases read
    | some ln' =>
      rw [held] at read
      obtain rfl := Except.ok.inj read
      obtain ⟨bound, rfl⟩ := List.getElem?_eq_some_iff.mp held
      rw [Memory.write, set_getElem_self]
  | link q =>
    rw [Memory.read, Memory.linkAt] at read
    split at read
    · next ln' held =>
      obtain rfl := Except.ok.inj read
      rw [Memory.write, Memory.setWord, ← held, update_eq_self, update_eq_self]
    · cases read

/-- Freeing another block may as well come after the assignment to the slot. -/
theorem Memory.write_stash (within : slot.Within others) (outside : p ∉ others) (kind : Kind) :
    (m.stash kind p).write slot ln = (m.write slot ln).stash kind p := by
  cases slot with
  | bucket i => rfl
  | link q =>
    have other : q ≠ p := ne_of_mem_of_not_mem within outside
    simp only [Memory.write, Memory.stash, Memory.setWord, update_of_ne other,
      update_of_ne other.symm, update_comm other]

theorem Memory.objAt_eq (held : m.words p i = .obj a) : m.objAt p i = .ok a := by
  rw [Memory.objAt, held]

theorem Memory.linkAt_eq (held : m.words p 3 = .link ln) : m.linkAt p = .ok ln := by
  rw [Memory.linkAt, held]

theorem Uses.write (uses : Uses m used) (within : slot.Within used) : Uses (m.write slot ln) used := by
  cases slot with
  | bucket i => exact uses.congr rfl rfl rfl
  | link q => exact uses.setWord within 3 _

theorem Frame.write (frame : Frame m m' others) (slot : Slot) (ln : Ref) :
    Frame (m.write slot ln) (m'.write slot ln) others := by
  cases slot with
  | bucket i =>
    refine ⟨frame.words, ?_, frame.objs, frame.mask, frame.size⟩
    rw [Memory.write, Memory.write, frame.arr]
  | link q =>
    refine ⟨fun p mem => ?_, frame.arr, frame.objs, frame.mask, frame.size⟩
    by_cases same : p = q
    · subst same
      rw [Memory.write, Memory.write, Memory.words_setWord_self, Memory.words_setWord_self, frame.words p mem]
    · rw [Memory.write, Memory.write, Memory.words_setWord_ne same, Memory.words_setWord_ne same, frame.words p mem]

end Write

section Blocks

variable {m : Memory Key} {used others : List Nat} {p : Nat}

@[simp] theorem Memory.setPair_zero (obj0 obj1 : Nat) : (m.setPair p obj0 obj1).words p 0 = .obj obj0 := by
  simp [Memory.setPair, Memory.setWord]

@[simp] theorem Memory.setPair_one (obj0 obj1 : Nat) : (m.setPair p obj0 obj1).words p 1 = .obj obj1 := by
  simp [Memory.setPair, Memory.setWord]

@[simp] theorem Memory.setQuad_zero (obj0 obj1 obj2 : Nat) (link : Ref) :
    (m.setQuad p obj0 obj1 obj2 link).words p 0 = .obj obj0 := by
  simp [Memory.setQuad, Memory.setWord]

@[simp] theorem Memory.setQuad_one (obj0 obj1 obj2 : Nat) (link : Ref) :
    (m.setQuad p obj0 obj1 obj2 link).words p 1 = .obj obj1 := by
  simp [Memory.setQuad, Memory.setWord]

@[simp] theorem Memory.setQuad_two (obj0 obj1 obj2 : Nat) (link : Ref) :
    (m.setQuad p obj0 obj1 obj2 link).words p 2 = .obj obj2 := by
  simp [Memory.setQuad, Memory.setWord]

@[simp] theorem Memory.setQuad_three (obj0 obj1 obj2 : Nat) (link : Ref) :
    (m.setQuad p obj0 obj1 obj2 link).words p 3 = .link link := by
  simp [Memory.setQuad, Memory.setWord]

theorem Uses.setPair (uses : Uses m used) (mem : p ∈ used) (obj0 obj1 : Nat) :
    Uses (m.setPair p obj0 obj1) used :=
  (uses.setWord mem 0 _).setWord mem 1 _

theorem Uses.setQuad (uses : Uses m used) (mem : p ∈ used) (obj0 obj1 obj2 : Nat) (link : Ref) :
    Uses (m.setQuad p obj0 obj1 obj2 link) used :=
  (((uses.setWord mem 0 _).setWord mem 1 _).setWord mem 2 _).setWord mem 3 _

theorem Frame.setPair (outside : p ∉ others) (obj0 obj1 : Nat) : Frame m (m.setPair p obj0 obj1) others :=
  (Frame.setWord outside 0 _).trans (.setWord outside 1 _)

theorem Frame.setQuad (outside : p ∉ others) (obj0 obj1 obj2 : Nat) (link : Ref) :
    Frame m (m.setQuad p obj0 obj1 obj2 link) others :=
  (((Frame.setWord outside 0 _).trans (.setWord outside 1 _)).trans (.setWord outside 2 _)).trans (.setWord outside 3 _)

end Blocks

variable {q obj0 obj1 obj2 : Nat}

section Leaves

variable {m m' : Memory Key} {slot : Slot} {ln : Ref} {link : Link Nat} {used others : List Nat} {p : Nat}

theorem Uses.outside (uses : Uses m (p :: used)) : p ∉ used := (nodup_cons.mp uses.nodup).1

theorem Leaves.write (chain : Chain m'.words ln link used) (uses : Uses m' (used ++ others))
    (within : slot.Within others) (frame : Frame m m' others) : Leaves m slot link others (m'.write slot ln)    :=
  ⟨ln, used, chain.frame fun _ mem => Memory.words_write_ne within uses.nodup mem,
    uses.write (within.mono (subset_append_right ..)), frame.write slot ln⟩

theorem Leaves.stash (leaves : Leaves m slot link (p :: others) m') (kind : Kind) :
    Leaves m slot link others (m'.stash kind p) := by
  obtain ⟨ln, used, chain, uses, frame⟩ := leaves
  have freed := uses.perm perm_middle
  have outside := freed.outside
  exact ⟨ln, used, chain.frame fun q mem => Memory.words_stash_ne (ne_of_mem_of_not_mem mem fun inside =>
    outside (mem_append_left _ inside)) kind, freed.stash kind, (frame.mono (subset_cons_self ..)).trans
      (.stash (fun inside => outside (mem_append_right _ inside)) kind)⟩

theorem Leaves.release (leaves : Leaves m slot link (p :: others) m') (kind : Kind) :
    Leaves m slot link others (m'.release kind p) := by
  rw [Memory.release]
  split
  · exact leaves.stash kind
  · obtain ⟨ln, used, chain, uses, frame⟩ := leaves
    have freed := uses.perm perm_middle
    have outside := freed.outside
    exact ⟨ln, used, chain.frame fun q mem => Memory.words_ufreeAtomic_ne (ne_of_mem_of_not_mem mem fun inside =>
      outside (mem_append_left _ inside)), freed.ufreeAtomic, (frame.mono (subset_cons_self ..)).trans
        (.ufreeAtomic fun inside => outside (mem_append_right _ inside))⟩

theorem Leaves.quad (leaves : Leaves m (.link q) link (q :: others) m') (first : m.words q 0 = .obj obj0)
    (second : m.words q 1 = .obj obj1) (third : m.words q 2 = .obj obj2) :
    ∃ used, Chain m'.words (.quad q) (.quad obj0 obj1 obj2 link) (q :: used) ∧ Uses m' (q :: used ++ others) ∧
      Frame m m' others := by
  obtain ⟨ln, used, chain, uses, frame⟩ := leaves
  have moved := uses.perm perm_middle
  have words := frame.words q (mem_cons_self ..)
  rw [Memory.write, Memory.words_setWord_self] at words
  refine ⟨used, .quad ?_ ?_ ?_ ?_ chain, moved, ?_⟩
  · simp [words, first]
  · simp [words, second]
  · simp [words, third]
  · simp [words]
  · exact (Frame.setWord (fun inside => moved.outside (mem_append_right _ inside)) 3 _).trans
      (frame.mono (subset_cons_self ..))

theorem Leaves.above (leaves : Leaves m (.link q) link (q :: others) m') (read : m.read slot = .ok (.quad q))
    (first : m.words q 0 = .obj obj0) (second : m.words q 1 = .obj obj1) (third : m.words q 2 = .obj obj2) :
    Leaves m slot (.quad obj0 obj1 obj2 link) others m' := by
  obtain ⟨used, chain, uses, frame⟩ := leaves.quad first second third
  refine ⟨.quad q, q :: used, chain, uses, ?_⟩
  rw [Memory.write_read read]
  exact frame

end Leaves

section Merge

variable {m : Memory Key} {slot : Slot} {ln : Ref} {link : Link Nat} {used others : List Nat}

theorem Holds.below {next : Ref} {rest : List Nat}
    (holds : Holds m slot (.quad q) (.quad obj0 obj1 obj2 link) (q :: rest) others)
    (isNext : m.words q 3 = .link next) (chain : Chain m.words next link rest) :
    Holds m (.link q) next link rest (q :: others) where
  read := by rw [Memory.read, Memory.linkAt, isNext]
  chain := chain
  uses := holds.uses.perm perm_middle.symm
  within := .head _ ..

section

variable (holds : Holds m slot ln link used others)

include holds

theorem Holds.perm (perm : others.Perm others') : Holds m slot ln link used others' :=
  ⟨holds.read, holds.chain, holds.uses.perm (perm.append_left _), holds.within.mono perm.subset⟩

theorem Holds.enough : used.length < m.rounds := by
  have bound := holds.uses.length_le
  rw [length_append] at bound
  exact lt_succ_of_le (le_of_add_right_le bound)

theorem Holds.leaves : Leaves m slot link others m := by
  refine ⟨ln, used, holds.chain, holds.uses, ?_⟩
  rw [Memory.write_read holds.read]
  exact .refl ..

end

theorem mergeObjLoop_spec (rounds : Nat) (holds : Holds m slot ln link used others) (enough : used.length < rounds)
    (o : Nat) : ∃ m', Memory.mergeObjLoop rounds m slot o = .ok m' ∧ Leaves m slot (link.mergeObj o) others m' := by
  induction rounds generalizing slot ln link used others with
  | zero => exact (not_lt_zero _ enough).elim
  | succ rounds ih =>
    have ⟨read, chain, uses, within⟩ := holds
    cases chain with
    | null =>
      refine ⟨_, ?_, .write (.obj o) uses within (.refl ..)⟩
      simp only [Memory.mergeObjLoop, read]
      rfl
    | obj a =>
      obtain ⟨p, m1, allocated, uses1, -, frame⟩ := uses.alloc .pair
      refine ⟨_, ?_, .write (.pair (Memory.setPair_zero a o) (Memory.setPair_one a o))
        (uses1.setPair (mem_cons_self ..) a o) within ((frame _).trans (.setPair uses1.outside a o))⟩
      simp only [Memory.mergeObjLoop, read, Memory.allocPair, allocated]
      rfl
    | @pair pair a b first second =>
      obtain ⟨q, m1, allocated, uses1, words, frame⟩ := uses.alloc .quad
      have isFirst : m1.objAt pair 0 = .ok a := Memory.objAt_eq (by rw [words, first])
      have isSecond : m1.objAt pair 1 = .ok b := Memory.objAt_eq (by rw [words, second])
      have written : Leaves m slot (.quad a b o .null) (pair :: others)
          ((m1.setQuad q a b o .null).write slot (.quad q)) :=
        .write (.quad (by simp) (by simp) (by simp) (by simp) .null) (uses1.setQuad (mem_cons_self ..) a b o .null)
          (within.mono (subset_cons_self ..)) ((frame _).trans (.setQuad uses1.outside a b o .null))
      refine ⟨_, ?_, written.stash .pair⟩
      rw [← Memory.write_stash within uses.outside]
      simp only [Memory.mergeObjLoop, read, Memory.allocQuad, allocated, bind, Except.bind, isFirst, isSecond]
      rfl
    | @quad q a b c next link used first second third isNext chain =>
      obtain ⟨m', merged, leaves⟩ := ih (holds.below isNext chain) (lt_of_succ_lt_succ enough)
      refine ⟨m', ?_, leaves.above read first second third⟩
      simp only [Memory.mergeObjLoop, read]
      exact merged

theorem Holds.mergeObj (holds : Holds m slot ln link used others) (o : Nat) :
    ∃ m', m.mergeObj slot o = .ok m' ∧ Leaves m slot (link.mergeObj o) others m' :=
  mergeObjLoop_spec _ holds holds.enough o

variable {src src0 src1 : Nat}

private theorem mergePairLoop_spec (rounds : Nat) (holds : Holds m slot ln link used (src :: others))
    (within : slot.Within others) (enough : used.length < rounds) (first : m.words src 0 = .obj src0)
    (second : m.words src 1 = .obj src1) : ∃ m', Memory.mergePairLoop rounds m slot src = .ok m' ∧
      Leaves m slot (link.mergePair src0 src1) others m' := by
  induction rounds generalizing slot ln link used others with
  | zero => exact (not_lt_zero _ enough).elim
  | succ rounds ih =>
    have ⟨read, chain, uses, _⟩ := holds
    cases chain with
    | null =>
      refine ⟨_, ?_, .write (.pair first second) uses within (.refl ..)⟩
      simp only [Memory.mergePairLoop, read]
      rfl
    | obj a =>
      obtain ⟨q, m1, allocated, uses1, words, frame⟩ := uses.alloc .quad
      have isFirst : m1.objAt src 0 = .ok src0 := Memory.objAt_eq (by rw [words, first])
      have isSecond : m1.objAt src 1 = .ok src1 := Memory.objAt_eq (by rw [words, second])
      have freed := (uses1.perm (.swap ..)).stash .pair
      refine ⟨_, ?_, .write (.quad (Memory.setQuad_zero src0 src1 a .null) (Memory.setQuad_one ..)
        (Memory.setQuad_two ..) (Memory.setQuad_three ..) .null)
        (freed.setQuad (mem_cons_self ..) src0 src1 a .null) within
        (((frame _).trans (.stash uses.outside .pair)).trans (.setQuad freed.outside ..))⟩
      simp only [Memory.mergePairLoop, read, Memory.allocQuad, allocated, bind, Except.bind, isFirst, isSecond]
      rfl
    | @pair pair a b third fourth =>
      obtain ⟨q, m1, allocated, uses1, words, frame⟩ := uses.alloc .quad
      have isFirst : m1.objAt src 0 = .ok src0 := Memory.objAt_eq (by rw [words, first])
      have isSecond : m1.objAt src 1 = .ok src1 := Memory.objAt_eq (by rw [words, second])
      have moved := uses1.perm (@perm_middle _ src [q, pair] others)
      have outside : src ∉ pair :: others := fun inside => moved.outside (mem_cons_of_mem q inside)
      have other : pair ≠ src := fun same => uses.outside (same ▸ .head _ ..)
      have freed := moved.stash .pair
      have isThird : (m1.stash .pair src).objAt pair 0 = .ok a :=
        Memory.objAt_eq (by rw [Memory.words_stash_ne other, words, third])
      have isFourth : (m1.stash .pair src).objAt pair 1 = .ok b :=
        Memory.objAt_eq (by rw [Memory.words_stash_ne other, words, fourth])
      have written : Leaves m slot (.quad src0 src1 a (.obj b)) (pair :: others)
          (((m1.stash .pair src).setQuad q src0 src1 a (.obj b)).write slot (.quad q)) :=
        .write (.quad (by simp) (by simp) (by simp) (by simp) (.obj b))
          (freed.setQuad (mem_cons_self ..) src0 src1 a (.obj b)) (within.mono (subset_cons_self ..))
          (((frame _).trans (.stash outside .pair)).trans (.setQuad freed.outside ..))
      refine ⟨_, ?_, written.stash .pair⟩
      rw [← Memory.write_stash within fun inside => uses.outside (mem_cons_of_mem src inside)]
      simp only [Memory.mergePairLoop, read, Memory.allocQuad, allocated, bind, Except.bind, isFirst, isSecond,
        Memory.stashPair, isThird, isFourth]
      rfl
    | @quad q a b c next link used _ second' third isNext chain =>
      obtain ⟨m', merged, leaves⟩ := ih ((holds.below isNext chain).perm (.swap ..)) (mem_cons_self ..)
        (lt_of_succ_lt_succ enough)
      refine ⟨m', ?_, leaves.above read ‹_› second' third⟩
      simp only [Memory.mergePairLoop, read]
      exact merged

theorem Holds.mergePair (holds : Holds m slot ln link used (src :: others)) (within : slot.Within others)
    (first : m.words src 0 = .obj src0) (second : m.words src 1 = .obj src1) :
    ∃ m', m.mergePair slot src = .ok m' ∧ Leaves m slot (link.mergePair src0 src1) others m' :=
  mergePairLoop_spec _ holds within holds.enough first second

theorem mergeQuad_null (src0 src1 src2 : Nat) (link : Link Nat) :
    Link.mergeQuad src0 src1 src2 .null link = .quad src0 src1 src2 link := by
  cases link <;> rfl

private theorem mergeQuadLoop_null (read : m.read slot = .ok ln) (nonnull : ln ≠ .null)
    (isNext : m.linkAt src = .ok .null) : Memory.mergeQuadLoop (rounds + 1) m slot src =
      .ok ((m.write (.link src) ln).write slot (.quad src)) := by
  simp only [Memory.mergeQuadLoop, read, isNext, bind, Except.bind]
  cases ln with
  | null => exact (nonnull rfl).elim
  | _ => rfl

variable {srcLn : Ref} {srcLink : Link Nat} {srcUsed : List Nat}

private theorem mergeQuadLoop_spec {src2 : Nat} (rounds : Nat)
    (holds : Holds m slot ln link used (src :: srcUsed ++ others)) (within : slot.Within others)
    (enough : used.length < rounds) (first : m.words src 0 = .obj src0) (second : m.words src 1 = .obj src1)
    (third : m.words src 2 = .obj src2) (isNext : m.words src 3 = .link srcLn)
    (srcChain : Chain m.words srcLn srcLink srcUsed) : ∃ m', Memory.mergeQuadLoop rounds m slot src = .ok m' ∧
      Leaves m slot (Link.mergeQuad src0 src1 src2 srcLink link) others m' := by
  induction rounds generalizing slot ln link used others with
  | zero => exact (not_lt_zero _ enough).elim
  | succ rounds ih =>
    have ⟨read, chain, uses, _⟩ := holds
    have readNext := Memory.linkAt_eq isNext
    have whole := Chain.quad first second third isNext srcChain
    by_cases null : ln = .null
    · subst null
      cases chain with
      | null =>
        refine ⟨_, ?_, .write whole uses within (.refl ..)⟩
        simp only [Memory.mergeQuadLoop, read]
        rfl
    by_cases short : srcLn = .null
    · subst short
      cases srcChain with
      | null =>
        have moved := uses.perm (@perm_middle _ src used others)
        have apart := fun inside => moved.outside (mem_append_left others inside)
        refine ⟨_, mergeQuadLoop_null read null readNext, ?_⟩
        rw [mergeQuad_null]
        have written : Chain (m.setWord src 3 (.link ln)).words (.quad src) (.quad src0 src1 src2 link)
            (src :: used) := by
          refine .quad ?_ ?_ ?_ ?_ (chain.frame fun p mem => ?_)
          · simp [Memory.words_setWord_self, first]
          · simp [Memory.words_setWord_self, second]
          · simp [Memory.words_setWord_self, third]
          · simp [Memory.words_setWord_self]
          · exact Memory.words_setWord_ne (ne_of_mem_of_not_mem mem apart) ..
        exact .write written (moved.setWord (mem_cons_self ..) ..) within
          (.setWord (fun inside => moved.outside (mem_append_right used inside)) ..)
    · have long := srcChain.long short
      cases chain with
      | null => exact (null rfl).elim
      | obj a =>
        have below : Holds m (.link src) srcLn srcLink srcUsed (src :: others) :=
          ⟨by rw [Memory.read, readNext], srcChain, uses.perm perm_middle.symm, .head _ ..⟩
        obtain ⟨m1, merged, leaves⟩ := below.mergeObj a
        obtain ⟨used, chain, uses, frame⟩ := leaves.quad first second third
        rw [Link.mergeQuad, long]
        refine ⟨_, ?_, .write chain uses within frame⟩
        simp only [Memory.mergeQuadLoop, read, readNext, bind, Except.bind]
        cases srcLn with
        | null => exact (short rfl).elim
        | _ => simp only [merged]; rfl
      | @pair pair a b fourth fifth =>
        have moved := (@perm_append_comm _ [pair, src] srcUsed).append_right others
        rw [append_assoc srcUsed] at moved
        have below : Holds m (.link src) srcLn srcLink srcUsed (pair :: src :: others) :=
          ⟨by rw [Memory.read, readNext], srcChain, uses.perm moved, .tail _ (mem_cons_self ..)⟩
        obtain ⟨m1, merged, leaves⟩ := below.mergePair (mem_cons_self ..) fourth fifth
        obtain ⟨used, chain, uses, frame⟩ := leaves.quad first second third
        rw [Link.mergeQuad, long]
        refine ⟨_, ?_, .write chain uses within frame⟩
        simp only [Memory.mergeQuadLoop, read, readNext, bind, Except.bind]
        cases srcLn with
        | null => exact (short rfl).elim
        | _ => simp only [merged]; rfl
      | @quad q a b c next link used fourth fifth sixth isNext' chain =>
        obtain ⟨m', merged, leaves⟩ := ih ((holds.below isNext' chain).perm perm_middle.symm)
          (mem_cons_self ..) (lt_of_succ_lt_succ enough)
        rw [Link.mergeQuad, long]
        refine ⟨m', ?_, leaves.above read fourth fifth sixth⟩
        simp only [Memory.mergeQuadLoop, read, readNext, bind, Except.bind]
        cases srcLn with
        | null => exact (short rfl).elim
        | _ => exact merged

theorem null_merge (link : Link Nat) : Link.merge .null link = link := by
  cases link <;> rfl

theorem Holds.mergeLink
    (holds : Holds m slot ln link used (srcUsed ++ others)) (within : slot.Within others)
    (srcChain : Chain m.words srcLn srcLink srcUsed) : ∃ m', m.mergeLink slot srcLn = .ok m' ∧
      Leaves m slot (link.merge srcLink) others m' := by
  have ⟨read, chain, uses, _⟩ := holds
  by_cases empty : srcLn = .null
  · subst empty
    cases srcChain with
    | null =>
      refine ⟨m, ?_, holds.leaves⟩
      simp only [Memory.mergeLink, read]
      rfl
  by_cases null : ln = .null
  · subst null
    cases chain with
    | null =>
      refine ⟨m.write slot srcLn, ?_, .write (by rwa [null_merge]) uses within (.refl ..)⟩
      simp only [Memory.mergeLink, read]
      cases srcLn with
      | null => exact (empty rfl).elim
      | _ => rfl
  · cases srcChain with
    | null => exact (empty rfl).elim
    | obj o =>
      obtain ⟨m', merged, leaves⟩ := holds.mergeObj o
      cases chain with
      | null => exact (null rfl).elim
      | _ => exact ⟨m', by rw [Memory.mergeLink, read]; exact merged, leaves⟩
    | pair first second =>
      obtain ⟨m', merged, leaves⟩ := holds.mergePair within first second
      cases chain with
      | null => exact (null rfl).elim
      | _ => exact ⟨m', by rw [Memory.mergeLink, read]; exact merged, leaves⟩
    | quad first second third isNext srcChain =>
      obtain ⟨m', merged, leaves⟩ :=
        mergeQuadLoop_spec m.rounds holds within holds.enough first second third isNext srcChain
      cases chain with
      | null => exact (null rfl).elim
      | _ => exact ⟨m', by rw [Memory.mergeLink, read]; exact merged, leaves⟩

end Merge

end Culibs.Cuoo.Halloc
