import Culibs.Cuoo.Halloc.Merge

namespace Culibs.Cuoo.Halloc

open Function List Nat
open Memory (linkAt_eq objAt_eq setPair_one setPair_zero)

variable {Key : Type}

section Release

variable {m : Memory Key} {slot : Slot} {ln : Ref} {others : List Nat} {p : Nat}

theorem Memory.write_release (within : slot.Within others) (outside : p ∉ others) (kind : Kind) :
    (m.release kind p).write slot ln = (m.write slot ln).release kind p := by
  have free : (m.write slot ln).free = m.free := by cases slot <;> rfl
  rw [Memory.release, Memory.release, free]
  split
  · exact Memory.write_stash within outside kind
  · cases slot with
    | bucket i => rfl
    | link q =>
      have other : q ≠ p := ne_of_mem_of_not_mem within outside
      simp only [Memory.write, Memory.ufreeAtomic, Memory.setWord, update_of_ne other, update_comm other]

theorem Memory.words_stash_succ (kind : Kind) (i : Nat) : (m.stash kind p).words p (i + 1) = m.words p (i + 1) := by
  rw [Memory.stash]
  simp only [Memory.words_setWord_self]
  exact update_of_ne (succ_ne_zero i) ..

end Release

section Pop

variable {m : Memory Key} {slot : Slot} {ln : Ref} {link : Link Nat} {used others : List Nat}

private theorem linkPopLoop_spec (rounds : Nat) (holds : Holds m slot ln link used others) (enough : used.length < rounds)
    (nonnull : link.isNull = false) : ∃ o rest m', Memory.linkPopLoop rounds m slot = .ok (o, m') ∧
      link.pop = some (o, rest) ∧ Leaves m slot rest others m' := by
  induction rounds generalizing slot ln link used others with
  | zero => exact (not_lt_zero _ enough).elim
  | succ rounds ih =>
    have ⟨read, chain, uses, within⟩ := holds
    cases chain with
    | null => cases nonnull
    | obj a =>
      refine ⟨a, .null, _, ?_, rfl, .write .null uses within (.refl ..)⟩
      simp only [Memory.linkPopLoop, read]
      rfl
    | @pair pair a b first second =>
      have written : Leaves m slot (.obj a) (pair :: others) (m.write slot (.obj a)) :=
        .write (.obj a) uses (within.mono (subset_cons_self ..)) (.refl ..)
      have isSecond : ((m.write slot (.obj a)).stash .pair pair).objAt pair 1 = .ok b := objAt_eq (by
        rw [Memory.words_stash_succ, Memory.words_write_ne within uses.nodup (mem_cons_self ..), second])
      refine ⟨b, .obj a, _, ?_, rfl, written.stash .pair⟩
      simp only [Memory.linkPopLoop, read, bind, Except.bind, objAt_eq first, Memory.stashPair, isSecond]
      rfl
    | @quad q a b c next link used first second third isNext chain =>
      have readNext := linkAt_eq isNext
      by_cases short : next = .null
      · subst short
        cases chain with
        | null =>
          obtain ⟨p, m1, allocated, uses1, words, frame⟩ := uses.alloc .pair
          have kept : Frame m (m1.setPair p a b) (q :: others) := (frame _).trans (.setPair uses1.outside a b)
          have written : Leaves m slot (.pair a b) (q :: others) ((m1.setPair p a b).write slot (.pair p)) :=
            .write (.pair (setPair_zero a b) (setPair_one a b))
              (uses1.setPair (mem_cons_self ..) a b) (within.mono (subset_cons_self ..)) kept
          have isFirst : m1.objAt q 0 = .ok a := objAt_eq (by rw [words, first])
          have isSecond : m1.objAt q 1 = .ok b := objAt_eq (by rw [words, second])
          have isThird : (((m1.setPair p a b).write slot (.pair p)).stash .quad q).objAt q 2 = .ok c :=
            objAt_eq (by
              rw [Memory.words_stash_succ, Memory.words_write_ne within uses.nodup (mem_cons_self ..),
                kept.words q (mem_cons_self ..), third])
          refine ⟨c, .pair a b, _, ?_, rfl, written.stash .quad⟩
          simp only [Memory.linkPopLoop, read, readNext, bind, Except.bind, Memory.allocPair, allocated, isFirst,
            isSecond, Memory.stashQuad, isThird]
          rfl
      · have long := chain.long short
        obtain ⟨o, rest, m', popped, isPop, leaves⟩ :=
          ih (holds.below isNext chain) (lt_of_succ_lt_succ enough) long
        refine ⟨o, .quad a b c rest, m', ?_, ?_, leaves.above read first second third⟩
        · simp only [Memory.linkPopLoop, read, readNext, bind, Except.bind]
          cases next with
          | null => exact (short rfl).elim
          | _ => exact popped
        · simp only [Link.pop, long, isPop]
          rfl

end Pop

section Erase

variable {m : Memory Key} {slot : Slot} {ln : Ref} {link : Link Nat} {used others : List Nat} {q : Nat}

theorem Memory.findIndex_eq (test : Nat → Except Failure Bool) (passes : Nat → Bool)
    (first : m.words q 0 = .obj a) (second : m.words q 1 = .obj b) (third : m.words q 2 = .obj c)
    (tests : ∀ o ∈ [a, b, c], test o = .ok (passes o)) : m.findIndex test q = .ok
      (if passes a then some (0, a) else if passes b then some (1, b) else if passes c then some (2, c) else none) := by
  simp only [forall_mem_cons] at tests
  simp only [Memory.findIndex, objAt_eq first, objAt_eq second, objAt_eq third, tests, bind,
    Except.bind]
  split
  · rfl
  · split
    · rfl
    · split <;> rfl

theorem eraseFromQuad_spec {i : Nat} {next : Ref} {rest : List Nat} (objs : Nat → Nat) (bound : i < 3)
    (holds : Holds m slot (.quad q) (.quad (objs 0) (objs 1) (objs 2) link) (q :: rest) others)
    (words : ∀ j < 3, m.words q j = .obj (objs j)) (isNext : m.words q 3 = .link next)
    (chain : Chain m.words next link rest) : ∃ left m', m.eraseFromQuad slot q i = .ok m' ∧
      link.refill (.pair (objs ((i + 1) % 3)) (objs ((i + 2) % 3))) (fun popped link =>
        .quad (update objs i popped 0) (update objs i popped 1) (update objs i popped 2)
          link) = some left ∧ Leaves m slot left others m' := by
  have ⟨read, _, uses, within⟩ := holds
  have readNext := linkAt_eq isNext
  by_cases short : next = .null
  · subst short
    cases chain with
    | null =>
      obtain ⟨p, m1, allocated, uses1, same, frame⟩ := uses.alloc .pair
      have isObj (j : Nat) : m1.objAt q (j % 3) = .ok (objs (j % 3)) :=
        objAt_eq (by rw [same, words _ (mod_lt _ (by decide))])
      have written : Leaves m slot (.pair (objs ((i + 1) % 3)) (objs ((i + 2) % 3))) (q :: others)
          ((m1.setPair p (objs ((i + 1) % 3)) (objs ((i + 2) % 3))).write slot (.pair p)) :=
        .write (.pair (setPair_zero ..) (setPair_one ..)) (uses1.setPair (mem_cons_self ..) ..)
          (within.mono (subset_cons_self ..)) ((frame _).trans (.setPair uses1.outside ..))
      refine ⟨_, _, ?_, rfl, written.release .quad⟩
      rw [← Memory.write_release within uses.outside]
      simp only [Memory.eraseFromQuad, readNext, bind, Except.bind, Memory.allocPair, allocated, isObj]
      rfl
  · have long := chain.long short
    have below := holds.below isNext chain
    obtain ⟨o, left, m1, popped, isPop, leaves⟩ := linkPopLoop_spec _ below below.enough long
    obtain ⟨used, chain, uses1, frame⟩ := leaves.quad (words 0 (by decide)) (words 1 (by decide)) (words 2 (by decide))
    refine ⟨_, m1.setWord q i (.obj o), ?_, by rw [Link.refill, long, isPop]; rfl, .quad q, q :: used, ?_,
      uses1.setWord (mem_cons_self ..) .., ?_⟩
    · simp only [Memory.eraseFromQuad, readNext, bind, Except.bind, Memory.linkPop, popped]
      cases next with
      | null => exact (short rfl).elim
      | _ => rfl
    · cases chain with
      | quad first second third isNext chain =>
        have replaced {j a : Nat} (held : m1.words q j = .obj a) (same : a = objs j) :
            (m1.setWord q i (.obj o)).words q j = .obj (update objs i o j) := by
          rw [Memory.words_setWord_self]
          by_cases here : j = i
          · rw [here, update_self, update_self]
          · rw [update_of_ne here, update_of_ne here, held, same]
        refine .quad (replaced first rfl) (replaced second rfl) (replaced third rfl) ?_ (chain.frame fun p mem => ?_)
        · rw [Memory.words_setWord_self, update_of_ne (ne_of_gt bound), isNext]
        · exact Memory.words_setWord_ne (ne_of_mem_of_not_mem mem fun inside =>
            uses1.outside (mem_append_left _ inside)) ..
    · rw [Memory.write_read read]
      exact frame.trans (.setWord (fun inside => uses1.outside (mem_append_right _ inside)) ..)

theorem eraseLoop_spec {o : Nat} (rounds : Nat) (holds : Holds m slot ln link used others)
    (enough : used.length < rounds) (mem : o ∈ link.objs) :
    ∃ left m', Memory.eraseLoop rounds m slot o = .ok m' ∧ link.erase o = some left ∧ Leaves m slot left others m' := by
  induction rounds generalizing slot ln link used others with
  | zero => exact (not_lt_zero _ enough).elim
  | succ rounds ih =>
    have ⟨read, chain, uses, within⟩ := holds
    cases chain with
    | null => cases mem
    | obj a =>
      obtain rfl := mem_singleton.mp mem
      refine ⟨.null, _, ?_, if_pos rfl, .write .null uses within (.refl ..)⟩
      simp only [Memory.eraseLoop, read, bind, Except.bind, if_true]
      rfl
    | @pair pair a b first second =>
      have written (c : Nat) : Leaves m slot (.obj c) (pair :: others) (m.write slot (.obj c)) :=
        .write (.obj c) uses (within.mono (subset_cons_self ..)) (.refl ..)
      have left : ∃ c, Memory.eraseLoop (rounds + 1) m slot o = .ok ((m.write slot (.obj c)).release .pair pair) ∧
          (Link.pair a b).erase o = some (.obj c) := by
        simp only [Memory.eraseLoop, read, bind, Except.bind, objAt_eq first, objAt_eq second, Link.erase]
        by_cases same : a = o
        · exact ⟨b, by rw [if_pos same]; rfl, if_pos same⟩
        · have same' : b = o := by simpa [Link.objs, Ne.symm same, eq_comm] using mem
          exact ⟨a, by rw [if_neg same, if_pos same']; rfl, by rw [if_neg same, if_pos same']⟩
      obtain ⟨c, done, erased⟩ := left
      exact ⟨.obj c, _, done, erased, (written c).release .pair⟩
    | @quad q a b c next link used first second third isNext chain =>
      have found :=
        Memory.findIndex_eq (fun obj => .ok (obj = o)) (fun obj => obj = o) first second third fun _ _ => rfl
      have words : ∀ j < 3, m.words q j = .obj ([a, b, c].getD j 0) := by
        intro j bound
        rcases j with _ | _ | _ | j
        · exact first
        · exact second
        · exact third
        · omega
      have fromQuad {i : Nat} (bound : i < 3) := eraseFromQuad_spec ([a, b, c].getD · 0) bound holds words isNext chain
      simp only [Memory.eraseLoop, read, bind, Except.bind, found, decide_eq_true_eq, Link.erase]
      by_cases isFirst : a = o
      · obtain ⟨left, m', erased, refilled, leaves⟩ := @fromQuad 0 (by decide)
        exact ⟨left, m', by rw [if_pos isFirst]; exact erased, by rw [if_pos isFirst]; exact refilled, leaves⟩
      by_cases isSecond : b = o
      · obtain ⟨left, m', erased, refilled, leaves⟩ := @fromQuad 1 (by decide)
        exact ⟨left, m', by rw [if_neg isFirst, if_pos isSecond]; exact erased,
          by rw [if_neg isFirst, if_pos isSecond]; exact refilled, leaves⟩
      by_cases isThird : c = o
      · obtain ⟨left, m', erased, refilled, leaves⟩ := @fromQuad 2 (by decide)
        exact ⟨left, m', by rw [if_neg isFirst, if_neg isSecond, if_pos isThird]; exact erased,
          by rw [if_neg isFirst, if_neg isSecond, if_pos isThird]; exact refilled, leaves⟩
      have later : o ∈ link.objs := by
        simpa [Link.objs, Ne.symm isFirst, Ne.symm isSecond, Ne.symm isThird] using mem
      obtain ⟨left, m', erased, isErased, leaves⟩ :=
        ih (holds.below isNext chain) (lt_of_succ_lt_succ enough) later
      refine ⟨.quad a b c left, m', ?_, ?_, leaves.above read first second third⟩
      · rw [if_neg isFirst, if_neg isSecond, if_neg isThird]
        exact erased
      · rw [if_neg isFirst, if_neg isSecond, if_neg isThird, isErased]
        rfl

end Erase

section Alloc

variable {m : Memory Key} {slot : Slot} {ln : Ref} {link : Link Nat} {used others : List Nat}

theorem Frame.objNew (frame : Frame m m' others) (key : Key) :
    Frame (m.objNew key).2 (m'.objNew key).2 others :=
  ⟨frame.words, frame.arr, congrArg (· ++ [key]) frame.objs, frame.mask, frame.size⟩

theorem Uses.objNew (uses : Uses m used) (key : Key) : Uses (m.objNew key).2 used := uses.congr rfl rfl rfl

variable [DecidableEq Key]

theorem hallocLoop_spec (rounds : Nat) (key : Key) (holds : Holds m slot ln link used others)
    (enough : used.length < rounds) (known : ∀ o ∈ link.objs, o < m.objs.length) :
    (∃ o ∈ link.objs, m.objs[o]? = some key ∧ Memory.hallocLoop rounds m slot key = .ok (true, o, m)) ∨
      (∀ o ∈ link.objs, m.objs[o]? ≠ some key) ∧
        ∃ m', Memory.hallocLoop rounds m slot key = .ok (false, m.objs.length, m') ∧
        Leaves (m.objNew key).2 slot (link.mergeObj m.objs.length) others m' := by
  induction rounds generalizing slot ln link used others with
  | zero => exact (not_lt_zero _ enough).elim
  | succ rounds ih =>
    have ⟨read, chain, uses, within⟩ := holds
    have objEq {o : Nat} (mem : o ∈ link.objs) : m.objEq key o = .ok (decide (m.objs[o]? = some key)) := by
      have held := getElem?_eq_getElem (known o mem)
      rw [Memory.objEq, held]
      simp [eq_comm]
    cases chain with
    | null =>
      refine .inr ⟨by simp [Link.objs], _, ?_, .write (.obj m.objs.length) (uses.objNew key) within (.refl ..)⟩
      simp only [Memory.hallocLoop, read]
      rfl
    | obj a =>
      by_cases found : m.objs[a]? = some key
      · refine .inl ⟨a, mem_singleton_self a, found, ?_⟩
        simp only [Memory.hallocLoop, read, bind, Except.bind, objEq (mem_singleton_self a), decide_eq_true found]
        rfl
      obtain ⟨p, m1, allocated, uses1, -, frame⟩ := uses.alloc .pair
      have count : m1.objs.length = m.objs.length := congrArg length (frame []).objs
      refine .inr ⟨fun o mem => mem_singleton.mp mem ▸ found, _, ?_,
        .write (.pair (setPair_zero ..) (setPair_one ..))
          ((uses1.objNew key).setPair (mem_cons_self ..) a m.objs.length) within
          (((frame _).objNew key).trans (.setPair uses1.outside ..))⟩
      simp only [Memory.hallocLoop, read, bind, Except.bind, objEq (mem_singleton_self a), decide_eq_false found,
        Memory.allocPair, allocated, ← count]
      rfl
    | @pair pair a b first second =>
      have inFirst : a ∈ (Link.pair a b).objs := .head _ ..
      have inSecond : b ∈ (Link.pair a b).objs := .tail _ (mem_cons_self ..)
      have readFirst := objAt_eq first
      have readSecond := objAt_eq second
      by_cases found : m.objs[a]? = some key
      · refine .inl ⟨a, inFirst, found, ?_⟩
        simp only [Memory.hallocLoop, read, bind, Except.bind, readFirst, objEq inFirst, decide_eq_true found]
        rfl
      by_cases found' : m.objs[b]? = some key
      · refine .inl ⟨b, inSecond, found', ?_⟩
        simp only [Memory.hallocLoop, read, bind, Except.bind, readFirst, objEq inFirst, decide_eq_false found,
          readSecond, objEq inSecond, decide_eq_true found']
        rfl
      obtain ⟨q, m1, allocated, uses1, words, frame⟩ := uses.alloc .quad
      have count : m1.objs.length = m.objs.length := congrArg length (frame []).objs
      have isFirst : m1.objAt pair 0 = .ok a := objAt_eq (by rw [words, first])
      have isSecond : m1.objAt pair 1 = .ok b := objAt_eq (by rw [words, second])
      have written : Leaves (m.objNew key).2 slot (.quad a b m.objs.length .null) (pair :: others)
          (((m1.objNew key).2.setQuad q a b m.objs.length .null).write slot (.quad q)) :=
        .write (.quad (Memory.setQuad_zero ..) (Memory.setQuad_one ..) (Memory.setQuad_two ..)
          (Memory.setQuad_three ..) .null)
          ((uses1.objNew key).setQuad (mem_cons_self ..) a b m.objs.length .null)
          (within.mono (subset_cons_self ..)) (((frame _).objNew key).trans (.setQuad uses1.outside ..))
      refine .inr ⟨?_, _, ?_, written.release .pair⟩
      · simp [Link.objs, found, found']
      · rw [← Memory.write_release within uses.outside]
        simp only [Memory.hallocLoop, read, bind, Except.bind, readFirst, objEq inFirst, decide_eq_false found,
          readSecond, objEq inSecond, decide_eq_false found', Memory.allocQuad, allocated, isFirst, isSecond, ← count]
        rfl
    | @quad q a b c next link used first second third isNext chain =>
      have among (o : Nat) : o ∈ [a, b, c] → o ∈ (Link.quad a b c link).objs := fun mem =>
        mem_append_left link.objs mem
      have found := Memory.findIndex_eq (m.objEq key) (fun o => m.objs[o]? = some key) first second third
        fun o mem => objEq (among o mem)
      simp only [Memory.hallocLoop, read, bind, Except.bind, found, decide_eq_true_eq]
      by_cases isFirst : m.objs[a]? = some key
      · exact .inl ⟨a, among a (by simp), isFirst, by rw [if_pos isFirst]; rfl⟩
      by_cases isSecond : m.objs[b]? = some key
      · exact .inl ⟨b, among b (by simp), isSecond, by rw [if_neg isFirst, if_pos isSecond]; rfl⟩
      by_cases isThird : m.objs[c]? = some key
      · exact .inl ⟨c, among c (by simp), isThird, by rw [if_neg isFirst, if_neg isSecond, if_pos isThird]; rfl⟩
      rw [if_neg isFirst, if_neg isSecond, if_neg isThird]
      have later (o : Nat) (mem : o ∈ link.objs) : o ∈ (Link.quad a b c link).objs :=
        mem_append_right [a, b, c] mem
      rcases ih (holds.below isNext chain) (lt_of_succ_lt_succ enough)
        fun o mem => known o (later o mem) with
        ⟨o, mem, isKey, done⟩ | ⟨absent, m', done, leaves⟩
      · exact .inl ⟨o, later o mem, isKey, done⟩
      · refine .inr ⟨?_, m', done, ?_⟩
        · simpa [Link.objs, isFirst, isSecond, isThird] using absent
        · have same : (m.objNew key).2.read slot = m.read slot := by cases slot <;> rfl
          exact leaves.above (same.trans read) first second third

end Alloc

end Culibs.Cuoo.Halloc
