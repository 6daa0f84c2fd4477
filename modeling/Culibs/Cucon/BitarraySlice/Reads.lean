import Culibs.Cucon.BitarraySlice

namespace Culibs.Cu

open Function List Set Option

/-- The addresses of the words that are read, in their order. -/
def wordarrSkewcopyReads (count srcOffset src : Nat) : List Nat :=
  if srcOffset = 0 then range' src count else src :: range' (src + 1) count

/-- Whether full words are computed from the source. -/
def readsSource : Bool1f → Bool
  | .false | .true => false
  | .ident | .not => true

def readsLeft : Bool2f → Bool
  | .false | .true | .right | .notRight => false
  | _ => true

def readsRight : Bool2f → Bool
  | .false | .true | .left | .notLeft => false
  | _ => true

/-- The words of a source that a loop over full words reads. -/
def wordarrReads (used : Bool) (count srcOffset src : Nat) : List Nat :=
  if used then wordarrSkewcopyReads count srcOffset src else []

/-- The address of the next word. -/
def Reader.address : Reader → Nat
  | .aligned src => src
  | .skewed _ _ src => src

variable {A : Set Nat} {mem mem' : Memory} {count dst : Nat}

theorem eqOn_update {v v' : Word} (agree : EqOn mem mem' A) (same : dst ∈ A → v = v') :
    EqOn (update mem dst v) (update mem' dst v') A := by
  intro address covered
  by_cases here : address = dst
  · subst here
    rw [update_self, update_self, same covered]
  · rw [update_of_ne here, update_of_ne here, agree covered]

theorem wordarrFill_eqOn (val : Word) (agree : EqOn mem mem' A) :
    EqOn (wordarrFill count dst val mem) (wordarrFill count dst val mem') A := by
  induction count generalizing dst mem mem' with
  | zero => exact agree
  | succ count ih => exact ih (eqOn_update agree fun _ => rfl)

theorem Reader.next_address (mem : Memory) (src : Reader) : (src.next mem).2.address = src.address + 1 := by
  cases src <;> rfl

theorem Reader.next_congr {src : Reader} (agree : EqOn mem mem' A) (covered : src.address ∈ A) :
    src.next mem = src.next mem' := by
  cases src with
  | aligned src =>
    have same : mem src = mem' src := agree covered
    simp only [Reader.next, same]
  | skewed offset a src =>
    have same : mem src = mem' src := agree covered
    simp only [Reader.next, same]

theorem zipLoop_eqOn (op : Word → Word → Word) {src0 src1 : Reader}
    (covered0 : ∀ a ∈ range' src0.address count, a ∈ A) (covered1 : ∀ a ∈ range' src1.address count, a ∈ A)
    (agree : EqOn mem mem' A) :
    EqOn (zipLoop op count dst src0 src1 mem) (zipLoop op count dst src0 src1 mem') A := by
  induction count generalizing dst src0 src1 mem mem' with
  | zero => exact agree
  | succ count ih =>
    rw [List.range'_succ, forall_mem_cons, ← Reader.next_address mem'] at covered0 covered1
    rw [zipLoop, zipLoop, Reader.next_congr agree covered0.1, Reader.next_congr agree covered1.1]
    exact ih covered0.2 covered1.2 (eqOn_update agree fun _ => rfl)

private theorem mapLoop_eqOn (op : Word → Word) (covered : ∀ a ∈ range' src.address count, a ∈ A)
    (agree : EqOn mem mem' A) : EqOn (mapLoop op count dst src mem) (mapLoop op count dst src mem') A := by
  rw [mapLoop_eq_zipLoop, mapLoop_eq_zipLoop]
  exact zipLoop_eqOn _ covered covered agree

theorem Reader.start_congr (agree : EqOn mem mem' A) (covered : src ∈ A) (offset : Nat) :
    Reader.start mem offset src = Reader.start mem' offset src := by
  rw [Reader.start, Reader.start, agree covered]

theorem wordarrSkewcopyBitimg_eqOn (f : Bool1f)
    (covered : ∀ a ∈ wordarrReads (readsSource f) count srcOffset src, a ∈ A) (agree : EqOn mem mem' A) :
    EqOn (wordarrSkewcopyBitimg f count dst srcOffset src mem)
      (wordarrSkewcopyBitimg f count dst srcOffset src mem') A := by
  have unary (op : Word → Word) (covered : ∀ a ∈ wordarrSkewcopyReads count srcOffset src, a ∈ A) :
      EqOn
        (if srcOffset = 0 then mapLoop op count dst (.aligned src) mem
          else mapLoop op count dst (.start mem srcOffset src) mem)
        (if srcOffset = 0 then mapLoop op count dst (.aligned src) mem'
          else mapLoop op count dst (.start mem' srcOffset src) mem') A := by
    rw [wordarrSkewcopyReads] at covered
    split_ifs at covered ⊢
    · exact mapLoop_eqOn op covered agree
    · rw [forall_mem_cons] at covered
      rw [Reader.start_congr agree covered.1]
      exact mapLoop_eqOn op covered.2 agree
  cases f with
  | false => exact wordarrFill_eqOn _ agree
  | true => exact wordarrFill_eqOn _ agree
  | ident => exact unary _ covered
  | not => exact unary _ covered

variable {src0 src1 offset0 offset1 : Nat}

theorem wordarrBinarySkewcopyBitimg2_eqOn (binary : f.Binary)
    (covered0 : ∀ a ∈ wordarrSkewcopyReads count offset0 src0, a ∈ A)
    (covered1 : ∀ a ∈ wordarrSkewcopyReads count offset1 src1, a ∈ A) (agree : EqOn mem mem' A) :
    Rel (fun m m' => EqOn m m' A) (wordarrBinarySkewcopyBitimg2 f count dst offset0 src0 offset1 src1 mem)
      (wordarrBinarySkewcopyBitimg2 f count dst offset0 src0 offset1 src1 mem') := by
  rw [wordarrSkewcopyReads] at covered0 covered1
  rw [wordarrBinarySkewcopyBitimg2, wordarrBinarySkewcopyBitimg2]
  split_ifs at covered0 covered1 ⊢
  · apply Rel.some
    cases f with
    | false | true | left | right | notLeft | notRight => exact binary.elim
    | notAnd | notOr => exact zipLoop_eqOn _ covered1 covered0 agree
    | nor | xor | nand | and | iff | or | andNot | orNot => exact zipLoop_eqOn _ covered0 covered1 agree
  · rw [forall_mem_cons] at covered1
    have same1 := Reader.start_congr agree covered1.1 offset1
    cases f <;> simp only [wordarrSemiskewBitimg2, same1] <;> first
      | exact .none
      | exact .some (zipLoop_eqOn _ covered0 covered1.2 agree)
  · rw [forall_mem_cons] at covered0
    have same0 := Reader.start_congr agree covered0.1 offset0
    cases f <;> simp only [bool2fSwap, wordarrSemiskewBitimg2, same0] <;> first
      | exact .none
      | exact .some (zipLoop_eqOn _ covered1 covered0.2 agree)
  · rw [forall_mem_cons] at covered0 covered1
    have same0 := Reader.start_congr agree covered0.1 offset0
    have same1 := Reader.start_congr agree covered1.1 offset1
    cases f <;> simp only [wordarrBothskewBitimg2, same0, same1] <;> first
      | exact .none
      | exact .some (zipLoop_eqOn _ covered0.2 covered1.2 agree)

private theorem wordarrSkewcopyBitimg2_eqOn (f : Bool2f)
    (covered0 : ∀ a ∈ wordarrReads (readsLeft f) count offset0 src0, a ∈ A)
    (covered1 : ∀ a ∈ wordarrReads (readsRight f) count offset1 src1, a ∈ A) (agree : EqOn mem mem' A) :
    Rel (fun m m' => EqOn m m' A) (wordarrSkewcopyBitimg2 f count dst offset0 src0 offset1 src1 mem)
      (wordarrSkewcopyBitimg2 f count dst offset0 src0 offset1 src1 mem') := by
  cases f with
  | false => exact .some (wordarrFill_eqOn _ agree)
  | true => exact .some (wordarrFill_eqOn _ agree)
  | left => exact .some (wordarrSkewcopyBitimg_eqOn .ident covered0 agree)
  | right => exact .some (wordarrSkewcopyBitimg_eqOn .ident covered1 agree)
  | notLeft => exact .some (wordarrSkewcopyBitimg_eqOn .not covered0 agree)
  | notRight => exact .some (wordarrSkewcopyBitimg_eqOn .not covered1 agree)
  | nor | xor | nand | and | iff | or | notAnd | andNot | notOr | orNot =>
    exact wordarrBinarySkewcopyBitimg2_eqOn (by exact trivial) covered0 covered1 agree

end Culibs.Cu

namespace Culibs.Cucon.BitarraySlice

open Cu

/-- Where `readBits` leaves its source. -/
def Cursor.advance (width : Nat) (src : Cursor) : Cursor :=
  if src.offset + width > 64 then ⟨src.offset + width - 64, src.arr + 1⟩
  else if src.offset + width = 64 then ⟨0, src.arr + 1⟩
  else ⟨src.offset + width, src.arr⟩

def readBitsReads (width : Nat) (src : Cursor) : List Nat :=
  if src.offset + width > 64 then [src.arr, src.arr + 1] else [src.arr]

/-- The words of one source that the full words and the last one are computed from. -/
def restReads (used : Bool) (size : Nat) (src : Cursor) : List Nat :=
  let sizew := size / 64
  let lastWidth := size % 64
  wordarrReads used sizew src.offset src.arr ++
    if lastWidth ≠ 0 then readBitsReads lastWidth ⟨src.offset, src.arr + sizew⟩ else []

/-- The words of one source. The parts of a word are read for every function, full words if it uses the source. -/
def copyReads (used : Bool) (dst src : BitarraySlice) : List Nat :=
  let cursor : Cursor := ⟨src.offset, src.arr⟩
  if dst.offset ≠ 0 then
    let firstWidth := 64 - dst.offset
    readBitsReads firstWidth cursor ++
      if firstWidth > dst.size then [] else restReads used (dst.size - firstWidth) (cursor.advance firstWidth)
  else restReads used dst.size cursor

def copyBool1fReads (f : Bool1f) (dst src0 : BitarraySlice) : List Nat := copyReads (readsSource f) dst src0

def copyBool2fReads (f : Bool2f) (dst src0 src1 : BitarraySlice) : List Nat × List Nat :=
  (copyReads (readsLeft f) dst src0, copyReads (readsRight f) dst src1)

variable {A : Set Nat} {mem mem' : Memory} {dst src src0 src1 : BitarraySlice}

theorem readBits_advance (mem : Memory) (width : Nat) (src : Cursor) :
    (readBits mem width src).2 = src.advance width := by
  rw [readBits, Cursor.advance]
  split
  · rfl
  · split <;> rfl

variable {width : Nat}

theorem readBits_congr {src : Cursor} (covered : ∀ a ∈ readBitsReads width src, a ∈ A)
    (agree : Set.EqOn mem mem' A) : readBits mem width src = readBits mem' width src := by
  rw [readBitsReads] at covered
  rw [readBits, readBits]
  split at covered
  · rw [List.forall_mem_cons, List.forall_mem_singleton] at covered
    simp only [*, agree covered.1, agree covered.2]
  · rw [List.forall_mem_singleton] at covered
    rw [agree covered]
    split
    · contradiction
    · rfl

variable {α γ δ : Type} {s : γ → δ → Prop} {x : Option α}

theorem rel_bind (related : Option.Rel r x y)
    (next : ∀ a b, r a b → Option.Rel s (f a) (g b)) : Option.Rel s (x >>= f) (y >>= g) := by
  cases related with
  | none => exact .none
  | some related => exact next _ _ related

theorem rel_bind_same
    (next : ∀ a, Option.Rel s (f a) (g a)) : Option.Rel s (x >>= f) (x >>= g) := by
  cases x with
  | none => exact .none
  | some a => exact next a

theorem storeMasked_eqOn (y mask : Word) (dstArr : Nat) (agree : Set.EqOn mem mem' A) :
    Set.EqOn (storeMasked y mask dstArr mem) (storeMasked y mask dstArr mem') A :=
  eqOn_update agree fun covered => by rw [agree covered]

variable {size dstArr : Nat}

private theorem copyBool1fRest_eqOn (f : Bool1f) {src0 : Cursor}
    (covered : ∀ a ∈ restReads (readsSource f) size src0, a ∈ A) (agree : Set.EqOn mem mem' A) :
    Set.EqOn (copyBool1fRest f size dstArr src0 mem) (copyBool1fRest f size dstArr src0 mem') A := by
  rw [restReads, List.forall_mem_append] at covered
  have loop : Set.EqOn (wordarrSkewcopyBitimg f (size / 64) dstArr src0.offset src0.arr mem)
      (wordarrSkewcopyBitimg f (size / 64) dstArr src0.offset src0.arr mem') A :=
    wordarrSkewcopyBitimg_eqOn f covered.1 agree
  rw [copyBool1fRest, copyBool1fRest]
  by_cases last : size % 64 ≠ 0
  · rw [if_pos last] at covered
    simp only [if_pos last, readBits_congr covered.2 loop]
    exact storeMasked_eqOn _ _ _ loop
  · simp only [if_neg last]
    exact loop

theorem copyBool1f_eqOn (f : Bool1f) (covered : ∀ a ∈ copyBool1fReads f dst src0, a ∈ A)
    (agree : Set.EqOn mem mem' A) : Set.EqOn (dst.copyBool1f f src0 mem) (dst.copyBool1f f src0 mem') A := by
  rw [copyBool1fReads, copyReads] at covered
  rw [copyBool1f, copyBool1f]
  by_cases first : dst.offset ≠ 0
  · simp only [if_pos first, List.forall_mem_append] at covered
    simp only [if_pos first, readBits_congr covered.1 agree, readBits_advance]
    by_cases short : 64 - dst.offset > dst.size
    · simp only [if_pos short]
      exact storeMasked_eqOn _ _ _ agree
    · simp only [if_neg short] at covered ⊢
      exact copyBool1fRest_eqOn f covered.2 (eqOn_update agree fun covered => by rw [agree covered])
  · simp only [if_neg first] at covered ⊢
    exact copyBool1fRest_eqOn f covered agree

private theorem copyBool2fRest_eqOn (f : Bool2f) {src0 src1 : Cursor}
    (covered0 : ∀ a ∈ restReads (readsLeft f) size src0, a ∈ A)
    (covered1 : ∀ a ∈ restReads (readsRight f) size src1, a ∈ A) (agree : Set.EqOn mem mem' A) :
    Option.Rel (fun m m' => Set.EqOn m m' A) (copyBool2fRest f size dstArr src0 src1 mem)
      (copyBool2fRest f size dstArr src0 src1 mem') := by
  rw [restReads, List.forall_mem_append] at covered0 covered1
  refine rel_bind (wordarrSkewcopyBitimg2_eqOn f covered0.1 covered1.1 agree) fun mem mem' loop => ?_
  by_cases last : size % 64 ≠ 0
  · rw [if_pos last] at covered0 covered1
    simp only [if_pos last, readBits_congr covered0.2 loop, readBits_congr covered1.2 loop]
    exact rel_bind_same fun y => .some (storeMasked_eqOn _ _ _ loop)
  · simp only [if_neg last]
    exact .some loop

theorem copyBool2f_eqOn (f : Bool2f) (covered0 : ∀ a ∈ (copyBool2fReads f dst src0 src1).1, a ∈ A)
    (covered1 : ∀ a ∈ (copyBool2fReads f dst src0 src1).2, a ∈ A) (agree : Set.EqOn mem mem' A) :
    Option.Rel (fun m m' => Set.EqOn m m' A) (dst.copyBool2f f src0 src1 mem) (dst.copyBool2f f src0 src1 mem') := by
  simp only [copyBool2fReads, copyReads] at covered0 covered1
  rw [copyBool2f, copyBool2f]
  by_cases first : dst.offset ≠ 0
  · simp only [if_pos first, List.forall_mem_append] at covered0 covered1
    simp only [if_pos first, readBits_congr covered0.1 agree, readBits_congr covered1.1 agree, readBits_advance]
    refine rel_bind_same fun image => ?_
    by_cases short : 64 - dst.offset > dst.size
    · simp only [if_pos short]
      exact .some (storeMasked_eqOn _ _ _ agree)
    · simp only [if_neg short] at covered0 covered1 ⊢
      exact copyBool2fRest_eqOn f covered0.2 covered1.2 (eqOn_update agree fun covered => by rw [agree covered])
  · simp only [if_neg first] at covered0 covered1 ⊢
    exact copyBool2fRest_eqOn f covered0 covered1 agree

/-- All three ranges start and end inside words. -/
theorem copyBool2f_eqOn_parts : ∃ dst src0 src1 : BitarraySlice,
    Option.Rel (fun m m' => Set.EqOn m m' {a | a < 14})
      (dst.copyBool2f .xor src0 src1 fun a => BitVec.ofNat 64 (3 * a))
      (dst.copyBool2f .xor src0 src1 fun a => if a < 14 then BitVec.ofNat 64 (3 * a) else 1) :=
  ⟨⟨3, 150, 0, by decide⟩, ⟨7, 150, 5, by decide⟩, ⟨60, 150, 10, by decide⟩,
    copyBool2f_eqOn .xor (by decide) (by decide) fun a (inside : a < 14) => (if_pos inside).symm⟩

/-- No address is behind the last word that has one of the first `size` bits. -/
def Within (sl : BitarraySlice) (size : Nat) (reads : List Nat) : Prop :=
  ∀ a ∈ reads, ∃ p < size, a ≤ sl.arr + (sl.offset + p) / 64

theorem within_iff {sl : BitarraySlice} (nonempty : 0 < size) (reads : List Nat) :
    sl.Within size reads ↔ ∀ a ∈ reads, a * 64 < sl.start + size := by
  refine forall₂_congr fun a _ => ?_
  rw [start]
  constructor
  · rintro ⟨p, inside, bound⟩
    omega
  · intro before
    exact ⟨size - 1, Nat.sub_lt nonempty one_pos, by omega⟩

variable {a : Nat}

theorem readBitsReads_lt {src : Cursor} (wide : 0 < width)
    (read : a ∈ readBitsReads width src) : a * 64 < src.position + width := by
  rw [readBitsReads] at read
  rw [Cursor.position]
  split at read
  · rw [List.mem_cons, List.mem_singleton] at read
    omega
  · rw [List.mem_singleton] at read
    omega

variable {used : Bool}

private theorem wordarrReads_lt {count offset src : Nat}
    (read : a ∈ wordarrReads used count offset src) :
    a * 64 < src * 64 + offset + count * 64 := by
  rw [wordarrReads] at read
  split at read
  · rw [wordarrSkewcopyReads] at read
    split at read
    · rw [List.mem_range'_1] at read
      omega
    · rw [List.mem_cons, List.mem_range'_1] at read
      omega
  · exact absurd read List.not_mem_nil

/-- The full words and the last one. A skewed source that is read one word ahead has bits in that word. -/
theorem restReads_lt {src : Cursor}
    (read : a ∈ restReads used size src) : a * 64 < src.position + size := by
  rw [restReads, List.mem_append] at read
  rw [Cursor.position]
  rcases read with loop | last
  · have := wordarrReads_lt loop
    omega
  · split at last
    · rename_i partly
      have := readBitsReads_lt (pos_of_ne_zero partly) last
      simp only [Cursor.position] at this
      omega
    · exact absurd last List.not_mem_nil

theorem advance_position (src : Cursor) (width : Nat) :
    (src.advance width).position = src.position + width := by
  rw [Cursor.advance, Cursor.position, Cursor.position]
  split
  · dsimp only
    omega
  · split <;> dsimp only <;> omega

/-- When a source is read up to the last word with bits that are copied. Where the destination ends in its first word,
the source is read for the whole rest of that word. -/
def ReadsRight (used : Bool) (dst src : BitarraySlice) : Prop :=
  if dst.size = 0 then dst.offset = 0 ∧ (src.offset = 0 ∨ used = false)
  else dst.offset = 0 ∨ 64 - dst.offset ≤ dst.size ∨ src.offset ≤ dst.offset ∨ 64 < src.offset + dst.size

private theorem copyReads_within_iff (used : Bool) (dst src : BitarraySlice) :
    src.Within dst.size (copyReads used dst src) ↔ ReadsRight used dst src := by
  have here : Cursor.position ⟨src.offset, src.arr⟩ = src.start := rfl
  rw [copyReads, ReadsRight]
  by_cases empty : dst.size = 0
  · have nothing (reads : List Nat) : src.Within dst.size reads ↔ reads = [] := by
      rw [List.eq_nil_iff_forall_not_mem]
      refine forall₂_congr fun a _ => iff_false_intro ?_
      rintro ⟨p, below, _⟩
      omega
    rw [if_pos empty, nothing]
    by_cases first : dst.offset = 0
    · simp only [first, empty, ne_eq, not_true_eq_false, if_false, true_and, restReads, Nat.zero_div, Nat.zero_mod,
        wordarrReads, wordarrSkewcopyReads, List.range'_zero, List.append_nil]
      cases used with
      | false => simp
      | true => simp
    · simp only [first, ne_eq, not_false_eq_true, if_true, false_and, iff_false, List.append_eq_nil_iff, readBitsReads]
      rintro ⟨none, _⟩
      split at none <;> exact absurd none (List.cons_ne_nil _ _)
  · rw [if_neg empty, within_iff (pos_of_ne_zero empty)]
    by_cases first : dst.offset = 0
    · simp only [first, ne_eq, not_true_eq_false, if_false, true_or, iff_true]
      intro a read
      have before := restReads_lt read
      rwa [here] at before
    have wide : 0 < 64 - dst.offset := Nat.sub_pos_of_lt dst.inWord
    simp only [first, ne_eq, not_false_eq_true, if_true, false_or, List.forall_mem_append]
    by_cases full : 64 - dst.offset ≤ dst.size
    · simp only [full, Nat.not_lt_of_le full, if_false, true_or, iff_true]
      refine ⟨fun a read => ?_, fun a read => ?_⟩
      · have before := readBitsReads_lt wide read
        exact Nat.lt_of_lt_of_le before (Nat.add_le_add_left full _)
      · have before := restReads_lt read
        rwa [advance_position, here, add_assoc, Nat.add_sub_cancel' full] at before
    · simp only [full, Nat.lt_of_not_le full, gt_iff_lt, if_true, false_or, List.not_mem_nil, false_implies,
        implies_true, and_true, readBitsReads, start]
      by_cases crosses : 64 < src.offset + (64 - dst.offset)
      · rw [if_pos crosses, List.forall_mem_cons, List.forall_mem_singleton]
        omega
      · rw [if_neg crosses, List.forall_mem_singleton]
        omega

/-- Exactly when the copies read no word of a source behind the last one with bits that are copied. -/
theorem copy_within_iff (f1 : Bool1f) (f2 : Bool2f) (dst src0 src1 : BitarraySlice) :
    (src0.Within dst.size (copyBool1fReads f1 dst src0) ↔ ReadsRight (readsSource f1) dst src0) ∧
    (src0.Within dst.size (copyBool2fReads f2 dst src0 src1).1 ∧
        src1.Within dst.size (copyBool2fReads f2 dst src0 src1).2 ↔
      ReadsRight (readsLeft f2) dst src0 ∧ ReadsRight (readsRight f2) dst src1) :=
  ⟨copyReads_within_iff _ dst src0, and_congr (copyReads_within_iff _ dst src0) (copyReads_within_iff _ dst src1)⟩

/-- One bit is copied into a word of which 63 bits are left. -/
theorem copy_reads_behind : ∃ dst src0 : BitarraySlice, dst.size ≤ src0.size ∧
    ¬ src0.Within dst.size (copyBool1fReads .ident dst src0) ∧
    ¬ src0.Within dst.size (copyBool2fReads .and dst src0 src0).1 := by
  have behind : ¬ Within ⟨2, 1, 1, by decide⟩ 1 [1, 2] := by
    rw [within_iff one_pos]
    decide
  exact ⟨⟨1, 1, 0, by decide⟩, ⟨2, 1, 1, by decide⟩, le_refl 1, behind, behind⟩

end Culibs.Cucon.BitarraySlice
