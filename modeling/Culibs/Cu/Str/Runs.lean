import Culibs.Cu.Str.Basic

namespace Culibs.Cu.Str

open Foundation ByteMemory Function Option List

section

variable (isspace : Byte → Bool)

inductive Op where
  | newCharr (ptr : List Byte)
  | newCopy (str0 : Nat)
  | assign (dest src : Nat)
  | substr (x pos len : Nat)
  | suffix (x pos : Nat)
  | assignSubstr (x pos len : Nat)
  | new2str (x y : Nat)
  | newStrCstr (x : Nat) (y : List Byte)
  | newStrChar (x : Nat) (c : Byte)
  | appendStr (x y : Nat)
  | appendChar (dest : Nat) (ch : Byte)
  | appendCharr (dest : Nat) (cstr : List Byte)
  | unappend (str charCount : Nat)
  | insertSubstr (dst src pos : Nat)
  | eraseSubstr (dst pos len : Nat)
  | chopSpace (str : Nat)
  | toCstr (src : Nat)

/-- The bytes at the pointer that `cu_str_to_cstr` returns, and the strings after the operation. -/
def World.step (w : World) : Op → Option (List Byte × World)
  | .newCharr ptr => (w.newCharr ptr).map ([], ·)
  | .newCopy str0 => some ([], w.newCopy str0)
  | .assign dest src => some ([], w.assign dest src)
  | .substr x pos len => (w.substr x pos len).map ([], ·)
  | .suffix x pos => (w.suffix x pos).map ([], ·)
  | .assignSubstr x pos len => some ([], w.assignSubstr x pos len)
  | .new2str x y => (w.new2str x y).map ([], ·)
  | .newStrCstr x y => (w.newStrCstr x y).map ([], ·)
  | .newStrChar x c => (w.newStrChar x c).map ([], ·)
  | .appendStr x y => (w.appendStr x y).map ([], ·)
  | .appendChar dest ch => (w.appendChar dest ch).map ([], ·)
  | .appendCharr dest cstr => (w.appendCharr dest cstr).map ([], ·)
  | .unappend str charCount => (w.unappend str charCount).map ([], ·)
  | .insertSubstr dst src pos => (w.insertSubstr dst src pos).map ([], ·)
  | .eraseSubstr dst pos len => (w.eraseSubstr dst pos len).map ([], ·)
  | .chopSpace str => some ([], w.chopSpace isspace str)
  | .toCstr src => (w.toCstr src).map fun (cstr, w') => (w'.store.read cstr ((w.str src).len + 1), w')

def World.run (w : World) : List Op → Option (List (List Byte) × World)
  | [] => some ([], w)
  | op :: ops => do
    let (reply, w) ← w.step isspace op
    let (replies, w) ← w.run ops
    some (reply :: replies, w)

/-- What the strings are meant to hold. -/
structure Meaning where
  content : Nat → List Byte
  count : Nat

namespace Meaning

def start : Meaning := ⟨fun _ => [], 0⟩

def put (v : Meaning) (i : Nat) (xs : List Byte) : Meaning := { v with content := update v.content i xs }

def new (v : Meaning) (xs : List Byte) : Meaning := { v.put v.count xs with count := v.count + 1 }

/-- The bytes without spaces at both ends. -/
def chop (xs : List Byte) : List Byte := ((xs.dropWhile isspace).reverse.dropWhile isspace).reverse

def step (v : Meaning) : Op → Meaning
  | .newCharr ptr => v.new ptr
  | .newCopy str0 => v.new (v.content str0)
  | .assign dest src => v.put dest (v.content src)
  | .substr x pos len => v.new (((v.content x).drop pos).take len)
  | .suffix x pos => v.new ((v.content x).drop pos)
  | .assignSubstr x pos len => v.put x (((v.content x).drop pos).take len)
  | .new2str x y => v.new (v.content x ++ v.content y)
  | .newStrCstr x y => v.new (v.content x ++ y)
  | .newStrChar x c => v.new (v.content x ++ [c])
  | .appendStr x y => v.put x (v.content x ++ v.content y)
  | .appendChar dest ch => v.put dest (v.content dest ++ [ch])
  | .appendCharr dest cstr => v.put dest (v.content dest ++ cstr)
  | .unappend str charCount => v.put str ((v.content str).take ((v.content str).length - charCount))
  | .insertSubstr dst src pos =>
    v.put dst ((v.content dst).take pos ++ v.content src ++ (v.content dst).drop pos)
  | .eraseSubstr dst pos len => v.put dst ((v.content dst).take pos ++ (v.content dst).drop (pos + len))
  | .chopSpace str => v.put str (chop isspace (v.content str))
  | .toCstr _ => v

def reply (v : Meaning) : Op → List Byte
  | .toCstr src => v.content src ++ [0]
  | _ => []

def run (v : Meaning) : List Op → List (List Byte) × Meaning
  | [] => ([], v)
  | op :: ops =>
    let (replies, last) := (v.step isspace op).run ops
    (v.reply op :: replies, last)

end Meaning

/-- Positions are in the range of the string, and a string is not inserted into itself. -/
def Legal (v : Meaning) : Op → Prop
  | .substr x pos len => pos + len ≤ (v.content x).length
  | .suffix x pos => pos ≤ (v.content x).length
  | .assignSubstr x pos len => pos + len ≤ (v.content x).length
  | .unappend str charCount => charCount ≤ (v.content str).length
  | .insertSubstr dst src pos => dst ≠ src ∧ pos < (v.content dst).length
  | .eraseSubstr dst pos len => pos + len ≤ (v.content dst).length
  | _ => True

/-- No string but `x` has bytes among the `n` at `p`. -/
def World.Unseen (w : World) (x : Nat) (p : Ptr) (n : Nat) : Prop :=
  ∀ j, j ≠ x → Store.Disjoint (w.str j).arr (w.str j).len p n

/-- If the capacity suffices for `n` bytes more, these bytes are not seen by another string. -/
def World.RoomUnseen (w : World) (x n : Nat) : Prop :=
  (w.str x).len + n ≤ (w.str x).cap → w.Unseen x ((w.str x).arr.add (w.str x).len) n

/-- Where the code is right. -/
def Meets (w : World) (v : Meaning) : Op → Prop
  | .assignSubstr x pos _ => (w.str x).cap = 0 → pos = 0
  | .new2str x y => w.RoomUnseen x (w.str y).len
  | .newStrCstr x y => w.RoomUnseen x y.length
  | .newStrChar x _ => w.RoomUnseen x 1
  | .appendStr x y => w.RoomUnseen x (w.str y).len
  | .appendChar dest _ => w.RoomUnseen dest 1
  | .appendCharr dest cstr => w.RoomUnseen dest cstr.length
  | .insertSubstr dst src pos => (w.str dst).cap ≠ 0 → (w.str src).len + (w.str dst).len ≤ (w.str dst).cap →
      w.Unseen dst ((w.str dst).arr.add pos) ((w.str src).len + ((w.str dst).len - pos))
  | .eraseSubstr dst pos len => ((w.str dst).cap = 0 → len ≤ 1) ∧
      ((w.str dst).cap ≠ 0 → w.Unseen dst ((w.str dst).arr.add pos) ((w.str dst).len - (pos + len)))
  | .chopSpace str => (w.str str).len < 2 ^ 31 ∧
      ((w.str str).cap = 0 → Meaning.chop isspace (v.content str) = v.content str)
  | .toCstr src => (w.str src).len < (w.str src).cap → w.Unseen src ((w.str src).arr.add (w.str src).len) 1
  | _ => True

def MeetsRun (w : World) (v : Meaning) : List Op → Prop
  | [] => True
  | op :: ops => Legal v op ∧ Meets isspace w v op ∧
      ∀ reply w', w.step isspace op = some (reply, w') → MeetsRun w' (v.step isspace op) ops

end

/-- All strings hold what they are meant to hold. -/
structure Sound (w : World) (v : Meaning) : Prop where
  holds : ∀ i, Holds w.store (w.str i) (v.content i)
  count : w.count = v.count

variable {w w' : World} {v : Meaning} {st st' : Store} {s : Str} {xs ys : List Byte} {x y n m : Nat} {p : Ptr}

section

variable (sound : Sound w v)

include sound

theorem Sound.put (i : Nat) (here : Holds st s xs) (there : ∀ j, j ≠ i → Holds st (w.str j) (v.content j)) :
    Sound ({ w with store := st }.put i s) (v.put i xs) := by
  refine ⟨fun j => ?_, sound.count⟩
  by_cases same : j = i
  · subst same
    simpa [World.put, Meaning.put] using here
  · simpa [World.put, Meaning.put, same] using there j same

theorem Sound.new (here : Holds st s xs) (there : ∀ j, j ≠ v.count → Holds st (w.str j) (v.content j)) :
    Sound ({ w with store := st }.new s) (v.new xs) := by
  have put := sound.put v.count here there
  refine ⟨fun j => ?_, congrArg (· + 1) sound.count⟩
  rw [World.new, Meaning.new]
  simpa only [sound.count] using put.holds j

/-- Bytes are written after a string, where there is room and no other string sees it. -/
theorem Sound.write_after (ys : List Byte) (room : (w.str x).len + ys.length ≤ (w.str x).cap)
    (unseen : w.Unseen x ((w.str x).arr.add (w.str x).len) ys.length) :
    ∃ st, w.store.write ((w.str x).arr.add (w.str x).len) ys = some st ∧
      Holds st { w.str x with len := (w.str x).len + ys.length } (v.content x ++ ys) ∧
      ∀ j, Holds st (w.str j) (v.content j) := by
  have holds := sound.holds x
  have inside : w.store.Inside ((w.str x).arr.add (w.str x).len) ys.length := by
    rcases holds.capacity with none | ⟨_, inside⟩
    · exact .inl (by omega)
    · exact .inr (by simp only [Ptr.add]; omega)
  obtain ⟨st, written⟩ := write_some _ _ ys inside
  refine ⟨st, written, holds.extend room written, fun j => (sound.holds j).write_disjoint written ?_⟩
  by_cases same : j = x
  · subst same
    exact .inr (.inr (.inr (.inl (le_rfl))))
  · exact unseen j same

theorem Sound.copy_new (x : Nat) (enough : (w.str x).len ≤ n) :
    ∃ st, (w.store.galloc n).2.memcpy (w.store.galloc n).1 (w.str x).arr (w.str x).len = some st ∧
      Holds st ⟨⟨w.store.next, 0⟩, (w.str x).len, n⟩ (v.content x) ∧
      ∀ j, Holds st (w.str j) (v.content j) ∧ (w.str j).arr.array ≠ w.store.next := by
  have kept (j : Nat) := (sound.holds j).galloc n
  have other (j : Nat) : (w.str j).arr.array ≠ w.store.next := ne_of_lt (sound.holds j).known
  have length := (sound.holds x).length
  have new : (w.store.galloc n).2.size w.store.next = n := update_self ..
  rw [(kept x).memcpy_eq (.inl (other x).symm)]
  obtain ⟨st, written⟩ := write_some (w.store.galloc n).2 (w.store.galloc n).1 (v.content x)
    (.inr (by simp only [Store.galloc, update_self]; omega))
  have read := read_write written
  obtain ⟨_, sizes, next, _⟩ := write_cases written
  refine ⟨st, written, ⟨?_, length, ?_, ?_, .inr ⟨enough, ?_⟩⟩, fun j => ⟨?_, other j⟩⟩
  · rw [next]
    exact Nat.lt_succ_self _
  · simp only [sizes, new]
    omega
  · rw [length]
    exact read
  · simp only [sizes, new]
    omega
  · exact (kept j).write_disjoint written (.inl (other j))

theorem Sound.setCapacity (x : Nat) (enough : (w.str x).len ≤ n) :
    ∃ w', w.setCapacity x n = some w' ∧ Sound w' v ∧
      w'.str = update w.str x ⟨⟨w.store.next, 0⟩, (w.str x).len, n⟩ ∧
      ∀ k m, w'.Unseen x ⟨w.store.next, k⟩ m := by
  obtain ⟨st, copied, here, there⟩ := sound.copy_new x enough
  refine ⟨{ w with store := st }.put x ⟨⟨w.store.next, 0⟩, (w.str x).len, n⟩, ?_, ?_, rfl, fun k m j other => .inl ?_⟩
  · rw [World.setCapacity]
    simp only [bind_eq_bind, copied, bind_some]
    rfl
  · have put := sound.put x here fun j _ => (there j).1
    rwa [Meaning.put, update_eq_self] at put
  · simpa [World.put, other] using (there j).2

theorem Sound.make_room (x grown : Nat) (unseen : w.RoomUnseen x n) (enough : (w.str x).len + n ≤ grown) :
    ∃ w', (if (w.str x).len + n > (w.str x).cap then w.setCapacity x grown else some w) = some w' ∧ Sound w' v ∧
      (w'.str x).len = (w.str x).len ∧ (w'.str x).len + n ≤ (w'.str x).cap ∧ (∀ j, (w'.str j).len = (w.str j).len) ∧
      w'.Unseen x ((w'.str x).arr.add (w'.str x).len) n := by
  split
  · obtain ⟨w', result, sound', str, fresh⟩ := sound.setCapacity x (show (w.str x).len ≤ grown by omega)
    refine ⟨w', result, sound', ?_, ?_, fun j => ?_, ?_⟩
    · rw [str, update_self]
    · simpa only [str, update_self] using enough
    · by_cases same : j = x
      · subst same
        rw [str, update_self]
      · rw [str, update_of_ne same]
    · have here : (w'.str x).arr.add (w'.str x).len = ⟨w.store.next, (w'.str x).len⟩ := by
        rw [str]
        simp [Ptr.add]
      rw [here]
      exact fresh _ n
  · next room => exact ⟨w, rfl, sound, rfl, by omega, fun j => rfl, unseen (by omega)⟩

theorem Sound.memcpy_eq (y : Nat) (disjoint : Store.Disjoint p (w.str y).len (w.str y).arr (w.str y).len) :
    w.store.memcpy p (w.str y).arr (w.str y).len = w.store.write p (v.content y) :=
  (sound.holds y).memcpy_eq disjoint

end

theorem disjoint_symm (disjoint : Store.Disjoint p n q m) : Store.Disjoint q m p n := by
  rcases disjoint with other | none | none' | before | after
  · exact .inl other.symm
  · exact .inr (.inr (.inl none))
  · exact .inr (.inl none')
  · exact .inr (.inr (.inr (.inr before)))
  · exact .inr (.inr (.inr (.inl after)))

/-- What follows a string is copied from it or from a string that does not see it. -/
theorem Unseen.source (unseen : w.Unseen x ((w.str x).arr.add (w.str x).len) (w.str y).len) :
    Store.Disjoint ((w.str x).arr.add (w.str x).len) (w.str y).len (w.str y).arr (w.str y).len := by
  by_cases same : y = x
  · subst same
    exact .inr (.inr (.inr (.inr (le_rfl))))
  · exact disjoint_symm (unseen y same)

section

variable (sound : Sound w v)

include sound

private theorem appendStr_spec (x y : Nat) (unseen : w.RoomUnseen x (w.str y).len) :
    ∃ w', w.appendStr x y = some w' ∧ Sound w' (v.put x (v.content x ++ v.content y)) := by
  obtain ⟨w', grown, sound', len, room, lens, unseen⟩ := sound.make_room x
    (if (w.str x).len + (w.str y).len < (w.str x).cap * 2 then (w.str x).cap * 2 else (w.str x).len + (w.str y).len)
    unseen (by split <;> omega)
  rw [← lens y] at room unseen
  have copied := sound'.memcpy_eq y (Unseen.source unseen)
  have length := (sound'.holds y).length
  rw [length] at room unseen
  obtain ⟨st, written, here, there⟩ := sound'.write_after _ room unseen
  refine ⟨_, ?_, sound'.put x here fun j _ => there j⟩
  simp only [World.appendStr, bind_eq_bind]
  rw [grown, bind_some, copied, written, bind_some, ← lens x, ← lens y, length]

private theorem appendCharr_spec (dest : Nat) (cstr : List Byte) (unseen : w.RoomUnseen dest cstr.length) :
    ∃ w', w.appendCharr dest cstr = some w' ∧ Sound w' (v.put dest (v.content dest ++ cstr)) := by
  obtain ⟨w', grown, sound', len, room, lens, unseen⟩ := sound.make_room dest
    (if (w.str dest).len + cstr.length > (w.str dest).cap * 2 then (w.str dest).len + cstr.length
      else (w.str dest).cap * 2)
    unseen (by split <;> omega)
  obtain ⟨st, written, here, there⟩ := sound'.write_after _ room unseen
  refine ⟨_, ?_, sound'.put dest here fun j _ => there j⟩
  simp only [World.appendCharr, bind_eq_bind]
  rw [grown, bind_some, written, bind_some, ← lens dest]

private theorem appendChar_spec (dest : Nat) (ch : Byte) (unseen : w.RoomUnseen dest 1) :
    ∃ w', w.appendChar dest ch = some w' ∧ Sound w' (v.put dest (v.content dest ++ [ch])) := by
  obtain ⟨w', grown, sound', len, room, lens, unseen⟩ := sound.make_room dest (2 * (w.str dest).len + 4) unseen (by omega)
  obtain ⟨st, written, here, there⟩ := sound'.write_after [ch] room unseen
  refine ⟨_, ?_, sound'.put dest here fun j _ => there j⟩
  have test : (w.str dest).cap ≤ (w.str dest).len ↔ (w.str dest).len + 1 > (w.str dest).cap := by omega
  simp only [World.appendChar, bind_eq_bind, test]
  rw [grown, bind_some, written]
  rfl

theorem Sound.uncap (x : Nat) : Sound (w.put x { w.str x with cap := 0 }) v := by
  have put := sound.put x (sound.holds x).uncapped fun j _ => sound.holds j
  rwa [Meaning.put, update_eq_self] at put

theorem Sound.share (x : Nat) (here : Holds w.store s xs) :
    Sound ((w.put x { w.str x with cap := 0 }).new s) (v.new xs) :=
  (sound.uncap x).new here fun j _ => (sound.uncap x).holds j

theorem substr_spec (x pos len : Nat) (within : pos + len ≤ (v.content x).length) :
    ∃ w', w.substr x pos len = some w' ∧ Sound w' (v.new (((v.content x).drop pos).take len)) := by
  rw [← (sound.holds x).length] at within
  exact ⟨_, if_pos within, sound.share x ((sound.holds x).part within (.inl rfl))⟩

private theorem suffix_spec (x pos : Nat) (within : pos ≤ (v.content x).length) :
    ∃ w', w.suffix x pos = some w' ∧ Sound w' (v.new ((v.content x).drop pos)) := by
  have length := (sound.holds x).length
  rw [← length] at within
  have part := (sound.holds x).part (n := pos) (m := (w.str x).len - pos) (by omega) (.inl rfl)
  rw [take_of_length_le (by rw [length_drop]; omega)] at part
  exact ⟨_, if_pos within, sound.share x part⟩

private theorem newCharr_spec (ptr : List Byte) : ∃ w', w.newCharr ptr = some w' ∧ Sound w' (v.new ptr) := by
  have new : (w.store.galloc (ptr.length + 1)).2.size w.store.next = ptr.length + 1 := update_self ..
  have empty : Holds (w.store.galloc (ptr.length + 1)).2 ⟨⟨w.store.next, 0⟩, 0, ptr.length + 1⟩ [] :=
    ⟨Nat.lt_succ_self _, rfl, Nat.zero_le _, rfl, .inr ⟨Nat.zero_le _, Nat.le_of_eq (by rw [new, Nat.zero_add])⟩⟩
  obtain ⟨st, written⟩ := write_some (w.store.galloc (ptr.length + 1)).2 ⟨w.store.next, 0⟩ ptr
    (.inr (by simp only [new]; omega))
  have filled := empty.extend (by simp only; omega) written
  simp only [zero_add, nil_append] at filled
  have sizes := (write_cases written).2.1
  obtain ⟨st', ended⟩ := write_some st (Ptr.add ⟨w.store.next, 0⟩ ptr.length) [0]
    (.inr (by simp only [sizes, Ptr.add, new, length_singleton]; omega))
  have after : Store.Disjoint ⟨w.store.next, 0⟩ ptr.length (Ptr.add ⟨w.store.next, 0⟩ ptr.length) 1 :=
    .inr (.inr (.inr (.inl (le_rfl))))
  refine ⟨_, ?_, sound.new (filled.write_disjoint ended after) fun j _ => ?_⟩
  · simp only [World.newCharr, bind_eq_bind]
    rw [show (w.store.galloc (ptr.length + 1)).1 = ⟨w.store.next, 0⟩ from rfl, written, bind_some, ended, bind_some]
  · have other : (w.str j).arr.array ≠ w.store.next := ne_of_lt (sound.holds j).known
    exact (((sound.holds j).galloc _).write_disjoint written (.inl other)).write_disjoint ended (.inl other)

theorem Sound.new_array (x : Nat) (ys : List Byte) (enough : (w.str x).len + ys.length ≤ n) :
    ∃ st st', (w.store.galloc n).2.memcpy (w.store.galloc n).1 (w.str x).arr (w.str x).len = some st ∧
      (∀ y, st.memcpy ((w.store.galloc n).1.add (w.str x).len) (w.str y).arr (w.str y).len =
        st.write ((w.store.galloc n).1.add (w.str x).len) (v.content y)) ∧
      st.write ((w.store.galloc n).1.add (w.str x).len) ys = some st' ∧
      Sound ({ w with store := st' }.new ⟨(w.store.galloc n).1, (w.str x).len + ys.length, n⟩)
        (v.new (v.content x ++ ys)) := by
  obtain ⟨st, copied, here, there⟩ := sound.copy_new x (show (w.str x).len ≤ n by omega)
  have room : st.Inside ((w.store.galloc n).1.add (w.str x).len) ys.length := by
    rcases here.capacity with none | ⟨_, inside⟩
    · simp only at none
      exact .inl (by omega)
    · refine .inr (le_trans ?_ inside)
      simp only [Store.galloc, Ptr.add]
      omega
  obtain ⟨st', written⟩ := write_some st _ ys room
  refine ⟨st, st', copied, fun y => (there y).1.memcpy_eq (.inl (there y).2.symm), written, ?_⟩
  exact sound.new (here.extend enough written) fun j _ => (there j).1.write_disjoint written (.inl (there j).2)

theorem Sound.new_room (x : Nat) (ys : List Byte) (room : (w.str x).len + ys.length ≤ (w.str x).cap)
    (unseen : w.Unseen x ((w.str x).arr.add (w.str x).len) ys.length) :
    ∃ st, w.store.write ((w.str x).arr.add (w.str x).len) ys = some st ∧
      Sound (({ w with store := st }.put x { w.str x with cap := 0 }).new
        ⟨(w.str x).arr, (w.str x).len + ys.length, (w.str x).cap⟩) (v.new (v.content x ++ ys)) := by
  obtain ⟨st, written, here, there⟩ := sound.write_after ys room unseen
  have sound' : Sound { w with store := st } v := ⟨there, sound.count⟩
  exact ⟨st, written, sound'.share x here⟩

private theorem new2str_spec (x y : Nat) (unseen : w.RoomUnseen x (w.str y).len) :
    ∃ w', w.new2str x y = some w' ∧ Sound w' (v.new (v.content x ++ v.content y)) := by
  have length := (sound.holds y).length
  by_cases short : (w.str x).len + (w.str y).len > (w.str x).cap
  · obtain ⟨st, st', copied, source, written, sound'⟩ := sound.new_array x (v.content y)
      (n := (w.str x).len + (w.str y).len + 1) (by omega)
    refine ⟨_, ?_, sound'⟩
    simp only [World.new2str, if_pos short, bind_eq_bind]
    rw [copied, bind_some, source, written, bind_some, length]
  have hidden := unseen (by omega)
  have source := sound.memcpy_eq y (Unseen.source hidden)
  rw [length] at short hidden
  obtain ⟨st, written, sound'⟩ := sound.new_room x (v.content y) (by omega) hidden
  refine ⟨_, ?_, sound'⟩
  rw [← length] at short
  simp only [World.new2str, if_neg short, bind_eq_bind]
  rw [source, written, bind_some, length]

private theorem newStrCstr_spec (x : Nat) (y : List Byte) (unseen : w.RoomUnseen x y.length) :
    ∃ w', w.newStrCstr x y = some w' ∧ Sound w' (v.new (v.content x ++ y)) := by
  by_cases short : (w.str x).len + y.length > (w.str x).cap
  · obtain ⟨st, st', copied, source, written, sound'⟩ := sound.new_array x y
      (n := (w.str x).len + y.length + 1) (by omega)
    refine ⟨_, ?_, sound'⟩
    simp only [World.newStrCstr, if_pos short, bind_eq_bind]
    rw [copied, bind_some, written, bind_some]
  · obtain ⟨st, written, sound'⟩ := sound.new_room x y (by omega) (unseen (by omega))
    refine ⟨_, ?_, sound'⟩
    simp only [World.newStrCstr, if_neg short, bind_eq_bind]
    rw [written, bind_some]

private theorem newStrChar_spec (x : Nat) (c : Byte) (unseen : w.RoomUnseen x 1) :
    ∃ w', w.newStrChar x c = some w' ∧ Sound w' (v.new (v.content x ++ [c])) := by
  by_cases short : (w.str x).len + 1 > (w.str x).cap
  · obtain ⟨st, st', copied, source, written, sound'⟩ := sound.new_array x [c]
      (n := (w.str x).len + 1) (le_rfl)
    refine ⟨_, ?_, sound'⟩
    simp only [World.newStrChar, if_pos short, bind_eq_bind, Nat.add_sub_cancel]
    rw [copied, bind_some, written]
    rfl
  · obtain ⟨st, written, sound'⟩ := sound.new_room x [c] (Nat.le_of_not_lt short) (unseen (by omega))
    refine ⟨_, ?_, sound'⟩
    simp only [World.newStrChar, if_neg short, bind_eq_bind, Nat.add_sub_cancel]
    rw [written]
    rfl

private theorem assign_sound (dest src : Nat) : Sound (w.assign dest src) (v.put dest (v.content src)) := by
  have put := sound.put dest (sound.holds src).uncapped fun j _ => sound.holds j
  have uncapped := put.uncap src
  exact uncapped

private theorem assignSubstr_sound (x pos len : Nat) (within : pos + len ≤ (v.content x).length)
    (capped : (w.str x).cap = 0 → pos = 0) :
    Sound (w.assignSubstr x pos len) (v.put x (((v.content x).drop pos).take len)) := by
  have holds := sound.holds x
  rw [← holds.length] at within
  refine sound.put x (holds.part within ?_) fun j _ => sound.holds j
  rcases holds.capacity with none | ⟨order, inside⟩
  · exact .inl (by rw [none, capped none]; rfl)
  · rw [World.sub, if_pos (by omega)]
    exact .inr ⟨by omega, by omega⟩

private theorem unappend_spec (str charCount : Nat) (within : charCount ≤ (v.content str).length) :
    ∃ w', w.unappend str charCount = some w' ∧
      Sound w' (v.put str ((v.content str).take ((v.content str).length - charCount))) := by
  have holds := sound.holds str
  rw [← holds.length] at within ⊢
  exact ⟨_, if_neg (Nat.not_lt_of_le within), sound.put str (holds.first (Nat.sub_le _ _)) fun j _ => sound.holds j⟩

private theorem toCstr_spec (src : Nat)
    (unseen : (w.str src).len < (w.str src).cap → w.Unseen src ((w.str src).arr.add (w.str src).len) 1) :
    ∃ cstr w', w.toCstr src = some (cstr, w') ∧ Sound w' v ∧
      w'.store.read cstr ((w.str src).len + 1) = v.content src ++ [0] := by
  by_cases room : (w.str src).len < (w.str src).cap
  · obtain ⟨st, written, here, there⟩ := sound.write_after [0] room (unseen room)
    have sound' : Sound { w with store := st } v := ⟨there, sound.count⟩
    refine ⟨(w.str src).arr, _, ?_, sound'.uncap src, here.bytes⟩
    simp only [World.toCstr, if_pos (show (w.str src).cap > (w.str src).len ∧ (w.str src).cap ≠ 0 by omega),
      bind_eq_bind]
    rw [written, bind_some]
  · obtain ⟨st, copied, here, there⟩ := sound.copy_new src (Nat.le_succ (w.str src).len)
    have inside : st.Inside (Ptr.add ⟨w.store.next, 0⟩ (w.str src).len) 1 := by
      rcases here.capacity with none | ⟨_, inside⟩
      · cases none
      · refine .inr (le_trans ?_ inside)
        simp only [Ptr.add]
        omega
    obtain ⟨st', ended⟩ := write_some st _ [0] inside
    have whole := here.extend (le_rfl) ended
    refine ⟨⟨w.store.next, 0⟩, { w with store := st' }, ?_, ⟨fun j => ?_, sound.count⟩, whole.bytes⟩
    · simp only [World.toCstr, if_neg (show ¬((w.str src).cap > (w.str src).len ∧ (w.str src).cap ≠ 0) by omega),
        bind_eq_bind]
      rw [copied, bind_some, show (w.store.galloc ((w.str src).len + 1)).1 = ⟨w.store.next, 0⟩ from rfl, ended,
        bind_some]
    · exact (there j).1.write_disjoint ended (.inl (there j).2)

/-- `cu_str_erase_substr` without capacity makes room for no more than what is left, and copies everything. -/
theorem eraseSubstr_spec (dst pos len : Nat) (within : pos + len ≤ (v.content dst).length)
    (uncapped : (w.str dst).cap = 0 → len ≤ 1)
    (unseen : (w.str dst).cap ≠ 0 → w.Unseen dst ((w.str dst).arr.add pos) ((w.str dst).len - (pos + len))) :
    ∃ w', w.eraseSubstr dst pos len = some w' ∧
      Sound w' (v.put dst ((v.content dst).take pos ++ (v.content dst).drop (pos + len))) := by
  rw [← (sound.holds dst).length] at within
  obtain ⟨w1, grown, sound1, length, capped, hidden⟩ : ∃ w1, (if (w.str dst).cap = 0 then
      w.setCapacity dst ((w.str dst).len - len + 1) else some w) = some w1 ∧ Sound w1 v ∧
        (w1.str dst).len = (w.str dst).len ∧ (w1.str dst).cap ≠ 0 ∧
        w1.Unseen dst ((w1.str dst).arr.add pos) ((w.str dst).len - (pos + len)) := by
    split
    · next none =>
      have enough : (w.str dst).len ≤ (w.str dst).len - len + 1 := by omega
      obtain ⟨w1, result, sound1, str, fresh⟩ := sound.setCapacity dst enough
      refine ⟨w1, result, sound1, by rw [str, update_self], ?_, ?_⟩
      · rw [str, update_self]
        exact Nat.succ_ne_zero _
      have here : (w1.str dst).arr.add pos = ⟨w.store.next, pos⟩ := by
        rw [str]
        simp [Ptr.add]
      rw [here]
      exact fresh _ _
    · next some => exact ⟨w, rfl, sound, rfl, some, unseen some⟩
  have holds := sound1.holds dst
  have order : (w1.str dst).len ≤ (w1.str dst).cap := by
    rcases holds.capacity with none | ⟨order, _⟩
    · exact absurd none capped
    · exact order
  have inside := holds.inside
  have moved : w1.store.read ((w1.str dst).arr.add (pos + len)) ((w1.str dst).len - (pos + len)) =
      (v.content dst).drop (pos + len) := by
    rw [read_drop _ _ (by omega), holds.bytes]
  have rest : ((v.content dst).drop (pos + len)).length = (w1.str dst).len - (pos + len) := by
    rw [length_drop, ← holds.length]
  obtain ⟨st, written⟩ := write_some w1.store ((w1.str dst).arr.add pos)
    ((v.content dst).drop (pos + len)) (.inr (by rw [rest]; simp only [Ptr.add]; omega))
  have here := holds.overwrite (by omega : pos ≤ (w1.str dst).len) (by rw [rest]; omega) written
  rw [rest, show pos + ((w1.str dst).len - (pos + len)) = (w1.str dst).len - len by omega] at here
  refine ⟨_, ?_, sound1.put dst here fun j other => (sound1.holds j).write_disjoint written ?_⟩
  · simp only [World.eraseSubstr, bind_eq_bind]
    rw [grown, bind_some, if_pos (by omega), Store.memmove, if_pos, moved, written, bind_some]
    exact .inr (by simp only [Ptr.add]; omega)
  · rw [rest, length]
    exact hidden j other

end

private theorem disjoint_part (disjoint : Store.Disjoint q m (p.add k) n) (within : k ≤ l)
    (stop : l + x ≤ k + n) : Store.Disjoint q m (p.add l) x := by
  simp only [Store.Disjoint, Ptr.add] at disjoint ⊢
  omega

private theorem insertSubstr_spec (sound : Sound w v) (dst src pos : Nat) (other : dst ≠ src)
    (within : pos < (v.content dst).length)
    (unseen : (w.str dst).cap ≠ 0 → (w.str src).len + (w.str dst).len ≤ (w.str dst).cap →
      w.Unseen dst ((w.str dst).arr.add pos) ((w.str src).len + ((w.str dst).len - pos))) :
    ∃ w', w.insertSubstr dst src pos = some w' ∧
      Sound w' (v.put dst ((v.content dst).take pos ++ v.content src ++ (v.content dst).drop pos)) := by
  rw [← (sound.holds dst).length] at within
  obtain ⟨w1, grown, sound1, length, length', room, hidden⟩ : ∃ w1,
      (if (w.str dst).cap = 0 ∨ (w.str src).len + (w.str dst).len > (w.str dst).cap then
        w.setCapacity dst ((w.str src).len + (w.str dst).len + 1) else some w) = some w1 ∧ Sound w1 v ∧
        (w1.str dst).len = (w.str dst).len ∧ (w1.str src).len = (w.str src).len ∧
        (w1.str dst).len + (w1.str src).len ≤ (w1.str dst).cap ∧
        w1.Unseen dst ((w1.str dst).arr.add pos) ((w.str src).len + ((w.str dst).len - pos)) := by
    split
    · have enough : (w.str dst).len ≤ (w.str src).len + (w.str dst).len + 1 := by omega
      obtain ⟨w1, result, sound1, str, fresh⟩ := sound.setCapacity dst enough
      have source : w1.str src = w.str src := by rw [str, update_of_ne other.symm]
      refine ⟨w1, result, sound1, by rw [str, update_self], by rw [source], ?_, ?_⟩
      · rw [source, str, update_self]
        simp only
        omega
      · have here : (w1.str dst).arr.add pos = ⟨w.store.next, pos⟩ := by
          rw [str]
          simp [Ptr.add]
        rw [here]
        exact fresh _ _
    · next some => exact ⟨w, rfl, sound, rfl, rfl, by omega, unseen (by omega) (by omega)⟩
  rw [← length] at within
  have holds := sound1.holds dst
  have inside : (w1.str dst).arr.offset + (w1.str dst).cap ≤ w1.store.size (w1.str dst).arr.array := by
    rcases holds.capacity with none | ⟨_, inside⟩
    · omega
    · exact inside
  have source := (sound1.holds src).length
  have moved : w1.store.read ((w1.str dst).arr.add pos) ((w1.str dst).len - pos) = (v.content dst).drop pos := by
    rw [read_drop _ _ (le_of_lt within), holds.bytes]
  have rest : ((v.content dst).drop pos).length = (w1.str dst).len - pos := by
    rw [length_drop, ← holds.length]
  -- The rest of the string is moved, then the bytes of `src` are put before it.
  obtain ⟨st, written⟩ := write_some w1.store ((w1.str dst).arr.add (pos + (w1.str src).len))
    ((v.content dst).drop pos) (.inr (by rw [rest]; simp only [Ptr.add]; omega))
  have sizes := (write_cases written).2.1
  obtain ⟨st', written'⟩ := write_some st ((w1.str dst).arr.add pos) (v.content src)
    (.inr (by simp only [Ptr.add, sizes]; omega))
  have keep (j : Nat) (apart : j ≠ dst) : Holds st (w1.str j) (v.content j) := by
    refine (sound1.holds j).write_disjoint written (disjoint_part (hidden j apart) (Nat.le_add_right _ _) ?_)
    omega
  have here : Holds st' { w1.str dst with len := pos + (w1.str src).len + ((w1.str dst).len - pos) }
      ((v.content dst).take pos ++ v.content src ++ (v.content dst).drop pos) := by
    have before : Store.Disjoint (w1.str dst).arr pos ((w1.str dst).arr.add (pos + (w1.str src).len))
        ((v.content dst).drop pos).length := by
      refine .inr (.inr (.inr (.inl ?_)))
      simp only [Ptr.add]
      omega
    have first := (holds.first (le_of_lt within)).write_disjoint written before
    have second := first.extend (by simp only; omega) written'
    have after : Store.Disjoint ((w1.str dst).arr.add (pos + (w1.str src).len)) ((v.content dst).drop pos).length
        ((w1.str dst).arr.add pos) (v.content src).length := by
      refine .inr (.inr (.inr (.inr ?_)))
      simp only [Ptr.add]
      omega
    have follow := (read_write_disjoint written' after).trans (read_write written)
    rw [rest] at follow
    rw [source] at follow ⊢
    exact second.grow (by simp only; omega) follow
  refine ⟨_, ?_, sound1.put dst here fun j apart => (keep j apart).write_disjoint written' ?_⟩
  · have step : ((w1.str dst).arr.add pos).add (w1.str src).len = (w1.str dst).arr.add (pos + (w1.str src).len) := by
      simp only [Ptr.add, add_assoc]
    have total : pos + (w1.str src).len + ((w1.str dst).len - pos) = (w1.str dst).len + (w1.str src).len := by omega
    have copied : st.memcpy ((w1.str dst).arr.add pos) (w1.str src).arr (w1.str src).len = some st' := by
      rw [(keep src other.symm).memcpy_eq, written']
      exact disjoint_symm (disjoint_part (hidden src other.symm) (le_rfl) (by omega))
    simp only [World.insertSubstr, bind_eq_bind]
    rw [if_pos (by omega), grown, bind_some, step, Store.memmove, if_pos, moved, written, bind_some, copied,
      bind_some, total]
    exact .inr (by simp only [Ptr.add]; omega)
  · refine disjoint_part (hidden j apart) (le_rfl) ?_
    omega

section

variable {isspace : Byte → Bool} {byteAt : Nat → Byte} {ops : List Op} {op : Op}

private theorem skipSpaces_spec (isspace : Byte → Bool) (byteAt : Nat → Byte) (s n : Nat) : ∃ k r, World.skipSpaces
    isspace byteAt s n = (s + k, r) ∧ k + r = n ∧
    read byteAt (s + k) r = (read byteAt s n).dropWhile isspace ∧ (r ≠ 0 → ¬isspace (byteAt (s + k))) := by
  induction n generalizing s with
  | zero => exact ⟨0, 0, rfl, rfl, rfl, fun some => absurd rfl some⟩
  | succ n ih =>
    have first : read byteAt s (n + 1) = byteAt s :: read byteAt (s + 1) n := by
      rw [add_comm, read_add]
      rfl
    rw [World.skipSpaces, first]
    split
    · next space =>
      obtain ⟨k, r, result, total, dropped, stop⟩ := ih (s + 1)
      rw [add_assoc, add_comm 1 k] at result dropped stop
      refine ⟨k + 1, r, result, by omega, ?_, stop⟩
      rw [dropWhile_cons_of_pos space]
      exact dropped
    · next other =>
      refine ⟨0, n + 1, rfl, zero_add _, ?_, fun _ => other⟩
      rw [dropWhile_cons_of_neg other, ← first]
      rfl

private theorem dropSpaces_spec {s n : Nat} (other : ¬isspace (byteAt s)) : World.dropSpaces isspace byteAt s n ≤ n ∧
    read byteAt s (World.dropSpaces isspace byteAt s n + 1) =
      ((read byteAt s (n + 1)).reverse.dropWhile isspace).reverse := by
  induction n with
  | zero =>
    have single : read byteAt s 1 = [byteAt s] := rfl
    refine ⟨le_rfl, ?_⟩
    rw [World.dropSpaces, single, reverse_singleton, dropWhile_cons_of_neg other, reverse_singleton]
  | succ n ih =>
    have last : read byteAt s (n + 1 + 1) = read byteAt s (n + 1) ++ [byteAt (s + (n + 1))] := read_add
    rw [World.dropSpaces, last, reverse_append, reverse_singleton, singleton_append]
    split
    · next space =>
      rw [dropWhile_cons_of_pos space]
      exact ⟨Nat.le_succ_of_le ih.1, ih.2⟩
    · next more =>
      refine ⟨le_rfl, ?_⟩
      rw [dropWhile_cons_of_neg more, reverse_cons, reverse_reverse, last]

private theorem chopSpace_cases (isspace : Byte → Bool) (holds : Holds w.store (w.str x) xs) (short : (w.str x).len < 2 ^ 31) :
    ∃ k r, k + r ≤ (w.str x).len ∧ (xs.drop k).take r = Meaning.chop isspace xs ∧
      w.chopSpace isspace x = w.put x ⟨(w.str x).arr.add k, r, World.sub (w.str x).cap (World.sub (w.str x).len r)⟩ := by
  have signed : (BitVec.ofNat 32 (w.str x).len).toInt = (w.str x).len := by
    rw [BitVec.toInt, BitVec.toNat_ofNat, Nat.mod_eq_of_lt (by omega), if_pos (by omega)]
  have here : read (w.store.bytes (w.str x).arr.array) (w.str x).arr.offset (w.str x).len = xs := holds.bytes
  have length := holds.length
  by_cases some : (w.str x).len = 0
  · refine ⟨0, 0, Nat.zero_le _, ?_, ?_⟩
    · rw [some] at length
      rw [eq_nil_of_length_eq_zero length.symm]
      rfl
    · simp only [World.chopSpace, some]
      rfl
  obtain ⟨k, r, skipped, total, dropped, stop⟩ := skipSpaces_spec isspace
    (w.store.bytes (w.str x).arr.array) (w.str x).arr.offset (w.str x).len
  rw [here] at dropped
  have pos : ((w.str x).len : Int) > 0 := by omega
  simp only [World.chopSpace, signed, if_pos pos, Int.toNat_natCast, skipped]
  have suffix : read (w.store.bytes (w.str x).arr.array) ((w.str x).arr.offset + k) r = xs.drop k := by
    rw [← here, show r = (w.str x).len - k by omega]
    exact read_drop w.store (w.str x).arr (by omega)
  split
  · next none =>
    refine ⟨k, 0, by omega, ?_, rfl⟩
    rw [none] at dropped
    rw [Meaning.chop, ← dropped]
    rfl
  · next more =>
    obtain ⟨less, chopped⟩ := dropSpaces_spec (n := r - 1) (stop more)
    rw [Nat.sub_add_cancel (by omega), dropped] at chopped
    refine ⟨k, _, by omega, ?_, rfl⟩
    rw [Meaning.chop, ← chopped, ← suffix]
    exact (read_take w.store ((w.str x).arr.add k) (by omega)).symm

private theorem chopSpace_sound (sound : Sound w v) (str : Nat) (short : (w.str str).len < 2 ^ 31)
    (capped : (w.str str).cap = 0 → Meaning.chop isspace (v.content str) = v.content str) :
    Sound (w.chopSpace isspace str) (v.put str (Meaning.chop isspace (v.content str))) := by
  have holds := sound.holds str
  obtain ⟨k, r, within, chopped, result⟩ := chopSpace_cases isspace holds short
  rw [result, ← chopped]
  have less : World.sub (w.str str).len r = (w.str str).len - r := if_pos (by omega)
  refine sound.put str (holds.part within ?_) fun j _ => sound.holds j
  rcases holds.capacity with none | ⟨order, inside⟩
  · have all := congrArg List.length (chopped.trans (capped none))
    rw [length_take, ← holds.length] at all
    refine .inl ?_
    rw [World.sub, if_pos (by omega)]
    omega
  · rw [World.sub, if_pos (by omega)]
    exact .inr ⟨by omega, by omega⟩

theorem step_sound (sound : Sound w v) (legal : Legal v op) (meets : Meets isspace w v op) :
    ∃ w', w.step isspace op = some (v.reply op, w') ∧ Sound w' (v.step isspace op) := by
  have silent {result : Option World} {next : Meaning} (spec : ∃ w', result = some w' ∧ Sound w' next) :
      ∃ w', result.map (([] : List Byte), ·) = some ([], w') ∧ Sound w' next := by
    obtain ⟨w', rfl, sound'⟩ := spec
    exact ⟨w', rfl, sound'⟩
  cases op with
  | newCharr ptr => exact silent (newCharr_spec sound ptr)
  | newCopy str0 => exact ⟨_, rfl, sound.share str0 (sound.holds str0).uncapped⟩
  | assign dest src => exact ⟨_, rfl, assign_sound sound dest src⟩
  | substr x pos len => exact silent (substr_spec sound x pos len legal)
  | suffix x pos => exact silent (suffix_spec sound x pos legal)
  | assignSubstr x pos len => exact ⟨_, rfl, assignSubstr_sound sound x pos len legal meets⟩
  | new2str x y => exact silent (new2str_spec sound x y meets)
  | newStrCstr x y => exact silent (newStrCstr_spec sound x y meets)
  | newStrChar x c => exact silent (newStrChar_spec sound x c meets)
  | appendStr x y => exact silent (appendStr_spec sound x y meets)
  | appendChar dest ch => exact silent (appendChar_spec sound dest ch meets)
  | appendCharr dest cstr => exact silent (appendCharr_spec sound dest cstr meets)
  | unappend str charCount => exact silent (unappend_spec sound str charCount legal)
  | insertSubstr dst src pos => exact silent (insertSubstr_spec sound dst src pos legal.1 legal.2 meets)
  | eraseSubstr dst pos len => exact silent (eraseSubstr_spec sound dst pos len legal meets.1 meets.2)
  | chopSpace str => exact ⟨_, rfl, chopSpace_sound sound str meets.1 meets.2⟩
  | toCstr src =>
    obtain ⟨cstr, w', result, sound', bytes⟩ := toCstr_spec sound src meets
    refine ⟨w', ?_, sound'⟩
    rw [World.step, result]
    exact congrArg (fun reply => some (reply, w')) bytes

theorem run_sound (sound : Sound w v) (meets : MeetsRun isspace w v ops) :
    ∃ w', w.run isspace ops = some ((v.run isspace ops).1, w') ∧ Sound w' (v.run isspace ops).2 := by
  induction ops generalizing w v with
  | nil => exact ⟨w, rfl, sound⟩
  | cons op ops ih =>
    obtain ⟨legal, here, later⟩ := meets
    obtain ⟨w1, result, sound1⟩ := step_sound sound legal here
    obtain ⟨w', rest, sound'⟩ := ih sound1 (later _ _ result)
    refine ⟨w', ?_, sound'⟩
    simp only [World.run, result, bind_eq_bind, bind_some, rest]
    rfl

theorem Sound.start (bytes : Nat → Nat → Byte) : Sound (.start bytes) .start :=
  ⟨fun _ => ⟨zero_lt_one, rfl, le_rfl, rfl, .inl rfl⟩, rfl⟩

end

/-- In a run whose steps are all ones where the code is right, no byte outside an allocation is accessed, every string
holds what the operations on lists of bytes say, with its capacity zero or between its length and the bytes it has, and
the strings that are returned are right. -/
theorem strings_follow (isspace : Byte → Bool) (bytes : Nat → Nat → Byte) (ops : List Op)
    (meets : MeetsRun isspace (.start bytes) .start ops) :
    ∃ w, World.run isspace (.start bytes) ops = some ((Meaning.start.run isspace ops).1, w) ∧
      ∀ i, Holds w.store (w.str i) ((Meaning.start.run isspace ops).2.content i) := by
  obtain ⟨w, result, sound⟩ := run_sound (.start bytes) meets
  exact ⟨w, result, sound.holds⟩

/-- The space and the characters from 9 to 13. -/
def cIsspace (c : Byte) : Bool := c = 32 ∨ 9 ≤ c.toNat ∧ c.toNat ≤ 13

/-- Two strings that share an array, of which one is then extended. -/
def sharing : List Op := [.newCharr [97, 98], .newCopy 0, .appendChar 1 99, .toCstr 0]

theorem sharing_follows : MeetsRun cIsspace (.start fun _ _ => 0) .start sharing ∧
    ∃ w, World.run cIsspace (.start fun _ _ => 0) sharing = some ([[], [], [], [97, 98, 0]], w) ∧
      w.store.read (w.str 1).arr (w.str 1).len = [97, 98, 99] := by
  have meets : MeetsRun cIsspace (.start fun _ _ => 0) .start sharing := by
    refine ⟨trivial, trivial, fun _ _ first => ?_⟩
    cases first
    refine ⟨trivial, trivial, fun _ _ second => ?_⟩
    cases second
    refine ⟨trivial, fun room => absurd room (by decide), fun _ _ third => ?_⟩
    cases third
    refine ⟨trivial, fun room => absurd room (by decide), fun _ _ _ => trivial⟩
  obtain ⟨w, result, holds⟩ := strings_follow cIsspace (fun _ _ => 0) sharing meets
  exact ⟨meets, w, result, (holds 1).bytes⟩

/-- A string of two bytes that shares its array has both bytes erased: one byte is allocated, and two are copied. -/
theorem eraseSubstr_outside : Legal (Meaning.start.run cIsspace [.newCharr [97, 98], .newCopy 0]).2 (.eraseSubstr 1 0 2) ∧
    (Meaning.start.run cIsspace [.newCharr [97, 98], .newCopy 0, .eraseSubstr 1 0 2]).2.content 1 = [] ∧
    World.run cIsspace (.start fun _ _ => 0) [.newCharr [97, 98], .newCopy 0, .eraseSubstr 1 0 2] = none :=
  ⟨le_refl 2, rfl, rfl⟩

end Culibs.Cu.Str
