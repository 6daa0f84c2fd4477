import Culibs.Cuoo.Halloc.Load
import Culibs.Cuoo.Halloc.Table

namespace Culibs.Cuoo.Halloc

open Function List Option Hset

variable {Key : Type}

/-- A set in memory and the set of objects that it represents. -/
structure Represents (m : Memory Key) (hset : Hset Nat) : Prop where
  table : Table m hset.arr []
  mask : m.mask = hset.mask
  size : m.size = hset.size

/-- What every run keeps. The objects of the set are known and have different keys. -/
structure Consistent (hash : Key → Word) (m : Memory Key) (hset : Hset Nat) : Prop where
  represents : Represents m hset
  kept : hset.Kept (hashAt hash m.objs)
  known : ∀ o ∈ Hset.stored hset.arr, o < m.objs.length
  unique : ∀ o ∈ Hset.stored hset.arr, ∀ o' ∈ Hset.stored hset.arr, m.objs[o]? = m.objs[o']? → o = o'

variable {o : Nat}

theorem Link.halloc_absent {link : Link Nat} (absent : o ∉ link.objs) :
    link.halloc o = (false, link.mergeObj o) := by
  induction link with
  | null => rfl
  | obj obj0 => simp_all [Link.halloc, Link.objs, Link.mergeObj]
  | pair obj0 obj1 => simp_all [Link.halloc, Link.objs, Link.mergeObj]
  | quad obj0 obj1 obj2 link ih => simp_all [Link.halloc, Link.objs, Link.mergeObj]

theorem Hset.Valid.congr {hash hash' : Nat → Word} {hset : Hset Nat} (valid : hset.Valid hash k)
    (same : ∀ o ∈ Hset.stored hset.arr, hash' o = hash o) : hset.Valid hash' k :=
  { valid with
    placed := fun i link held o mem => by
      rw [same o (mem_stored.mpr ⟨link, mem_of_getElem? held, mem⟩)]
      exact valid.placed i link held o mem }

section Steps

variable {hash : Key → Word} {m : Memory Key} {hset : Hset Nat}

private theorem hashAt_append (known : o < objs.length) (key : Key) :
    hashAt hash (objs ++ [key]) o = hashAt hash objs o := by
  rw [hashAt, hashAt, getElem?_append_left known]

theorem hashAt_length (objs : List Key) (key : Key) : hashAt hash (objs ++ [key]) objs.length = hash key := by
  rw [hashAt, getElem?_concat_length]
  rfl

variable {hset' : Hset Nat}

theorem Represents.shrink (rep : Represents m hset) (length : hset.arr.length = 2 ^ k)
    (mask : hset.mask = 2 ^ k - 1) (less : j < k) (shrunk : hset.shrink (2 ^ j) = some hset') :
    ∃ m', m.shrink (2 ^ j) = .ok m' ∧ Represents m' hset' ∧ m'.objs = m.objs := by
  obtain ⟨m', done, objs, mask', size', table'⟩ :=
    rep.table.shrink length (rep.mask.trans mask) less
  have cap : hset.mask + 1 = 2 ^ k := by rw [mask, Nat.sub_add_cancel (Nat.two_pow_pos k)]
  rw [Hset.shrink, cap, if_pos (Nat.pow_lt_pow_right (by decide) less)] at shrunk
  cases shrunk
  exact ⟨m', done, ⟨table', mask', size'.trans rep.size⟩, objs⟩

theorem Represents.grow (rep : Represents m hset) {k : Nat}
    (known : ∀ o ∈ Hset.stored hset.arr, o < m.objs.length)
    (grown : hset.grow (hashAt hash m.objs) (2 ^ k) = some hset') :
    ∃ m', m.grow hash (2 ^ k) = .ok m' ∧ Represents m' hset' ∧ m'.objs = m.objs := by
  obtain ⟨dst, allocated, rfl⟩ := map_eq_some_iff.mp grown
  rw [Hset.unewarrz] at allocated
  split at allocated
  · next memory =>
    cases allocated
    obtain ⟨m', done, size, grid⟩ := rep.table.grow hash rfl known memory
    exact ⟨m', done, ⟨grid.table, grid.mask, size.trans rep.size⟩, grid.objs⟩
  · cases allocated

theorem Consistent.erase (consistent : Consistent hash m hset) (mem : o ∈ Hset.stored hset.arr) :
    ∃ m' hset', m.hsetErase hash o = .ok m' ∧ Consistent hash m' hset' ∧ m'.objs = m.objs ∧
      (Hset.stored hset.arr).Perm (o :: Hset.stored hset'.arr) := by
  obtain ⟨⟨table, mask, size⟩, ⟨k, valid, nearly⟩, known, unique⟩ := consistent
  obtain ⟨hset', erased, _, perm, outcome⟩ := valid.erase mem nearly.lower
  have kept' := (Hset.Kept.erase ⟨k, valid, nearly⟩ erased).kept
  suffices simulated : ∃ m', m.hsetErase hash o = .ok m' ∧ Represents m' hset' ∧ m'.objs = m.objs by
    obtain ⟨m', done, rep, objs⟩ := simulated
    have older (o' : Nat) (inside : o' ∈ Hset.stored hset'.arr) : o' ∈ Hset.stored hset.arr :=
      perm.mem_iff.mpr (mem_cons_of_mem o inside)
    refine ⟨m', hset', done, ⟨rep, ?_, ?_, ?_⟩, objs, perm⟩
    · rw [objs]
      exact kept'
    · intro o' inside
      rw [objs]
      exact known o' (older o' inside)
    · intro o' inside o'' inside'
      rw [objs]
      exact unique o' (older o' inside) o'' (older o'' inside')
  obtain ⟨link, held, _, here⟩ := valid.slot_bound o
  obtain ⟨ln, used, rest, holds, replace⟩ := table.slot held
  obtain ⟨left, m1, done, isLeft, leaves⟩ := eraseLoop_spec _ holds holds.enough (here.mp mem)
  have kept1 := leaves.kept
  have rep : Represents { m1 with size := hset.size - 1 } { hset with
      size := hset.size - 1, arr := hset.arr.set (Hset.slot (hashAt hash m.objs) hset.mask o) left } :=
    ⟨(replace rfl rfl leaves).congr rfl rfl rfl rfl, kept1.mask.trans mask, rfl⟩
  have fewer : m1.size - 1 = hset.size - 1 := by rw [kept1.size, size]
  simp only [Hset.erase, held, bind_some, isLeft] at erased
  simp only [Memory.hsetErase, Memory.slotOf_eq hash rfl (known o mem), bind, Except.bind, mask, done, fewer]
  rcases outcome with ⟨keeps, _⟩ | ⟨large, shrinks, _⟩
  · simp only [keeps] at erased ⊢
    cases erased
    exact ⟨_, rfl, rep, kept1.objs⟩
  · simp only [shrinks] at erased ⊢
    have length : (hset.arr.set (Hset.slot (hashAt hash m.objs) hset.mask o) left).length = 2 ^ k := by
      rw [length_set, valid.length]
    obtain ⟨m2, shrunk, represents2, objs⟩ := rep.shrink length valid.mask (by omega : max 3 (k - 2) < k) erased
    exact ⟨m2, shrunk, represents2, objs.trans kept1.objs⟩

theorem Consistent.added (consistent : Consistent hash m hset) {key : Key}
    (absent : ∀ o ∈ Hset.stored hset.arr, m.objs[o]? ≠ some key) {m' : Memory Key}
    (made : hset.halloc (hashAt hash (m.objs ++ [key])) m.objs.length = some hset') (rep : Represents m' hset')
    (objs : m'.objs = m.objs ++ [key]) :
    Consistent hash m' hset' ∧ (Hset.stored hset'.arr).Perm (m.objs.length :: Hset.stored hset.arr) := by
  obtain ⟨_, ⟨k, valid, nearly⟩, known, unique⟩ := consistent
  have valid' := valid.congr fun o mem => hashAt_append (known o mem) key
  have kept' := (Hset.Kept.halloc ⟨k, valid', nearly⟩ made).kept
  have perm : (Hset.stored hset'.arr).Perm (m.objs.length :: Hset.stored hset.arr) := by
    rcases valid'.halloc made with ⟨_, mem⟩ | ⟨_, perm, _⟩
    · exact (lt_irrefl _ (known _ mem)).elim
    · exact perm
  have isNew : m'.objs[m.objs.length]? = some key := by rw [objs, getElem?_concat_length]
  have isOld {o : Nat} (mem : o ∈ Hset.stored hset.arr) : m'.objs[o]? = m.objs[o]? := by
    rw [objs, getElem?_append_left (known o mem)]
  refine ⟨⟨rep, by rw [objs]; exact kept', fun o mem => ?_, fun o mem o' member' same => ?_⟩, perm⟩
  · rw [objs, length_append]
    rcases mem_cons.mp (perm.mem_iff.mp mem) with rfl | old
    · exact Nat.lt_succ_self _
    · exact Nat.lt_succ_of_lt (known o old)
  rcases mem_cons.mp (perm.mem_iff.mp mem) with rfl | old
  · rcases mem_cons.mp (perm.mem_iff.mp member') with rfl | old'
    · rfl
    · rw [isNew, isOld old'] at same
      exact (absent o' old' same.symm).elim
  · rcases mem_cons.mp (perm.mem_iff.mp member') with rfl | old'
    · rw [isNew, isOld old] at same
      exact (absent o old same).elim
    · rw [isOld old, isOld old'] at same
      exact unique o old o' old' same

variable [DecidableEq Key]

/-- The search finds the object with the key, or links a new one in place. -/
theorem Consistent.search (consistent : Consistent hash m hset) (key : Key) :
    let search := Memory.hallocLoop m.rounds m (.bucket (Hset.slot hash m.mask key)) key
    (∃ o ∈ Hset.stored hset.arr, m.objs[o]? = some key ∧ search = .ok (true, o, m)) ∨
      (∀ o ∈ Hset.stored hset.arr, m.objs[o]? ≠ some key) ∧
        ∃ link m1, hset.arr[Hset.slot hash m.mask key]? = some link ∧ m.objs.length ∉ link.objs ∧
          search = .ok (false, m.objs.length, m1) ∧ m1.objs = m.objs ++ [key] ∧ m1.size = hset.size ∧
          Represents { m1 with size := m1.size + 1 } { hset with
            size := hset.size + 1, arr := hset.arr.set (Hset.slot hash m.mask key) (link.mergeObj m.objs.length) } := by
  have ⟨⟨table, mask, size⟩, ⟨k, valid, _⟩, known, _⟩ := consistent
  have length : Hset.slot hash m.mask key < hset.arr.length := by
    rw [mask, valid.mask, slot_eq, valid.length]
    exact Nat.mod_lt _ (Nat.two_pow_pos k)
  have held := getElem?_eq_getElem length
  generalize hset.arr[Hset.slot hash m.mask key] = link at held
  obtain ⟨ln, used, rest, holds, replace⟩ := table.slot held
  have inLink (o : Nat) (mem : o ∈ link.objs) : o ∈ Hset.stored hset.arr :=
    mem_stored.mpr ⟨link, mem_of_getElem? held, mem⟩
  rcases hallocLoop_spec _ key holds holds.enough (fun o mem => known o (inLink o mem)) with
    ⟨o, mem, isKey, done⟩ | ⟨absent, m1, done, leaves⟩
  · exact .inl ⟨o, inLink o mem, isKey, done⟩
  have kept1 := leaves.kept
  have more := kept1.size.trans size
  refine .inr ⟨fun o mem isKey => ?_, link, m1, held, fun mem => lt_irrefl _ (known _ (inLink _ mem)), done,
    kept1.objs, more, (@replace (m.objNew key).2 _ _ _ rfl rfl leaves).congr rfl rfl rfl rfl, kept1.mask.trans mask,
    congrArg (· + 1) more⟩
  obtain ⟨link', held', _, here⟩ := valid.slot_bound o
  have isHash : hashAt hash m.objs o = hash key := by rw [hashAt, isKey]; rfl
  rw [Hset.slot, isHash, ← mask] at held'
  obtain rfl := some.inj (held.symm.trans held')
  exact absent o (here.mp mem) isKey

theorem Consistent.halloc (consistent : Consistent hash m hset) (key : Key) :
    (∃ o ∈ Hset.stored hset.arr, m.objs[o]? = some key ∧ m.hallocRaw hash key = .ok (o, m)) ∨
      (∀ o ∈ Hset.stored hset.arr, m.objs[o]? ≠ some key) ∧
        (m.hallocRaw hash key = .error .outOfMemory ∧ 2 ^ 64 ≤ 8 * ((m.mask + 1) * 2) ∨
          ∃ m' hset', m.hallocRaw hash key = .ok (m.objs.length, m') ∧ Consistent hash m' hset' ∧
            m'.objs = m.objs ++ [key] ∧ (Hset.stored hset'.arr).Perm (m.objs.length :: Hset.stored hset.arr)) := by
  have ⟨⟨_, mask, _⟩, ⟨k, valid, _⟩, known, _⟩ := consistent
  rcases consistent.search key with ⟨o, mem, isKey, done⟩ | ⟨absent, link, m1, held, isNew, done, objs1, size1, rep⟩
  · refine .inl ⟨o, mem, isKey, ?_⟩
    simp only [Memory.hallocRaw, bind, Except.bind, done]
    rfl
  refine .inr ⟨absent, ?_⟩
  let hset1 : Hset Nat :=
    { hset with size := hset.size + 1, arr := hset.arr.set (Hset.slot hash m.mask key) (link.mergeObj m.objs.length) }
  have isSlot : Hset.slot (hashAt hash (m.objs ++ [key])) hset.mask m.objs.length = Hset.slot hash m.mask key := by
    rw [Hset.slot, Hset.slot, hashAt_length, mask]
  have made : hset.halloc (hashAt hash (m.objs ++ [key])) m.objs.length =
      if Hset.overloaded hset1.size hset.mask then hset1.grow (hashAt hash (m.objs ++ [key])) ((hset.mask + 1) * 2)
      else some hset1 := by
    simp only [Hset.halloc, isSlot, held, Link.halloc_absent isNew]
    rfl
  have searched : m.hallocRaw hash key = if Hset.overloaded hset1.size hset.mask then
      ({ m1 with size := m1.size + 1 }.grow hash ((hset.mask + 1) * 2)).map fun grown => (m.objs.length, grown)
      else .ok (m.objs.length, { m1 with size := m1.size + 1 }) := by
    have more : hset1.size = m1.size + 1 := congrArg (· + 1) size1.symm
    rw [Memory.hallocRaw, done, more, mask]
    simp only [bind, Except.bind, Bool.false_eq_true, if_false]
    split <;> rfl
  by_cases full : Hset.overloaded hset1.size hset.mask
  · rw [if_pos full] at made searched
    have doubled : (hset.mask + 1) * 2 = 2 ^ (k + 1) := by
      rw [valid.mask, Nat.sub_add_cancel (Nat.two_pow_pos k), Nat.pow_succ]
    rw [doubled] at made searched
    by_cases memory : 8 * 2 ^ (k + 1) < 2 ^ 64
    · have known' : ∀ o ∈ Hset.stored hset1.arr, o < m1.objs.length := by
        intro o mem
        have perm := @stored_set _ _ _ _ held (link.mergeObj m.objs.length) [m.objs.length] (by
          rw [Link.objs_mergeObj]
          exact perm_append_comm)
        rw [objs1, length_append]
        rcases mem_cons.mp (perm.mem_iff.mp mem) with rfl | old
        · exact Nat.lt_succ_self _
        · exact Nat.lt_succ_of_lt (known o old)
      have grown : hset1.grow (hashAt hash m1.objs) (2 ^ (k + 1)) = some { hset1 with
          mask := 2 ^ (k + 1) - 1
          arr := hset1.arr.foldl (Hset.growSlot (hashAt hash m1.objs) (2 ^ (k + 1) - 1))
            (replicate (2 ^ (k + 1)) .null) } := by
        rw [Hset.grow, Hset.unewarrz, if_pos memory]
        rfl
      obtain ⟨m2, done, rep, objs2⟩ := rep.grow known' grown
      rw [objs1] at grown
      rw [objs1] at rep
      obtain ⟨consistent', perm⟩ := consistent.added absent (made.trans grown) rep (objs2.trans objs1)
      exact .inr ⟨m2, _, by rw [searched, done]; rfl, consistent', objs2.trans objs1, perm⟩
    · refine .inl ⟨?_, ?_⟩
      · rw [searched, Memory.grow, if_neg memory]
        rfl
      · rw [mask, doubled]
        exact Nat.le_of_not_lt memory
  · rw [if_neg full] at made searched
    obtain ⟨consistent', perm⟩ := consistent.added absent made rep objs1
    exact .inr ⟨_, _, searched, consistent', objs1, perm⟩

end Steps

/-- A call, with the object that `cuexP_halloc_raw` returned or `_hset_erase` was given. -/
inductive Event (Key : Type) where
  | halloc (key : Key) (obj : Nat)
  | erase (obj : Nat)

def Event.apply (live : Nat → Option Key) : Event Key → Nat → Option Key
  | halloc key obj => update live obj (some key)
  | erase obj => update live obj none

/-- The objects that are allocated and not erased, with their keys. -/
def live (events : List (Event Key)) : Nat → Option Key := events.foldl Event.apply fun _ => none

/-- The runs from `_hset_init`. Only a live object may be erased. -/
inductive Memory.Run [DecidableEq Key] (hash : Key → Word) : List (Event Key) → Memory Key → Prop
  | init : Run hash [] .init
  | halloc {events : List (Event Key)} {m m' : Memory Key} {obj : Nat} (key : Key) : Run hash events m →
      m.hallocRaw hash key = .ok (obj, m') → Run hash (events ++ [.halloc key obj]) m'
  | erase {events : List (Event Key)} {m m' : Memory Key} {obj : Nat} : Run hash events m → (live events obj).isSome →
      m.hsetErase hash obj = .ok m' → Run hash (events ++ [.erase obj]) m'

/-- The chains hold the live objects, each once, in the slot of its hash and with a key of its own. -/
structure Holding (hash : Key → Word) (m : Memory Key) (live : Nat → Option Key) (links : List (Link Nat)) : Prop where
  table : Table m links []
  length : links.length = m.mask + 1
  stored : ∀ o, o ∈ Hset.stored links ↔ (live o).isSome
  distinct : (Hset.stored links).Nodup
  size : m.size = (Hset.stored links).length
  keys : ∀ o key, live o = some key → m.objs[o]? = some key
  placed : ∀ i link, links[i]? = some link → ∀ o ∈ link.objs, ∀ key, live o = some key → Hset.slot hash m.mask key = i
  unique : ∀ o o' key, live o = some key → live o' = some key → o = o'

section Run

variable {hash : Key → Word} {m m' : Memory Key} {events : List (Event Key)}

theorem live_halloc (key : Key) (obj : Nat) :
    live (events ++ [.halloc key obj]) = update (live events) obj (some key) := by
  rw [live, foldl_concat]
  rfl

private theorem live_erase (obj : Nat) : live (events ++ [.erase obj]) = update (live events) obj none := by
  rw [live, foldl_concat]
  rfl

theorem consistent_init : Consistent hash .init Hset.init where
  represents := by
    refine ⟨⟨[], chains_replicate _, fun _ => [], fun _ => .nil, fun _ => le_refl 0, nodup_nil,
      fun _ => ⟨nodup_nil, ?_⟩, ?_, ?_⟩, rfl, rfl⟩ <;> simp
  kept := kept_init
  known := by
    rw [Hset.init, stored_replicate]
    simp
  unique := by
    rw [Hset.init, stored_replicate]
    simp

/-- The objects in the set are the live ones. -/
structure Follows (hash : Key → Word) (m : Memory Key) (hset : Hset Nat) (live : Nat → Option Key) : Prop where
  consistent : Consistent hash m hset
  live : ∀ o key, live o = some key ↔ o ∈ Hset.stored hset.arr ∧ m.objs[o]? = some key

variable {hset : Hset Nat} {alive : Nat → Option Key}

theorem Follows.isSome (follows : Follows hash m hset alive) (o : Nat) :
    o ∈ Hset.stored hset.arr ↔ (alive o).isSome := by
  rw [isSome_iff_exists]
  refine ⟨fun mem => ?_, fun ⟨key, isKey⟩ => ((follows.live o key).mp isKey).1⟩
  exact ⟨_, (follows.live o _).mpr ⟨mem, getElem?_eq_getElem (follows.consistent.known o mem)⟩⟩

theorem Follows.holding (follows : Follows hash m hset alive) : Holding hash m alive hset.arr := by
  have ⟨⟨⟨table, mask, size⟩, ⟨k, valid, _⟩, _, unique⟩, isLive⟩ := follows
  refine ⟨table, ?_, follows.isSome, valid.distinct, size.trans valid.size,
    fun o key isKey => ((isLive o key).mp isKey).2, ?_, ?_⟩
  · rw [valid.length, mask, valid.mask, Nat.sub_add_cancel (Nat.two_pow_pos k)]
  · intro i link held o mem key isKey
    have bound := (List.getElem?_eq_some_iff.mp held).1
    rw [valid.length] at bound
    have isHash : hashAt hash m.objs o = hash key := by rw [hashAt, ((isLive o key).mp isKey).2]; rfl
    have same := valid.placed i link held o mem
    rw [isHash, Nat.mod_eq_of_lt bound] at same
    rw [mask, valid.mask, slot_eq, same]
  · intro o o' key isKey isKey'
    obtain ⟨mem, held⟩ := (isLive o key).mp isKey
    obtain ⟨member', held'⟩ := (isLive o' key).mp isKey'
    exact unique o mem o' member' (held.trans held'.symm)

theorem Follows.erase (follows : Follows hash m hset alive) (isLive : (alive obj).isSome) :
    ∃ m' hset', m.hsetErase hash obj = .ok m' ∧ Follows hash m' hset' (update alive obj none) := by
  obtain ⟨m', hset', done, consistent', objs, perm⟩ := follows.consistent.erase ((follows.isSome obj).mpr isLive)
  have ⟨k, valid, _⟩ := follows.consistent.kept
  have gone := (nodup_cons.mp (perm.nodup_iff.mp valid.distinct)).1
  refine ⟨m', hset', done, consistent', fun o key => ?_⟩
  by_cases same : o = obj
  · subst same
    simp [gone]
  · rw [update_of_ne same, follows.live, objs, perm.mem_iff, mem_cons, or_iff_right same]

variable [DecidableEq Key]

theorem Follows.halloc (follows : Follows hash m hset alive) (key : Key) :
    (∃ obj, alive obj = some key ∧ m.hallocRaw hash key = .ok (obj, m)) ∨
      (∀ obj, alive obj ≠ some key) ∧
        (m.hallocRaw hash key = .error .outOfMemory ∧ 2 ^ 64 ≤ 8 * ((m.mask + 1) * 2) ∨
          ∃ obj m' hset', m.hallocRaw hash key = .ok (obj, m') ∧ m.objs[obj]? = none ∧
            Follows hash m' hset' (update alive obj (some key))) := by
  rcases follows.consistent.halloc key with ⟨o, mem, isKey, done⟩ | ⟨absent, outcome⟩
  · exact .inl ⟨o, (follows.live o key).mpr ⟨mem, isKey⟩, done⟩
  have absent' (o : Nat) (isLive : alive o = some key) : False := by
    obtain ⟨mem, isKey⟩ := (follows.live o key).mp isLive
    exact absent o mem isKey
  refine .inr ⟨absent', outcome.imp_right ?_⟩
  rintro ⟨m', hset', done, consistent', objs, perm⟩
  refine ⟨_, m', hset', done, getElem?_eq_none (le_rfl), consistent', fun o key' => ?_⟩
  rw [perm.mem_iff, mem_cons, objs]
  by_cases same : o = m.objs.length
  · subst same
    simp
  · rw [update_of_ne same, follows.live, or_iff_right same]
    refine and_congr_right fun mem => ?_
    rw [getElem?_append_left (follows.consistent.known o mem)]

/-- The variant with words after the key makes the same objects, and sets the words of a new one. -/
theorem Follows.hxalloc (follows : Follows hash m hset alive) (caches : Nat → Option C) (key : Key)
    (initNonkey : Nat → C) :
    (∃ obj, alive obj = some key ∧ m.hallocRaw hash key = .ok (obj, m) ∧
      m.hxallocRaw hash caches key initNonkey = .ok (obj, m, caches)) ∨
    (∀ obj, alive obj ≠ some key) ∧ m.hxallocRaw hash caches key initNonkey = (m.hallocRaw hash key).map fun made =>
      (made.1, made.2, update caches made.1 (some (initNonkey made.1))) := by
  rcases follows.consistent.search key with ⟨o, mem, isKey, done⟩ | ⟨absent, link, m1, _, _, done, _⟩
  · refine .inl ⟨o, (follows.live o key).mpr ⟨mem, isKey⟩, ?_⟩
    simp only [Memory.hallocRaw, Memory.hxallocRaw, bind, Except.bind, done]
    exact ⟨rfl, rfl⟩
  · refine .inr ⟨fun o isLive => absent o ((follows.live o key).mp isLive).1 ((follows.live o key).mp isLive).2, ?_⟩
    simp only [Memory.hallocRaw, Memory.hxallocRaw, bind, Except.bind, done, Bool.false_eq_true, if_false]
    split
    · cases ({ m1 with size := m1.size + 1 } : Memory Key).grow hash ((m.mask + 1) * 2) <;> rfl
    · rfl

theorem Memory.Run.follows (run : Memory.Run hash events m) : ∃ hset, Follows hash m hset (live events) := by
  induction run with
  | init =>
    refine ⟨Hset.init, consistent_init, fun o key => ?_⟩
    rw [Hset.init, stored_replicate]
    simp [live]
  | halloc key _ done ih =>
    obtain ⟨hset, follows⟩ := ih
    rw [live_halloc]
    rcases follows.halloc key with ⟨obj, isLive, found⟩ | ⟨_, ⟨failed, _⟩ | ⟨obj, m', hset', added, _, follows'⟩⟩
    · obtain ⟨rfl, rfl⟩ := Prod.mk.inj (Except.ok.inj (found.symm.trans done))
      rw [← isLive, update_eq_self]
      exact ⟨hset, follows⟩
    · cases failed.symm.trans done
    · obtain ⟨rfl, rfl⟩ := Prod.mk.inj (Except.ok.inj (added.symm.trans done))
      exact ⟨hset', follows'⟩
  | erase _ isLive done ih =>
    obtain ⟨hset, follows⟩ := ih
    obtain ⟨m', hset', erased, follows'⟩ := follows.erase isLive
    obtain rfl := Except.ok.inj (erased.symm.trans done)
    rw [live_erase]
    exact ⟨hset', follows'⟩

/-- In every run the chains hold exactly the live objects. Allocation returns the live object with the key if there is
one, and otherwise a new one unless the array cannot grow. Erasing a live object does not fail. -/
theorem Memory.Run.consing (run : Memory.Run hash events m) :
    (∃ links, Holding hash m (live events) links) ∧
      (∀ key, (∃ obj, live events obj = some key ∧ m.hallocRaw hash key = .ok (obj, m)) ∨
        (∀ obj, live events obj ≠ some key) ∧
          (m.hallocRaw hash key = .error .outOfMemory ∧ 2 ^ 64 ≤ 8 * ((m.mask + 1) * 2) ∨
            ∃ obj m', m.hallocRaw hash key = .ok (obj, m') ∧ m.objs[obj]? = none)) ∧
      ∀ obj, (live events obj).isSome → ∃ m', m.hsetErase hash obj = .ok m' := by
  obtain ⟨hset, follows⟩ := run.follows
  refine ⟨⟨_, follows.holding⟩, fun key => ?_, fun obj isLive => ?_⟩
  · rcases follows.halloc key with found | ⟨absent, full | ⟨obj, m', hset', added, fresh, _⟩⟩
    · exact .inl found
    · exact .inr ⟨absent, .inl full⟩
    · exact .inr ⟨absent, .inr ⟨obj, m', added, fresh⟩⟩
  · obtain ⟨m', hset', erased, _⟩ := follows.erase isLive
    exact ⟨m', erased⟩

/-- Three objects in one slot, one of which is erased. -/
theorem Memory.Run.consing_slot : ∃ m : Memory Nat,
    (∃ links, Holding (BitVec.ofNat 64) m (live [.halloc 0 0, .halloc 8 1, .halloc 16 2, .erase 0]) links) ∧
      (∃ m', m.hsetErase (BitVec.ofNat 64) 2 = .ok m') ∧ m.hallocRaw (BitVec.ofNat 64) 8 = .ok (1, m) := by
  have first : Memory.Run (BitVec.ofNat 64) [.halloc 0 0] _ := .halloc 0 .init rfl
  have second : Memory.Run (BitVec.ofNat 64) [.halloc 0 0, .halloc 8 1] _ := .halloc 8 first rfl
  have third : Memory.Run (BitVec.ofNat 64) [.halloc 0 0, .halloc 8 1, .halloc 16 2] _ := .halloc 16 second rfl
  have fourth : Memory.Run (BitVec.ofNat 64) [.halloc 0 0, .halloc 8 1, .halloc 16 2, .erase 0] _ :=
    .erase third rfl rfl
  have result := Memory.Run.consing fourth
  exact ⟨_, result.1, result.2.2 2 rfl, rfl⟩

end Run

end Culibs.Cuoo.Halloc
