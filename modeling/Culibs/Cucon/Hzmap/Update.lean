import Culibs.Cucon.Hzmap.Basic

namespace Culibs.Cucon.Hzmap

open Cu Buckets Function Finset Option

variable {map map' : Hzmap} {nodes : Finset Addr} {contents : Contents} {fuel : Nat} {key : List Word} {node : Addr}

section

variable (rep : Represents map nodes contents)

include rep

theorem Represents.search_spec (key : List Word) (found : Addr → Bool)
    (agrees : ∀ node ∈ nodes, found node = (map.key node == key)) (enough : nodes.card < fuel) :
    ∃ first, map.buckets.heads[map.bucket key]? = some first ∧
      findLoop 0 found map.buckets.next fuel first = some ((contents key).getD 0) := by
  have unique : Unique nodes (fun node => map.bucket (map.key node)) (map.bucket key) found := by
    intro a memberA b memberB _ _ foundA foundB
    rw [agrees a memberA, beq_iff_eq] at foundA
    rw [agrees b memberB, beq_iff_eq] at foundB
    exact rep.keyed.unique memberA memberB (foundA.trans foundB.symm)
  obtain ⟨first, held, search⟩ := rep.chained.findLoop (bucket_lt map key) unique
  obtain ⟨result, found, present, missing⟩ := search fuel enough
  refine ⟨first, held, found.trans (congrArg some ?_)⟩
  cases stored : contents key with
  | none =>
    refine missing fun node mem _ => ?_
    rw [agrees node mem]
    exact beq_eq_false_iff_ne.mpr (rep.keyed.absent stored node mem)
  | some node =>
    obtain ⟨mem, isKey⟩ := (rep.keyed key node).mp stored
    refine present node mem (by rw [isKey]) ?_
    rw [agrees node mem]
    exact beq_iff_eq.mpr isKey

theorem Represents.find_spec (key : List Word) (enough : nodes.card < fuel) :
    find fuel map key = some ((contents key).getD 0) := by
  obtain ⟨first, held, found⟩ := rep.search_spec key (fun node => map.key node == key) (fun _ _ => rfl) enough
  rw [find, held]
  exact found

theorem Represents.findOf_spec {hash : Word} (isHash : hash = wordarrHashNoinitBj key)
    (width : key.length = map.keySizeW) (enough : nodes.card < fuel) :
    findOf fuel map.keySizeW hash map key = some ((contents key).getD 0) := by
  obtain ⟨first, held, found⟩ := rep.search_spec key (fun node =>
    (map.key node).take map.keySizeW == key.take map.keySizeW) (fun node mem => by
      rw [← width, List.take_length, List.take_of_length_le (by rw [rep.width node mem, width])]) enough
  rw [findOf, isHash]
  rw [bucket] at held
  rw [held]
  exact found

theorem oneWordFind_spec (one : map.keySizeW = 1) (width : key.length = 1) (enough : nodes.card < fuel) :
    oneWordFind fuel map key = some ((contents key).getD 0) := by
  obtain ⟨d0, rfl⟩ := List.length_eq_one_iff.mp width
  have found := rep.findOf_spec (oneWordHash_eq d0) (width.trans one.symm) enough
  rwa [one] at found

theorem twoWordFind_spec (two : map.keySizeW = 2) (width : key.length = 2) (enough : nodes.card < fuel) :
    twoWordFind fuel map key = some ((contents key).getD 0) := by
  obtain ⟨d0, d1, rfl⟩ := List.length_eq_two.mp width
  have found := rep.findOf_spec (twoWordHash_eq d0 d1) (width.trans two.symm) enough
  rwa [two] at found

end

section Resize

variable (optSpeed : Bool)

theorem makeRoom_spec (rep : Represents map nodes contents) (few : map.size < 2 ^ 60)
    (enough : nodes.card < fuel) :
    ∃ map', makeRoom optSpeed fuel map = some map' ∧ Represents map' nodes contents ∧ Resized map map' nodes := by
  rw [makeRoom]
  split
  · next full =>
    have bound : map.capExpt < 60 := by
      refine (Nat.pow_lt_pow_iff_right (by decide : 1 < 2)).mp (?_ : map.mapCap < 2 ^ 60)
      cases optSpeed with
      | true =>
        simp only [maxfillDenom, maxfillNumer, if_true] at full
        omega
      | false =>
        simp only [maxfillDenom, maxfillNumer, Bool.false_eq_true, if_false] at full
        omega
    have doubled : map.mapCap * 2 = 2 ^ (map.capExpt + 1) := (pow_succ ..).symm
    rw [doubled]
    exact expand_spec rep (Nat.succ_pos _) bound enough
  · exact ⟨map, rfl, rep, Resized.refl map nodes⟩

theorem finishErase_spec (rep : Represents map nodes contents) (enough : nodes.card < fuel) :
    ∃ map', finishErase optSpeed fuel map = some map' ∧ Represents map' nodes contents ∧ Resized map map' nodes := by
  rw [finishErase]
  split
  · cases expt : map.capExpt with
    | zero =>
      have none : map.mapCap / 2 < initCap := by rw [mapCap, expt]; decide
      exact ⟨map, by rw [shrink, if_pos none], rep, Resized.refl map nodes⟩
    | succ k =>
      have halved : map.mapCap / 2 = 2 ^ k := by rw [mapCap, expt, Nat.pow_succ, Nat.mul_div_cancel _ (by decide)]
      rw [halved]
      exact shrink_spec rep expt enough
  · exact ⟨map, rfl, rep, Resized.refl map nodes⟩

theorem prepareInsert_spec (rep : Represents map nodes contents)
    (fits : (map.size + count.toNat) * minfillDenom optSpeed ≤ 2 ^ 60) (enough : nodes.card < fuel) :
    ∃ map', prepareInsert optSpeed fuel map count = some map' ∧ Represents map' nodes contents ∧
      Resized map map' nodes := by
  have denom : 2 ≤ minfillDenom optSpeed ∧ minfillDenom optSpeed ≤ 3 := by cases optSpeed <;> decide
  have twice := Nat.mul_le_mul_left (map.size + count.toNat) denom.1
  have newSize : (BitVec.ofNat 64 map.size + count).toNat = map.size + count.toNat := by
    rw [BitVec.toNat_add, BitVec.toNat_ofNat]
    omega
  have wanted : ((BitVec.ofNat 64 map.size + count) * BitVec.ofNat 64 (minfillDenom optSpeed) /
      BitVec.ofNat 64 minfillNumer).toNat = (map.size + count.toNat) * minfillDenom optSpeed := by
    have one : (BitVec.ofNat 64 minfillNumer).toNat = 1 := rfl
    rw [BitVec.toNat_udiv, one, Nat.div_one, BitVec.toNat_mul, newSize, BitVec.toNat_ofNat,
      Nat.mod_eq_of_lt (Nat.lt_of_le_of_lt denom.2 (by decide)), Nat.mod_eq_of_lt (by omega)]
  rw [prepareInsert]
  split
  · next more =>
    have some : 0 < map.size + count.toNat := by
      refine pos_of_ne_zero fun none => ?_
      have zero : BitVec.ofNat 64 map.size + count = 0#64 := BitVec.eq_of_toNat_eq (newSize.trans none)
      rw [zero, BitVec.zero_mul] at more
      exact absurd more (BitVec.not_lt_zero)
    have log : ((map.size + count.toNat) * minfillDenom optSpeed - 1).log2 < 60 :=
      (Nat.log2_lt (by omega)).mpr (by omega)
    rw [toNat_sizeExp2ceil (by rw [wanted]; omega) (by rw [wanted]; omega), wanted]
    exact expand_spec rep (Nat.succ_pos _) log enough
  · exact ⟨map, rfl, rep, Resized.refl map nodes⟩

end Resize

/-- What the search for a key that is absent allows: a node with the key, which may be written
to after the search, is attached at the place where it ends. -/
theorem Represents.locate_absent (rep : Represents map nodes contents) (absent : contents key = none) :
    ∃ place, (∀ fuel, nodes.card < fuel → locate fuel map key = some (place, 0)) ∧
      ∀ node next1 key1, key.length = map.keySizeW → node ∉ nodes → node ≠ 0 →
        (∀ a, a ≠ node → next1 a = map.buckets.next a) → (∀ a, a ≠ node → key1 a = map.key a) →
        next1 node = 0 → key1 node = key → ∃ buckets, Buckets.write ⟨map.buckets.heads, next1⟩ place node = some buckets ∧
          Represents { map with buckets, size := map.size + 1, key := key1 } (nodes ∪ {node})
            (update contents key (some node)) := by
  obtain ⟨place, found, _, attached⟩ := rep.chained.seek_absent (bucket_lt map key) (fun node mem _ =>
    beq_eq_false_iff_ne.mpr (rep.keyed.absent absent node mem))
  refine ⟨place, found, fun node next1 key1 width fresh nonnull sameNext sameKey last isKey => ?_⟩
  have others {a : Addr} (mem : a ∈ nodes) : key1 a = map.key a :=
    sameKey a (ne_of_mem_of_not_mem mem fresh)
  have alone : Spans next1 0 node {node} :=
    ⟨[node], ⟨rfl, nonnull, last⟩, List.nodup_singleton node, by simp⟩
  obtain ⟨buckets, written, chained, _⟩ := attached ⟨map.buckets.heads, next1⟩ (fun a => map.bucket (key1 a)) node {node}
    rfl (fun a mem => sameNext a (ne_of_mem_of_not_mem mem fresh)) (fun a mem => by rw [others mem]) alone
    (disjoint_singleton_right.mpr fresh) (fun a mem => by rw [mem_singleton.mp mem, isKey])
  refine ⟨buckets, written, rep.small, chained, ?_, fun a mem => ?_,
    rep.keyed.add absent fresh isKey sameKey⟩
  · rw [card_union_of_disjoint (disjoint_singleton_right.mpr fresh), card_singleton, rep.size]
  · rcases mem_union.mp mem with old | new
    · exact (congrArg List.length (others old)).trans (rep.width a old)
    · exact mem_singleton.mp new ▸ (congrArg List.length isKey).trans width

theorem Represents.locate_present (rep : Represents map nodes contents) (present : contents key = some node) :
    node ≠ 0 ∧ ∃ place, (∀ fuel, nodes.card < fuel → locate fuel map key = some (place, node)) ∧
      ∃ map', detach map place node = some map' ∧ map'.keySizeW = map.keySizeW ∧
        Represents map' (nodes.erase node) (update contents key none) := by
  obtain ⟨mem, rfl⟩ := (rep.keyed key node).mp present
  obtain ⟨place, found, buckets, written, chained, keeps⟩ := rep.chained.seek_found
    (fun a => map.key a == map.key node) mem (beq_self_eq_true _) (unique_key rep.keyed _ _)
  refine ⟨rep.chained.nonnull node mem, place, found, { map with buckets, size := map.size - 1 }, ?_, rfl,
    rep.small, chained, ?_, fun a inside => ?_, rep.keyed.remove present⟩
  · rw [detach, written]
    rfl
  · rw [card_erase_of_mem mem, rep.size]
  · exact rep.width a (mem_erase.mp inside).2

section Filter

variable {f : Addr → Bool} {t t' : Buckets Addr} {i first : Nat} {pre post : List Addr}

theorem filterChain_spec (size : Nat) (held : t.heads[i]? = some first) (path : Path t.next 0 first (pre ++ post))
    (distinct : (pre ++ post).Nodup) (enough : post.length < fuel) :
    ∃ t' first', filterChain f fuel t (size + post.length) (after (.head i) pre) =
        some (t', size + (post.filter f).length) ∧
      t'.heads[i]? = some first' ∧ Path t'.next 0 first' (pre ++ post.filter f) ∧ Rewrites t t' i (pre ++ post) := by
  induction post generalizing t pre first fuel size with
  | nil =>
    obtain ⟨less, rfl⟩ := Nat.exists_eq_add_one_of_ne_zero (ne_zero_of_lt enough)
    have last := (read_after (show t.read (.head i) = some first from held) path).1
    refine ⟨t, first, ?_, held, path, rfl, fun _ _ => rfl, fun _ _ => rfl⟩
    rw [filterChain, last]
    rfl
  | cons node post ih =>
    obtain ⟨less, rfl⟩ := Nat.exists_eq_add_one_of_ne_zero (ne_zero_of_lt enough)
    obtain ⟨here, _, nonnull, later⟩ := read_after (show t.read (.head i) = some first from held) path
    have room : post.length < less := Nat.lt_of_succ_lt_succ enough
    rw [filterChain, here]
    simp only [List.headD_cons, nonnull, if_false]
    by_cases kept : f node = true
    · rw [List.append_cons] at path distinct
      obtain ⟨t', first', done, held', path', rewrites⟩ := ih (size + 1) held path distinct room
      rw [after_concat] at done
      rw [List.filter_cons_of_pos kept, List.append_cons, List.append_cons pre node post]
      refine ⟨t', first', (if_pos kept).trans ?_, held', path', rewrites⟩
      rw [List.length_cons, List.length_cons, add_comm post.length, ← add_assoc, done, add_assoc, add_comm 1]
    · have apart := List.nodup_append'.mp distinct
      have removed : (pre ++ post).Nodup := distinct.sublist
        (List.Sublist.append_left (List.sublist_cons_self node post) pre)
      obtain ⟨t1, first1, written, held1, path1, rewrites1⟩ := write_after held path apart.1 later
        (List.nodup_append'.mp removed).2.2
      obtain ⟨t', first', done, held', path', rewrites⟩ := ih size held1 path1 removed room
      have shorter : size + (node :: post).length - 1 = size + post.length := by simp
      rw [List.filter_cons_of_neg kept, written]
      refine ⟨t', first', (if_neg kept).trans ?_, held', path', rewrites.length.trans rewrites1.length,
        fun j other => ?_, fun a outside => ?_⟩
      · simp only [shorter]
        exact done
      · exact (rewrites.heads j other).trans (rewrites1.heads j other)
      · simp only [List.mem_append, List.mem_cons, not_or] at outside
        exact (rewrites.next a (by simp [outside])).trans (rewrites1.next a outside.1)

private theorem filterHeads_spec {cap count size : Nat} {old : Finset Addr} (bound : i + count = cap)
    (chained : Chained t 0 cap index (old.filter fun a => index a < i → f a = true))
    (isSize : size = (old.filter fun a => index a < i → f a = true).card) (enough : old.card < fuel)
    (inside : ∀ a ∈ old, index a < cap) :
    ∃ t', filterHeads fuel f count i t size = some (t', (old.filter fun a => f a = true).card) ∧
      Chained t' 0 cap index (old.filter fun a => f a = true) := by
  induction count generalizing i t size with
  | zero =>
    have all : (old.filter fun a => index a < i → f a = true) = old.filter fun a => f a = true :=
      filter_congr fun a mem => imp_iff_right (lt_of_lt_of_le (inside a mem) (le_of_eq bound.symm))
    rw [all] at chained isSize
    exact ⟨t, by rw [isSize]; rfl, chained⟩
  | succ count ih =>
    obtain ⟨first, held, xs, path, distinct, isPart⟩ := chained.chain i (by omega)
    have members (a : Addr) : a ∈ xs ↔ a ∈ old ∧ index a = i := by
      rw [← List.mem_toFinset, isPart]
      simp only [mem_filter, and_assoc]
      exact and_congr_right fun _ => ⟨fun both => both.2, fun same => ⟨fun less => absurd same (ne_of_lt less), same⟩⟩
    have few : xs.length < fuel := by
      rw [← List.toFinset_card_of_nodup distinct]
      exact lt_of_le_of_lt (card_le_card fun a mem =>
        ((members a).mp (List.mem_toFinset.mp mem)).1) enough
    have path : Path t.next 0 first ([] ++ xs) := path
    obtain ⟨t', first', done, held', path', rewrites⟩ := filterChain_spec (f := f)
      (old.filter fun a => (index a < i → f a = true) ∧ index a ≠ i).card held path distinct few
    have kept : (xs.filter f).toFinset = (old.filter fun a => index a < i + 1 → f a = true).filter fun a => index a = i := by
      ext a
      simp only [List.mem_toFinset, List.mem_filter, members, mem_filter, and_assoc]
      refine and_congr_right fun _ => ⟨fun both => ⟨fun _ => both.2, both.1⟩, fun both => ⟨both.2, both.1 ?_⟩⟩
      exact Nat.lt_succ_of_le (le_of_eq both.2)
    have away (a : Addr) (other : index a ≠ i) : (index a < i + 1 → f a = true) ↔ (index a < i → f a = true) := by
      rw [Nat.lt_succ_iff_lt_or_eq, or_iff_left other]
    have chained' : Chained t' 0 cap index (old.filter fun a => index a < i + 1 → f a = true) := by
      refine chained.rewrite rewrites (fun a mem => ((members a).mp mem).2) held'
        ⟨xs.filter f, path', distinct.filter f, kept⟩ (fun a mem => inside a (mem_filter.mp mem).1)
        fun a other => ?_
      rw [mem_filter, mem_filter, away a other]
    have before : size = (old.filter fun a => (index a < i → f a = true) ∧ index a ≠ i).card + xs.length := by
      rw [isSize, ← List.toFinset_card_of_nodup distinct, isPart, ← Finset.filter_filter, add_comm]
      exact (card_filter_add_card_filter_not _).symm
    have afterwards : (old.filter fun a => (index a < i → f a = true) ∧ index a ≠ i).card + (xs.filter f).length =
        (old.filter fun a => index a < i + 1 → f a = true).card := by
      have same : (old.filter fun a => (index a < i → f a = true) ∧ index a ≠ i) =
          (old.filter fun a => index a < i + 1 → f a = true).filter fun a => ¬ index a = i := by
        rw [Finset.filter_filter]
        exact filter_congr fun a _ => and_congr_left fun other => (away a other).symm
      rw [← List.toFinset_card_of_nodup (distinct.filter f), kept, same, add_comm]
      exact card_filter_add_card_filter_not _
    obtain ⟨t'', rest, chained''⟩ := ih (i := i + 1) (by omega) chained' afterwards
    refine ⟨t'', ?_, chained''⟩
    rw [filterHeads, before]
    simp only [after] at done
    rw [done]
    exact rest

end Filter

section Operations

variable (optSpeed : Bool)

/-- The contents with another node, unless its key is there. -/
def Contents.add (contents : Contents) (key : List Word) (node : Addr) : Contents :=
  if contents key = none then update contents key (some node) else contents

/-- An operation gives a table with other contents, of one more node at most. -/
def Edits (map map' : Hzmap) (nodes : Finset Addr) (contents' : Contents) : Prop :=
  map'.keySizeW = map.keySizeW ∧ ∃ nodes', Represents map' nodes' contents' ∧ nodes'.card ≤ nodes.card + 1

theorem Resized.edits (resized : Resized map map' nodes) (rep : Represents map' nodes contents) :
    Edits map map' nodes contents :=
  ⟨resized.keySizeW, nodes, rep, Nat.le_succ _⟩

theorem Represents.edits_found (rep : Represents map' nodes contents) (resized : Resized map map' nodes)
    (stored : contents key = some old) : Edits map map' nodes (contents.add key node) := by
  rw [Contents.add, if_neg (by rw [stored]; exact some_ne_none old)]
  exact resized.edits rep

section

variable (rep : Represents map nodes contents)

include rep

theorem insertNode_spec (few : map.size < 2 ^ 60) (nonnull : node ≠ 0)
    (width : (map.key node).length = map.keySizeW)
    (last : contents (map.key node) = none → map.buckets.next node = 0) (enough : nodes.card < fuel) :
    ∃ map', insertNode optSpeed fuel map node = some ((contents (map.key node)).isNone, map') ∧
      Edits map map' nodes (contents.add (map.key node) node) := by
  obtain ⟨map1, room, represents1, resized⟩ := makeRoom_spec optSpeed rep few enough
  rw [insertNode, room, ← resized.key]
  rw [← resized.key] at width last
  cases stored : contents (map1.key node) with
  | none =>
    have fresh : node ∉ nodes := fun mem => represents1.keyed.absent stored node mem rfl
    obtain ⟨place, found, attached⟩ := represents1.locate_absent stored
    obtain ⟨buckets, written, represents'⟩ := attached node map1.buckets.next map1.key
      (width.trans resized.keySizeW.symm) fresh nonnull (fun _ _ => rfl)
      (fun _ _ => rfl) ((resized.next node fresh).trans (last stored)) rfl
    refine ⟨{ map1 with buckets, size := map1.size + 1 }, ?_, resized.keySizeW, _, ?_,
      (card_union_le nodes {node}).trans_eq (by rw [card_singleton])⟩
    · simp only [bind_eq_bind, bind_some, found fuel enough, attach, written, map_some]
      rfl
    · rw [Contents.add, if_pos stored]
      exact represents'
  | some old =>
    obtain ⟨nonnull, place, found, _⟩ := represents1.locate_present stored
    refine ⟨map1, ?_, represents1.edits_found resized stored⟩
    simp only [bind_eq_bind, bind_some, found fuel enough, if_pos nonnull]
    rfl

theorem insert_spec (few : map.size < 2 ^ 60) (nonnull : fresh ≠ 0) (unused : fresh ∉ nodes)
    (width : key.length = map.keySizeW) (enough : nodes.card < fuel) :
    ∃ map', insert optSpeed fuel map key fresh =
        some (((contents key).isNone, (contents key).getD fresh), map') ∧
      Edits map map' nodes (contents.add key fresh) := by
  obtain ⟨map1, room, represents1, resized⟩ := makeRoom_spec optSpeed rep few enough
  rw [insert, room]
  cases stored : contents key with
  | some old =>
    obtain ⟨nonnull, place, found, _⟩ := represents1.locate_present stored
    refine ⟨map1, ?_, represents1.edits_found resized stored⟩
    simp only [bind_eq_bind, bind_some, found fuel enough, if_pos nonnull]
    rfl
  | none =>
    obtain ⟨place, found, attached⟩ := represents1.locate_absent stored
    obtain ⟨buckets, written, represents'⟩ := attached fresh (update map1.buckets.next fresh 0)
      (update (update map1.key fresh []) fresh key) (width.trans resized.keySizeW.symm) unused nonnull
      (fun a other => update_of_ne other ..)
      (fun a other => by rw [update_of_ne other, update_of_ne other]) (update_self ..)
      (update_self ..)
    refine ⟨setKey { gallocNode map1 fresh with buckets, size := map1.size + 1 } fresh key, ?_,
      resized.keySizeW, _, ?_, (card_union_le nodes {fresh}).trans_eq (by rw [card_singleton])⟩
    · simp only [bind_eq_bind, bind_some, found fuel enough, attach, gallocNode, written, map_some]
      rfl
    · rw [Contents.add, if_pos stored]
      exact represents'

omit rep in
private theorem insertVoid_eq (key : List Word) (fresh : Addr) : insertVoid optSpeed fuel map key fresh =
    (insert optSpeed fuel map key fresh).map fun result => (result.1.1, result.2) := by
  rw [insertVoid, insert]
  cases makeRoom optSpeed fuel map with
  | none => rfl
  | some map1 =>
    simp only [bind_eq_bind, bind_some]
    cases locate fuel map1 key with
    | none => rfl
    | some located =>
      simp only [bind_some]
      split
      · rfl
      · cases attach (gallocNode map1 fresh) located.1 fresh <;> rfl

theorem insertVoid_spec (few : map.size < 2 ^ 60) (nonnull : fresh ≠ 0) (unused : fresh ∉ nodes)
    (width : key.length = map.keySizeW) (enough : nodes.card < fuel) :
    ∃ map', insertVoid optSpeed fuel map key fresh = some ((contents key).isNone, map') ∧
      Edits map map' nodes (contents.add key fresh) := by
  obtain ⟨map', inserted, edits⟩ := insert_spec optSpeed rep few nonnull unused width enough
  exact ⟨map', by rw [insertVoid_eq, inserted]; rfl, edits⟩

theorem stepErase_spec (key : List Word) (enough : nodes.card < fuel) :
    ∃ map', stepErase fuel map key = some ((contents key).isSome, map') ∧
      Edits map map' nodes (update contents key none) := by
  cases stored : contents key with
  | none =>
    obtain ⟨place, found, _⟩ := rep.locate_absent stored
    refine ⟨map, ?_, rfl, nodes, ?_, Nat.le_succ _⟩
    · rw [stepErase, found fuel enough]
      rfl
    · rwa [update_eq_self_iff.mpr stored.symm]
  | some node =>
    obtain ⟨nonnull, place, found, map', detached, width, represents'⟩ := rep.locate_present stored
    refine ⟨map', ?_, width, _, represents', (card_erase_le).trans (Nat.le_succ _)⟩
    rw [stepErase, found fuel enough]
    simp only [bind_eq_bind, bind_some, if_neg nonnull, detached]
    rfl

theorem erase_spec (key : List Word) (enough : nodes.card < fuel) :
    ∃ map', erase optSpeed fuel map key = some ((contents key).isSome, map') ∧
      Edits map map' nodes (update contents key none) := by
  cases stored : contents key with
  | none =>
    obtain ⟨place, found, _⟩ := rep.locate_absent stored
    refine ⟨map, ?_, rfl, nodes, ?_, Nat.le_succ _⟩
    · rw [erase, found fuel enough]
      rfl
    · rwa [update_eq_self_iff.mpr stored.symm]
  | some node =>
    obtain ⟨nonnull, place, found, map1, detached, width, represents1⟩ := rep.locate_present stored
    have fewer : (nodes.erase node).card ≤ nodes.card := card_erase_le
    obtain ⟨map', finished, represents', resized⟩ := finishErase_spec optSpeed represents1
      (lt_of_le_of_lt fewer enough)
    refine ⟨map', ?_, resized.keySizeW.trans width, _, represents', fewer.trans (Nat.le_succ _)⟩
    rw [erase, found fuel enough]
    simp only [bind_eq_bind, bind_some, if_neg nonnull, detached, finished]
    rfl

theorem filter_spec (f : Addr → Bool) (enough : nodes.card < fuel) :
    ∃ map', filter optSpeed fuel f map = some map' ∧ Edits map map' nodes fun key => (contents key).filter f := by
  have all : (nodes.filter fun a => map.bucket (map.key a) < 0 → f a = true) = nodes :=
    filter_true_of_mem fun a _ none => absurd none (Nat.not_lt_zero _)
  have filtered : ∃ buckets, filterHeads fuel f map.mapCap 0 map.buckets map.size =
        some (buckets, (nodes.filter fun a => f a = true).card) ∧
      Chained buckets 0 map.mapCap (fun a => map.bucket (map.key a)) (nodes.filter fun a => f a = true) := by
    refine filterHeads_spec (zero_add map.mapCap) ?_ ?_ enough rep.chained.inside
    · rw [all]
      exact rep.chained
    · rw [all]
      exact rep.size
  obtain ⟨buckets, filtered, chained⟩ := filtered
  have fewer : (nodes.filter fun a => f a = true).card ≤ nodes.card := card_filter_le ..
  have represents1 : Represents { map with buckets, size := (nodes.filter fun a => f a = true).card }
      (nodes.filter fun a => f a = true) fun key => (contents key).filter f :=
    ⟨rep.small, chained, rfl, fun a mem => rep.width a (mem_filter.mp mem).1,
      rep.keyed.filter f⟩
  obtain ⟨map', finished, represents', resized⟩ := finishErase_spec optSpeed represents1
    (lt_of_le_of_lt fewer enough)
  refine ⟨map', ?_, resized.keySizeW, _, represents', fewer.trans (Nat.le_succ _)⟩
  rw [filter, filtered]
  exact finished

end

end Operations

end Culibs.Cucon.Hzmap
