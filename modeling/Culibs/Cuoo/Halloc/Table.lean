import Culibs.Cuoo.Halloc.Search

namespace Culibs.Cuoo.Halloc

open List Memory Nat

section Table

variable {Key : Type}

/-- The chains of an array, and the blocks they use. -/
inductive Chains (words : Nat → Nat → Cell) : List Ref → List (Link Nat) → List Nat → Prop
  | nil : Chains words [] [] []
  | cons {ln : Ref} {link : Link Nat} {used more : List Nat} {arr : List Ref} {links : List (Link Nat)} :
      Chain words ln link used → Chains words arr links more → Chains words (ln :: arr) (link :: links) (used ++ more)

section Chains

variable {words words' : Nat → Nat → Cell} {arr : List Ref} {links : List (Link Nat)} {all : List Nat}

theorem Chains.frame (chains : Chains words arr links all) (same : ∀ p ∈ all, words' p = words p) :
    Chains words' arr links all := by
  induction chains with
  | nil => exact .nil
  | cons chain _ ih =>
    exact .cons (chain.frame fun p mem => same p (mem_append_left _ mem))
      (ih fun p mem => same p (mem_append_right _ mem))

theorem chains_replicate (count : Nat) :
    Chains words (replicate count .null) (replicate count .null) [] := by
  induction count with
  | zero => exact .nil
  | succ count ih => exact .cons .null ih

theorem Chains.slot (chains : Chains words arr links all) (held : links[i]? = some link) :
    ∃ ln used rest, arr[i]? = some ln ∧ Chain words ln link used ∧ all.Perm (used ++ rest) ∧
      ∀ {words' : Nat → Nat → Cell} {ln' : Ref} {link' : Link Nat} {used' : List Nat},
        (∀ p ∈ rest, words' p = words p) → Chain words' ln' link' used' →
        ∃ all', Chains words' (arr.set i ln') (links.set i link') all' ∧ all'.Perm (used' ++ rest) := by
  induction chains generalizing i with
  | nil => cases held
  | @cons ln link0 used more arr links chain chains ih =>
    cases i with
    | zero =>
      obtain rfl : link0 = link := Option.some.inj held
      exact ⟨ln, used, more, rfl, chain, .refl _, fun same chain' => ⟨_, .cons chain' (chains.frame same), .refl _⟩⟩
    | succ i =>
      obtain ⟨ln', used', rest, isLn, chain', perm, replace⟩ := ih held
      refine ⟨ln', used', used ++ rest, isLn, chain', ?_, fun same chain' => ?_⟩
      · exact (perm.append_left used).trans (perm_append_comm_assoc ..)
      · obtain ⟨all', chains', perm'⟩ := replace (fun p mem => same p (mem_append_right _ mem)) chain'
        refine ⟨_, .cons (chain.frame fun p mem => same p (mem_append_left _ mem)) chains', ?_⟩
        exact (perm'.append_left used).trans (perm_append_comm_assoc ..)

theorem Chains.split (chains : Chains words arr links all) (count : Nat) :
    ∃ first second, all = first ++ second ∧ Chains words (arr.take count) (links.take count) first ∧
      Chains words (arr.drop count) (links.drop count) second := by
  induction chains generalizing count with
  | nil =>
    refine ⟨[], [], rfl, ?_, ?_⟩ <;> simp only [take_nil, drop_nil] <;> exact .nil
  | @cons ln link used more arr links chain chains ih =>
    cases count with
    | zero => exact ⟨[], _, rfl, .nil, .cons chain chains⟩
    | succ count =>
      obtain ⟨first, second, rfl, taken, dropped⟩ := ih count
      exact ⟨used ++ first, second, (append_assoc ..).symm, .cons chain taken, dropped⟩

end Chains

/-- The array of a set, apart from other blocks in use. -/
def Table (m : Memory Key) (links : List (Link Nat)) (others : List Nat) : Prop :=
  ∃ all, Chains m.words m.arr links all ∧ Uses m (all ++ others)

/-- All but the array is the same. -/
structure Kept (m m' : Memory Key) (others : List Nat) : Prop where
  words : ∀ p ∈ others, m'.words p = m.words p
  objs : m'.objs = m.objs
  mask : m'.mask = m.mask
  size : m'.size = m.size

section Table

variable {m m' m'' : Memory Key} {links : List (Link Nat)} {others : List Nat} {p : Nat}

theorem Kept.refl (m : Memory Key) (others : List Nat) : Kept m m others := ⟨fun _ _ => rfl, rfl, rfl, rfl⟩

theorem Kept.trans (first : Kept m m' others) (second : Kept m' m'' others) : Kept m m'' others :=
  ⟨fun p mem => (second.words p mem).trans (first.words p mem), second.objs.trans first.objs,
    second.mask.trans first.mask, second.size.trans first.size⟩

theorem Kept.mono {fewer : List Nat} (kept : Kept m m' others) (subset : fewer ⊆ others) : Kept m m' fewer :=
  ⟨fun p mem => kept.words p (subset mem), kept.objs, kept.mask, kept.size⟩

theorem Frame.kept (frame : Frame m m' others) : Kept m m' others := ⟨frame.words, frame.objs, frame.mask, frame.size⟩

theorem Leaves.kept (leaves : Leaves m (.bucket i) link others m') : Kept m m' others := by
  obtain ⟨ln, used, _, _, frame⟩ := leaves
  exact ⟨frame.words, frame.objs, frame.mask, frame.size⟩

theorem Table.congr (table : Table m links others) (words : m'.words = m.words) (arr : m'.arr = m.arr)
    (free : m'.free = m.free) (top : m'.top = m.top) : Table m' links others := by
  obtain ⟨all, chains, uses⟩ := table
  refine ⟨all, ?_, uses.congr words free top⟩
  rw [words, arr]
  exact chains

theorem Table.slot (table : Table m links others) (held : links[i]? = some link) :
    ∃ ln used rest, Holds m (.bucket i) ln link used (rest ++ others) ∧
      ∀ {m0 m' : Memory Key} {link' : Link Nat} {others' : List Nat}, m0.words = m.words → m0.arr = m.arr →
        Leaves m0 (.bucket i) link' (rest ++ others') m' → Table m' (links.set i link') others' := by
  obtain ⟨all, chains, uses⟩ := table
  obtain ⟨ln, used, rest, isLn, chain, perm, replace⟩ := chains.slot held
  refine ⟨ln, used, rest, ⟨?_, chain, ?_, trivial⟩, fun {m0 m' link' others'} words arr leaves => ?_⟩
  · rw [Memory.read, isLn]
    rfl
  · rw [← append_assoc]
    exact uses.perm (perm.append_right others)
  obtain ⟨ln', used', chain', uses', frame⟩ := leaves
  have same (p : Nat) (mem : p ∈ rest) : m'.words p = m.words p := by
    rw [frame.words p (mem_append_left _ mem), ← words]
    rfl
  obtain ⟨all', chains', perm'⟩ := replace same chain'
  refine ⟨all', ?_, ?_⟩
  · rw [frame.arr, Memory.write, arr]
    exact chains'
  · rw [← append_assoc] at uses'
    exact uses'.perm (perm'.symm.append_right others')

theorem Table.stash (table : Table m links (p :: others)) (kind : Kind) :
    Table (m.stash kind p) links others ∧ Kept m (m.stash kind p) others := by
  obtain ⟨all, chains, uses⟩ := table
  have freed := uses.perm perm_middle
  refine ⟨⟨all, chains.frame fun q mem => ?_, freed.stash kind⟩, ?_⟩
  · exact words_stash_ne (ne_of_mem_of_not_mem mem fun inside =>
      freed.outside (mem_append_left _ inside)) kind
  · exact (Frame.stash (fun inside => freed.outside (mem_append_right _ inside)) kind).kept

theorem Table.hsetPruneFreelists (table : Table m links others) :
    ∃ m', m.hsetPruneFreelists = .ok m' ∧ Table m' links others ∧ Kept m m' others := by
  obtain ⟨all, chains, uses⟩ := table
  obtain ⟨m', pruned, uses', frame⟩ := uses.hsetPruneFreelists
  refine ⟨m', pruned, ⟨all, ?_, uses'⟩, (frame.mono (subset_append_right ..)).kept⟩
  rw [frame.arr]
  exact chains.frame fun p mem => frame.words p (mem_append_left _ mem)

theorem Table.enough (table : Table m links (used ++ others)) : used.length < m.rounds := by
  obtain ⟨all, _, uses⟩ := table
  have bound := uses.length_le
  simp only [length_append] at bound
  rw [Memory.rounds]
  omega

end Table

end Table

section Resize

variable {Key : Type}

/-- The hash of the key of an object. -/
def hashAt (hash : Key → Word) (objs : List Key) (o : Nat) : Word := (objs[o]?).elim 0 hash

/-- A set with `2 ^ k` slots. -/
structure Grid (objs : List Key) (k : Nat) (m : Memory Key) (links : List (Link Nat)) (others : List Nat) : Prop where
  table : Table m links others
  length : links.length = 2 ^ k
  mask : m.mask = 2 ^ k - 1
  objs : m.objs = objs

section Grow

variable {m : Memory Key} {links : List (Link Nat)} {others : List Nat} {k : Nat} {objs : List Key}

variable (hash : Key → Word)

theorem Memory.slotOf_eq (isObjs : m.objs = objs) (known : o < objs.length) :
    m.slotOf hash o = .ok (.bucket (Hset.slot (hashAt hash objs) m.mask o)) := by
  simp only [Memory.slotOf, Hset.slot, hashAt, isObjs, getElem?_eq_getElem known]
  rfl

theorem Grid.slot_lt (grid : Grid objs k m links others) (hash : Nat → Word) (o : Nat) :
    Hset.slot hash m.mask o < links.length := by
  rw [grid.mask, Hset.slot_eq, grid.length]
  exact Nat.mod_lt _ (Nat.two_pow_pos k)

theorem Grid.reinsert (grid : Grid objs k m links others) (hash : Key → Word) (known : o < objs.length) :
    ∃ m', m.reinsert hash o = .ok m' ∧
      Grid objs k m' (Hset.reinsert (hashAt hash objs) (2 ^ k - 1) links o) others ∧ Kept m m' others := by
  have held := getElem?_eq_getElem (grid.slot_lt (hashAt hash objs) o)
  obtain ⟨ln, used, rest, holds, replace⟩ := grid.table.slot held
  obtain ⟨m', merged, leaves⟩ := holds.mergeObj o
  have kept := leaves.kept.mono (subset_append_right ..)
  refine ⟨m', ?_, ⟨?_, (Hset.length_reinsert ..).trans grid.length, kept.mask.trans grid.mask,
    kept.objs.trans grid.objs⟩, kept⟩
  · simp only [Memory.reinsert, slotOf_eq hash grid.objs known, bind, Except.bind, merged]
  · rw [Hset.reinsert, ← grid.mask, modify_eq_set_getElem?, held]
    exact replace rfl rfl leaves

theorem Grid.stash (grid : Grid objs k m links (p :: others)) (kind : Kind) :
    Grid objs k (m.stash kind p) links others ∧ Kept m (m.stash kind p) others :=
  ⟨⟨(grid.table.stash kind).1, grid.length, grid.mask, grid.objs⟩, (grid.table.stash kind).2⟩

theorem Grid.growLink (rounds : Nat)
    (grid : Grid objs k m links (used ++ others)) (chain : Chain m.words ln link used) (enough : used.length < rounds)
    (known : ∀ o ∈ link.objs, o < objs.length) : ∃ m', Memory.growLink hash rounds m ln = .ok m' ∧
      Grid objs k m' (Hset.growSlot (hashAt hash objs) (2 ^ k - 1) links link) others ∧ Kept m m' others := by
  induction rounds generalizing m ln link used links with
  | zero => exact (not_lt_zero _ enough).elim
  | succ rounds ih =>
    cases chain with
    | null => exact ⟨m, rfl, grid, .refl ..⟩
    | obj o => exact grid.reinsert hash (known o (mem_singleton_self o))
    | @pair p a b first second =>
      simp only [Link.objs, forall_mem_cons] at known
      obtain ⟨m1, added1, grid1, kept1⟩ := grid.reinsert hash known.1
      obtain ⟨m2, added2, grid2, kept2⟩ := grid1.reinsert hash known.2.1
      obtain ⟨grid3, kept3⟩ := grid2.stash .pair
      have isSecond : m1.objAt p 1 = .ok b := objAt_eq (by rw [kept1.words p (mem_cons_self ..), second])
      refine ⟨_, ?_, grid3, ((kept1.trans kept2).mono (subset_cons_self ..)).trans kept3⟩
      simp only [Memory.growLink, bind, Except.bind, objAt_eq first, added1, isSecond, added2]
      rfl
    | @quad q a b c next link used first second third isNext chain =>
      simp only [Link.objs, forall_mem_cons] at known
      obtain ⟨m1, added1, grid1, kept1⟩ := grid.reinsert hash known.1
      obtain ⟨m2, added2, grid2, kept2⟩ := grid1.reinsert hash known.2.1
      obtain ⟨m3, added3, grid3, kept3⟩ := grid2.reinsert hash known.2.2.1
      have kept2 := kept1.trans kept2
      have kept3 := kept2.trans kept3
      have inUse : q ∈ q :: used ++ others := .head _ ..
      have isSecond : m1.objAt q 1 = .ok b := objAt_eq (by rw [kept1.words q inUse, second])
      have isThird : m2.objAt q 2 = .ok c := objAt_eq (by rw [kept2.words q inUse, third])
      have isLink : m3.linkAt q = .ok next := linkAt_eq (by rw [kept3.words q inUse, isNext])
      obtain ⟨grid4, kept4⟩ := grid3.stash .quad
      have kept4 := (kept3.mono (subset_cons_self ..)).trans kept4
      obtain ⟨m', grown, grid', kept'⟩ := ih grid4
        (chain.frame fun p mem => kept4.words p (mem_append_left _ mem)) (lt_of_succ_lt_succ enough)
        known.2.2.2
      refine ⟨m', ?_, grid', (kept4.mono (subset_append_right ..)).trans kept'⟩
      simp only [Memory.growLink, bind, Except.bind, objAt_eq first, added1, isSecond, added2, isThird, added3,
        isLink]
      exact grown

theorem Grid.growLinks
    (grid : Grid objs k m links (srcUsed ++ others)) (chains : Chains m.words src srcLinks srcUsed)
    (known : ∀ o ∈ Hset.stored srcLinks, o < objs.length) :
    ∃ m', src.foldlM (fun m srcLink => Memory.growLink hash m.rounds m srcLink) m = .ok m' ∧
      Grid objs k m' (srcLinks.foldl (Hset.growSlot (hashAt hash objs) (2 ^ k - 1)) links) others ∧
      Kept m m' others := by
  induction src generalizing m links srcLinks srcUsed with
  | nil =>
    cases chains with
    | nil => exact ⟨m, rfl, grid, .refl ..⟩
  | cons ln src ih =>
    cases chains with
    | @cons _ link used more _ srcLinks chain chains =>
      rw [append_assoc] at grid
      obtain ⟨m1, grown, grid1, kept1⟩ := grid.growLink hash _ chain grid.table.enough fun o mem =>
        known o (mem_append_left _ mem)
      obtain ⟨m2, grown', grid2, kept2⟩ := ih grid1
        (chains.frame fun p mem => kept1.words p (mem_append_left _ mem)) fun o mem =>
        known o (mem_append_right _ mem)
      refine ⟨m2, ?_, grid2, (kept1.mono (subset_append_right ..)).trans kept2⟩
      rw [foldlM_cons, grown]
      exact grown'

theorem Table.grow (table : Table m src []) (isObjs : m.objs = objs)
    (known : ∀ o ∈ Hset.stored src, o < objs.length) (memory : 8 * 2 ^ k < 2 ^ 64) :
    ∃ m', m.grow hash (2 ^ k) = .ok m' ∧ m'.size = m.size ∧
      Grid objs k m' (src.foldl (Hset.growSlot (hashAt hash objs) (2 ^ k - 1)) (replicate (2 ^ k) .null)) [] := by
  obtain ⟨all, chains, uses⟩ := table
  have start : Grid objs k { m with arr := replicate (2 ^ k) .null, mask := 2 ^ k - 1 }
      (replicate (2 ^ k) .null) (all ++ []) :=
    ⟨⟨[], chains_replicate _, uses.congr rfl rfl rfl⟩, length_replicate, rfl, isObjs⟩
  obtain ⟨m1, grown, grid1, kept1⟩ := start.growLinks hash chains known
  obtain ⟨m2, pruned, table2, kept2⟩ := grid1.table.hsetPruneFreelists
  refine ⟨m2, ?_, kept2.size.trans kept1.size, table2, grid1.length, kept2.mask.trans grid1.mask,
    kept2.objs.trans grid1.objs⟩
  rw [Memory.grow, if_pos memory, grown]
  exact pruned

end Grow

section Shrink

variable {m : Memory Key} {links : List (Link Nat)} {others : List Nat} {cap : Nat}

/-- A round of the merging adds chains to those of the slots from `first` on. -/
theorem Table.shrinkRound {first todo srcLinks : List (Link Nat)} {srcUsed : List Nat}
    (table : Table m (first ++ todo) (srcUsed ++ others)) (chains : Chains m.words src srcLinks srcUsed)
    (same : todo.length = srcLinks.length) : ∃ m', Memory.shrinkRound m first.length src = .ok m' ∧
      Table m' (first ++ zipWith Link.merge todo srcLinks) others ∧ Kept m m' others := by
  induction src generalizing m first todo srcLinks srcUsed with
  | nil =>
    cases chains with
    | nil =>
      obtain rfl := length_eq_zero_iff.mp same
      exact ⟨m, rfl, table, .refl ..⟩
  | cons ln src ih =>
    cases chains with
    | @cons _ srcLink used more _ srcLinks chain chains =>
      cases todo with
      | nil => cases same
      | cons link todo =>
        have held : (first ++ link :: todo)[first.length]? = some link := by
          rw [List.getElem?_append_right (Nat.le_refl _), Nat.sub_self]
          rfl
        rw [append_assoc used] at table
        obtain ⟨ln', used', rest, holds, replace⟩ := table.slot held
        obtain ⟨m1, merged, leaves⟩ := (holds.perm (perm_append_comm_assoc ..)).mergeLink trivial chain
        have table1 := replace rfl rfl leaves
        have stored : (first ++ link :: todo).set first.length (link.merge srcLink) =
            (first ++ [link.merge srcLink]) ++ todo := by simp
        rw [stored] at table1
        have kept1 := leaves.kept.mono (subset_append_right ..)
        obtain ⟨m2, merged', table2, kept2⟩ := ih table1
          (chains.frame fun p mem => kept1.words p (mem_append_left _ mem)) (succ.inj same)
        rw [length_append] at merged'
        rw [append_assoc] at table2
        refine ⟨m2, ?_, table2, (kept1.mono (subset_append_right ..)).trans kept2⟩
        simp only [Memory.shrinkRound, bind, Except.bind, merged]
        exact merged'

theorem Table.shrinkRounds (rounds : Nat) {srcLinks : List (Link Nat)} {srcUsed : List Nat}
    (table : Table m links (srcUsed ++ others)) (chains : Chains m.words src srcLinks srcUsed)
    (length : links.length = cap) (rest : srcLinks.length = rounds * cap) :
    ∃ m', Memory.shrinkRounds cap rounds m src = .ok m' ∧
      Table m' (Hset.shrinkRounds cap rounds links srcLinks) others ∧ Kept m m' others := by
  induction rounds generalizing m links src srcLinks srcUsed with
  | zero =>
    rw [zero_mul] at rest
    obtain rfl := length_eq_zero_iff.mp rest
    cases chains with
    | nil => exact ⟨m, rfl, table, .refl ..⟩
  | succ rounds ih =>
    rw [succ_mul] at rest
    have chunk : (srcLinks.take cap).length = cap := by
      rw [length_take]
      omega
    have left : (srcLinks.drop cap).length = rounds * cap := by
      rw [length_drop]
      omega
    have zipped : (zipWith Link.merge links (srcLinks.take cap)).length = cap := by
      rw [length_zipWith, length, chunk, min_self]
    obtain ⟨taken, dropped, rfl, chains1, chains2⟩ := chains.split cap
    rw [append_assoc] at table
    obtain ⟨m1, merged, table1, kept1⟩ := @Table.shrinkRound _ _ _ _ [] _ _ _ table chains1 (length.trans chunk.symm)
    obtain ⟨m2, merged', table2, kept2⟩ := ih table1
      (chains2.frame fun p mem => kept1.words p (mem_append_left _ mem)) zipped left
    refine ⟨m2, ?_, table2, (kept1.mono (subset_append_right ..)).trans kept2⟩
    simp only [length_nil] at merged
    rw [Memory.shrinkRounds, merged]
    exact merged'

theorem Table.shrink (table : Table m links []) (length : links.length = 2 ^ k) (mask : m.mask = 2 ^ k - 1)
    (less : j < k) : ∃ m', m.shrink (2 ^ j) = .ok m' ∧ m'.objs = m.objs ∧ m'.mask = 2 ^ j - 1 ∧ m'.size = m.size ∧
      Table m' (Hset.shrinkRounds (2 ^ j) (2 ^ k / 2 ^ j - 1) (links.take (2 ^ j)) (links.drop (2 ^ j))) [] := by
  have cap : m.mask + 1 = 2 ^ k := by rw [mask, Nat.sub_add_cancel (Nat.two_pow_pos k)]
  have smaller : 2 ^ j < 2 ^ k := Nat.pow_lt_pow_right (by omega) less
  have first : (links.take (2 ^ j)).length = 2 ^ j := by
    rw [length_take, length]
    omega
  have rest : (links.drop (2 ^ j)).length = (2 ^ k / 2 ^ j - 1) * 2 ^ j := by
    rw [length_drop, length, Nat.sub_mul, Nat.div_mul_cancel (Nat.pow_dvd_pow 2 (Nat.le_of_lt less)), Nat.one_mul]
  obtain ⟨all, chains, uses⟩ := table
  obtain ⟨taken, dropped, rfl, chains1, chains2⟩ := chains.split (2 ^ j)
  rw [append_assoc] at uses
  have start : Table { m with arr := m.arr.take (2 ^ j) } (links.take (2 ^ j)) (dropped ++ []) :=
    ⟨taken, chains1, uses.congr rfl rfl rfl⟩
  obtain ⟨m1, merged, table1, kept1⟩ := start.shrinkRounds _ chains2 first rest
  have table2 := @Table.congr _ _ { m1 with mask := 2 ^ j - 1 } _ _ table1 rfl rfl rfl rfl
  obtain ⟨m2, pruned, table3, kept2⟩ := table2.hsetPruneFreelists
  refine ⟨m2, ?_, kept2.objs.trans kept1.objs, kept2.mask, kept2.size.trans kept1.size, table3⟩
  rw [Memory.shrink, cap, if_pos smaller, merged]
  exact pruned

end Shrink

end Resize

end Culibs.Cuoo.Halloc
