import Culibs.Cucon.Umap.Basic

namespace Culibs.Cucon.Umap

open Buckets Function Finset Option Nat

variable {map map' : Umap} {nodes : Finset Addr} {contents : Contents} {fuel count : Nat} (optSpeed : Bool)
  {key : Word} {binding : Binding}

theorem nodeOf_update (contents : Contents) (key : Word) (binding : Option Binding) :
    Contents.nodeOf (update contents key binding) =
      update contents.nodeOf key (binding.map Binding.node) := by
  funext key'
  simp only [Contents.nodeOf, update_apply]
  split <;> rfl

theorem nodeOf_none (absent : contents key = none) : contents.nodeOf key = none := by
  rw [Contents.nodeOf, absent, map_none]

theorem nodeOf_some (present : contents key = some binding) : contents.nodeOf key = some binding.node := by
  rw [Contents.nodeOf, present, map_some]

variable {β : Type}

section

variable (rep : Represents map nodes contents)

include rep

theorem findNode_spec (key : Word) (enough : nodes.card < fuel) :
    findNode fuel map key = some ((contents.nodeOf key).getD 0) := by
  obtain ⟨first, held, search⟩ := rep.chained.findLoop (index_lt map key)
    (unique_key rep.keyed (map.index key) key)
  obtain ⟨result, found, present, missing⟩ := search fuel enough
  rw [findNode, held]
  refine found.trans (congrArg some ?_)
  cases stored : contents.nodeOf key with
  | none => exact missing fun node mem _ => beq_eq_false_iff_ne.mpr (rep.keyed.absent stored node mem)
  | some node =>
    obtain ⟨mem, isKey⟩ := (rep.keyed key node).mp stored
    exact present node mem (by rw [isKey]) (beq_iff_eq.mpr isKey)

theorem Represents.nonnull (stored : contents key = some binding) :
    binding.node ∈ nodes ∧ binding.node ≠ 0 := by
  obtain ⟨mem, _⟩ := (rep.keyed key binding.node).mp (nodeOf_some stored)
  exact ⟨mem, rep.chained.nonnull _ mem⟩

theorem find_slot_spec (key : Word) (absent : β) (read : (Nat → Word) → β) (enough : nodes.card < fuel) :
    (findNode fuel map key).map (fun node => if node = 0 then absent else read (map.slot node)) =
      some ((contents key).elim absent fun binding => read binding.value) := by
  rw [findNode_spec rep key enough, map_some]
  cases stored : contents key with
  | none => rw [nodeOf_none stored, getD_none, if_pos rfl, elim_none]
  | some binding =>
    rw [nodeOf_some stored, getD_some, if_neg (rep.nonnull stored).2, rep.value key binding stored,
      elim_some]

theorem locate_absent (absent : contents key = none) (enough : nodes.card < fuel) :
    ∃ place, locate fuel map key = some (place, 0) := by
  obtain ⟨place, found, _⟩ := rep.chained.seek_absent (index_lt map key) (fun node mem _ =>
    beq_eq_false_iff_ne.mpr (rep.keyed.absent (nodeOf_none absent) node mem))
  exact ⟨place, found fuel enough⟩

theorem detach_represents (stored : contents key = some binding) {buckets : Buckets Addr}
    (written : map.buckets.write place (map.buckets.next binding.node) = some buckets)
    (chained : Chained buckets 0 (map.mask + 1) (fun node => map.index (map.key node)) (nodes.erase binding.node))
    (keeps : Keeps map.buckets buckets (map.mask + 1) (nodes.erase binding.node)) :
    detach map place binding.node = some { map with buckets, size := map.size - 1 } ∧
      Represents { map with buckets, size := map.size - 1 } (nodes.erase binding.node)
        (update contents key none) := by
  refine ⟨?_, rep.capacity, ⟨?_, ?_⟩, chained, ?_, ?_, fun key' binding' stored' => ?_⟩
  · rw [detach, written, map_some]
  · exact keeps.length.trans rep.sentinel.1
  · exact (keeps.heads _ (le_rfl)).trans rep.sentinel.2
  · rw [card_erase_of_mem (rep.nonnull stored).1, ← rep.size]
  · rw [nodeOf_update]
    exact rep.keyed.remove (nodeOf_some stored)
  · rw [update_apply] at stored'
    split at stored'
    · cases stored'
    · exact rep.value key' binding' stored'

theorem locate_present (stored : contents key = some binding) :
    ∃ place, (∀ fuel, nodes.card < fuel → locate fuel map key = some (place, binding.node)) ∧
      ∃ buckets, detach map place binding.node = some { map with buckets, size := map.size - 1 } ∧
        Represents { map with buckets, size := map.size - 1 } (nodes.erase binding.node)
          (update contents key none) ∧
        Keeps map.buckets buckets (map.mask + 1) (nodes.erase binding.node) := by
  obtain ⟨mem, isKey⟩ := (rep.keyed key binding.node).mp (nodeOf_some stored)
  obtain ⟨place, found, buckets, written, chained, keeps⟩ := rep.chained.seek_found
    (fun node => map.key node == key) mem (beq_iff_eq.mpr isKey) (unique_key rep.keyed _ _)
  simp only [isKey] at found
  obtain ⟨detached, represents'⟩ := detach_represents rep stored written chained keeps
  exact ⟨place, found, buckets, detached, represents', keeps⟩

end

/-- An operation gives a table with other bindings, of one more node at most. -/
def Edits (map' : Umap) (nodes : Finset Addr) (contents' : Contents) (count : Nat) : Prop :=
  ∃ nodes', Represents map' nodes' contents' ∧ nodes'.card ≤ nodes.card + 1 ∧ Within map' (count + 1)

theorem Represents.edits (rep : Represents map nodes contents) (within : Within map count) :
    Edits map nodes contents count :=
  ⟨nodes, rep, le_succ _, le_trans within (by omega)⟩

theorem setSlot_represents (rep : Represents map nodes contents) (stored : contents key = some binding)
    (value : Nat → Word) : Represents (map.setSlot binding.node value) nodes
      (update contents key (some { binding with value })) := by
  refine ⟨rep.capacity, rep.sentinel, rep.chained, rep.size, ?_, fun key' binding' stored' => ?_⟩
  · rw [nodeOf_update, update_eq_self_iff.mpr]
    · exact rep.keyed
    · rw [nodeOf_some stored, map_some]
  rw [update_apply] at stored'
  simp only [setSlot]
  split at stored'
  · cases stored'
    exact update_self ..
  · next other =>
    have ne : binding'.node ≠ binding.node := fun same => other <| by
      rw [← ((rep.keyed key' binding'.node).mp (nodeOf_some stored')).2,
        ← ((rep.keyed key binding.node).mp (nodeOf_some stored)).2, same]
    rw [update_of_ne ne]
    exact rep.value key' binding' stored'

private theorem setSlot_edits (edits : Edits map nodes contents count) (stored : contents key = some binding)
    (value : Nat → Word) : Edits (map.setSlot binding.node value) nodes
      (update contents key (some { binding with value })) count := by
  obtain ⟨nodes', rep, few, within⟩ := edits
  exact ⟨nodes', setSlot_represents rep stored value, few, within⟩

/-- The contents with another binding, unless the key is bound. -/
def Contents.insert (contents : Contents) (key : Word) (binding : Binding) : Contents :=
  if contents key = none then update contents key (some binding) else contents

/-- The contents with another value of a key, which gets a node if it has none. -/
def Contents.replace (contents : Contents) (key : Word) (put : (Nat → Word) → Nat → Word) (fresh : Binding) : Contents :=
  let binding := (contents key).getD fresh
  update contents key (some { binding with value := put binding.value })

/-- The map after a node is stored in its chain. -/
def withNode (map : Umap) (fresh : Addr) (key : Word) (memory : Nat → Word) (buckets : Buckets Addr) : Umap :=
  { size := map.size + 1
    mask := map.mask
    buckets := { buckets with next := update buckets.next fresh 0 }
    key := update map.key fresh key
    slot := update map.slot fresh memory }

variable {fresh : Addr}

/-- A new node of a key that is not bound goes to the end of its chain before the capacity is adjusted. -/
theorem insertMem_absent (fits : Fits map nodes) (absent : ∀ a ∈ nodes, map.key a ≠ key)
    (memory : Nat → Word) (nonnull : fresh ≠ 0) (unused : fresh ∉ nodes) (enough : nodes.card < fuel) :
    ∃ t, insertMem optSpeed fuel map key fresh memory =
        (updateCapAfterInsert optSpeed fuel (map.withNode fresh key memory t)).map (fun map => ((true, fresh), map)) ∧
      Fits (map.withNode fresh key memory t) (nodes ∪ {fresh}) ∧
      ∀ a, a ∉ nodes → a ≠ fresh → t.next a = map.buckets.next a := by
  obtain ⟨place, found, outside, attached⟩ := fits.chained.seek_absent (index_lt map key) (fun node mem _ =>
    beq_eq_false_iff_ne.mpr (absent node mem))
  have others {a : Addr} (mem : a ∈ nodes) : a ≠ fresh := ne_of_mem_of_not_mem mem unused
  have alone : Spans (update map.buckets.next fresh 0) 0 fresh {fresh} :=
    ⟨[fresh], ⟨rfl, nonnull, update_self ..⟩, List.nodup_singleton fresh, by simp⟩
  obtain ⟨t', written, chained, keeps⟩ := attached ⟨map.buckets.heads, update map.buckets.next fresh 0⟩
    (fun a => map.index (update map.key fresh key a)) fresh {fresh} rfl
    (fun a mem => update_of_ne (others mem) ..)
    (fun a mem => by rw [update_of_ne (others mem)]) alone (disjoint_singleton_right.mpr unused)
    (fun a mem => by rw [Finset.mem_singleton.mp mem, update_self])
  rw [write_link map.buckets (outside fresh unused), map_eq_some_iff] at written
  obtain ⟨t, stored, rfl⟩ := written
  refine ⟨t, ?_, ⟨fits.capacity, ⟨keeps.length.trans fits.sentinel.1, (keeps.heads _ (le_rfl)).trans
    fits.sentinel.2⟩, chained⟩, fun a outside other => ?_⟩
  · have located : locate fuel map key = some (place, 0) := found fuel enough
    rw [insertMem, located]
    simp only [bind_eq_bind, bind_some, ne_eq, not_true_eq_false, if_false, stored]
    rw [withNode]
    cases updateCapAfterInsert optSpeed fuel _ <;> rfl
  · have kept : update t.next fresh 0 a = update map.buckets.next fresh 0 a := keeps.next a outside
    rwa [update_of_ne other, update_of_ne other] at kept

section Operations

variable (rep : Represents map nodes contents) (within : Within map count) (few : nodes.card ≤ count)
  (enough : nodes.card + 1 < fuel)

include rep within few enough

theorem insertMem_spec (key : Word) (memory : Nat → Word) (nonnull : fresh ≠ 0) (unused : fresh ∉ nodes) :
    (∀ binding, contents key = some binding →
      insertMem optSpeed fuel map key fresh memory = some ((false, binding.node), map)) ∧
    (contents key = none → ∃ map', insertMem optSpeed fuel map key fresh memory = some ((true, fresh), map') ∧
      Edits map' nodes (update contents key (some ⟨fresh, memory⟩)) count) := by
  have enough' : nodes.card < fuel := lt_of_succ_lt enough
  constructor
  · intro binding stored
    obtain ⟨place, found, _⟩ := locate_present rep stored
    rw [insertMem, found fuel enough']
    simp only [bind_eq_bind, bind_some, (rep.nonnull stored).2, ne_eq, not_false_eq_true, if_true]
    rfl
  intro absent
  obtain ⟨t, inserts, fits, _⟩ := insertMem_absent optSpeed rep.fits
    (rep.keyed.absent (nodeOf_none absent)) memory nonnull unused enough'
  have represents' : Represents (map.withNode fresh key memory t) (nodes ∪ {fresh})
      (update contents key (some ⟨fresh, memory⟩)) := by
    refine ⟨fits.capacity, fits.sentinel, fits.chained, ?_, ?_, fun key' binding stored' => ?_⟩
    · rw [card_union_of_disjoint (disjoint_singleton_right.mpr unused), ← rep.size]
      rfl
    · rw [nodeOf_update]
      exact rep.keyed.add (nodeOf_none absent) unused (update_self ..)
        fun a other => update_of_ne other ..
    · rw [update_apply] at stored'
      split at stored'
      · cases stored'
        exact update_self ..
      · have mem := (rep.nonnull stored').1
        exact (update_of_ne (ne_of_mem_of_not_mem mem unused) ..).trans
          (rep.value key' binding stored')
  have one : (nodes ∪ {fresh}).card ≤ nodes.card + 1 :=
    (card_union_le nodes {fresh}).trans_eq (by rw [card_singleton])
  have within' : Within (map.withNode fresh key memory t) (count + 1) := le_trans within (by omega)
  obtain ⟨map', done, represents'', _, within''⟩ := updateCapAfterInsert_adjusts optSpeed represents'
    within' (le_trans one (succ_le_succ few)) (lt_of_le_of_lt one enough)
  exact ⟨map', inserts.trans (congrArg _ done), _, represents'', one, within''⟩

theorem insertMem_setSlot (key : Word) (memory : Nat → Word) (nonnull : fresh ≠ 0) (unused : fresh ∉ nodes)
    (put : (Nat → Word) → Nat → Word) (absent : contents key = none) :
    ∃ map', insertMem optSpeed fuel map key fresh memory = some ((true, fresh), map') ∧ map'.slot fresh = memory ∧
      Edits (map'.setSlot fresh (put memory)) nodes (update contents key (some ⟨fresh, put memory⟩)) count := by
  obtain ⟨map', done, edits⟩ := (insertMem_spec optSpeed rep within few enough key memory nonnull unused).2 absent
  have stored : update contents key (some ⟨fresh, memory⟩) key = some ⟨fresh, memory⟩ :=
    update_self ..
  have edits' := setSlot_edits edits stored (put memory)
  rw [update_idem] at edits'
  obtain ⟨nodes', represents', _⟩ := edits
  exact ⟨map', done, represents'.value key _ stored, edits'⟩

theorem insertWith_spec (put : (Nat → Word) → Nat → Word) (key : Word) (memory : Nat → Word)
    (nonnull : fresh ≠ 0) (unused : fresh ∉ nodes) :
    ∃ map', insertWith optSpeed fuel put map key fresh memory = some ((contents key).isNone, map') ∧
      Edits map' nodes (contents.insert key ⟨fresh, put memory⟩) count := by
  cases stored : contents key with
  | none =>
    obtain ⟨map', done, isMemory, edits⟩ := insertMem_setSlot optSpeed rep within few enough key memory
      nonnull unused put stored
    refine ⟨map'.setSlot fresh (put memory), ?_, by rwa [Contents.insert, if_pos stored]⟩
    rw [insertWith, done]
    simp only [bind_eq_bind, bind_some, if_true, isMemory]
    rfl
  | some binding =>
    refine ⟨map, ?_, ?_⟩
    · rw [insertWith, (insertMem_spec optSpeed rep within few enough key memory nonnull unused).1 binding stored]
      rfl
    · rw [Contents.insert, if_neg (by rw [stored]; exact some_ne_none binding)]
      exact rep.edits within

theorem replaceWith_spec (read : (Nat → Word) → β) (absent : β) (put : (Nat → Word) → Nat → Word) (key : Word)
    (memory : Nat → Word) (nonnull : fresh ≠ 0) (unused : fresh ∉ nodes) :
    ∃ map', replaceWith optSpeed fuel read absent put map key fresh memory =
        some ((contents key).elim absent fun binding => read binding.value, map') ∧
      Edits map' nodes (contents.replace key put ⟨fresh, memory⟩) count := by
  cases stored : contents key with
  | none =>
    obtain ⟨map', done, isMemory, edits⟩ := insertMem_setSlot optSpeed rep within few enough key memory
      nonnull unused put stored
    refine ⟨map'.setSlot fresh (put memory), ?_, by rwa [Contents.replace, stored]⟩
    rw [replaceWith, done]
    simp only [bind_eq_bind, bind_some, if_true, isMemory]
    rfl
  | some binding =>
    refine ⟨map.setSlot binding.node (put binding.value), ?_, ?_⟩
    · rw [replaceWith, (insertMem_spec optSpeed rep within few enough key memory nonnull unused).1 binding stored]
      simp only [bind_eq_bind, bind_some, rep.value key binding stored]
      rfl
    · rw [Contents.replace, stored]
      exact (setSlot_represents rep stored _).edits within

omit few in
theorem eraseKeepCap_spec (key : Word) :
    ∃ map', eraseKeepCap fuel map key = some ((contents key).isSome, map') ∧
      Edits map' nodes (update contents key none) count := by
  have enough' : nodes.card < fuel := lt_of_succ_lt enough
  cases stored : contents key with
  | none =>
    obtain ⟨place, found⟩ := locate_absent rep stored enough'
    refine ⟨map, ?_, ?_⟩
    · rw [eraseKeepCap, found]
      rfl
    · rw [update_eq_self_iff.mpr stored.symm]
      exact rep.edits within
  | some binding =>
    obtain ⟨place, found, buckets, detached, represents', _⟩ := locate_present rep stored
    refine ⟨_, ?_, _, represents', le_trans card_erase_le (le_succ _), ?_⟩
    · rw [eraseKeepCap, found fuel enough']
      simp only [bind_eq_bind, bind_some, if_neg (rep.nonnull stored).2, detached]
      rfl
    · exact le_trans within (by omega)

omit rep in
theorem detached_adjusts (represents' : Represents map' (nodes.erase node) contents')
    (mask : map'.mask = map.mask) :
    ∃ map'', updateCapAfterErase optSpeed fuel map' = some map'' ∧ Edits map'' nodes contents' count := by
  have fewer : (nodes.erase node).card ≤ nodes.card := card_erase_le
  have within' : Within map' (count + 1) := by
    rw [Within, mask]
    exact le_trans within (by omega)
  obtain ⟨map'', done, represents'', _, within''⟩ := updateCapAfterErase_adjusts optSpeed represents' within'
    (fewer.trans (few.trans (le_succ _))) (by omega : (nodes.erase node).card < fuel)
  exact ⟨map'', done, _, represents'', fewer.trans (le_succ _), within''⟩

theorem eraseWith_spec (read : (Nat → Word) → β) (absent : β) (key : Word) :
    ∃ map', eraseWith optSpeed fuel read absent map key =
        some ((contents key).elim absent fun binding => read binding.value, map') ∧
      Edits map' nodes (update contents key none) count := by
  have enough' : nodes.card < fuel := lt_of_succ_lt enough
  cases stored : contents key with
  | none =>
    obtain ⟨place, found⟩ := locate_absent rep stored enough'
    refine ⟨map, ?_, ?_⟩
    · rw [eraseWith, found]
      rfl
    · rw [update_eq_self_iff.mpr stored.symm]
      exact rep.edits within
  | some binding =>
    obtain ⟨place, found, buckets, detached, represents1, _⟩ := locate_present rep stored
    obtain ⟨map', adjusted, edits⟩ := detached_adjusts optSpeed within few enough represents1 rfl
    refine ⟨map', ?_, edits⟩
    rw [eraseWith, found fuel enough']
    simp only [bind_eq_bind, bind_some, if_neg (rep.nonnull stored).2, detached, adjusted,
      rep.value key binding stored]
    rfl

end Operations

private theorem nonemptyHead_spec (rep : Represents map nodes contents) (inside : head ≤ map.mask)
    (held : map.buckets.heads[(head + distance) % (map.mask + 1)]? = some target) (nonnull : target ≠ 0)
    (enough : distance < fuel) :
    ∃ found node, nonemptyHead map fuel head = some (found, node) ∧ found ≤ map.mask ∧
      map.buckets.heads[found]? = some node ∧ node ≠ 0 := by
  induction distance generalizing head fuel with
  | zero =>
    obtain ⟨less, rfl⟩ := exists_eq_add_one_of_ne_zero (ne_zero_of_lt enough)
    rw [add_zero, mod_eq_of_lt (lt_succ_of_le inside)] at held
    refine ⟨head, target, ?_, inside, held, nonnull⟩
    rw [nonemptyHead, held]
    exact if_neg nonnull
  | succ distance ih =>
    obtain ⟨less, rfl⟩ := exists_eq_add_one_of_ne_zero (ne_zero_of_lt enough)
    obtain ⟨node, here, _⟩ := rep.chained.chain head (lt_succ_of_le inside)
    by_cases empty : node = 0
    · have next : (if head + 1 > map.mask then 0 else head + 1) = (head + 1) % (map.mask + 1) := by
        split
        · next last => rw [show head + 1 = map.mask + 1 by omega, mod_self]
        · next notLast => rw [mod_eq_of_lt (by omega)]
      have wrapped : ((head + 1) % (map.mask + 1) + distance) % (map.mask + 1) = (head + (distance + 1)) % (map.mask + 1) := by
        rw [mod_add_mod]
        congr 1
        omega
      rw [nonemptyHead, here]
      simp only [if_pos empty, next]
      exact ih (le_of_lt_succ (mod_lt _ (succ_pos _))) (wrapped ▸ held) (lt_of_succ_lt_succ enough)
    · refine ⟨head, node, ?_, inside, here, empty⟩
      rw [nonemptyHead, here]
      exact if_neg empty

theorem popAnyNode_spec (rep : Represents map nodes contents) (within : Within map count) (few : nodes.card ≤ count)
    (some : nodes.Nonempty) (enough : 2 * count + minSize < fuel) (random : Nat) :
    ∃ key binding map', contents key = Option.some binding ∧
      popAnyNode optSpeed fuel map random = Option.some (binding.node, map') ∧
      Edits map' nodes (update contents key none) count := by
  obtain ⟨a, mem⟩ := some
  have start : random &&& map.mask ≤ map.mask := and_le_right
  have inside := index_lt map (map.key a)
  obtain ⟨target, held, xs, path, _, isPart⟩ := rep.chained.chain _ inside
  have nonnull : target ≠ 0 := by
    have inChain : a ∈ xs := by
      rw [← List.mem_toFinset, isPart]
      exact Finset.mem_filter.mpr ⟨mem, rfl⟩
    cases xs with
    | nil => cases inChain
    | cons x xs => exact path.1 ▸ path.2.1
  -- The number of steps from the start to the bucket of a node.
  have around : ((random &&& map.mask) + (map.index (map.key a) + (map.mask + 1) - (random &&& map.mask)) % (map.mask + 1)) %
      (map.mask + 1) = map.index (map.key a) := by
    rw [Nat.add_mod_mod, Nat.add_sub_cancel' (by omega), Nat.add_mod_right, Nat.mod_eq_of_lt inside]
  have room : (map.index (map.key a) + (map.mask + 1) - (random &&& map.mask)) % (map.mask + 1) < fuel := by
    refine lt_of_lt_of_le (mod_lt _ (succ_pos map.mask)) (le_trans within (le_of_lt enough))
  obtain ⟨head, node, found, bound, first, isNode⟩ :=
    nonemptyHead_spec rep start (by rw [around]; exact held) nonnull room
  obtain ⟨memberNode, buckets, written, chained, keeps⟩ := rep.chained.pop (lt_succ_of_le bound) first isNode
  obtain ⟨binding, stored, rfl⟩ : ∃ binding, contents (map.key node) = Option.some binding ∧ binding.node = node :=
    map_eq_some_iff.mp ((rep.keyed (map.key node) node).mpr ⟨memberNode, rfl⟩)
  obtain ⟨detached, represents1⟩ := detach_represents rep stored written chained keeps
  have enoughErase : nodes.card + 1 < fuel := by
    have eight : minSize = 8 := rfl
    omega
  obtain ⟨map', adjusted, edits⟩ := detached_adjusts optSpeed within few enoughErase represents1 rfl
  refine ⟨map.key binding.node, binding, map', stored, ?_, edits⟩
  rw [popAnyNode, found]
  simp only [bind_eq_bind, bind_some, detached, adjusted]
  rfl

end Culibs.Cucon.Umap
