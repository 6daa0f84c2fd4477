import Culibs.Cucon.Umap.Isecn

namespace Culibs.Cucon.Umap

open Buckets Finset Option Nat

variable {optSpeed : Bool} {key : Addr → Word} {slot : Addr → Nat → Word} {fuel : Nat} {next : Links}
  {umap0 umap1 : Table} {nodes0 nodes1 : Finset Addr}

/-- The keys have the same indices for two masks. -/
def SameBuckets (keys : Finset Word) (mask0 mask1 : Nat) : Prop :=
  ∀ k ∈ keys, (hash k).toNat &&& mask0 = (hash k).toNat &&& mask1

/-- A map of this size gets a new array after an insertion. -/
def Grows (optSpeed : Bool) (mask size : Nat) : Prop :=
  size * maxFillDenom optSpeed > mask * maxFillNumer optSpeed ∧ exp2CeilLog2 (size + 1) ≠ mask + 1

/-- The nodes of the first map are in the buckets of their keys, or only those of new keys are not, and
the second map gets a new array. -/
def UnionFits (optSpeed : Bool) (mask0 mask1 : Nat) (keys0 keys1 : Finset Word) : Prop :=
  SameBuckets keys0 mask0 mask1 ∨
    (mask0 ≤ mask1 ∧ SameBuckets (keys0 ∩ keys1) mask0 mask1 ∧ Grows optSpeed mask1 (keys0 ∪ keys1).card)

/-- A larger mask gives the same index if it is an index for the smaller one. -/
theorem and_mask_eq (capacity0 : ∃ e, mask0 + 1 = 2 ^ e) (capacity1 : ∃ e, mask1 + 1 = 2 ^ e)
    (le : mask1 ≤ mask0) (n : Nat) (inside : n &&& mask0 ≤ mask1) : n &&& mask0 = n &&& mask1 := by
  obtain ⟨e0, cap0⟩ := capacity0
  obtain ⟨e1, cap1⟩ := capacity1
  obtain rfl : mask0 = 2 ^ e0 - 1 := (Nat.sub_eq_of_eq_add cap0.symm).symm
  obtain rfl : mask1 = 2 ^ e1 - 1 := (Nat.sub_eq_of_eq_add cap1.symm).symm
  have exponents : e1 ≤ e0 := (Nat.pow_le_pow_iff_right one_lt_two).mp (by omega)
  have twice : n % 2 ^ e0 % 2 ^ e1 = n % 2 ^ e1 := mod_mod_of_dvd n (pow_dvd_pow 2 exponents)
  simp only [and_two_pow_sub_one_eq_mod] at inside ⊢
  rw [← twice, mod_eq_of_lt (by omega : n % 2 ^ e0 < 2 ^ e1)]

section Update

variable {map : Umap} {nodes : Finset Addr} {index : Addr → Nat}

private theorem updateCapAfterInsert_stays (stays : ¬ Grows optSpeed map.mask map.size) :
    updateCapAfterInsert optSpeed fuel map = some map := by
  rw [updateCapAfterInsert]
  split
  · next full =>
    have same : map.mask + 1 = exp2CeilLog2 (map.size + 1) := by
      by_contra ne
      exact stays ⟨full, fun same => ne same.symm⟩
    rw [setCapacity, if_pos same]
  · rfl

private theorem updateCapAfterInsert_grows (grows : Grows optSpeed map.mask map.size)
    (chained : Chained map.buckets 0 (map.mask + 1) index nodes) (enough : nodes.card < fuel) :
    Adapts map nodes (updateCapAfterInsert optSpeed fuel map) := by
  rw [updateCapAfterInsert, if_pos grows.1]
  exact ⟨_, setCapacity_refits chained grows.2.symm enough⟩

end Update

section Loop

-- The keys of the second map, and the nodes of the first one that stay there.
variable (key umap0 umap1 nodes1) in
/-- Whether the loop finds a node of the same key. -/
def stays (a : Addr) : Bool :=
  decide (key a ∈ nodes1.image key ∧ (hash (key a)).toNat &&& umap0.mask = (hash (key a)).toNat &&& umap1.mask)

variable (key umap0 umap1 nodes0 nodes1) in
/-- The nodes that are moved to the second map. -/
def leaving : Finset Addr := nodes0.filter fun a => stays key umap0 umap1 nodes1 a = false

variable (key umap0 umap1 nodes1) in
/-- The bucket of a node in the second map. -/
def unionIndex (a : Addr) : Nat := (hash (key a)).toNat &&& if a ∈ nodes1 then umap1.mask else umap0.mask

variable (sound0 : Sound (umap0.on key slot next) nodes0) (sound1 : Sound (umap1.on key slot next) nodes1)
  (apart : Disjoint nodes0 nodes1)

include sound0 sound1

private theorem findIn_spec (few : moved ⊆ nodes0)
    (mem : a ∈ nodes0 \ moved)
    (filled : Filled umap1 (unionIndex key umap0 umap1 nodes1) nodes1 moved s.table.next s.others.dst)
    (inside : (hash (key a)).toNat &&& umap0.mask ≤ umap1.mask) (enough : (nodes1 ∪ moved).card < fuel) :
    findIn key fuel umap0.mask s a = some (stays key umap0 umap1 nodes1 a, s) := by
  obtain ⟨inNodes, notMoved⟩ := mem_sdiff.mp mem
  -- No node that has been moved has the key of another one.
  have old {b : Addr} (placed : b ∈ nodes1 ∪ moved) (isKey : key b = key a) : b ∈ nodes1 := by
    refine (mem_union.mp placed).resolve_right fun new => notMoved ?_
    rwa [← sound0.distinct (few new) inNodes isKey]
  have unique : Unique (nodes1 ∪ moved) (unionIndex key umap0 umap1 nodes1) ((hash (key a)).toNat &&& umap0.mask)
      fun b => key b == key a := by
    intro b placedB c placedC _ _ foundB foundC
    have isKeyB := beq_iff_eq.mp foundB
    have isKeyC := beq_iff_eq.mp foundC
    exact sound1.distinct (old placedB isKeyB) (old placedC isKeyC) (isKeyB.trans isKeyC.symm)
  obtain ⟨first, held, search⟩ := filled.chained.findLoop (lt_succ_of_le inside) unique
  obtain ⟨result, found, present, absent⟩ := search fuel enough
  have bucket : s.others.dst.bucket ((hash (key a)).toNat &&& umap0.mask) = some first := by
    rw [Table.bucket, if_pos (filled.mask ▸ inside)]
    exact held
  rw [findIn, bucket, bind_some, found]
  refine congrArg (fun kept => some (kept, s)) ?_
  rw [stays, decide_eq_decide]
  constructor
  · intro nonnull
    by_contra notStays
    refine nonnull (absent fun b placed isIndex => ?_)
    rw [beq_eq_false_iff_ne]
    intro isKey
    have isOld := old placed isKey
    rw [unionIndex, if_pos isOld, isKey] at isIndex
    exact notStays ⟨isKey ▸ mem_image_of_mem key isOld, isIndex.symm⟩
  · rintro ⟨isKey, same⟩
    obtain ⟨b, isOld, isKey⟩ := mem_image.mp isKey
    have isIndex : unionIndex key umap0 umap1 nodes1 b = (hash (key a)).toNat &&& umap0.mask := by
      rw [unionIndex, if_pos isOld, isKey, same]
    rw [present b (mem_union_left moved isOld) isIndex (beq_iff_eq.mpr isKey)]
    exact sound1.nonnull b isOld

include apart

theorem union_outcome (enough : nodes0.card + nodes1.card < fuel) :
    Outcome (∀ a ∈ nodes0, (hash (key a)).toNat &&& umap0.mask ≤ umap1.mask)
      (sweepAll 0 (findIn key fuel umap0.mask) (moveNode key umap0.mask) fuel (umap0.mask + 1)
        ⟨⟨umap0.arr, next⟩, ⟨umap0.size, umap1, ()⟩⟩)
      (Swept 0 (umap0.mask + 1) (fun a => (hash (key a)).toNat &&& umap0.mask) nodes0
        (fun moved => Moves umap1 nodes0 nodes1 (unionIndex key umap0 umap1 nodes1) (fun _ _ _ => True) moved moved)
        ⟨⟨umap0.arr, next⟩, ⟨umap0.size, umap1, ()⟩⟩
        (leaving key umap0 umap1 nodes0 nodes1)) := by
  have indexed : ∀ a ∈ nodes0, unionIndex key umap0 umap1 nodes1 a = (hash (key a)).toNat &&& umap0.mask := by
    intro a mem
    rw [unionIndex, if_neg fun old => disjoint_left.mp apart mem old]
  have rules : Rules nodes0 (stays key umap0 umap1 nodes1) (fun a => (hash (key a)).toNat &&& umap0.mask ≤ umap1.mask)
      (findIn key fuel umap0.mask) (moveNode key umap0.mask)
      (fun moved => Moves umap1 nodes0 nodes1 (unionIndex key umap0 umap1 nodes1) (fun _ _ _ => True) moved moved)
      fun moved a s => (hash (key a)).toNat &&& umap0.mask ≤ umap1.mask ∧
        Moves umap1 nodes0 nodes1 (unionIndex key umap0 umap1 nodes1) (fun _ _ _ => True) moved (insert a moved) s := by
    refine moves_rules apart sound0.nonnull indexed (fun a mem inside => ?_) (fun _ _ _ _ _ _ => trivial)
      (fun moved s a few mem moves inside => ?_) (fun moved s a few mem moves outside => ?_)
    · rw [indexed a mem]
      exact lt_succ_of_le inside
    · exact ⟨s, findIn_spec sound0 sound1 few mem moves.filled inside (card_union_lt few enough),
        ⟨rfl, fun _ _ => rfl⟩, moves.size0, moves.filled, trivial⟩
    · rw [findIn, Table.bucket, moves.filled.mask, if_neg outside]
      rfl
  refine sweepAll_outcome rules sound0.fits.chained ⟨?_, Filled.refl sound1 fun b mem => ?_, trivial⟩ (by omega)
  · exact sound0.size
  · rw [unionIndex, if_pos mem]

variable (optSpeed) in
theorem isecnUnionLoop_eq (inside : ∀ a ∈ nodes0, (hash (key a)).toNat &&& umap0.mask ≤ umap1.mask)
    (enough : nodes0.card + nodes1.card < fuel) :
    ∃ next' umap0' dst, isecnUnionLoop optSpeed key slot fuel next umap0 umap1 =
        (dst.update key slot (updateCapAfterInsert optSpeed fuel) next').map
          (fun result => (result.1, umap0', result.2)) ∧
      Sound (umap0'.on key slot next') (nodes0 \ leaving key umap0 umap1 nodes0 nodes1) ∧
      Filled umap1 (unionIndex key umap0 umap1 nodes1) nodes1 (leaving key umap0 umap1 nodes0 nodes1) next' dst := by
  obtain ⟨s, done, swept⟩ := (union_outcome sound0 sound1 apart enough).returns inside
  have sound := swept_sound sound0 swept (filter_subset ..) swept.holds.size0
  obtain ⟨next', umap0', updated, sound', frame⟩ := sound.updateErase optSpeed
    (lt_of_le_of_lt (card_le_card sdiff_subset) (by omega : nodes0.card < fuel))
  refine ⟨next', umap0', s.others.dst, ?_, sound',
    swept.holds.filled.frame fun b mem => frame b fun left => notMem_of_stays apart left mem⟩
  rw [isecnUnionLoop, done]
  simp only [bind_eq_bind, bind_some, updated]
  rw [map_eq_bind]
  rfl

end Loop

section Update

variable {dst : Table} {index : Addr → Nat} {moved : Finset Addr}

variable (optSpeed key slot) in
/-- The update of the second map, with nodes that may be in wrong buckets. -/
theorem Filled.updateInsert (filled : Filled umap1 index nodes1 moved next dst)
    (enough : (nodes1 ∪ moved).card < fuel) :
    ∃ next' dst', dst.update key slot (updateCapAfterInsert optSpeed fuel) next = some (next', dst') ∧
      (∀ b, b ∉ nodes1 ∪ moved → next' b = next b) ∧ dst'.size = dst.size ∧
      (Grows optSpeed umap1.mask dst.size → Fits (dst'.on key slot next') (nodes1 ∪ moved)) ∧
      (¬ Grows optSpeed umap1.mask dst.size → next' = next ∧ dst' = dst) := by
  by_cases grows : Grows optSpeed umap1.mask dst.size
  · have chained := filled.chained
    rw [← filled.mask] at grows chained
    obtain ⟨mask, refits⟩ : Adapts (dst.on key slot next) (nodes1 ∪ moved) (updateCapAfterInsert optSpeed fuel _) :=
      updateCapAfterInsert_grows grows chained enough
    obtain ⟨next', dst', updated, fits, size, frame⟩ := update_of_refits refits
    exact ⟨next', dst', updated, frame, size, fun _ => fits, fun not => absurd (filled.mask ▸ grows) not⟩
  · refine ⟨next, dst, ?_, fun _ _ => rfl, rfl, fun yes => absurd yes grows, fun _ => ⟨rfl, rfl⟩⟩
    rw [← filled.mask] at grows
    have stays : updateCapAfterInsert optSpeed fuel (dst.on key slot next) = some (dst.on key slot next) :=
      updateCapAfterInsert_stays grows
    rw [Table.update, stays]
    rfl

end Update

section Keys

variable (sound0 : Sound (umap0.on key slot next) nodes0) (sound1 : Sound (umap1.on key slot next) nodes1)

theorem mem_stayed (k : Word) : k ∈ (nodes0 \ leaving key umap0 umap1 nodes0 nodes1).image key ↔
    k ∈ nodes0.image key ∩ nodes1.image key ∧ (hash k).toNat &&& umap0.mask = (hash k).toNat &&& umap1.mask := by
  simp only [leaving, mem_image, mem_sdiff, mem_filter, mem_inter, stays, decide_eq_false_iff_not]
  constructor
  · rintro ⟨a, ⟨mem, left⟩, rfl⟩
    obtain ⟨isKey, same⟩ := of_not_not fun not => left ⟨mem, not⟩
    exact ⟨⟨⟨a, mem, rfl⟩, isKey⟩, same⟩
  · rintro ⟨⟨⟨a, mem, rfl⟩, isKey⟩, same⟩
    exact ⟨a, ⟨mem, fun left => left.2 ⟨isKey, same⟩⟩, rfl⟩

variable (same : SameBuckets (nodes0.image key ∩ nodes1.image key) umap0.mask umap1.mask)

include same

private theorem image_stayed : (nodes0 \ leaving key umap0 umap1 nodes0 nodes1).image key =
    nodes0.image key ∩ nodes1.image key := by
  ext k
  rw [mem_stayed]
  exact and_iff_left_of_imp (same k)

theorem mem_leaving (a : Addr) : a ∈ leaving key umap0 umap1 nodes0 nodes1 ↔
    a ∈ nodes0 ∧ key a ∉ nodes1.image key := by
  rw [leaving, mem_filter, stays, decide_eq_false_iff_not]
  refine and_congr_right fun mem => not_congr (and_iff_left_of_imp fun isKey => ?_)
  exact same (key a) (mem_inter.mpr ⟨mem_image_of_mem key mem, isKey⟩)

theorem image_union_leaving : (nodes1 ∪ leaving key umap0 umap1 nodes0 nodes1).image key =
    nodes0.image key ∪ nodes1.image key := by
  ext k
  simp only [mem_image, mem_union, mem_leaving same]
  constructor
  · rintro ⟨a, old | new, rfl⟩
    · exact .inr ⟨a, old, rfl⟩
    · exact .inl ⟨a, new.1, rfl⟩
  · rintro (⟨a, mem, rfl⟩ | ⟨a, mem, rfl⟩)
    · by_cases common : key a ∈ nodes1.image key
      · obtain ⟨b, old, isKey⟩ := mem_image.mp common
        exact ⟨b, .inl old, isKey⟩
      · exact ⟨a, .inr ⟨mem, fun isKey => common (mem_image.mpr isKey)⟩, rfl⟩
    · exact ⟨a, .inl mem, rfl⟩

include sound0 sound1

theorem distinct_leaving :
    Set.InjOn key ↑(nodes1 ∪ leaving key umap0 umap1 nodes0 nodes1) := by
  intro a memberA b memberB isKey
  rw [mem_coe, mem_union, mem_leaving same] at memberA memberB
  rcases memberA with oldA | newA <;> rcases memberB with oldB | newB
  · exact sound1.distinct oldA oldB isKey
  · exact absurd (isKey ▸ mem_image_of_mem key oldA) newB.2
  · exact absurd (isKey.symm ▸ mem_image_of_mem key oldB) newA.2
  · exact sound0.distinct newA.1 newB.1 isKey

end Keys

section Correct

variable (optSpeed key slot) in
/-- The first map has the common keys, and the second one all keys. -/
def UnionDone (run : Option (Links × Table × Table)) (keys0 keys1 : Finset Word) : Prop :=
  ∃ result, run = some result ∧ Holds (result.2.1.on key slot result.1) (keys0 ∩ keys1) ∧
    Holds (result.2.2.on key slot result.1) (keys0 ∪ keys1)

theorem UnionFits.inside
    (fits : UnionFits optSpeed mask0 mask1 keys0 keys1) :
    ∀ k ∈ keys0, (hash k).toNat &&& mask0 ≤ mask1 := by
  intro k mem
  rcases fits with same | ⟨le, _, _⟩
  · rw [same k mem]
    exact and_le_right
  · exact le_trans and_le_right le

variable (sound0 : Sound (umap0.on key slot next) nodes0) (sound1 : Sound (umap1.on key slot next) nodes1)
  (apart : Disjoint nodes0 nodes1) (enough : nodes0.card + nodes1.card < fuel)

include sound0 sound1

theorem size_union {next' : Links} {dst : Table}
    (same : SameBuckets (nodes0.image key ∩ nodes1.image key) umap0.mask umap1.mask)
    (filled : Filled umap1 (unionIndex key umap0 umap1 nodes1) nodes1 (leaving key umap0 umap1 nodes0 nodes1) next' dst)
    (apart : Disjoint nodes0 nodes1) :
    dst.size = (nodes1 ∪ leaving key umap0 umap1 nodes0 nodes1).card ∧
      dst.size = (nodes0.image key ∪ nodes1.image key).card := by
  have size : dst.size = (nodes1 ∪ leaving key umap0 umap1 nodes0 nodes1).card := by
    have few : leaving key umap0 umap1 nodes0 nodes1 ⊆ nodes0 := Finset.filter_subset ..
    rw [card_union_of_disjoint (Finset.disjoint_of_subset_right few apart.symm), filled.size]
    exact congrArg (· + _) sound1.size
  refine ⟨size, ?_⟩
  rw [← image_union_leaving same, Finset.card_image_of_injOn (distinct_leaving sound0 sound1 same), size]

include apart enough

theorem isecnUnionLoop_done (fits : UnionFits optSpeed umap0.mask umap1.mask (nodes0.image key) (nodes1.image key)) :
    UnionDone key slot (isecnUnionLoop optSpeed key slot fuel next umap0 umap1) (nodes0.image key)
      (nodes1.image key) := by
  obtain ⟨next', umap0', dst, done, sound0', filled⟩ := isecnUnionLoop_eq optSpeed sound0 sound1 apart
    (fun a mem => fits.inside (key a) (mem_image_of_mem key mem)) enough
  have same := fits.elim (fun same k mem => same k (mem_inter.mp mem).1) fun second => second.2.1
  obtain ⟨sizeNodes, sizeKeys⟩ := size_union sound0 sound1 same filled apart
  obtain ⟨next'', umap1', updated, frame, size, grown, stayed⟩ :=
    filled.updateInsert optSpeed key slot
      (card_union_lt (filter_subset ..) enough)
  have fits1 : Fits (umap1'.on key slot next'') (nodes1 ∪ leaving key umap0 umap1 nodes0 nodes1) := by
    rcases fits with all | ⟨_, _, grows⟩
    · by_cases grows : Grows optSpeed umap1.mask dst.size
      · exact grown grows
      obtain ⟨rfl, rfl⟩ := stayed grows
      refine filled.fits sound1.fits.capacity fun a mem => ?_
      rw [unionIndex]
      split
      · rfl
      · next notOld =>
        have new := mem_of_mem_filter a ((mem_union.mp mem).resolve_left notOld)
        exact all (key a) (mem_image_of_mem key new)
    · exact grown (sizeKeys ▸ grows)
  refine ⟨(next'', umap0', umap1'), by rw [done, updated]; rfl, ⟨_, sound0'.frame fun b left => ?_, image_stayed same⟩,
    _, ⟨fits1, size.trans sizeNodes, distinct_leaving sound0 sound1 same⟩, image_union_leaving same⟩
  exact frame b (notMem_of_stays apart left)

private theorem isecnUnionLoop_fits
    (done : UnionDone key slot (isecnUnionLoop optSpeed key slot fuel next umap0 umap1) (nodes0.image key)
      (nodes1.image key)) :
    UnionFits optSpeed umap0.mask umap1.mask (nodes0.image key) (nodes1.image key) := by
  obtain ⟨result, isResult, holds0, holds1⟩ := done
  -- A bucket that does not exist is not read.
  have inside : ∀ a ∈ nodes0, (hash (key a)).toNat &&& umap0.mask ≤ umap1.mask := by
    by_contra outside
    have failed := (union_outcome sound0 sound1 apart enough).fails outside
    rw [isecnUnionLoop, failed] at isResult
    cases isResult
  obtain ⟨next', umap0', dst, done, sound0', filled⟩ := isecnUnionLoop_eq optSpeed sound0 sound1 apart
    inside enough
  obtain ⟨next'', umap1', updated, frame, _, _, stayed⟩ :=
    filled.updateInsert optSpeed key slot
      (card_union_lt (filter_subset ..) enough)
  rw [done, updated] at isResult
  cases isResult
  -- The common keys have stayed, so they are in the same buckets.
  have same : SameBuckets (nodes0.image key ∩ nodes1.image key) umap0.mask umap1.mask := by
    obtain ⟨nodes0', isSound, keys0⟩ := holds0
    have left := isSound.unique (sound0'.frame fun b left => frame b (notMem_of_stays apart left))
    intro k common
    rw [← keys0, left] at common
    exact ((mem_stayed k).mp common).2
  by_cases all : SameBuckets (nodes0.image key) umap0.mask umap1.mask
  · exact .inl all
  simp only [SameBuckets, not_forall] at all
  obtain ⟨k, isKey, ne⟩ := all
  refine .inr ⟨?_, same, ?_⟩
  · by_contra above
    obtain ⟨a, mem, rfl⟩ := mem_image.mp isKey
    exact ne (and_mask_eq sound0.fits.capacity sound1.fits.capacity (Nat.le_of_not_le above) _
      (inside a mem))
  rw [← (size_union sound0 sound1 same filled apart).2]
  by_contra notGrown
  obtain ⟨rfl, rfl⟩ := stayed notGrown
  obtain ⟨nodes1', isSound, keys1⟩ := holds1
  obtain ⟨a, mem, rfl⟩ : ∃ a ∈ nodes1', key a = k := by
    have inUnion : k ∈ nodes0.image key ∪ nodes1.image key := mem_union_left _ isKey
    rw [← keys1] at inUnion
    exact mem_image.mp inUnion
  have chained := filled.chained
  rw [← filled.mask] at chained
  obtain ⟨placed, isIndex⟩ := isSound.fits.chained.same_chain chained mem
  have notOld : a ∉ nodes1 := fun old =>
    ne (same (key a) (mem_inter.mpr ⟨isKey, mem_image_of_mem key old⟩))
  rw [unionIndex, if_neg notOld] at isIndex
  exact ne (isIndex.trans (congrArg ((hash (key a)).toNat &&& ·) filled.mask))

end Correct

section Assign

variable (optSpeed : Bool) (key : Addr → Word) (slot : Addr → Nat → Word) (next : Links) (umap0 umap1 : Table)

/-- The first map has the common keys, and the second all keys. -/
def AssignIsecnUnionCorrect (keys0 keys1 : Finset Word) : Prop :=
  Delivers (fun fuel => assignIsecnUnion optSpeed key slot fuel next umap0 umap1) fun result =>
    Holds (result.2.1.on key slot result.1) (keys0 ∩ keys1) ∧ Holds (result.2.2.on key slot result.1) (keys0 ∪ keys1)

/-- The smaller map is the first one in the loop. -/
def AssignIsecnUnionFits (keys0 keys1 : Finset Word) : Prop :=
  if umap0.size > umap1.size then UnionFits optSpeed umap1.mask umap0.mask keys1 keys0
  else UnionFits optSpeed umap0.mask umap1.mask keys0 keys1

variable {optSpeed key slot next umap0 umap1}

theorem assignIsecnUnion_iff (sound0 : Sound (umap0.on key slot next) nodes0)
    (sound1 : Sound (umap1.on key slot next) nodes1)
    (apart : Disjoint nodes0 nodes1) :
    AssignIsecnUnionCorrect optSpeed key slot next umap0 umap1 (nodes0.image key) (nodes1.image key) ↔
      AssignIsecnUnionFits optSpeed umap0 umap1 (nodes0.image key) (nodes1.image key) := by
  refine delivers_iff (nodes0.card + nodes1.card + 1) fun fuel enough => ?_
  rw [assignIsecnUnion, AssignIsecnUnionFits]
  split
  · have room : nodes1.card + nodes0.card < fuel := by omega
    rw [inter_comm, union_comm]
    exact ⟨isecnUnionLoop_fits sound1 sound0 apart.symm room, isecnUnionLoop_done sound1 sound0 apart.symm room⟩
  · exact ⟨isecnUnionLoop_fits sound0 sound1 apart enough, isecnUnionLoop_done sound0 sound1 apart enough⟩

end Assign

end Culibs.Cucon.Umap
