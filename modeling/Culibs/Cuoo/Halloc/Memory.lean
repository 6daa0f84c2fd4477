import Culibs.Cuoo.Halloc.Hset

/-! The hash-consing sets of `cuoo/halloc_disclaim.c` in memory, where links point to pairs and
quads, and pairs and quads that are not in use go to free lists. It is a fault to read a word
that does not hold what the code takes it for, such as one that a free list has overwritten. -/

namespace Culibs.Cuoo.Halloc

open Function

/-- `_link_t`, with the address that it is tagged for. -/
inductive Ref where
  | null
  | obj (o : Nat)
  | pair (p : Nat)
  | quad (q : Nat)
deriving DecidableEq

/-- A word of a pair or a quad. Those of a block from `malloc` are unset, and so are those of a freed block. -/
inductive Cell where
  | unset
  | obj (o : Nat)
  | link (ln : Ref)
  | next (fl : Option Nat)

inductive Kind where
  | pair
  | quad
deriving DecidableEq

/-- The free list and its `unsigned short` count. -/
structure Freelist where
  head : Option Nat
  count : BitVec 16

/-- The place of a link, which is in the array or the link of a quad. -/
inductive Slot where
  | bucket (i : Nat)
  | link (q : Nat)
deriving DecidableEq

inductive Failure where
  | fault
  | outOfMemory

/-- `struct _hset` with what its links point to. The address of an object is its number in the order of allocation,
and its metadata and key words are its key. -/
structure Memory (Key : Type) where
  objs : List Key
  words : Nat → Nat → Cell
  top : Nat
  mask : Nat
  size : Nat
  arr : List Ref
  free : Kind → Freelist

namespace Memory

variable {Key : Type} (m : Memory Key)

/-- `_hset_init` -/
def init : Memory Key where
  objs := []
  words _ _ := .unset
  top := 0
  mask := minCapacity - 1
  size := 0
  arr := List.replicate minCapacity .null
  free _ := { head := none, count := 0 }

def setWord (p i : Nat) (cell : Cell) : Memory Key :=
  { m with words := update m.words p (update (m.words p) i cell) }

/-- `pair->obj[i]` and `quad->obj[i]` -/
def objAt (p i : Nat) : Except Failure Nat :=
  match m.words p i with
  | .obj o => .ok o
  | _ => .error .fault

/-- `quad->link` -/
def linkAt (q : Nat) : Except Failure Ref :=
  match m.words q 3 with
  | .link ln => .ok ln
  | _ => .error .fault

/-- `fl->next` -/
def nextAt (fl : Nat) : Except Failure (Option Nat) :=
  match m.words fl 0 with
  | .next next => .ok next
  | _ => .error .fault

def read : Slot → Except Failure Ref
  | .bucket i => (m.arr[i]?).elim (.error .fault) .ok
  | .link q => m.linkAt q

def write (slot : Slot) (ln : Ref) : Memory Key :=
  match slot with
  | .bucket i => { m with arr := m.arr.set i ln }
  | .link q => m.setWord q 3 (.link ln)

/-- The assignments to the members of a pair. -/
def setPair (p obj0 obj1 : Nat) : Memory Key := (m.setWord p 0 (.obj obj0)).setWord p 1 (.obj obj1)

/-- The assignments to the members of a quad. -/
def setQuad (q obj0 obj1 obj2 : Nat) (link : Ref) : Memory Key :=
  (((m.setWord q 0 (.obj obj0)).setWord q 1 (.obj obj1)).setWord q 2 (.obj obj2)).setWord q 3 (.link link)

/-- `MAX_FREE_PAIR_COUNT` and `MAX_FREE_QUAD_COUNT` -/
def maxFreeCount : Kind → BitVec 16
  | .pair => 32
  | .quad => 32

def alloc (kind : Kind) : Except Failure (Nat × Memory Key) :=
  let fl := m.free kind
  if fl.count ≠ 0 then
    match fl.head with
    | none => .error .fault
    | some p => do
      let next ← m.nextAt p
      return (p, { m with free := update m.free kind { head := next, count := fl.count - 1 } })
  else .ok (m.top, { m with top := m.top + 1 })

/-- `_alloc_pair` -/
def allocPair : Except Failure (Nat × Memory Key) := m.alloc .pair

/-- `_alloc_quad` -/
def allocQuad : Except Failure (Nat × Memory Key) := m.alloc .quad

def stash (kind : Kind) (p : Nat) : Memory Key :=
  let fl := m.free kind
  { m.setWord p 0 (.next fl.head) with
    free := update m.free kind { head := some p, count := fl.count + 1 } }

/-- `_stash_pair` -/
def stashPair (pair : Nat) : Memory Key := m.stash .pair pair

/-- `_stash_quad` -/
def stashQuad (quad : Nat) : Memory Key := m.stash .quad quad

/-- `_ufree_atomic` -/
def ufreeAtomic (p : Nat) : Memory Key := { m with words := update m.words p fun _ => .unset }

def release (kind : Kind) (p : Nat) : Memory Key :=
  if (m.free kind).count < maxFreeCount kind then m.stash kind p else m.ufreeAtomic p

/-- `_free_pair` -/
def freePair (pair : Nat) : Memory Key := m.release .pair pair

/-- `_free_quad` -/
def freeQuad (quad : Nat) : Memory Key := m.release .quad quad

/-- The loop of `_hset_prune_freelists`, with the number of rounds that are left. -/
def pruneLoop : Nat → Memory Key → Option Nat → Except Failure (Option Nat × Memory Key)
  | 0, m, fl => .ok (fl, m)
  | _ + 1, _, none => .error .fault
  | rounds + 1, m, some fl => do
    let next ← m.nextAt fl
    pruneLoop rounds (m.ufreeAtomic fl) next

def prune (kind : Kind) : Except Failure (Memory Key) :=
  let fl := m.free kind
  if fl.count > maxFreeCount kind then do
    let (head, m) ← pruneLoop (fl.count.toNat - (maxFreeCount kind).toNat) m fl.head
    return { m with free := update m.free kind { head, count := maxFreeCount kind } }
  else .ok m

/-- `_hset_prune_freelists` -/
def hsetPruneFreelists : Except Failure (Memory Key) := do
  let m ← m.prune .pair
  m.prune .quad

/-! Merging. The loops over the quads of a chain are given a number of rounds. -/

/-- No chain has this many quads. -/
def rounds : Nat := m.top + 1

def mergeObjLoop : Nat → Memory Key → Slot → Nat → Except Failure (Memory Key)
  | 0, _, _, _ => .error .fault
  | rounds + 1, m, dstSlot, obj => do
    match ← m.read dstSlot with
    | .null => return m.write dstSlot (.obj obj)
    | .obj link => do
      let (pair, m) ← m.allocPair
      return (m.setPair pair link obj).write dstSlot (.pair pair)
    | .pair pair => do
      let (quad, m) ← m.allocQuad
      let obj0 ← m.objAt pair 0
      let obj1 ← m.objAt pair 1
      let m := (m.setQuad quad obj0 obj1 obj .null).stashPair pair
      return m.write dstSlot (.quad quad)
    | .quad quad => mergeObjLoop rounds m (.link quad) obj

/-- `_merge_obj` -/
def mergeObj (dstSlot : Slot) (obj : Nat) : Except Failure (Memory Key) := mergeObjLoop m.rounds m dstSlot obj

def mergePairLoop : Nat → Memory Key → Slot → Nat → Except Failure (Memory Key)
  | 0, _, _, _ => .error .fault
  | rounds + 1, m, dstSlot, srcPair => do
    match ← m.read dstSlot with
    | .null => return m.write dstSlot (.pair srcPair)
    | .obj link => do
      let (quad, m) ← m.allocQuad
      let obj0 ← m.objAt srcPair 0
      let obj1 ← m.objAt srcPair 1
      let m := (m.stashPair srcPair).setQuad quad obj0 obj1 link .null
      return m.write dstSlot (.quad quad)
    | .pair pair => do
      let (quad, m) ← m.allocQuad
      let obj0 ← m.objAt srcPair 0
      let obj1 ← m.objAt srcPair 1
      let m := m.stashPair srcPair
      let obj2 ← m.objAt pair 0
      let obj3 ← m.objAt pair 1
      let m := (m.setQuad quad obj0 obj1 obj2 (.obj obj3)).stashPair pair
      return m.write dstSlot (.quad quad)
    | .quad quad => mergePairLoop rounds m (.link quad) srcPair

/-- `_merge_pair` -/
def mergePair (dstSlot : Slot) (srcPair : Nat) : Except Failure (Memory Key) :=
  mergePairLoop m.rounds m dstSlot srcPair

def mergeQuadLoop : Nat → Memory Key → Slot → Nat → Except Failure (Memory Key)
  | 0, _, _, _ => .error .fault
  | rounds + 1, m, dstSlot, srcQuad => do
    match ← m.read dstSlot with
    | .null => return m.write dstSlot (.quad srcQuad)
    | link => do
      match ← m.linkAt srcQuad, link with
      | .null, _ => return (m.write (.link srcQuad) link).write dstSlot (.quad srcQuad)
      | _, .obj obj => do
        let m ← m.mergeObj (.link srcQuad) obj
        return m.write dstSlot (.quad srcQuad)
      | _, .pair pair => do
        let m ← m.mergePair (.link srcQuad) pair
        return m.write dstSlot (.quad srcQuad)
      | _, .quad quad => mergeQuadLoop rounds m (.link quad) srcQuad
      | _, .null => .error .fault

/-- `_merge_quad` -/
def mergeQuad (dstSlot : Slot) (srcQuad : Nat) : Except Failure (Memory Key) :=
  mergeQuadLoop m.rounds m dstSlot srcQuad

/-- The body of the inner loop of `_hset_shrink`. -/
def mergeLink (dstSlot : Slot) (srcLink : Ref) : Except Failure (Memory Key) := do
  match srcLink, ← m.read dstSlot with
  | .null, _ => return m
  | srcLink, .null => return m.write dstSlot srcLink
  | .obj obj, _ => m.mergeObj dstSlot obj
  | .pair pair, _ => m.mergePair dstSlot pair
  | .quad quad, _ => m.mergeQuad dstSlot quad

/-- The inner loop of `_hset_shrink`, from a slot of the new array on. -/
def shrinkRound : Memory Key → Nat → List Ref → Except Failure (Memory Key)
  | m, _, [] => .ok m
  | m, i, srcLink :: src => do
    let m ← m.mergeLink (.bucket i) srcLink
    shrinkRound m (i + 1) src

/-- The outer loop of `_hset_shrink`, with the number of rounds and the rest of the old array. -/
def shrinkRounds (dstCap : Nat) : Nat → Memory Key → List Ref → Except Failure (Memory Key)
  | 0, m, _ => .ok m
  | rounds + 1, m, src => do
    let m ← m.shrinkRound 0 (src.take dstCap)
    shrinkRounds dstCap rounds m (src.drop dstCap)

/-- `_hset_shrink`. The array is the new one from the start, since nothing reads `hset->arr` in the loops. -/
def shrink (dstCap : Nat) : Except Failure (Memory Key) :=
  let srcCap := m.mask + 1
  if srcCap > dstCap then do
    let m ← shrinkRounds dstCap (srcCap / dstCap - 1) { m with arr := m.arr.take dstCap } (m.arr.drop dstCap)
    hsetPruneFreelists { m with mask := dstCap - 1 }
  else .error .fault

/-- `_hset_link_pop`. A null link is taken for an object at `NULL`. -/
def linkPopLoop : Nat → Memory Key → Slot → Except Failure (Nat × Memory Key)
  | 0, _, _ => .error .fault
  | rounds + 1, m, slot => do
    match ← m.read slot with
    | .null => .error .fault
    | .obj obj => return (obj, m.write slot .null)
    | .pair pair => do
      let obj0 ← m.objAt pair 0
      let m := (m.write slot (.obj obj0)).stashPair pair
      let obj1 ← m.objAt pair 1
      return (obj1, m)
    | .quad quad => do
      match ← m.linkAt quad with
      | .null => do
        let (pair, m) ← m.allocPair
        let obj0 ← m.objAt quad 0
        let obj1 ← m.objAt quad 1
        let m := ((m.setPair pair obj0 obj1).write slot (.pair pair)).stashQuad quad
        let obj2 ← m.objAt quad 2
        return (obj2, m)
      | _ => linkPopLoop rounds m (.link quad)

def linkPop (slot : Slot) : Except Failure (Nat × Memory Key) := linkPopLoop m.rounds m slot

/-- The first of the three objects of a quad that passes a test. -/
def findIndex (test : Nat → Except Failure Bool) (quad : Nat) : Except Failure (Option (Nat × Nat)) := do
  let obj0 ← m.objAt quad 0
  if ← test obj0 then return some (0, obj0)
  let obj1 ← m.objAt quad 1
  if ← test obj1 then return some (1, obj1)
  let obj2 ← m.objAt quad 2
  if ← test obj2 then return some (2, obj2)
  return none

/-- What `_hset_erase` does to a quad with the object. -/
def eraseFromQuad (slot : Slot) (quad i : Nat) : Except Failure (Memory Key) := do
  match ← m.linkAt quad with
  | .null => do
    let (pair, m) ← m.allocPair
    let obj0 ← m.objAt quad ((i + 1) % 3)
    let obj1 ← m.objAt quad ((i + 2) % 3)
    return ((m.setPair pair obj0 obj1).freeQuad quad).write slot (.pair pair)
  | _ => do
    let (obj, m) ← m.linkPop (.link quad)
    return m.setWord quad i (.obj obj)

/-- The search of `_hset_erase`, which asserts that the object is there. -/
def eraseLoop : Nat → Memory Key → Slot → Nat → Except Failure (Memory Key)
  | 0, _, _, _ => .error .fault
  | rounds + 1, m, slot, objErase => do
    match ← m.read slot with
    | .null => .error .fault
    | .obj obj => if objErase = obj then return m.write slot .null else .error .fault
    | .pair pair => do
      let obj0 ← m.objAt pair 0
      let obj1 ← m.objAt pair 1
      if obj0 = objErase then return (m.write slot (.obj obj1)).freePair pair
      else if obj1 = objErase then return (m.write slot (.obj obj0)).freePair pair
      else .error .fault
    | .quad quad => do
      match ← m.findIndex (fun obj => .ok (obj = objErase)) quad with
      | some (i, _) => m.eraseFromQuad slot quad i
      | none => eraseLoop rounds m (.link quad) objErase

section Hash

variable (hash : Key → Word)

/-- `cuex_key_hash`, masked for the array. -/
def slotOf (obj : Nat) : Except Failure Slot :=
  (m.objs[obj]?).elim (.error .fault) fun key => .ok (.bucket (Hset.slot hash m.mask key))

/-- `_hset_erase` -/
def hsetErase (obj : Nat) : Except Failure (Memory Key) := do
  let slot ← m.slotOf hash obj
  let erased ← eraseLoop m.rounds m slot obj
  let erased := { erased with size := erased.size - 1 }
  match Hset.shrinkTo erased.size m.mask with
  | none => return erased
  | some newCap => erased.shrink newCap

/-- `_hset_reinsert` -/
def reinsert (obj : Nat) : Except Failure (Memory Key) := do
  let slot ← m.slotOf hash obj
  m.mergeObj slot obj

/-- The loop of `_hset_grow` over the links of a slot. -/
def growLink : Nat → Memory Key → Ref → Except Failure (Memory Key)
  | 0, _, _ => .error .fault
  | _ + 1, m, .null => .ok m
  | _ + 1, m, .obj obj => m.reinsert hash obj
  | _ + 1, m, .pair pair => do
    let m ← m.reinsert hash (← m.objAt pair 0)
    let m ← m.reinsert hash (← m.objAt pair 1)
    return m.stashPair pair
  | rounds + 1, m, .quad quad => do
    let m ← m.reinsert hash (← m.objAt quad 0)
    let m ← m.reinsert hash (← m.objAt quad 1)
    let m ← m.reinsert hash (← m.objAt quad 2)
    let srcLink ← m.linkAt quad
    growLink rounds (m.stashQuad quad) srcLink

/-- `_hset_grow`. A word cannot count the bytes of an array that is too large. -/
def grow (dstCap : Nat) : Except Failure (Memory Key) :=
  if 8 * dstCap < 2 ^ 64 then do
    let m ← m.arr.foldlM (fun m srcLink => growLink hash m.rounds m srcLink)
      { m with arr := List.replicate dstCap .null, mask := dstCap - 1 }
    m.hsetPruneFreelists
  else .error .outOfMemory

variable [DecidableEq Key]

/-- `_obj_new` -/
def objNew (key : Key) : Nat × Memory Key := (m.objs.length, { m with objs := m.objs ++ [key] })

/-- `_obj_eq` -/
def objEq (key : Key) (obj : Nat) : Except Failure Bool :=
  (m.objs[obj]?).elim (.error .fault) fun key' => .ok (key = key')

/-- The search of `cuexP_halloc_raw` in a chain: whether it found the object, the object, and the memory with it. -/
def hallocLoop : Nat → Memory Key → Slot → Key → Except Failure (Bool × Nat × Memory Key)
  | 0, _, _, _ => .error .fault
  | rounds + 1, m, slot, key => do
    match ← m.read slot with
    | .null =>
      let (retObj, m) := m.objNew key
      return (false, retObj, m.write slot (.obj retObj))
    | .obj obj => do
      if ← m.objEq key obj then return (true, obj, m)
      let (pair, m) ← m.allocPair
      let (retObj, m) := m.objNew key
      return (false, retObj, (m.setPair pair obj retObj).write slot (.pair pair))
    | .pair pair => do
      let obj0 ← m.objAt pair 0
      if ← m.objEq key obj0 then return (true, obj0, m)
      let obj1 ← m.objAt pair 1
      if ← m.objEq key obj1 then return (true, obj1, m)
      let (quad, m) ← m.allocQuad
      let obj0 ← m.objAt pair 0
      let obj1 ← m.objAt pair 1
      let (retObj, m) := m.objNew key
      return (false, retObj, ((m.setQuad quad obj0 obj1 retObj .null).freePair pair).write slot (.quad quad))
    | .quad quad => do
      match ← m.findIndex (m.objEq key) quad with
      | some (_, obj) => return (true, obj, m)
      | none => hallocLoop rounds m (.link quad) key

/-- `cuexP_halloc_raw` -/
def hallocRaw (key : Key) : Except Failure (Nat × Memory Key) := do
  let (found, retObj, searched) ← hallocLoop m.rounds m (.bucket (Hset.slot hash m.mask key)) key
  if found then return (retObj, searched)
  let inserted := { searched with size := searched.size + 1 }
  if Hset.overloaded inserted.size m.mask then
    let grown ← inserted.grow hash ((m.mask + 1) * 2)
    return (retObj, grown)
  return (retObj, inserted)

/-- `cuexP_hxalloc_raw`, where objects have words after the key, `caches`. `init_nonkey` sets those of a new object. -/
def hxallocRaw {C : Type} (caches : Nat → Option C) (key : Key) (initNonkey : Nat → C) :
    Except Failure (Nat × Memory Key × (Nat → Option C)) := do
  let (found, retObj, searched) ← hallocLoop m.rounds m (.bucket (Hset.slot hash m.mask key)) key
  if found then return (retObj, searched, caches)
  let caches := Function.update caches retObj (some (initNonkey retObj))
  let inserted := { searched with size := searched.size + 1 }
  if Hset.overloaded inserted.size m.mask then
    let grown ← inserted.grow hash ((m.mask + 1) * 2)
    return (retObj, grown, caches)
  return (retObj, inserted, caches)

end Hash

end Memory

end Culibs.Cuoo.Halloc
