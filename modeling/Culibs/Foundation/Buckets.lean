import Culibs.Foundation.Keyed
import Mathlib.Data.Finset.Card
import Mathlib.Data.List.TakeWhile
import Mathlib.Tactic.Ring

/-! Hash tables with chaining. Null-terminated chains hang at an array of heads, and loops
follow a place, which is where a pointer to a node is stored. -/

namespace Culibs

open Function List Finset

/-- The heads of the chains and the links of all nodes. -/
structure Buckets (α : Type) where
  heads : List α
  next : α → α

namespace Buckets

variable {α : Type}

/-- Where a pointer to a node is stored. -/
inductive Place (α : Type) where
  | head (index : Nat)
  | link (node : α)

/-- The pointer at a place, unless the index is out of bounds. -/
def read (t : Buckets α) : Place α → Option α
  | .head index => t.heads[index]?
  | .link node => some (t.next node)

/-- The place after the given nodes. -/
def after : Place α → List α → Place α
  | place, [] => place
  | _, node :: nodes => after (.link node) nodes

theorem after_concat (place : Place α) (nodes : List α) (node : α) :
    after place (nodes ++ [node]) = .link node := by
  induction nodes generalizing place with
  | nil => rfl
  | cons first nodes ih => exact ih (.link first)

/-- The nodes from a pointer to the end of its chain. -/
def Path (next : α → α) (null : α) : α → List α → Prop
  | first, [] => first = null
  | first, node :: rest => first = node ∧ node ≠ null ∧ Path next null (next node) rest

instance instDecidablePath [DecidableEq α] (next : α → α) (null : α) : ∀ first nodes, Decidable (Path next null first nodes)
  | first, [] => inferInstanceAs (Decidable (first = null))
  | first, node :: rest =>
    have := instDecidablePath next null (next node) rest
    inferInstanceAs (Decidable (first = node ∧ node ≠ null ∧ Path next null (next node) rest))

variable {next next' : α → α} {null first node : α} {xs ys pre post : List α}

section

variable (path : Path next null first xs)

include path

theorem Path.congr (same : ∀ a ∈ xs, next' a = next a) : Path next' null first xs := by
  induction xs generalizing first with
  | nil => exact path
  | cons x xs ih =>
    obtain ⟨isFirst, nonnull, rest⟩ := path
    refine ⟨isFirst, nonnull, ?_⟩
    rw [same x (mem_cons_self ..)]
    exact ih rest fun a mem => same a (mem_cons_of_mem x mem)

theorem Path.nonnull : ∀ a ∈ xs, a ≠ null := by
  induction xs generalizing first with
  | nil => simp
  | cons x xs ih =>
    intro a mem
    rcases mem_cons.mp mem with rfl | later
    · exact path.2.1
    · exact ih path.2.2 a later

theorem Path.append_nil : Path next null first (xs ++ []) := by
  rwa [List.append_nil]

theorem Path.headD : xs.headD null = first := by
  cases xs with
  | nil => exact path.symm
  | cons x xs => exact path.1.symm

theorem Path.unique (path' : Path next null first ys) : xs = ys := by
  induction xs generalizing first ys with
  | nil =>
    cases ys with
    | nil => rfl
    | cons y ys => exact absurd (path'.1.symm.trans path) path'.2.1
  | cons x xs ih =>
    cases ys with
    | nil => exact absurd (path.1.symm.trans path') path.2.1
    | cons y ys =>
      obtain rfl : x = y := path.1.symm.trans path'.1
      rw [ih path.2.2 path'.2.2]

end

variable {place : Place α}

theorem read_after {t : Buckets α} (held : t.read place = some first)
    (path : Path t.next null first (pre ++ post)) :
    t.read (after place pre) = some (post.headD null) ∧ Path t.next null (post.headD null) post := by
  induction pre generalizing place first with
  | nil =>
    have isFirst : post.headD null = first := path.headD
    rw [isFirst]
    exact ⟨held, path⟩
  | cons x pre ih =>
    obtain ⟨rfl, nonnull, rest⟩ := path
    exact ih rfl rest

/-- What a store in a chain changes: only this chain, from the place on. -/
structure Rewrites (t t' : Buckets α) (index : Nat) (pre : List α) : Prop where
  length : t'.heads.length = t.heads.length
  heads : ∀ j, j ≠ index → t'.heads[j]? = t.heads[j]?
  next : ∀ a, a ∉ pre → t'.next a = t.next a

/-- What an operation leaves as it was: the heads from the capacity on, and the links of other
nodes. -/
structure Keeps (t t' : Buckets α) (cap : Nat) (touched : Finset α) : Prop where
  length : t'.heads.length = t.heads.length
  heads : ∀ j, cap ≤ j → t'.heads[j]? = t.heads[j]?
  next : ∀ a, a ∉ touched → t'.next a = t.next a

variable {t t' : Buckets α} {cap : Nat} {touched nodes : Finset α}

theorem Keeps.refl (t : Buckets α) (cap : Nat) (touched : Finset α) : Keeps t t cap touched :=
  ⟨rfl, fun _ _ => rfl, fun _ _ => rfl⟩

theorem Keeps.trans (keeps : Keeps t t' cap touched)
    (keeps' : Keeps t' t'' cap touched') (first : touched ⊆ touched'') (second : touched' ⊆ touched'') :
    Keeps t t'' cap touched'' :=
  ⟨keeps'.length.trans keeps.length, fun j beyond => (keeps'.heads j beyond).trans (keeps.heads j beyond),
    fun a outside => (keeps'.next a fun inside => outside (second inside)).trans
      (keeps.next a fun inside => outside (first inside))⟩

variable {i : Nat}

theorem Rewrites.keeps (rewrites : Rewrites t t' i pre) (bound : i < cap) (mine : ∀ a ∈ pre, a ∈ nodes) :
    Keeps t t' cap nodes :=
  ⟨rewrites.length, fun j beyond => rewrites.heads j (ne_of_gt (lt_of_lt_of_le bound beyond)),
    fun a outside => rewrites.next a fun inside => outside (mine a inside)⟩

theorem disjoint_parts (nodes : Finset α) (index : α → Nat) (i j : Nat) (ne : i ≠ j) :
    Disjoint (nodes.filter fun a => index a = i) (nodes.filter fun a => index a = j) := by
  refine disjoint_left.mpr fun a mem member' => ne ?_
  rw [← (mem_filter.mp mem).2, (mem_filter.mp member').2]

variable [DecidableEq α]

/-- Stores a pointer at a place, unless the index is out of bounds. -/
def write (t : Buckets α) (place : Place α) (node : α) : Option (Buckets α) :=
  match place with
  | .head index => if index < t.heads.length then some { t with heads := t.heads.set index node } else none
  | .link previous => some { t with next := update t.next previous node }

/-- `while (*p && !found(*p)) p = &(*p)->next`, the place and what it holds at the end. -/
def seek (null : α) (found : α → Bool) (t : Buckets α) : Nat → Place α → Option (Place α × α)
  | 0, _ => none
  | fuel + 1, place =>
    match t.read place with
    | none => none
    | some node =>
      if node = null ∨ found node = true then some (place, node) else seek null found t fuel (.link node)

/-- `while (node && !found(node)) node = node->next` -/
def findLoop (null : α) (found : α → Bool) (next : α → α) : Nat → α → Option α
  | 0, _ => none
  | fuel + 1, node =>
    if node = null then some null
    else if found node then some node
    else findLoop null found next fuel (next node)

/-- `node->next = arr[i]; arr[i] = node` -/
def push (t : Buckets α) (i : Nat) (node : α) : Option (Buckets α) :=
  match t.heads[i]? with
  | none => none
  | some first => write { t with next := update t.next node first } (.head i) node

/-- Moves the nodes of a chain to the front of the chains of their indices. -/
def pushAll (null : α) (index : α → Nat) : Nat → Buckets α → α → Option (Buckets α)
  | 0, _, _ => none
  | fuel + 1, t, node =>
    if node = null then some t
    else
      match push t (index node) node with
      | none => none
      | some t' => pushAll null index fuel t' (t.next node)

/-- `while (*p) p = &(*p)->next; *p = first` -/
def attach (null : α) (fuel i : Nat) (t : Buckets α) (first : α) : Option (Buckets α) :=
  match seek null (fun _ => false) t fuel (.head i) with
  | none => none
  | some (place, _) => t.write place first

/-- A loop over the heads of another array from an index on. -/
def forHeads (step : Nat → Buckets α → α → Option (Buckets α)) : Nat → List α → Buckets α → Option (Buckets α)
  | _, [], t => some t
  | i, first :: firsts, t =>
    match step i t first with
    | none => none
    | some t' => forHeads step (i + 1) firsts t'

theorem write_link (t : Buckets α) (ne : place ≠ .link node) (target value : α) :
    write { t with next := update t.next node value } place target =
      (t.write place target).map fun t' => { t' with next := update t'.next node value } := by
  cases place with
  | head index =>
    by_cases inside : index < t.heads.length
    · simp only [write, if_pos inside, Option.map_some]
    · simp only [write, if_neg inside, Option.map_none]
  | link previous =>
    have other : previous ≠ node := fun same => ne (congrArg Place.link same)
    simp only [write, Option.map_some, update_comm other]

variable {fuel : Nat}
variable {found : α → Bool}

theorem seek_eq
    (held : t.read place = some first) (path : Path t.next null first (pre ++ post))
    (passed : ∀ a ∈ pre, found a = false) (stop : ∀ a ∈ post.head?, found a = true) (enough : pre.length < fuel) :
    seek null found t fuel place = some (after place pre, post.headD null) := by
  induction pre generalizing place first fuel with
  | nil =>
    obtain ⟨less, rfl⟩ := Nat.exists_eq_add_one_of_ne_zero (ne_of_gt enough)
    have stops : first = null ∨ found first = true := by
      cases post with
      | nil => exact .inl path
      | cons y post =>
        obtain rfl : first = y := path.1
        exact .inr (stop first rfl)
    rw [seek, held, show post.headD null = first from path.headD]
    exact if_pos stops
  | cons x pre ih =>
    obtain ⟨less, rfl⟩ := Nat.exists_eq_add_one_of_ne_zero (ne_zero_of_lt enough)
    obtain ⟨rfl, nonnull, rest⟩ := path
    have continues : ¬ (first = null ∨ found first = true) := by
      rw [passed first (mem_cons_self ..)]
      simpa using nonnull
    rw [seek, held]
    simp only [if_neg continues]
    exact ih rfl rest (fun a mem => passed a (mem_cons_of_mem first mem))
      (Nat.lt_of_succ_lt_succ enough)

theorem findLoop_eq (path : Path next null first xs) (enough : xs.length < fuel) :
    findLoop null found next fuel first = some ((xs.find? found).getD null) := by
  induction xs generalizing first fuel with
  | nil =>
    obtain ⟨less, rfl⟩ := Nat.exists_eq_add_one_of_ne_zero (ne_zero_of_lt enough)
    exact if_pos path
  | cons x xs ih =>
    obtain ⟨less, rfl⟩ := Nat.exists_eq_add_one_of_ne_zero (ne_zero_of_lt enough)
    obtain ⟨rfl, nonnull, rest⟩ := path
    rw [findLoop, if_neg nonnull]
    cases isFound : found first with
    | true => simp [isFound]
    | false =>
      rw [find?_cons_of_neg (by simp [isFound])]
      exact ih rest (Nat.lt_of_succ_lt_succ enough)

theorem Path.redirect (path : Path next null first (pre ++ last :: post)) (notBefore : last ∉ pre)
    (notAfter : last ∉ ys) (rest : Path next null target ys) :
    Path (update next last target) null first (pre ++ last :: ys) := by
  induction pre generalizing first with
  | nil =>
    obtain ⟨rfl, nonnull, _⟩ := path
    refine ⟨rfl, nonnull, ?_⟩
    rw [update_self]
    exact rest.congr fun a mem => update_of_ne (ne_of_mem_of_not_mem mem notAfter) ..
  | cons x pre ih =>
    obtain ⟨rfl, nonnull, later⟩ := path
    rw [List.mem_cons, not_or] at notBefore
    refine ⟨rfl, nonnull, ?_⟩
    rw [update_of_ne (Ne.symm notBefore.1)]
    exact ih later notBefore.2

theorem write_after (held : t.heads[index]? = some first)
    (path : Path t.next null first (pre ++ post)) (distinct : pre.Nodup)
    (rest : Path t.next null target ys) (disjoint : ∀ a ∈ pre, a ∉ ys) :
    ∃ t' first', t.write (after (.head index) pre) target = some t' ∧ t'.heads[index]? = some first' ∧
      Path t'.next null first' (pre ++ ys) ∧ Rewrites t t' index pre := by
  rcases eq_nil_or_concat pre with rfl | ⟨before, last, rfl⟩
  · have inside : index < t.heads.length := (List.getElem?_eq_some_iff.mp held).1
    refine ⟨{ t with heads := t.heads.set index target }, target, if_pos inside, ?_, rest,
      length_set .., ?_, fun _ _ => rfl⟩
    · exact getElem?_set_self inside
    · exact fun j ne => getElem?_set_ne ne.symm
  rw [concat_eq_append] at *
  have notBefore : last ∉ before := fun mem =>
    (nodup_append.mp distinct).2.2 last mem last (List.mem_singleton_self last) rfl
  rw [append_assoc] at path
  refine ⟨{ t with next := update t.next last target }, first, ?_, held, ?_, rfl, fun _ _ => rfl,
    fun a outside => update_of_ne (fun same => outside (by simp [same])) ..⟩
  · rw [after_concat]
    rfl
  · rw [append_assoc]
    exact path.redirect notBefore (disjoint last (by simp)) rest

/-- The chain from a pointer has the nodes of a set, each once. -/
def Spans (next : α → α) (null first : α) (part : Finset α) : Prop :=
  ∃ xs, Path next null first xs ∧ xs.Nodup ∧ xs.toFinset = part

variable {part done : Finset α} {index : α → Nat}

theorem Spans.congr (spans : Spans next null first part) (same : ∀ a ∈ part, next' a = next a) :
    Spans next' null first part := by
  obtain ⟨xs, path, distinct, rfl⟩ := spans
  exact ⟨xs, path.congr fun a mem => same a (mem_toFinset.mpr mem), distinct, rfl⟩

/-- Each node of a set is in the chain of its index. -/
structure Chained (t : Buckets α) (null : α) (cap : Nat) (index : α → Nat) (nodes : Finset α) : Prop where
  inside : ∀ a ∈ nodes, index a < cap
  chain : ∀ i < cap, ∃ first, t.heads[i]? = some first ∧
    Spans t.next null first (nodes.filter fun a => index a = i)

section

variable (chained : Chained t null cap index nodes)

include chained

theorem Chained.nonnull : ∀ a ∈ nodes, a ≠ null := by
  intro a mem
  obtain ⟨first, _, xs, path, _, isPart⟩ := chained.chain (index a) (chained.inside a mem)
  have inChain : a ∈ xs.toFinset := isPart ▸ mem_filter.mpr ⟨mem, rfl⟩
  exact path.nonnull a (mem_toFinset.mp inChain)

theorem Chained.congr (heads : ∀ i < cap, t'.heads[i]? = t.heads[i]?) (next : ∀ a ∈ nodes, t'.next a = t.next a) :
    Chained t' null cap index nodes := by
  refine ⟨chained.inside, fun i bound => ?_⟩
  obtain ⟨first, held, spans⟩ := chained.chain i bound
  exact ⟨first, (heads i bound).trans held, spans.congr fun a mem => next a (mem_filter.mp mem).1⟩

variable {index' : α → Nat}

theorem Chained.reindex (same : ∀ a ∈ nodes, index' a = index a) :
    Chained t null cap index' nodes := by
  refine ⟨fun a mem => same a mem ▸ chained.inside a mem, fun i bound => ?_⟩
  rw [Finset.filter_congr fun a mem => by rw [same a mem]]
  exact chained.chain i bound

variable {nodes' : Finset α}

theorem Chained.same_chain
    (chained' : Chained t null cap index' nodes') (mem : a ∈ nodes) : a ∈ nodes' ∧ index' a = index a := by
  obtain ⟨first, held, xs, path, _, isPart⟩ := chained.chain (index a) (chained.inside a mem)
  obtain ⟨first', held', xs', path', _, isPart'⟩ := chained'.chain (index a) (chained.inside a mem)
  obtain rfl : first = first' := Option.some.inj (held.symm.trans held')
  obtain rfl : xs = xs' := path.unique path'
  have inChain : a ∈ xs.toFinset := isPart ▸ mem_filter.mpr ⟨mem, rfl⟩
  rw [isPart'] at inChain
  exact mem_filter.mp inChain

theorem Chained.rewrite (rewrites : Rewrites t t' i pre)
    (mine : ∀ a ∈ pre, index a = i) (held : t'.heads[i]? = some first)
    (spans : Spans t'.next null first (nodes'.filter fun a => index a = i))
    (inside : ∀ a ∈ nodes', index a < cap) (others : ∀ a, index a ≠ i → (a ∈ nodes' ↔ a ∈ nodes)) :
    Chained t' null cap index nodes' := by
  refine ⟨inside, fun j bound => ?_⟩
  by_cases same : j = i
  · subst same
    exact ⟨first, held, spans⟩
  obtain ⟨first, held, spans⟩ := chained.chain j bound
  have part : (nodes'.filter fun a => index a = j) = nodes.filter fun a => index a = j := by
    ext a
    simp only [Finset.mem_filter]
    exact and_congr_left fun isIndex => others a (isIndex ▸ same)
  refine ⟨first, (rewrites.heads j same).trans held, ?_⟩
  rw [part]
  refine spans.congr fun a mem => rewrites.next a fun inPre => same ?_
  rw [← mine a inPre, (mem_filter.mp mem).2]

end

/-- A place in a chain, with the nodes before it and those that are left. -/
structure InChain (null : α) (index : α → Nat) (nodes : Finset α) (t : Buckets α) (i : Nat) (before rest : List α) :
    Prop where
  path : ∃ first, t.heads[i]? = some first ∧ Path t.next null first (before ++ rest)
  distinct : (before ++ rest).Nodup
  members : ∀ a, a ∈ before ++ rest ↔ a ∈ nodes ∧ index a = i

section InChain

variable {i : Nat} {before rest : List α} {a : α}

section

omit [DecidableEq α]

theorem InChain.congr (inChain : InChain null index nodes t i before rest) (heads : t'.heads = t.heads)
    (next : ∀ a ∈ nodes, t'.next a = t.next a) : InChain null index nodes t' i before rest := by
  obtain ⟨⟨first, held, path⟩, distinct, members⟩ := inChain
  exact ⟨⟨first, (congrArg (·[i]?) heads).trans held, path.congr fun a mem => next a ((members a).mp mem).1⟩,
    distinct, members⟩

theorem InChain.read (inChain : InChain null index nodes t i before (a :: rest)) :
    t.read (after (.head i) before) = some a ∧ a ≠ null ∧ a ∈ nodes := by
  obtain ⟨⟨first, held, path⟩, _, members⟩ := inChain
  have here := read_after (show t.read (.head i) = some first from held) path
  exact ⟨here.1, here.2.2.1, ((members a).mp (mem_append_right _ (mem_cons_self ..))).1⟩

theorem InChain.advance (inChain : InChain null index nodes t i before (a :: rest)) :
    InChain null index nodes t i (before ++ [a]) rest := by
  obtain ⟨path, distinct, members⟩ := inChain
  have append : before ++ [a] ++ rest = before ++ a :: rest := by rw [append_assoc, singleton_append]
  rw [← append] at distinct
  simp only [← append] at path members
  exact ⟨path, distinct, members⟩

end

theorem InChain.unlink (inChain : InChain null index nodes t i before (a :: rest)) (bound : i < cap)
    (chained : Chained t null cap index nodes) :
    ∃ t', t.write (after (.head i) before) (t.next a) = some t' ∧ Chained t' null cap index (nodes.erase a) ∧
      InChain null index (nodes.erase a) t' i before rest ∧ Keeps t t' cap (nodes.erase a) := by
  obtain ⟨⟨first, held, path⟩, distinct, members⟩ := inChain
  have following : Path t.next null (t.next a) rest :=
    (read_after (show t.read (.head i) = some first from held) path).2.2.2
  have distinctRest := distinct
  rw [nodup_middle, nodup_cons, mem_append, not_or] at distinctRest
  obtain ⟨⟨notBefore, notAfter⟩, distinctRest⟩ := distinctRest
  obtain ⟨distinctBefore, _, apart⟩ := nodup_append'.mp distinctRest
  obtain ⟨t', first', written, held', path', rewrites⟩ := write_after held path distinctBefore following apart
  have members' (b : α) : b ∈ before ++ rest ↔ b ∈ nodes.erase a ∧ index b = i := by
    have old := members b
    rw [mem_append, mem_erase, and_assoc, ← old]
    by_cases same : b = a
    · subst same
      simp [notBefore, notAfter]
    · simp [same]
  have mine (b : α) (mem : b ∈ before) : b ∈ nodes.erase a ∧ index b = i :=
    (members' b).mp (mem_append_left _ mem)
  have atIndex : index a = i := ((members a).mp (mem_append_right _ (mem_cons_self ..))).2
  refine ⟨t', written, ?_, ⟨⟨first', held', path'⟩, distinctRest, members'⟩,
    rewrites.keeps bound fun b mem => (mine b mem).1⟩
  refine chained.rewrite rewrites (fun b mem => (mine b mem).2) held' ⟨before ++ rest, path', distinctRest, ?_⟩
    (fun b mem => chained.inside b (mem_erase.mp mem).2) fun b away => ?_
  · ext b
    rw [List.mem_toFinset, members', Finset.mem_filter]
  · exact mem_erase.trans (and_iff_right fun same => away (same ▸ atIndex))

end InChain

theorem Chained.split (chained : Chained t null cap index nodes) (bound : i < cap) (found : α → Bool) :
    ∃ first pre post, t.heads[i]? = some first ∧ Path t.next null first (pre ++ post) ∧ (pre ++ post).Nodup ∧
      (∀ a, a ∈ pre ++ post ↔ a ∈ nodes ∧ index a = i) ∧ (∀ a ∈ pre, found a = false) ∧
      (∀ a ∈ post.head?, found a = true) ∧ (pre ++ post).length ≤ nodes.card := by
  obtain ⟨first, held, xs, path, distinct, isPart⟩ := chained.chain i bound
  have members (a : α) : a ∈ xs ↔ a ∈ nodes ∧ index a = i := by
    rw [← List.mem_toFinset, isPart, Finset.mem_filter]
  have few : xs.length ≤ nodes.card := by
    rw [← toFinset_card_of_nodup distinct, isPart]
    exact card_filter_le ..
  refine ⟨first, xs.takeWhile (fun a => !found a), xs.dropWhile (fun a => !found a), held, ?_⟩
  rw [takeWhile_append_dropWhile]
  refine ⟨path, distinct, members, fun a mem => ?_, fun a isHead => ?_, few⟩
  · simpa using mem_takeWhile_imp mem
  · have stops := head?_dropWhile_not (fun a => !found a) xs
    rw [isHead] at stops
    simpa using stops

/-- What is found is the only node of its index the predicate holds for. -/
def Unique (nodes : Finset α) (index : α → Nat) (i : Nat) (found : α → Bool) : Prop :=
  ∀ a ∈ nodes, ∀ b ∈ nodes, index a = i → index b = i → found a = true → found b = true → a = b

omit [DecidableEq α] in
theorem unique_key [BEq κ] [LawfulBEq κ] (keyed : Keyed key nodes contents)
    (i : Nat) (k : κ) : Unique nodes index i fun a => key a == k := by
  intro a memberA b memberB _ _ foundA foundB
  exact keyed.unique memberA memberB ((beq_iff_eq.mp foundA).trans (beq_iff_eq.mp foundB).symm)

section

variable (chained : Chained t null cap index nodes)

include chained

variable {i : Nat}

/-- Either no node of the index is found, or the search returns it. -/
theorem Chained.findLoop (bound : i < cap) (unique : Unique nodes index i found) :
    ∃ first, t.heads[i]? = some first ∧ ∀ fuel, nodes.card < fuel → ∃ result,
      findLoop null found t.next fuel first = some result ∧
      (∀ a ∈ nodes, index a = i → found a = true → result = a) ∧
      ((∀ a ∈ nodes, index a = i → found a = false) → result = null) := by
  obtain ⟨first, pre, post, held, path, _, members, _, _, few⟩ := chained.split bound found
  refine ⟨first, held, fun fuel enough => ⟨_, findLoop_eq path (lt_of_le_of_lt few enough), ?_, ?_⟩⟩
  · intro a mem isIndex isFound
    cases search : (pre ++ post).find? found with
    | none => exact absurd isFound (find?_eq_none.mp search a ((members a).mpr ⟨mem, isIndex⟩))
    | some b =>
      obtain ⟨inNodes, sameIndex⟩ := (members b).mp (mem_of_find?_eq_some search)
      exact unique b inNodes a mem sameIndex isIndex (find?_some search) isFound
  · intro absent
    have search : (pre ++ post).find? found = none := find?_eq_none.mpr fun a mem => by
      simp [absent a ((members a).mp mem).1 ((members a).mp mem).2]
    rw [search, Option.getD_none]

/-- A search that fails ends where a chain of new nodes can be attached. The new nodes may
be linked and get their index after the search. -/
theorem Chained.seek_absent (bound : i < cap)
    (absent : ∀ a ∈ nodes, index a = i → found a = false) :
    ∃ place, (∀ fuel, nodes.card < fuel → seek null found t fuel (.head i) = some (place, null)) ∧
      (∀ a, a ∉ nodes → place ≠ .link a) ∧
      ∀ t1 index1 target part, t1.heads = t.heads → (∀ a ∈ nodes, t1.next a = t.next a) →
        (∀ a ∈ nodes, index1 a = index a) → Spans t1.next null target part → Disjoint nodes part →
        (∀ a ∈ part, index1 a = i) → ∃ t', t1.write place target = some t' ∧
          Chained t' null cap index1 (nodes ∪ part) ∧ Keeps t1 t' cap nodes := by
  obtain ⟨first, pre, post, held, path, distinct, members, passed, stop, few⟩ := chained.split bound found
  obtain rfl : post = [] := by
    cases post with
    | nil => rfl
    | cons a post =>
      obtain ⟨mem, isIndex⟩ := (members a).mp (by simp)
      have isFound := stop a rfl
      rw [absent a mem isIndex] at isFound
      cases isFound
  rw [List.append_nil] at path distinct few
  simp only [List.append_nil] at members
  have mine (a : α) (mem : a ∈ pre) : a ∈ nodes := ((members a).mp mem).1
  refine ⟨after (.head i) pre, fun fuel enough => ?_, fun a outside same => ?_, ?_⟩
  · exact seek_eq (show t.read (.head i) = some first from held) path.append_nil passed stop
      (lt_of_le_of_lt few enough)
  · rcases eq_nil_or_concat pre with rfl | ⟨before, last, rfl⟩
    · cases same
    · rw [concat_eq_append, after_concat] at same
      cases same
      exact outside (mine a (by simp))
  rintro t1 index1 target part heads next same ⟨ys, rest, distinctRest, isPart⟩ disjoint placed
  have chained1 : Chained t1 null cap index1 nodes := (chained.congr (fun i _ => by rw [heads]) next).reindex same
  have path1 : Path t1.next null first pre := path.congr fun a mem => next a (mine a mem)
  rw [← heads] at held
  have inPart (a : α) : a ∈ ys ↔ a ∈ part := by rw [← List.mem_toFinset, isPart]
  have apart : ∀ a ∈ pre, a ∉ ys := fun a mem later =>
    Finset.disjoint_left.mp disjoint (mine a mem) ((inPart a).mp later)
  obtain ⟨t', first', written, held', path', rewrites⟩ := write_after held path1.append_nil distinct rest apart
  refine ⟨t', written, ?_, rewrites.keeps bound mine⟩
  refine chained1.rewrite rewrites (fun a mem => (same a (mine a mem)).trans ((members a).mp mem).2) held'
    ⟨pre ++ ys, path', nodup_append'.mpr ⟨distinct, distinctRest, apart⟩, ?_⟩ (fun a mem => ?_) (fun a away => ?_)
  · ext a
    simp only [List.mem_toFinset, mem_append, members, inPart, Finset.mem_filter, mem_union]
    have isIndex := placed a
    have oldIndex := same a
    constructor
    · rintro (⟨old, isOld⟩ | new)
      · exact ⟨.inl old, (oldIndex old).trans isOld⟩
      · exact ⟨.inr new, isIndex new⟩
    · rintro ⟨old | new, isNew⟩
      · exact .inl ⟨old, (oldIndex old).symm.trans isNew⟩
      · exact .inr new
  · rcases mem_union.mp mem with old | new
    · exact chained1.inside a old
    · exact placed a new ▸ bound
  · rw [mem_union, or_iff_left fun new => away (placed a new)]

theorem Chained.seek_found (found : α → Bool) (mem : node ∈ nodes) (isFound : found node = true)
    (unique : Unique nodes index (index node) found) :
    ∃ place, (∀ fuel, nodes.card < fuel → seek null found t fuel (.head (index node)) = some (place, node)) ∧
      ∃ t', t.write place (t.next node) = some t' ∧ Chained t' null cap index (nodes.erase node) ∧
        Keeps t t' cap (nodes.erase node) := by
  have bound := chained.inside node mem
  obtain ⟨first, pre, post, held, path, distinct, members, passed, stop, few⟩ := chained.split bound found
  obtain ⟨rest, rfl⟩ : ∃ rest, post = node :: rest := by
    have inChain := (members node).mpr ⟨mem, rfl⟩
    rcases mem_append.mp inChain with before | later
    · rw [passed node before] at isFound
      cases isFound
    · cases post with
      | nil => cases later
      | cons a rest =>
        obtain ⟨inNodes, isIndex⟩ := (members a).mp (by simp)
        rw [unique a inNodes node mem isIndex rfl (stop a rfl) isFound]
        exact ⟨rest, rfl⟩
  have inChain : InChain null index nodes t (index node) pre (node :: rest) := ⟨⟨first, held, path⟩, distinct, members⟩
  obtain ⟨t', written, chained', _, keeps⟩ := inChain.unlink bound chained
  refine ⟨after (.head (index node)) pre, fun fuel enough => ?_, t', written, chained', keeps⟩
  have short : pre.length < fuel := by
    rw [length_append] at few
    omega
  exact seek_eq (show t.read (.head (index node)) = some first from held) path passed stop short

theorem Chained.pop (bound : i < cap) (held : t.heads[i]? = some node) (nonnull : node ≠ null) :
    node ∈ nodes ∧ ∃ t', t.write (.head i) (t.next node) = some t' ∧ Chained t' null cap index (nodes.erase node) ∧
      Keeps t t' cap (nodes.erase node) := by
  obtain ⟨first, held', xs, path, _, isPart⟩ := chained.chain i bound
  obtain rfl : first = node := Option.some.inj (held'.symm.trans held)
  have inChain : first ∈ xs.toFinset := by
    rw [mem_toFinset]
    cases xs with
    | nil => exact absurd path nonnull
    | cons x xs => exact path.1 ▸ .head _ ..
  rw [isPart] at inChain
  obtain ⟨mem, isIndex⟩ := mem_filter.mp inChain
  obtain ⟨place, found, unlinked⟩ := chained.seek_found (fun a => decide (a = first)) mem (decide_eq_true rfl)
    fun a _ b _ _ _ foundA foundB => (of_decide_eq_true foundA).trans (of_decide_eq_true foundB).symm
  have here := found (nodes.card + 1) (Nat.lt_succ_self _)
  rw [seek, isIndex, show t.read (.head i) = some first from held] at here
  simp only [decide_true, or_true, if_true, Option.some.injEq, Prod.mk.injEq, and_true] at here
  exact ⟨mem, here ▸ unlinked⟩

theorem Chained.push (fresh : node ∉ nodes) (nonnull : node ≠ null) (bound : index node < cap) :
    ∃ t', push t (index node) node = some t' ∧ Chained t' null cap index (insert node nodes) ∧
      Keeps t t' cap {node} := by
  obtain ⟨first, held, xs, path, distinct, isPart⟩ := chained.chain (index node) bound
  have members (a : α) : a ∈ xs ↔ a ∈ nodes ∧ index a = index node := by
    rw [← List.mem_toFinset, isPart, Finset.mem_filter]
  have notInChain : node ∉ xs := fun mem => fresh ((members node).mp mem).1
  have size : index node < t.heads.length := (List.getElem?_eq_some_iff.mp held).1
  refine ⟨⟨t.heads.set (index node) node, update t.next node first⟩, ?_, ?_, ?_, ?_, ?_⟩
  · rw [Buckets.push, held]
    exact if_pos size
  · have rewrites : Rewrites { t with next := update t.next node first }
        ⟨t.heads.set (index node) node, update t.next node first⟩ (index node) [] :=
      ⟨length_set .., fun j ne => getElem?_set_ne ne.symm, fun _ _ => rfl⟩
    have unlinked : Chained { t with next := update t.next node first } null cap index nodes :=
      chained.congr (fun _ _ => rfl) fun a mem => update_of_ne (ne_of_mem_of_not_mem mem fresh) ..
    refine unlinked.rewrite rewrites (by simp) (getElem?_set_self size)
      ⟨node :: xs, ⟨rfl, nonnull, ?_⟩, nodup_cons.mpr ⟨notInChain, distinct⟩, ?_⟩ (fun a mem => ?_) (fun a away => ?_)
    · simp only [update_self]
      exact path.congr fun a mem => update_of_ne (ne_of_mem_of_not_mem mem notInChain) ..
    · rw [toFinset_cons, isPart, filter_insert, if_pos rfl]
    · rcases mem_insert.mp mem with rfl | old
      · exact bound
      · exact chained.inside a old
    · rw [mem_insert, or_iff_right fun same => away (congrArg index same)]
  · exact length_set ..
  · exact fun j beyond => getElem?_set_ne (ne_of_lt (lt_of_lt_of_le bound beyond))
  · exact fun a other => update_of_ne (fun same => other (Finset.mem_singleton.mpr same)) ..

end

theorem Chained.pushAll (chained : Chained t null cap index done) (path : Path t.next null first xs)
    (distinct : xs.Nodup) (apart : ∀ a ∈ xs, a ∉ done) (inside : ∀ a ∈ xs, index a < cap) (enough : xs.length < fuel) :
    ∃ t', pushAll null index fuel t first = some t' ∧ Chained t' null cap index (done ∪ xs.toFinset) ∧
      Keeps t t' cap xs.toFinset := by
  induction xs generalizing t first done fuel with
  | nil =>
    obtain ⟨less, rfl⟩ := Nat.exists_eq_add_one_of_ne_zero (ne_zero_of_lt enough)
    refine ⟨t, if_pos path, ?_, Keeps.refl ..⟩
    rwa [toFinset_nil, union_empty]
  | cons x xs ih =>
    obtain ⟨less, rfl⟩ := Nat.exists_eq_add_one_of_ne_zero (ne_zero_of_lt enough)
    obtain ⟨rfl, nonnull, rest⟩ := path
    obtain ⟨notLater, distinct⟩ := nodup_cons.mp distinct
    obtain ⟨t', pushed, chained', keeps⟩ := chained.push (apart first (mem_cons_self ..)) nonnull
      (inside first (mem_cons_self ..))
    have later : Path t'.next null (t.next first) xs := rest.congr fun a mem =>
      keeps.next a fun same => ne_of_mem_of_not_mem mem notLater (Finset.mem_singleton.mp same)
    have apart' : ∀ a ∈ xs, a ∉ insert first done := fun a mem => by
      rw [mem_insert, not_or]
      exact ⟨ne_of_mem_of_not_mem mem notLater, apart a (.tail _ mem)⟩
    obtain ⟨t'', moved, chained'', keeps'⟩ := ih chained' later distinct apart'
      (fun a mem => inside a (.tail _ mem)) (Nat.lt_of_succ_lt_succ enough)
    refine ⟨t'', ?_, ?_, keeps.trans keeps' (by simp) (by simp)⟩
    · rw [Buckets.pushAll, if_neg nonnull, pushed]
      exact moved
    · have union : insert first done ∪ xs.toFinset = done ∪ (first :: xs).toFinset := by
        rw [toFinset_cons, insert_union, union_insert]
      rwa [union] at chained''

/-- What a loop over heads needs of a step: it takes a chain of new nodes over. -/
def Takes (step : Buckets α → α → Option (Buckets α)) (null : α) (cap : Nat) (index : α → Nat)
    (all part : Finset α) : Prop :=
  ∀ t first done, done ⊆ all → Chained t null cap index done → Spans t.next null first part → Disjoint done part →
    ∃ t', step t first = some t' ∧ Chained t' null cap index (done ∪ part) ∧ Keeps t t' cap (done ∪ part)

theorem forHeads_takes {parts : Nat → Finset α}
    (disjoint : ∀ i j, i ≠ j → Disjoint (parts i) (parts j)) {all : Finset α}
    (takes : ∀ j < firsts.length, Takes (step (i + j)) null cap index all (parts (i + j)))
    (chained : Chained t null cap index done)
    (spans : ∀ j first, firsts[j]? = some first → Spans t.next null first (parts (i + j)))
    (apart : ∀ j < firsts.length, Disjoint done (parts (i + j)))
    (isAll : ∀ a, a ∈ all ↔ a ∈ done ∨ ∃ j < firsts.length, a ∈ parts (i + j)) :
    ∃ t', forHeads step i firsts t = some t' ∧ Chained t' null cap index all ∧ Keeps t t' cap all := by
  induction firsts generalizing t done i with
  | nil =>
    obtain rfl : all = done := by
      ext a
      simp [isAll]
    exact ⟨t, rfl, chained, Keeps.refl ..⟩
  | cons first firsts ih =>
    obtain ⟨t', stepped, chained', keeps⟩ := takes 0 (by simp) t first done
      (fun a mem => (isAll a).mpr (.inl mem)) chained (spans 0 first rfl) (apart 0 (by simp))
    rw [add_zero] at stepped chained' keeps
    have shift (j : Nat) : i + 1 + j = i + (j + 1) := by omega
    have later (j : Nat) (bound : j < firsts.length) : Disjoint (done ∪ parts i) (parts (i + 1 + j)) := by
      rw [disjoint_union_left, shift]
      exact ⟨apart (j + 1) (Nat.succ_lt_succ bound), disjoint _ _ (by omega)⟩
    obtain ⟨t'', rest, chained'', keeps'⟩ := ih (i := i + 1) (fun j bound => by
        rw [shift]
        exact takes (j + 1) (Nat.succ_lt_succ bound)) chained' (fun j next held => by
        have old := spans (j + 1) next held
        rw [← shift] at old
        exact old.congr fun a mem => keeps.next a fun taken =>
          Finset.disjoint_left.mp (later j (List.getElem?_eq_some_iff.mp held).1) taken mem) later (fun a => by
        rw [isAll, mem_union, or_assoc]
        refine or_congr_right ⟨?_, ?_⟩
        · rintro ⟨_ | j, bound, mem⟩
          · exact .inl mem
          · exact .inr ⟨j, Nat.lt_of_succ_lt_succ bound, by rwa [shift]⟩
        · rintro (mem | ⟨j, bound, mem⟩)
          · exact ⟨0, Nat.succ_pos _, mem⟩
          · exact ⟨j + 1, Nat.succ_lt_succ bound, by rwa [← shift]⟩)
    refine ⟨t'', ?_, chained'', keeps.trans keeps' (fun a mem => (isAll a).mpr ?_) (Subset.refl _)⟩
    · rw [forHeads, stepped]
      exact rest
    · exact (mem_union.mp mem).imp_right fun now => ⟨0, Nat.succ_pos _, now⟩

theorem chained_empty (empty : ∀ i < cap, t.heads[i]? = some null) : Chained t null cap index ∅ := by
  refine ⟨by simp, fun i bound => ⟨null, empty i bound, [], rfl, nodup_nil, ?_⟩⟩
  simp

theorem takes_pushAll (enough : part.card < fuel) (inside : ∀ a ∈ part, index a < cap) :
    Takes (Buckets.pushAll null index fuel) null cap index nodes part := by
  rintro t first done _ chained ⟨xs, path, distinct, rfl⟩ apart
  rw [toFinset_card_of_nodup distinct] at enough
  obtain ⟨t', moved, chained', keeps⟩ := chained.pushAll path distinct
    (fun a mem taken => disjoint_left.mp apart taken (mem_toFinset.mpr mem))
    (fun a mem => inside a (mem_toFinset.mpr mem)) enough
  exact ⟨t', moved, chained', keeps.trans (Keeps.refl ..) subset_union_right (Subset.refl _)⟩

theorem takes_attach (bound : i < cap) (placed : ∀ a ∈ part, index a = i) (enough : nodes.card < fuel) :
    Takes (attach null fuel i) null cap index nodes part := by
  intro t first done few chained spans apart
  obtain ⟨place, found, _, attached⟩ := chained.seek_absent bound (fun _ _ _ => rfl)
  obtain ⟨t', written, chained', keeps⟩ := attached t index first part rfl (fun _ _ => rfl)
    (fun _ _ => rfl) spans apart placed
  refine ⟨t', ?_, chained', keeps.trans (Keeps.refl ..) subset_union_left (Subset.refl _)⟩
  rw [attach, found fuel (lt_of_le_of_lt (card_le_card few) enough)]
  exact written

theorem takes_nonnull (takes : Takes step null cap index nodes part) :
    Takes (fun t first => if first = null then some t else step t first) null cap index nodes part := by
  intro t first done few chained spans apart
  by_cases isNull : first = null
  · obtain ⟨xs, path, _, isPart⟩ := spans
    obtain rfl : [] = xs := Path.unique isNull path
    obtain rfl : part = ∅ := isPart.symm
    refine ⟨t, if_pos isNull, ?_, Keeps.refl ..⟩
    rwa [union_empty]
  · simp only [if_neg isNull]
    exact takes t first done few chained spans apart

theorem Chained.rehash (chained : Chained t null cap index nodes) (heads' : List α) (cap' : Nat) (index' : α → Nat)
    (empty : ∀ i < cap', heads'[i]? = some null) (inside : ∀ a, index' a < cap')
    (enough : nodes.card < fuel) :
    ∃ t', forHeads (fun _ => Buckets.pushAll null index' fuel) 0 (t.heads.take cap) ⟨heads', t.next⟩ = some t' ∧
      Chained t' null cap' index' nodes ∧ Keeps ⟨heads', t.next⟩ t' cap' nodes := by
  refine forHeads_takes (disjoint_parts nodes index) (fun j _ => takes_pushAll ?_ fun a _ => inside a)
    (chained_empty empty) (fun j first held => ?_) (fun j _ => disjoint_empty_left _) (fun a => ?_)
  · exact lt_of_le_of_lt (card_filter_le ..) enough
  · have bound : j < cap := lt_of_lt_of_le (List.getElem?_eq_some_iff.mp held).1 (length_take_le ..)
    rw [getElem?_take_of_lt bound] at held
    obtain ⟨first', held', spans⟩ := chained.chain j bound
    rw [zero_add]
    obtain rfl := Option.some.inj (held.symm.trans held')
    exact spans
  · have size : (t.heads.take cap).length = cap := by
      refine length_take_of_le ?_
      rcases Nat.eq_zero_or_pos cap with none | some
      · exact none ▸ Nat.zero_le _
      · obtain ⟨_, held, _⟩ := chained.chain (cap - 1) (Nat.sub_one_lt_of_lt some)
        have last := (List.getElem?_eq_some_iff.mp held).1
        omega
    rw [size]
    constructor
    · intro mem
      exact .inr ⟨index a, chained.inside a mem, mem_filter.mpr ⟨mem, (zero_add _).symm⟩⟩
    · rintro (none | ⟨j, _, mem⟩)
      · cases notMem_empty a none
      · exact (mem_filter.mp mem).1

/-- The chains of the second half of an array moved to those of the first half. An index in the halved array is the
remainder of the index before. -/
theorem Chained.halve {hash : α → Nat} {k : Nat}
    (chained : Chained t null (2 ^ (k + 1)) (fun a => hash a % 2 ^ (k + 1)) nodes)
    (step : Nat → Buckets α → α → Option (Buckets α))
    (takes : ∀ i part, (∀ a ∈ part, hash a % 2 ^ k = i % 2 ^ k) →
      Takes (step i) null (2 ^ k) (fun a => hash a % 2 ^ k) nodes part) :
    ∃ t', forHeads step (2 ^ k) ((t.heads.take (2 ^ (k + 1))).drop (2 ^ k)) ⟨t.heads.take (2 ^ k), t.next⟩ = some t' ∧
      Chained t' null (2 ^ k) (fun a => hash a % 2 ^ k) nodes ∧ Keeps ⟨t.heads.take (2 ^ k), t.next⟩ t' (2 ^ k) nodes := by
  have pos := Nat.two_pow_pos k
  have halved (a : α) : hash a % 2 ^ (k + 1) % 2 ^ k = hash a % 2 ^ k :=
    Nat.mod_mod_of_dvd _ (pow_dvd_pow 2 (Nat.le_succ k))
  have size : 2 ^ (k + 1) ≤ t.heads.length := by
    obtain ⟨first, held, _⟩ := chained.chain (2 ^ k + 2 ^ k - 1) (by omega)
    have := (List.getElem?_eq_some_iff.mp held).1
    omega
  have first : Chained ⟨t.heads.take (2 ^ k), t.next⟩ null (2 ^ k) (fun a => hash a % 2 ^ k)
      (nodes.filter fun a => hash a % 2 ^ (k + 1) < 2 ^ k) := by
    refine ⟨fun a _ => Nat.mod_lt _ pos, fun i bound => ?_⟩
    obtain ⟨head, held, spans⟩ := chained.chain i (by omega)
    refine ⟨head, by rwa [List.getElem?_take_of_lt bound], ?_⟩
    have part : ((nodes.filter fun a => hash a % 2 ^ (k + 1) < 2 ^ k).filter fun a => hash a % 2 ^ k = i) =
        nodes.filter fun a => hash a % 2 ^ (k + 1) = i := by
      ext a
      simp only [Finset.mem_filter, ← halved, and_assoc]
      refine and_congr_right fun _ => ⟨fun both => ?_, fun same => ?_⟩
      · rw [← Nat.mod_eq_of_lt both.1, both.2]
      · rw [same, Nat.mod_eq_of_lt bound]
        exact ⟨bound, rfl⟩
    rwa [part]
  have count : ((t.heads.take (2 ^ (k + 1))).drop (2 ^ k)).length = 2 ^ k := by
    rw [length_drop, length_take_of_le size]
    omega
  refine forHeads_takes (disjoint_parts nodes fun a => hash a % 2 ^ (k + 1)) (fun j bound => takes _ _ fun a mem => ?_)
    first (fun j head held => ?_) (fun j _ => ?_) fun a => ?_
  · rw [← halved, (Finset.mem_filter.mp mem).2]
  · have bound : j < 2 ^ k := count ▸ (List.getElem?_eq_some_iff.mp held).1
    obtain ⟨head', held', spans⟩ := chained.chain (2 ^ k + j) (by omega)
    rw [List.getElem?_drop, List.getElem?_take_of_lt (by omega), held'] at held
    exact Option.some.inj held ▸ spans
  · refine Finset.disjoint_left.mpr fun a below above => ?_
    have := (Finset.mem_filter.mp below).2
    have := (Finset.mem_filter.mp above).2
    omega
  simp only [Finset.mem_filter, count]
  constructor
  · intro mem
    by_cases below : hash a % 2 ^ (k + 1) < 2 ^ k
    · exact .inl ⟨mem, below⟩
    · exact .inr ⟨hash a % 2 ^ (k + 1) - 2 ^ k, by omega, mem, by omega⟩
  · rintro (⟨mem, _⟩ | ⟨_, _, mem, _⟩)
    · exact mem
    · exact mem

end Buckets

end Culibs
