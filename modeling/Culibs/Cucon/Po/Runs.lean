import Culibs.Cucon.Po.Update

namespace Culibs.Cucon.Po

open GeneratedOrder Relation Finset

variable {α : Type} [DecidableEq α]

/-- What a partial order stands for: its elements and the constraints that have been accepted. -/
structure Order (α : Type) where
  bot : α
  top : α
  elements : Finset α
  accepted : List (α × α)

namespace Order

def init (bot top : α) : Order α := ⟨bot, top, {bot, top}, []⟩

def insert (order : Order α) (e : α) : Order α := { order with elements := Insert.insert e order.elements }

omit [DecidableEq α] in
def accept (order : Order α) (e0 e1 : α) : Order α := { order with accepted := (e0, e1) :: order.accepted }

/-- The accepted constraints, and the bounds below and above all other elements. -/
def Given (order : Order α) (a b : α) : Prop :=
  (a, b) ∈ order.accepted ∨ (a = order.bot ∧ b ∈ order.elements ∧ b ≠ order.bot) ∨
    (b = order.top ∧ a ∈ order.elements ∧ a ≠ order.top)

def Prec (order : Order α) : α → α → Prop := TransGen order.Given

end Order

inductive Command (α : Type) where
  | insert (e : α)
  | constrainPrec (e0 e1 : α)

inductive Reply where
  | done
  | flag (accepted : Bool)

namespace Command

def run (fuel : Nat) (po : Po α) : Command α → Option (Reply × Po α)
  | insert e => (insertCct fuel po e).map (.done, ·)
  | constrainPrec e0 e1 => (po.constrainPrec fuel e0 e1).map fun result => (.flag result.1, result.2)

/-- New elements are in new memory, and constraints are on elements. -/
def Legal (order : Order α) : Command α → Prop
  | insert e => e ∉ order.elements
  | constrainPrec e0 e1 => e0 ∈ order.elements ∧ e1 ∈ order.elements

/-- A constraint is refused when it contradicts the order, which is then left as it is. -/
def Effect (order : Order α) : Command α → Reply → Order α → Prop
  | insert e, reply, order' => reply = .done ∧ order' = order.insert e
  | constrainPrec e0 e1, reply, order' => ∃ accepted, reply = .flag accepted ∧
      (accepted = false ↔ e0 = e1 ∨ order.Prec e1 e0) ∧ order' = if accepted then order.accept e0 e1 else order

/-- A constraint on elements that are not ordered. -/
def Joins (order : Order α) : Command α → Prop
  | insert _ => False
  | constrainPrec e0 e1 => e0 ≠ e1 ∧ ¬ order.Prec e0 e1 ∧ ¬ order.Prec e1 e0

end Command

/-- The searches decide the order, which is strict. -/
structure Refines (po : Po α) (order : Order α) : Prop where
  decides : ∀ e0 ∈ order.elements, ∀ e1 ∈ order.elements, ∃ found, Returns (fun fuel => prec fuel po e0 e1) found ∧
    (found = true ↔ order.Prec e0 e1)
  irrefl : ∀ e, ¬ order.Prec e e
  trans : ∀ a b c, order.Prec a b → order.Prec b c → order.Prec a c

/-- Each legal operation returns what it should and leads to the order that it should. -/
def Follows : Po α → Order α → List (Command α) → Prop
  | po, order, [] => Refines po order
  | po, order, command :: rest => Refines po order ∧ (command.Legal order → ∃ reply po' order',
      Returns (fun fuel => command.run fuel po) (reply, po') ∧ command.Effect order reply order' ∧
        Follows po' order' rest)

/-- The links are those between elements with nothing between them. -/
def Hasse (po : Po α) (order : Order α) : Prop :=
  ∀ a ∈ order.elements, ∀ b ∈ order.elements,
    b ∈ po.isuccs a ↔ order.Prec a b ∧ ∀ z, ¬ (order.Prec a z ∧ order.Prec z b)

/-- The lists, the levels and, exactly when the condition holds, the links are as they should be. -/
def Reduced (po : Po α) (order : Order α) (condition : Prop) : Prop :=
  Linked po order.elements ∧ Leveled po order.elements ∧ (Hasse po order ↔ condition)

/-- In all states of a run the links are those of the transitive reduction if and only if there are
only the bounds or elements that were not ordered have been constrained. -/
def StaysReduced : Po α → Order α → Prop → List (Command α) → Prop
  | po, order, joined, [] => Reduced po order (order.elements = {order.bot, order.top} ∨ joined)
  | po, order, joined, command :: rest => Reduced po order (order.elements = {order.bot, order.top} ∨ joined) ∧
      (command.Legal order → ∃ reply po' order', Returns (fun fuel => command.run fuel po) (reply, po') ∧
        command.Effect order reply order' ∧ StaysReduced po' order' (joined ∨ command.Joins order) rest)

/-- The links generate the order, and nothing is between their ends, except that the link between
the bounds stays until unordered elements are constrained. -/
structure Represents (po : Po α) (order : Order α) (joined : Prop) : Prop where
  bot : po.bot = order.bot
  top : po.top = order.top
  linked : Linked po order.elements
  leveled : Leveled po order.elements
  path_iff : ∀ a b, TransGen (po.Link order.elements) a b ↔ order.Prec a b
  covers : ∀ a b, po.Link order.elements a b → ¬ (a = po.bot ∧ b = po.top) →
    ∀ z, ¬ (TransGen (po.Link order.elements) a z ∧ TransGen (po.Link order.elements) z b)
  distinct : po.bot ≠ po.top
  bridged : po.top ∈ po.isuccs po.bot ↔ ¬ joined

variable {po : Po α} {order : Order α} {joined : Prop}

namespace Represents

variable (rep : Represents po order joined)

include rep

theorem refines : Refines po order := by
  refine ⟨fun e0 inside0 e1 _ => ?_, fun e cycle => ?_, fun a b c => TransGen.trans⟩
  · obtain ⟨found, returns, iff⟩ := prec_spec rep.linked rep.leveled inside0 e1
    exact ⟨found, returns, iff.trans (rep.path_iff e0 e1)⟩
  · exact rep.leveled.irrefl e ((rep.path_iff e e).mpr cycle)

theorem from_bot (inside : a ∈ order.elements) : ReflTransGen (po.Link order.elements) po.bot a := by
  by_cases same : a = order.bot
  · rw [rep.bot, same]
  · refine TransGen.to_reflTransGen ((rep.path_iff _ _).mpr (.single (.inr (.inl ⟨?_, inside, same⟩))))
    exact rep.bot

theorem to_top (inside : a ∈ order.elements) : ReflTransGen (po.Link order.elements) a po.top := by
  by_cases same : a = order.top
  · rw [rep.top, same]
  · refine TransGen.to_reflTransGen ((rep.path_iff _ _).mpr (.single (.inr (.inr ⟨?_, inside, same⟩))))
    exact rep.top

theorem bounds : TransGen (po.Link order.elements) po.bot po.top := by
  rcases reflTransGen_iff_eq_or_transGen.mp (rep.from_bot rep.linked.top) with same | path
  · exact absurd same.symm rep.distinct
  · exact path

omit [DecidableEq α] in
theorem mem_of_transGen (path : TransGen (po.Link order.elements) a b) :
    a ∈ order.elements ∧ b ∈ order.elements := by
  obtain ⟨c, first, _⟩ := TransGen.head'_iff.mp path
  exact ⟨first.1, rep.linked.mem_of_path path.to_reflTransGen first.1⟩

/-- The links are those of the transitive reduction once the link between the bounds is gone. -/
theorem reduced : Reduced po order (order.elements = {order.bot, order.top} ∨ joined) := by
  refine ⟨rep.linked, rep.leveled, fun hasse => ?_, fun condition a insideA b insideB => ?_⟩
  · by_contra neither
    obtain ⟨more, apart⟩ := not_or.mp neither
    have link := rep.bridged.mpr apart
    have nothing := ((hasse po.bot rep.linked.bot po.top rep.linked.top).mp link).2
    refine more (Subset.antisymm (fun z inside => ?_) fun z inside => ?_)
    · rw [mem_insert, mem_singleton]
      by_contra other
      obtain ⟨notBot, notTop⟩ := not_or.mp other
      refine nothing z ⟨.single (.inr (.inl ⟨rep.bot, inside, notBot⟩)), .single (.inr (.inr ⟨rep.top, inside,
        notTop⟩))⟩
    · rcases mem_insert.mp inside with rfl | isTop
      · exact rep.bot ▸ rep.linked.bot
      · rw [mem_singleton.mp isTop]
        exact rep.top ▸ rep.linked.top
  · simp only [← rep.path_iff]
    constructor
    · intro step
      refine ⟨.single ⟨insideA, step⟩, ?_⟩
      by_cases ends : a = po.bot ∧ b = po.top
      · obtain ⟨rfl, rfl⟩ := ends
        rintro z ⟨first, second⟩
        rcases condition with only | apart
        · have inside := (rep.mem_of_transGen first).2
          rw [only, mem_insert, mem_singleton, ← rep.bot, ← rep.top] at inside
          rcases inside with rfl | rfl
          · exact rep.leveled.irrefl _ first
          · exact rep.leveled.irrefl _ second
        · exact rep.bridged.mp step apart
      · exact rep.covers a b ⟨insideA, step⟩ ends
    · rintro ⟨path, nothing⟩
      exact (link_of_covers path nothing).2

end Represents

section Steps

omit [DecidableEq α] in
theorem Order.Prec.mono {order' : Order α} (path : order.Prec a b)
    (more : ∀ a b, order.Given a b → order'.Given a b) : order'.Prec a b :=
  TransGen.mono more a b path

private theorem given_insert (bot : order.bot ∈ order.elements) (top : order.top ∈ order.elements) (fresh : e ∉ order.elements)
    (a b : α) : (order.insert e).Given a b ↔
      order.Given a b ∨ (a = order.bot ∧ b = e) ∨ (a = e ∧ b = order.top) := by
  have notBot : e ≠ order.bot := fun same => fresh (same ▸ bot)
  have notTop : e ≠ order.top := fun same => fresh (same ▸ top)
  simp only [Order.Given, Order.insert, mem_insert]
  constructor
  · rintro (accepted | ⟨isBot, rfl | inside, other⟩ | ⟨isTop, rfl | inside, other⟩)
    · exact .inl (.inl accepted)
    · exact .inr (.inl ⟨isBot, rfl⟩)
    · exact .inl (.inr (.inl ⟨isBot, inside, other⟩))
    · exact .inr (.inr ⟨rfl, isTop⟩)
    · exact .inl (.inr (.inr ⟨isTop, inside, other⟩))
  · rintro ((accepted | ⟨isBot, inside, other⟩ | ⟨isTop, inside, other⟩) | ⟨isBot, rfl⟩ | ⟨rfl, isTop⟩)
    · exact .inl accepted
    · exact .inr (.inl ⟨isBot, .inr inside, other⟩)
    · exact .inr (.inr ⟨isTop, .inr inside, other⟩)
    · exact .inr (.inl ⟨isBot, .inl rfl, notBot⟩)
    · exact .inr (.inr ⟨isTop, .inl rfl, notTop⟩)

omit [DecidableEq α] in
theorem given_accept (e0 e1 a b : α) : (order.accept e0 e1).Given a b ↔ order.Given a b ∨ (a = e0 ∧ b = e1) := by
  simp only [Order.Given, Order.accept, List.mem_cons, Prod.mk.injEq]
  tauto

theorem insert_represents (rep : Represents po order joined) (fresh : e ∉ order.elements) :
    ∃ po', Returns (fun fuel => insertCct fuel po e) po' ∧ Represents po' (order.insert e) joined := by
  have linked := rep.linked
  have strict := rep.leveled.irrefl
  have bounds := rep.bounds
  obtain ⟨po', returns, relinked, inserted⟩ := insertCct_spec linked rep.leveled fresh bounds
  have unlinked := not_linked linked fresh
  have given := given_insert (rep.bot ▸ linked.bot) (rep.top ▸ linked.top) fresh
  refine ⟨po', returns, relinked.bot.trans rep.bot, relinked.top.trans rep.top, relinked.linked,
    relinked.leveled, fun a b => ⟨fun path => ?_, fun path => ?_⟩, ?_, ?_, ?_⟩
  · refine TransGen.closed (fun a b step => ?_) a b path
    rcases (inserted a b).mp step with old | ends | ends
    · exact ((rep.path_iff a b).mp (.single old)).mono fun a b before => (given a b).mpr (.inl before)
    · exact .single ((given a b).mpr (.inr (.inl (rep.bot ▸ ends))))
    · exact .single ((given a b).mpr (.inr (.inr (rep.top ▸ ends))))
  · refine TransGen.closed (fun a b step => ?_) a b path
    rcases (given a b).mp step with old | ends | ends
    · exact inserted.keeps ((rep.path_iff a b).mpr (.single old))
    · exact .single ((inserted a b).mpr (.inr (.inl (rep.bot ▸ ends))))
    · exact .single ((inserted a b).mpr (.inr (.inr (rep.top ▸ ends))))
  · intro a b step other
    rw [relinked.bot, relinked.top] at other
    exact inserted.covers unlinked strict bounds rep.covers step other
  · rw [relinked.bot, relinked.top]
    exact rep.distinct
  have same : po'.top ∈ po'.isuccs po'.bot ↔ po.top ∈ po.isuccs po.bot := by
    have link := inserted po.bot po.top
    simp only [Link, mem_insert] at link
    rw [relinked.bot, relinked.top]
    have notBot : po.bot ≠ e := ne_of_mem_of_not_mem linked.bot fresh
    have notTop : po.top ≠ e := ne_of_mem_of_not_mem linked.top fresh
    simpa [linked.bot, notBot, notTop] using link
  exact same.trans rep.bridged

variable {e0 e1 : α}

omit [DecidableEq α] in
private theorem accept_represents (rep : Represents po order joined) (known : order.Prec e0 e1) :
    Represents po (order.accept e0 e1) joined := by
  refine ⟨rep.bot, rep.top, rep.linked, rep.leveled, fun a b => ?_, rep.covers,
    rep.distinct, rep.bridged⟩
  change TransGen (po.Link order.elements) a b ↔ _
  rw [rep.path_iff]
  constructor
  · exact fun path => path.mono fun a b given => (given_accept e0 e1 a b).mpr (.inl given)
  · intro path
    refine TransGen.closed (fun a b given => ?_) a b path
    rcases (given_accept e0 e1 a b).mp given with old | ⟨rfl, rfl⟩
    · exact .single old
    · exact known

private theorem constrain_represents (rep : Represents po order joined)
    (inside0 : e0 ∈ order.elements) (inside1 : e1 ∈ order.elements) (consistent : ¬ ReflTransGen (po.Link order.elements) e1 e0)
    (new : ¬ TransGen (po.Link order.elements) e0 e1) (relinked : Relinked po po' order.elements)
    (constrained : Constrained (po.Link order.elements) (po'.Link order.elements) e0 e1) :
    Represents po' (order.accept e0 e1) True := by
  have strict := rep.leveled.irrefl
  have below := rep.from_bot inside0
  have above := rep.to_top inside1
  refine ⟨relinked.bot.trans rep.bot, relinked.top.trans rep.top, relinked.linked, relinked.leveled,
    fun a b => ?_, fun a b step _ => ?_, ?_, ?_⟩
  · change TransGen (po'.Link order.elements) a b ↔ _
    constructor
    · intro path
      refine TransGen.closed (fun a b step => ?_) a b path
      rcases (constrained a b).mp step with ⟨old, _⟩ | ends
      · exact ((rep.path_iff a b).mp (.single old)).mono fun a b given => (given_accept e0 e1 a b).mpr (.inl given)
      · exact .single ((given_accept e0 e1 a b).mpr (.inr ends))
    · intro path
      refine TransGen.closed (fun a b given => ?_) a b path
      rcases (given_accept e0 e1 a b).mp given with old | ends
      · exact constrained.keeps consistent ((rep.path_iff a b).mpr (.single old))
      · exact .single ((constrained a b).mpr (.inr ends))
  · refine constrained.covers consistent strict new (fun a b step kept => rep.covers a b step ?_) step
    rintro ⟨rfl, rfl⟩
    exact kept ⟨below, above⟩
  · rw [relinked.bot, relinked.top]
    exact rep.distinct
  · rw [relinked.bot, relinked.top, not_true, iff_false]
    intro mem
    rcases (constrained _ _).mp ⟨rep.linked.bot, mem⟩ with ⟨_, kept⟩ | ⟨rfl, rfl⟩
    · exact kept ⟨below, above⟩
    · exact new rep.bounds

theorem step_represents (rep : Represents po order joined) {command : Command α} (legal : command.Legal order) :
    ∃ reply po' order', Returns (fun fuel => command.run fuel po) (reply, po') ∧ command.Effect order reply order' ∧
      Represents po' order' (joined ∨ command.Joins order) := by
  cases command with
  | insert e =>
    obtain ⟨po', returns, represents'⟩ := insert_represents rep legal
    exact ⟨.done, po', _, returns.map (Reply.done, ·), ⟨rfl, rfl⟩, by simpa [Command.Joins] using represents'⟩
  | constrainPrec e0 e1 =>
    obtain ⟨inside0, inside1⟩ := legal
    have linked := rep.linked
    have leveled := rep.leveled
    have replies {accepted : Bool} {po' : Po α} (returns : Returns (fun fuel => po.constrainPrec fuel e0 e1) (accepted, po')) :
        Returns (fun fuel => (Command.constrainPrec e0 e1).run fuel po) (.flag accepted, po') :=
      returns.map fun result : Bool × Po α => (Reply.flag result.1, result.2)
    simp only [Command.Joins, Command.Effect, ← rep.path_iff]
    by_cases contrary : e0 = e1 ∨ TransGen (po.Link order.elements) e1 e0
    · have returns := constrainPrec_refused linked leveled inside0 inside1 contrary
      refine ⟨.flag false, po, order, replies returns, ⟨false, rfl, by simpa, rfl⟩, ?_⟩
      have unjoined : ¬ (e0 ≠ e1 ∧ ¬ TransGen (po.Link order.elements) e0 e1 ∧ ¬ TransGen (po.Link order.elements) e1 e0) :=
        fun both => contrary.elim both.1 both.2.2
      rwa [or_iff_left unjoined]
    obtain ⟨ne, unordered'⟩ := not_or.mp contrary
    by_cases known : TransGen (po.Link order.elements) e0 e1
    · have returns := constrainPrec_known linked leveled inside0 inside1 known
      refine ⟨.flag true, po, order.accept e0 e1, replies returns, ⟨true, rfl, by simpa using contrary, rfl⟩, ?_⟩
      rw [or_iff_left fun both => both.2.1 known]
      exact accept_represents rep ((rep.path_iff e0 e1).mp known)
    obtain ⟨po', returns, relinked, constrained⟩ :=
      constrainPrec_new linked leveled inside0 inside1 ne known unordered'
    refine ⟨.flag true, po', order.accept e0 e1, replies returns, ⟨true, rfl, by simpa using contrary, rfl⟩, ?_⟩
    have consistent : ¬ ReflTransGen (po.Link order.elements) e1 e0 := by
      intro path
      rcases reflTransGen_iff_eq_or_transGen.mp path with same | path
      · exact ne same
      · exact unordered' path
    have represents' := constrain_represents rep inside0 inside1 consistent known relinked constrained
    have joins : (joined ∨ e0 ≠ e1 ∧ ¬ TransGen (po.Link order.elements) e0 e1 ∧
        ¬ TransGen (po.Link order.elements) e1 e0) = True := eq_true (.inr ⟨ne, known, unordered'⟩)
    rwa [joins]

end Steps

variable {bot top : α}

theorem init_represents (distinct : bot ≠ top) (isuccs ipreds : α → List α) (level : α → Nat) :
    Represents (cct2eltCct bot top isuccs ipreds level) (Order.init bot top) False := by
  have succs (a : α) (inside : a ∈ ({bot, top} : Finset α)) :
      (cct2eltCct bot top isuccs ipreds level).isuccs a = if a = bot then [top] else [] := by
    rcases mem_insert.mp inside with rfl | isTop
    · simp [cct2eltCct, prepend, Function.update_of_ne distinct]
    · simp [cct2eltCct, mem_singleton.mp isTop, distinct.symm]
  have preds (a : α) (inside : a ∈ ({bot, top} : Finset α)) :
      (cct2eltCct bot top isuccs ipreds level).ipreds a = if a = top then [bot] else [] := by
    rcases mem_insert.mp inside with rfl | isTop
    · simp [cct2eltCct, prepend, distinct]
    · simp [cct2eltCct, prepend, mem_singleton.mp isTop]
  have link_iff (a b : α) : Link (cct2eltCct bot top isuccs ipreds level) {bot, top} a b ↔ a = bot ∧ b = top := by
    constructor
    · rintro ⟨inside, mem⟩
      rw [succs a inside] at mem
      split at mem
      · next isBot => exact ⟨isBot, List.mem_singleton.mp mem⟩
      · cases mem
    · rintro ⟨rfl, rfl⟩
      have inside : a ∈ ({a, b} : Finset α) := mem_insert_self ..
      refine ⟨inside, ?_⟩
      rw [succs a inside, if_pos rfl]
      exact List.mem_singleton_self b
  have isBot : bot ∈ ({bot, top} : Finset α) := mem_insert_self ..
  have isTop : top ∈ ({bot, top} : Finset α) := mem_insert_of_mem (mem_singleton_self top)
  refine ⟨rfl, rfl, ⟨isBot, isTop, ?_, ?_, ?_, ?_⟩, ?_, fun a b => ?_, ?_, distinct, ?_⟩
  · intro a inside b mem
    rw [succs a inside] at mem
    split at mem
    · exact List.mem_singleton.mp mem ▸ isTop
    · cases mem
  · intro b inside a mem
    rw [preds b inside] at mem
    split at mem
    · exact List.mem_singleton.mp mem ▸ isBot
    · cases mem
  · intro a insideA b insideB
    rw [succs a insideA, preds b insideB]
    split <;> split <;> simp_all
  · intro a inside
    rw [succs a inside, preds a inside]
    split <;> split <;> simp
  · intro a b step
    obtain ⟨rfl, rfl⟩ := (link_iff a b).mp step
    simp [cct2eltCct, Function.update_of_ne distinct]
  · change TransGen (Link _ {bot, top}) a b ↔ _
    have given (a b : α) : Link (cct2eltCct bot top isuccs ipreds level) {bot, top} a b ↔ (Order.init bot top).Given a b := by
      rw [link_iff]
      simp only [Order.Given, Order.init, mem_insert, mem_singleton]
      constructor
      · rintro ⟨rfl, rfl⟩
        exact .inr (.inl ⟨rfl, .inr rfl, distinct.symm⟩)
      · rintro (impossible | ⟨rfl, same | rfl, other⟩ | ⟨rfl, rfl | same, other⟩)
        · cases impossible
        · exact absurd same other
        · exact ⟨rfl, rfl⟩
        · exact ⟨rfl, rfl⟩
        · exact absurd same other
    rw [Order.Prec, show Link (cct2eltCct bot top isuccs ipreds level) {bot, top} = (Order.init bot top).Given from
      funext fun a => funext fun b => propext (given a b)]
  · intro a b step other
    exact absurd ((link_iff a b).mp step) other
  · change top ∈ (cct2eltCct bot top isuccs ipreds level).isuccs bot ↔ _
    rw [succs bot isBot, if_pos rfl]
    simp

theorem run_follows_order (rep : Represents po order joined) (commands : List (Command α)) :
    Follows po order commands := by
  induction commands generalizing po order joined with
  | nil => exact rep.refines
  | cons command rest ih =>
    refine ⟨rep.refines, fun legal => ?_⟩
    obtain ⟨reply, po', order', returns, effect, represents'⟩ := step_represents rep legal
    exact ⟨reply, po', order', returns, effect, ih represents'⟩

/-- From a fresh partial order, all runs follow the order that is generated by the accepted constraints. -/
theorem fresh_follows_order (distinct : bot ≠ top) (isuccs ipreds : α → List α) (level : α → Nat)
    (commands : List (Command α)) : Follows (cct2eltCct bot top isuccs ipreds level) (Order.init bot top) commands :=
  run_follows_order (init_represents distinct isuccs ipreds level) commands

theorem fresh_follows_order_bounds : Follows (cct2eltCct 0 1 (fun _ => []) (fun _ => []) fun _ => 0) (Order.init 0 1)
    [.insert 2, .insert 3, .constrainPrec 2 3] :=
  fresh_follows_order zero_ne_one _ _ _ _

private theorem run_stays_reduced (rep : Represents po order joined) (commands : List (Command α)) :
    StaysReduced po order joined commands := by
  induction commands generalizing po order joined with
  | nil => exact rep.reduced
  | cons command rest ih =>
    refine ⟨rep.reduced, fun legal => ?_⟩
    obtain ⟨reply, po', order', returns, effect, represents'⟩ := step_represents rep legal
    exact ⟨reply, po', order', returns, effect, ih represents'⟩

/-- In all runs from a fresh partial order the lists are inverse and without duplicates and the level
increases along the links, which are those of the transitive reduction unless an element has been
inserted and no unordered ones have been constrained. -/
theorem fresh_stays_reduced (distinct : bot ≠ top) (isuccs ipreds : α → List α) (level : α → Nat)
    (commands : List (Command α)) :
    StaysReduced (cct2eltCct bot top isuccs ipreds level) (Order.init bot top) False commands :=
  run_stays_reduced (init_represents distinct isuccs ipreds level) commands

theorem fresh_stays_reduced_bounds :
    StaysReduced (cct2eltCct 0 1 (fun _ => []) (fun _ => []) fun _ => 0) (Order.init 0 1) False
      [.insert 2, .insert 3, .constrainPrec 2 3] :=
  fresh_stays_reduced zero_ne_one _ _ _ _

/-- After one insertion the bounds are still linked, with the new element between them. -/
theorem insert_not_hasse : ∃ po', Returns (fun fuel => (Command.insert 2).run fuel
      (cct2eltCct 0 1 (fun _ => []) (fun _ => []) fun _ => 0)) (.done, po') ∧
    ¬ Hasse po' ((Order.init 0 1).insert 2) := by
  obtain ⟨po', returns, represents⟩ := insert_represents
    (init_represents zero_ne_one (fun _ => []) (fun _ => []) fun _ => 0) (by decide : 2 ∉ (Order.init 0 1).elements)
  refine ⟨po', returns.map (Reply.done, ·), fun hasse => ?_⟩
  rcases represents.reduced.2.2.mp hasse with only | joined
  · exact absurd only (by decide)
  · exact joined

end Culibs.Cucon.Po
