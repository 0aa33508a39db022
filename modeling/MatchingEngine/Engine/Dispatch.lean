import MatchingEngine.Exchange.Invariant
import MatchingEngine.OrderBook.Ladder

/-!
# The matching thread's dispatch

The `switch` of `matchingEngineThread`, and the machine that performs it on one
command after another.

A command makes at most two calls of the exchange (`Command.calls`), so the
invariants of the exchange carry over to the runs of the engine
(`linked_engine`, `wf_engine`).

Seen from the books a command comes in two halves: an `update`, which may put one
order into one book, and the matching of that book.  `update_cases` says what
the first half can do; the second half emits all the trades.

* `Exchange.Uncrossed` is the invariant between two commands
  (`uncrossed_engine`).
* `dispatch_eq`: on an uncrossed exchange every command is its update followed by
  matching the book of its symbol, also the commands that do not ask for it.
-/

namespace MatchingEngine

variable {P : Type}

/-! ## Commands -/

/-- The order a `NEW` command describes. -/
def Command.order (cmd : Command P) : Order P where
  orderId := cmd.orderId
  side := cmd.side
  price := cmd.price
  quantity := cmd.quantity
  timestamp := cmd.timestamp

/-- The calls of the exchange a command makes. -/
def Command.calls (cmd : Command P) : List (Exchange.Op P) :=
  match cmd.type with
  | .stats => []
  | .new => [.addOrder cmd.symbolStr cmd.order, .matchOrders cmd.symbolStr]
  | .cancel => [.cancelOrder cmd.orderId]
  | .modify =>
    [.modifyOrder cmd.orderId cmd.symbolStr cmd.quantity cmd.price cmd.timestamp,
      .matchOrders cmd.symbolStr]
  | .book => []

/-- The identifier a command assigns. -/
def Command.newId (cmd : Command P) : Option UInt64 :=
  match cmd.type with
  | .new => some cmd.orderId
  | _ => none

/-- The identifiers assigned along a run of commands. -/
def newIds (cmds : List (Command P)) : List UInt64 := cmds.filterMap Command.newId

/-- No two `NEW` commands carry the same identifier. -/
def FreshNew (cmds : List (Command P)) : Prop := (newIds cmds).Nodup

instance (cmds : List (Command P)) : Decidable (FreshNew cmds) :=
  inferInstanceAs (Decidable (newIds cmds).Nodup)

theorem addedIds_calls (cmds : List (Command P)) :
    Exchange.addedIds (cmds.flatMap Command.calls) = newIds cmds := by
  induction cmds with
  | nil => rfl
  | cons cmd cmds ih =>
    rw [List.flatMap_cons, Exchange.addedIds_append, ih, newIds, newIds, List.filterMap_cons,
      Command.calls, Command.newId]
    cases cmd.type <;> rfl

theorem newIds_append (cmds cmds' : List (Command P)) :
    newIds (cmds ++ cmds') = newIds cmds ++ newIds cmds' :=
  List.filterMap_append

theorem hereditary_freshNew : Machine.Hereditary (FreshNew (P := P)) := by
  intro cmds cmd h
  rw [FreshNew, newIds_append] at h
  exact (List.nodup_append.mp h).1

/-- The identifier of a `NEW` is not that of an earlier one. -/
theorem not_mem_newIds {cmds : List (Command P)} {cmd : Command P}
    (h : FreshNew (cmds ++ [cmd])) (hnew : cmd.type = .new) : cmd.orderId ∉ newIds cmds := by
  intro hmem
  have hcmd : newIds [cmd] = [cmd.orderId] := by
    rw [newIds, List.filterMap_cons, Command.newId, hnew, List.filterMap_nil]
  rw [FreshNew, newIds_append, hcmd] at h
  exact (List.nodup_append.mp h).2.2 cmd.orderId hmem cmd.orderId (List.mem_singleton_self _) rfl

/-! ## Dispatch -/

variable [LinearOrder P]

/-- What `matchingEngineThread` does with a command it has popped. -/
def dispatch (ex : Exchange P) (cmd : Command P) : Exchange P × List (Event P) :=
  match cmd.type with
  | .stats => (ex, ex.printStats)
  | .new =>
    let symbol := cmd.symbolStr
    let r := ex.addOrder symbol cmd.order
    let r' := r.1.matchOrders symbol
    (r'.1, r.2 ++ r'.2)
  | .cancel => ex.cancelOrder cmd.orderId
  | .modify =>
    let symbol := cmd.symbolStr
    let r := ex.modifyOrder cmd.orderId symbol cmd.quantity cmd.price cmd.timestamp
    let r' := r.1.matchOrders symbol
    (r'.1, r.2 ++ r'.2)
  | .book => (ex, ex.printBook cmd.symbolStr)

/-- The matching thread as a machine that reads commands. -/
def engine : Machine (Exchange P) (Command P) (Event P) := ⟨Exchange.empty, dispatch⟩

theorem engine_run_concat (cmds : List (Command P)) (cmd : Command P) :
    engine.run (cmds ++ [cmd]) = (dispatch (engine.run cmds) cmd).1 :=
  engine.run_concat cmds cmd

theorem dispatch_calls (ex : Exchange P) (cmd : Command P) :
    (dispatch ex cmd).1 = Exchange.api.runFrom ex cmd.calls := by
  rw [dispatch, Command.calls]
  cases cmd.type <;> rfl

/-- **The engine drives the exchange**: the state after a run of commands is the
state after the calls they make. -/
theorem engine_run (cmds : List (Command P)) :
    engine.run cmds = Exchange.api.run (cmds.flatMap Command.calls) := by
  induction cmds using List.reverseRecOn with
  | nil => rfl
  | append_singleton cmds cmd ih =>
    rw [engine_run_concat, ih, List.flatMap_append, List.flatMap_singleton, dispatch_calls]
    exact (Machine.runFrom_append _ _ _ _).symm

theorem linked_engine (cmds : List (Command P)) : (engine.run cmds).Linked := by
  rw [engine_run]
  exact Exchange.linked_run _

theorem wf_engine {cmds : List (Command P)} (h : FreshNew cmds) :
    Exchange.Wf (cmds.flatMap Command.calls) (engine.run cmds) := by
  rw [engine_run]
  refine Exchange.wf_run _ ?_
  rwa [Exchange.FreshIds, addedIds_calls]

/-- What rests has been assigned. -/
theorem mem_newIds_of_rests {cmds : List (Command P)} (h : FreshNew cmds) {s : Str} {i : UInt64}
    (hi : ((engine.run cmds).book s).Rests i) : i ∈ newIds cmds := by
  rw [← addedIds_calls]
  exact (wf_engine h).known s i hi

/-- The identifier of a `NEW` command does not rest anywhere yet. -/
theorem not_rests_of_new {cmds : List (Command P)} {cmd : Command P}
    (h : FreshNew (cmds ++ [cmd])) (hnew : cmd.type = .new) (s : Str) :
    ¬ ((engine.run cmds).book s).Rests cmd.orderId :=
  fun hi => not_mem_newIds h hnew (mem_newIds_of_rests (hereditary_freshNew cmds cmd h) hi)

/-! ## The first half of a command -/

/-- What a command does before the book of its symbol is matched. -/
def update (ex : Exchange P) (cmd : Command P) : Exchange P × List (Event P) :=
  match cmd.type with
  | .stats => (ex, ex.printStats)
  | .new => ex.addOrder cmd.symbolStr cmd.order
  | .cancel => ex.cancelOrder cmd.orderId
  | .modify => ex.modifyOrder cmd.orderId cmd.symbolStr cmd.quantity cmd.price cmd.timestamp
  | .book => (ex, ex.printBook cmd.symbolStr)

/-- Nothing is inserted: what rests afterwards rested before, but for its
quantity. -/
def Quiet (ex ex' : Exchange P) : Prop :=
  ∀ s side, Ladder.Within ((ex'.book s).resting side) ((ex.book s).resting side)

theorem Quiet.refl (ex : Exchange P) : Quiet ex ex := fun _ _ => Ladder.Within.refl _

/-- Order `o` goes into the book of `symbol`, out of which at most its previous
version was taken; `b₀` is the book in between. -/
structure Enters (ex ex' : Exchange P) (symbol : Str) (o : Order P) (b₀ : OrderBook P) :
    Prop where
  linked : b₀.Linked
  others : ∀ s, s ≠ symbol → ex'.book s = ex.book s
  sublist : ∀ side, (b₀.resting side).Sublist ((ex.book symbol).resting side)
  opposite : b₀.resting o.side.opposite = (ex.book symbol).resting o.side.opposite
  inserted : ∀ side, (ex'.book symbol).resting side = (b₀.insertOrder o).resting side

/-- A modify that does not reach an order in its book is rejected. -/
def Rejected (ex : Exchange P) (cmd : Command P) : Prop :=
  ex.orderSymbolMap.lookup cmd.orderId ≠ some cmd.symbolStr ∨
    (ex.book cmd.symbolStr).orderMap.lookup cmd.orderId = none

/-- A modify that keeps the price and lowers the quantity. -/
def Lowers (ex : Exchange P) (cmd : Command P) : Prop :=
  ∃ side, ∃ e ∈ (ex.book cmd.symbolStr).resting side, e.2.order.orderId = cmd.orderId ∧
    cmd.price = e.2.order.price ∧ cmd.quantity < e.2.order.quantity

/-- The command is a `MODIFY` that takes the order `n` from where `loc` says and
inserts it again. -/
structure Reinserts (ex : Exchange P) (cmd : Command P) (loc : OrderLocation P) (n : Node P) :
    Prop where
  modify : cmd.type = .modify
  accepted : ¬ Rejected ex cmd
  located : (ex.book cmd.symbolStr).orderMap.lookup cmd.orderId = some loc
  rests : (loc.price, n) ∈ (ex.book cmd.symbolStr).resting loc.side
  id : n.order.orderId = cmd.orderId
  not_lower : ¬ (cmd.price = n.order.price ∧ cmd.quantity < n.order.quantity)

/-- The command puts the order `o` into the book of its symbol, which is `b₀`
before that. -/
structure Incoming (ex : Exchange P) (cmd : Command P) (o : Order P) (b₀ : OrderBook P) :
    Prop where
  enters : Enters ex (update ex cmd).1 cmd.symbolStr o b₀
  id : o.orderId = cmd.orderId
  price : o.price = cmd.price
  quantity : o.quantity = cmd.quantity
  timestamp : o.timestamp = cmd.timestamp
  cause : (cmd.type = .new ∧ o.side = cmd.side ∧ b₀ = ex.book cmd.symbolStr) ∨
    ∃ loc n, Reinserts ex cmd loc n ∧ o.side = loc.side ∧
      b₀ = (ex.book cmd.symbolStr).unlink cmd.orderId loc

/-- The command inserts nothing: it is not a `NEW`, and when it is a `MODIFY` it
is rejected or lowers a quantity in place. -/
structure Idle (ex : Exchange P) (cmd : Command P) : Prop where
  quiet : Quiet ex (update ex cmd).1
  not_new : cmd.type ≠ .new
  modify : cmd.type = .modify → Rejected ex cmd ∨ Lowers ex cmd

theorem linked_update {ex : Exchange P} (hl : ex.Linked) (cmd : Command P) :
    (update ex cmd).1.Linked := by
  rw [update]
  cases cmd.type with
  | stats => exact hl
  | new => exact hl.addOrder _ _
  | cancel => exact hl.cancelOrder _
  | modify => exact hl.modifyOrder _ _ _ _ _
  | book => exact hl

/-- The first half of a command trades nothing. -/
theorem trades_update {ex : Exchange P} (hl : ex.Linked) (cmd : Command P) :
    trades (update ex cmd).2 = [] := by
  rw [update]
  cases cmd.type with
  | stats => rfl
  | new => rfl
  | cancel =>
    rcases Exchange.cancelOrder_cases ex cmd.orderId with ⟨-, h⟩ | ⟨symbol, -, -, -, h⟩
    · simp only [h]
      rfl
    · simp only [h]
      rcases OrderBook.cancelOrder_cases (hl symbol) cmd.orderId with
        ⟨-, h⟩ | ⟨loc, n, -, -, -, -, h⟩ <;> rw [h] <;> rfl
  | modify =>
    rcases Exchange.modifyOrder_cases ex cmd.orderId cmd.symbolStr cmd.quantity cmd.price
      cmd.timestamp with ⟨-, e, he, h, -⟩ | ⟨-, -, -, h⟩
    · simp only [h, trades, List.filterMap_cons, he, List.filterMap_nil]
    · simp only [h]
      rcases OrderBook.modifyOrder_cases (hl cmd.symbolStr) cmd.orderId cmd.quantity cmd.price
        cmd.timestamp with ⟨-, h⟩ | ⟨loc, n, -, -, -, -, -, -, ⟨-, -, h⟩ | ⟨-, h⟩⟩ <;>
        rw [h] <;> rfl
  | book =>
    simp only [Exchange.printBook]
    split <;> rfl

/-- A cancel inserts nothing. -/
theorem quiet_cancelOrder {ex : Exchange P} (hl : ex.Linked) (i : UInt64) :
    Quiet ex (ex.cancelOrder i).1 := by
  intro s side
  rw [Exchange.book_cancelOrder]
  split
  · exact Ladder.Within.of_sublist (OrderBook.resting_cancelOrder_sublist (hl s) i side)
  · exact Ladder.Within.refl _

/-- What one book does, seen from the exchange. -/
theorem quiet_of_book {ex ex' : Exchange P} {symbol : Str}
    (hother : ∀ s, s ≠ symbol → ex'.book s = ex.book s)
    (h : ∀ side, Ladder.Within ((ex'.book symbol).resting side) ((ex.book symbol).resting side)) :
    Quiet ex ex' := by
  intro s side
  by_cases hs : s = symbol
  · rw [hs]
    exact h side
  · rw [hother s hs]
    exact Ladder.Within.refl _

/-- **The outcomes of a `MODIFY`**: it is rejected and the books stay as they are, or
it reaches an order in the book of its symbol and updates it in place or inserts it
again. -/
theorem modify_cases {ex : Exchange P} (hl : ex.Linked) {cmd : Command P}
    (hmod : cmd.type = .modify) :
    (Rejected ex cmd ∧ (∀ s, (update ex cmd).1.book s = ex.book s) ∧
      ∃ e, (update ex cmd).2 = [e] ∧ ((∃ i, e = .modifyNotFound i) ∨
        (∃ i, e = .modifyNotFoundInAnyBook i) ∨ ∃ i s s', e = .modifyWrongSymbol i s s')) ∨
    (¬ Rejected ex cmd ∧
      (∀ s, s ≠ cmd.symbolStr → (update ex cmd).1.book s = ex.book s) ∧
      ∃ loc n, (ex.book cmd.symbolStr).orderMap.lookup cmd.orderId = some loc ∧
        (loc.price, n) ∈ (ex.book cmd.symbolStr).resting loc.side ∧ n.addr = loc.it ∧
        n.order.orderId = cmd.orderId ∧ n.order.side = loc.side ∧
        ((cmd.price = n.order.price ∧ cmd.quantity < n.order.quantity ∧
          (update ex cmd).1.book cmd.symbolStr =
            (ex.book cmd.symbolStr).setQuantity loc cmd.quantity ∧
          (update ex cmd).2 = [.modifyInPlace cmd.orderId n.order.quantity cmd.quantity]) ∨
        (¬ (cmd.price = n.order.price ∧ cmd.quantity < n.order.quantity) ∧
          (update ex cmd).1.book cmd.symbolStr =
            ((ex.book cmd.symbolStr).unlink cmd.orderId loc).insertOrder
              ⟨cmd.orderId, n.order.side, cmd.price, cmd.quantity, cmd.timestamp⟩ ∧
          (update ex cmd).2 = [.modifyReinsert cmd.orderId n.order.quantity n.order.price
            cmd.quantity cmd.price]))) := by
  have hupdate : update ex cmd =
      ex.modifyOrder cmd.orderId cmd.symbolStr cmd.quantity cmd.price cmd.timestamp := by
    rw [update, hmod]
  rcases Exchange.modifyOrder_cases ex cmd.orderId cmd.symbolStr cmd.quantity cmd.price
    cmd.timestamp with ⟨hroute, e, -, h, he⟩ | ⟨hroute, hbook, -, hev⟩
  · rw [← hupdate] at h
    refine Or.inl ⟨Or.inl hroute, fun s => by rw [h], e, by rw [h], ?_⟩
    rcases he with rfl | ⟨actual, rfl⟩
    · exact Or.inr (Or.inl ⟨_, rfl⟩)
    · exact Or.inr (Or.inr ⟨_, _, _, rfl⟩)
  rw [← hupdate] at hbook hev
  have hother : ∀ s, s ≠ cmd.symbolStr → (update ex cmd).1.book s = ex.book s :=
    fun s hs => (hbook s).trans (if_neg hs)
  have hself := (hbook cmd.symbolStr).trans (if_pos rfl)
  rcases OrderBook.modifyOrder_cases (hl cmd.symbolStr) cmd.orderId cmd.quantity cmd.price
    cmd.timestamp with
    ⟨hnone, h⟩ | ⟨loc, n, hloc, hn, haddr, hid, hside, -, hcase⟩
  · rw [h] at hself hev
    refine Or.inl ⟨Or.inr hnone, fun s => ?_, _, hev, Or.inl ⟨_, rfl⟩⟩
    by_cases hs : s = cmd.symbolStr
    · rw [hs, hself]
    · exact hother s hs
  · have hacc : ¬ Rejected ex cmd := by
      rintro (hrej | hrej)
      · exact hrej hroute
      · rw [hloc] at hrej
        exact absurd hrej (by simp)
    refine Or.inr ⟨hacc, hother, loc, n, hloc, hn, haddr, hid, hside, ?_⟩
    rcases hcase with ⟨hp, hq, h⟩ | ⟨hno, h⟩
    · rw [h] at hself hev
      exact Or.inl ⟨hp, hq, hself, hev⟩
    · rw [h] at hself hev
      exact Or.inr ⟨hno, hself, hev⟩

/-- A `MODIFY` inserts nothing, or inserts its order again. -/
theorem update_modify {ex : Exchange P} (hl : ex.Linked) {cmd : Command P}
    (hmod : cmd.type = .modify) : Idle ex cmd ∨ ∃ o b₀, Incoming ex cmd o b₀ := by
  have hnew : cmd.type ≠ .new := by rw [hmod]; simp
  rcases modify_cases hl hmod with ⟨hrej, hbook, -⟩ |
    ⟨hacc, hother, loc, n, hloc, hn, -, hid, hside, ⟨hp, hq, h, -⟩ | ⟨hno, h, -⟩⟩
  · refine Or.inl ⟨fun s side => ?_, hnew, fun _ => Or.inl hrej⟩
    rw [hbook]
    exact Ladder.Within.refl _
  · refine Or.inl ⟨quiet_of_book hother fun side => ?_, hnew,
      fun _ => Or.inr ⟨loc.side, _, hn, hid, hp, hq⟩⟩
    rw [h]
    exact fun e he => OrderBook.mem_resting_setQuantity he
  · refine Or.inr ⟨⟨cmd.orderId, n.order.side, cmd.price, cmd.quantity, cmd.timestamp⟩,
      (ex.book cmd.symbolStr).unlink cmd.orderId loc, ⟨⟨(hl _).unlink hloc, hother,
      fun side => ?_, ?_, fun side => by rw [h]⟩, rfl, rfl, rfl, rfl,
      Or.inr ⟨loc, n, ⟨hmod, hacc, hloc, hn, hid, hno⟩, hside, rfl⟩⟩⟩
    · rw [OrderBook.resting_unlink]
      exact OrderBook.resting_removeByLocation_sublist _ loc side
    · have hne : n.order.side.opposite ≠ loc.side := by
        rw [hside]
        cases loc.side <;> simp [Side.opposite]
      rw [OrderBook.resting_unlink, OrderBook.resting_removeByLocation, if_neg hne]

/-- What a `NEW` does to the books. -/
theorem book_update_new (ex : Exchange P) {cmd : Command P} (hnew : cmd.type = .new) (s : Str) :
    (update ex cmd).1.book s =
      if s = cmd.symbolStr then ((ex.book cmd.symbolStr).addOrder cmd.order).1 else ex.book s := by
  rw [update, hnew]
  exact Exchange.book_addOrder ex cmd.symbolStr cmd.order s

/-- **The first half of a command**: it inserts nothing, or it puts one order into
the book of its symbol. -/
theorem update_cases {ex : Exchange P} (hl : ex.Linked) (cmd : Command P) :
    Idle ex cmd ∨ ∃ o b₀, Incoming ex cmd o b₀ := by
  cases htype : cmd.type with
  | stats =>
    refine Or.inl ⟨?_, by rw [htype]; simp, fun h => absurd (htype.symm.trans h) (by simp)⟩
    rw [update, htype]
    exact Quiet.refl ex
  | book =>
    refine Or.inl ⟨?_, by rw [htype]; simp, fun h => absurd (htype.symm.trans h) (by simp)⟩
    rw [update, htype]
    exact Quiet.refl ex
  | cancel =>
    refine Or.inl ⟨?_, by rw [htype]; simp, fun h => absurd (htype.symm.trans h) (by simp)⟩
    rw [update, htype]
    exact quiet_cancelOrder hl cmd.orderId
  | new =>
    have hbook := book_update_new ex htype
    refine Or.inr ⟨cmd.order, ex.book cmd.symbolStr, ⟨hl _, fun s hs => ?_, fun side => ?_, rfl,
      fun side => ?_⟩, rfl, rfl, rfl, rfl, Or.inl ⟨htype, rfl, rfl⟩⟩
    · exact (hbook s).trans (if_neg hs)
    · exact List.Sublist.refl _
    · rw [(hbook _).trans (if_pos rfl)]
      exact OrderBook.resting_addOrder _ _ side
  | modify => exact update_modify hl htype

/-! ## Between two commands no book is crossed -/

namespace Exchange

/-- No book is crossed. -/
def Uncrossed (ex : Exchange P) : Prop := ∀ s, (ex.book s).Uncrossed

theorem uncrossed_empty : (empty : Exchange P).Uncrossed := by
  intro s e he
  rw [book_empty, OrderBook.resting_empty] at he
  exact absurd he List.not_mem_nil

/-- On an uncrossed book `matchOrders` changes nothing at all. -/
theorem matchOrders_of_uncrossed {ex : Exchange P} (hl : ex.Linked) {symbol : Str}
    (h : (ex.book symbol).Uncrossed) : ex.matchOrders symbol = (ex, []) := by
  rw [matchOrders]
  cases hb : ex.books.lookup symbol with
  | none => rfl
  | some b =>
    have hbook := book_of_lookup hb
    have hnoop := OrderBook.matchOrders_of_uncrossed (hl symbol) h
    rw [hbook] at hnoop
    simp only [hnoop, insert_of_lookup hb]

end Exchange

/-- Inserting nothing crosses nothing. -/
theorem Quiet.uncrossed {ex ex' : Exchange P} (h : Quiet ex ex') (hu : ex.Uncrossed) :
    ex'.Uncrossed := by
  intro s e he e' he'
  obtain ⟨e₀, he₀, hk, -⟩ := h s .buy e he
  obtain ⟨e₀', he₀', hk', -⟩ := h s .sell e' he'
  rw [← hk, ← hk']
  exact hu s e₀ he₀ e₀' he₀'

/-- **A command in two halves.**  On an uncrossed exchange every command is its
update followed by matching the book of its symbol. -/
theorem dispatch_eq {ex : Exchange P} (hl : ex.Linked) (hu : ex.Uncrossed) (cmd : Command P) :
    dispatch ex cmd = (((update ex cmd).1.matchOrders cmd.symbolStr).1,
      (update ex cmd).2 ++ ((update ex cmd).1.matchOrders cmd.symbolStr).2) := by
  -- a command that does not match leaves the exchange uncrossed, so matching is idle
  have hidle : ∀ r : Exchange P × List (Event P), r.1.Linked → r.1.Uncrossed →
      r = ((r.1.matchOrders cmd.symbolStr).1, r.2 ++ (r.1.matchOrders cmd.symbolStr).2) := by
    intro r hl hu
    rw [Exchange.matchOrders_of_uncrossed hl (hu cmd.symbolStr), List.append_nil]
  rw [dispatch, update]
  cases cmd.type with
  | stats => exact hidle (ex, ex.printStats) hl hu
  | new => rfl
  | cancel => exact hidle _ (hl.cancelOrder _) ((quiet_cancelOrder hl _).uncrossed hu)
  | modify => rfl
  | book => exact hidle (ex, ex.printBook cmd.symbolStr) hl hu

/-- The first half of a command can only cross the book of its symbol. -/
theorem uncrossed_update_of_ne {ex : Exchange P} (hl : ex.Linked) (hu : ex.Uncrossed)
    {cmd : Command P} {s : Str} (hs : s ≠ cmd.symbolStr) :
    ((update ex cmd).1.book s).Uncrossed := by
  rcases update_cases hl cmd with hidle | ⟨o, b₀, hin⟩
  · exact hidle.quiet.uncrossed hu s
  · rw [hin.enters.others s hs]
    exact hu s

/-- One command preserves the invariant. -/
theorem uncrossed_dispatch {ex : Exchange P} (hl : ex.Linked) (hu : ex.Uncrossed)
    (cmd : Command P) : (dispatch ex cmd).1.Uncrossed := by
  intro s
  rw [dispatch_eq hl hu, Exchange.book_matchOrders]
  split
  · exact OrderBook.uncrossed_matchOrders (linked_update hl cmd cmd.symbolStr)
  · rename_i hs
    exact uncrossed_update_of_ne hl hu hs

theorem uncrossed_engine (cmds : List (Command P)) : (engine.run cmds).Uncrossed := by
  induction cmds using List.reverseRecOn with
  | nil => exact Exchange.uncrossed_empty
  | append_singleton cmds cmd ih =>
    rw [engine_run_concat]
    exact uncrossed_dispatch (linked_engine cmds) ih cmd

/-- The trades of a command are made by the matching of its symbol's book, after the
update. -/
theorem trades_dispatch_matchOrders {ex : Exchange P} (hl : ex.Linked) (hu : ex.Uncrossed)
    (cmd : Command P) :
    trades (dispatch ex cmd).2 = trades ((update ex cmd).1.book cmd.symbolStr).matchOrders.2 := by
  rw [dispatch_eq hl hu, trades_append, trades_update hl, List.nil_append,
    Exchange.events_matchOrders]

/-- They are those of its ladder. -/
theorem trades_dispatch {ex : Exchange P} (hl : ex.Linked) (hu : ex.Uncrossed)
    (cmd : Command P) :
    trades (dispatch ex cmd).2 = ((update ex cmd).1.book cmd.symbolStr).ladder.trades := by
  rw [trades_dispatch_matchOrders hl hu,
    (OrderBook.ladder_matchOrders (linked_update hl cmd cmd.symbolStr)).1,
    OrderBook.trades_map_trade]

/-- The iterations of `matchOrders` a command performs: the book before, the trade,
the book after. -/
def iterations (ex : Exchange P) (cmd : Command P) : List (OrderBook P × Trade P × OrderBook P) :=
  Loop.trace OrderBook.matchStep ((update ex cmd).1.book cmd.symbolStr).restingCount
    ((update ex cmd).1.book cmd.symbolStr)

/-- The iterations make the trades of the command. -/
theorem iterations_trades {ex : Exchange P} (hl : ex.Linked) (hu : ex.Uncrossed)
    (cmd : Command P) :
    (iterations ex cmd).map (fun x => x.2.1) = trades (dispatch ex cmd).2 := by
  rw [trades_dispatch_matchOrders hl hu, OrderBook.matchOrders, OrderBook.trades_map_trade]
  rfl

/-! ## Where a resting order comes from -/

/-- The book of the command's symbol after the command. -/
theorem ladder_dispatch {ex : Exchange P} (hl : ex.Linked) (hu : ex.Uncrossed) (cmd : Command P) :
    ((dispatch ex cmd).1.book cmd.symbolStr).ladder =
      ((update ex cmd).1.book cmd.symbolStr).ladder.final := by
  have hmatch := (OrderBook.ladder_matchOrders (linked_update hl cmd cmd.symbolStr)).2
  rw [dispatch_eq hl hu, Exchange.book_matchOrders, if_pos rfl, hmatch]

/-- Matching leaves nothing in a book that the update has not left there. -/
theorem within_dispatch {ex : Exchange P} (hl : ex.Linked) (hu : ex.Uncrossed) (cmd : Command P)
    (s : Str) (side : Side) :
    Ladder.Within (((dispatch ex cmd).1.book s).resting side)
      (((update ex cmd).1.book s).resting side) := by
  by_cases hs : s = cmd.symbolStr
  · subst hs
    have hwithin := (Ladder.trades_between ((update ex cmd).1.book cmd.symbolStr).ladder).1
    rw [← ladder_dispatch hl hu] at hwithin
    cases side with
    | buy => exact hwithin.1
    | sell => exact hwithin.2
  · rw [dispatch_eq hl hu, Exchange.book_matchOrders, if_neg hs]
    exact Ladder.Within.refl _

/-- **Where a resting order comes from**: it rested before the command, with
another quantity perhaps, or it is the order the command has put there. -/
theorem mem_resting_dispatch {ex : Exchange P} (hl : ex.Linked) (hu : ex.Uncrossed)
    {cmd : Command P} {s : Str} {side : Side} {e : P × Node P}
    (he : e ∈ ((dispatch ex cmd).1.book s).resting side) :
    (∃ e₀ ∈ (ex.book s).resting side, e₀.1 = e.1 ∧ e₀.2.addr = e.2.addr ∧
      e.2.order = { e₀.2.order with quantity := e.2.order.quantity }) ∨
    (s = cmd.symbolStr ∧ ∃ o b₀, Incoming ex cmd o b₀ ∧ side = o.side ∧
      e.2.order = { o with quantity := e.2.order.quantity }) := by
  obtain ⟨e₁, he₁, hk, ha, ho⟩ := within_dispatch hl hu cmd s side e he
  rcases update_cases hl cmd with hidle | ⟨o, b₀, hin⟩
  · obtain ⟨e₀, he₀, hk', ha', ho'⟩ := hidle.quiet s side e₁ he₁
    exact Or.inl ⟨e₀, he₀, hk'.trans hk, ha'.trans ha, by rw [ho, ho']⟩
  · by_cases hs : s = cmd.symbolStr
    · subst hs
      rw [hin.enters.inserted] at he₁
      rcases OrderBook.mem_resting_insertOrder.mp he₁ with ⟨hside, rfl⟩ | he₀
      · exact Or.inr ⟨rfl, o, b₀, hin, hside, ho⟩
      · exact Or.inl ⟨e₁, (hin.enters.sublist side).subset he₀, hk, ha, ho⟩
    · rw [hin.enters.others s hs] at he₁
      exact Or.inl ⟨e₁, he₁, hk, ha, ho⟩

end MatchingEngine
