import MatchingEngine.Server.Serial

/-!
# The server follows no dangling iterator and leaves no book crossed

`cancelOrder` and `modifyOrder` go through iterators that were stored when the order was
inserted, and `matchOrders` takes the front of a level.  Neither is checked by the code.
That the iterators are live and the levels are not empty holds of every run of the engine,
also of one that uses an identifier again, and so of every schedule of the server.

* `defined_dispatch`, `defined_engine`: no dangling iterator is followed.
* `pipeline_safe`: the exchange at every moment of every schedule.
-/

namespace MatchingEngine

variable {P : Type} [LinearOrder P]

/-! ## The calls of a book -/

theorem OrderBook.defined_cancelOrder {b : OrderBook P} (hb : b.Linked) (i : UInt64) :
    Event.undefinedBehaviour ∉ (b.cancelOrder i).2 := by
  rcases cancelOrder_cases hb i with ⟨-, h⟩ | ⟨loc, n, -, -, -, -, h⟩
  · simp [h]
  · simp [h]

theorem OrderBook.defined_modifyOrder {b : OrderBook P} (hb : b.Linked) (i : UInt64) (q : Int32)
    (p : P) (ts : ℤ) : Event.undefinedBehaviour ∉ (b.modifyOrder i q p ts).2 := by
  rcases modifyOrder_cases hb i q p ts with
    ⟨-, h⟩ | ⟨loc, n, -, -, -, -, -, -, ⟨-, -, h⟩ | ⟨-, h⟩⟩
  · simp [h]
  · simp [h]
  · simp [h]

/-! ## The calls of the exchange -/

namespace Exchange

variable {ex : Exchange P}

theorem defined_cancelOrder (hl : ex.Linked) (i : UInt64) :
    Event.undefinedBehaviour ∉ (ex.cancelOrder i).2 := by
  rcases cancelOrder_cases ex i with ⟨-, h⟩ | ⟨symbol, -, -, -, h⟩
  · simp [h]
  · rw [h]
    exact OrderBook.defined_cancelOrder (hl symbol) i

theorem defined_modifyOrder (hl : ex.Linked) (i : UInt64) (symbol : Str) (q : Int32) (p : P)
    (ts : ℤ) : Event.undefinedBehaviour ∉ (ex.modifyOrder i symbol q p ts).2 := by
  rcases modifyOrder_cases ex i symbol q p ts with ⟨-, e, -, h, he⟩ | ⟨-, -, -, h⟩
  · rw [h]
    rcases he with rfl | ⟨actual, rfl⟩ <;> simp
  · rw [h]
    exact OrderBook.defined_modifyOrder (hl symbol) i q p ts

theorem defined_matchOrders (ex : Exchange P) (symbol : Str) :
    Event.undefinedBehaviour ∉ (ex.matchOrders symbol).2 := by
  rw [events_matchOrders, OrderBook.matchOrders]
  simp

/-- What holds of the exchange between two commands. -/
structure Safe (ex : Exchange P) : Prop where
  /-- No bid reaches an ask. -/
  uncrossed : ∀ s, ∀ bid ∈ (ex.book s).resting .buy, ∀ ask ∈ (ex.book s).resting .sell,
    bid.1 < ask.1
  /-- No level is empty, so there is a front to take. -/
  levels : ∀ s side, ∀ level ∈ ((ex.book s).levels side).entries, level.2 ≠ []
  /-- An iterator that is stored can be followed, and leads to the order it was stored
  for. -/
  live : ∀ s i loc, (ex.book s).orderMap.lookup i = some loc →
    ∃ o, (ex.book s).deref loc = some o ∧ o.orderId = i ∧ o.side = loc.side ∧ o.price = loc.price

theorem safe_of_linked (hl : ex.Linked) (hu : ex.Uncrossed) : ex.Safe where
  uncrossed := hu
  levels s side := (hl s).nonempty side
  live s i loc hloc := by
    obtain ⟨n, hderef, -, -, hid, hside, hprice⟩ := (hl s).deref_eq hloc
    exact ⟨n.order, hderef, hid, hside, hprice⟩

end Exchange

/-! ## Runs -/

/-- **One command** follows no dangling iterator. -/
theorem defined_dispatch {ex : Exchange P} (hl : ex.Linked) (cmd : Command P) :
    Event.undefinedBehaviour ∉ (dispatch ex cmd).2 := by
  rw [dispatch]
  cases cmd.type with
  | stats => simp [Exchange.printStats]
  | new =>
    simp only [List.mem_append, not_or]
    exact ⟨by simp [Exchange.addOrder, OrderBook.addOrder], Exchange.defined_matchOrders _ _⟩
  | cancel => exact Exchange.defined_cancelOrder hl _
  | modify =>
    simp only [List.mem_append, not_or]
    exact ⟨Exchange.defined_modifyOrder hl _ _ _ _ _, Exchange.defined_matchOrders _ _⟩
  | book =>
    simp only [Exchange.printBook]
    cases ex.books.lookup cmd.symbolStr <;> simp [OrderBook.printBook]

theorem defined_engine (cmds : List (Command P)) :
    Event.undefinedBehaviour ∉ engine.log cmds := by
  induction cmds using List.reverseRecOn with
  | nil => exact List.not_mem_nil
  | append_singleton cmds cmd ih =>
    rw [Machine.log_concat, List.mem_append, not_or]
    exact ⟨ih, defined_dispatch (linked_engine cmds) cmd⟩

theorem safe_engine (cmds : List (Command P)) : (engine.run cmds).Safe :=
  Exchange.safe_of_linked (linked_engine cmds) (uncrossed_engine cmds)

namespace Pipeline

variable [Zero P]

/-- **The server is safe.**  After every schedule of the two threads, the kernel, the
clients and the signals, whatever the clients have sent and however many orders have been
numbered, no dangling iterator has been followed, no book is crossed, no level is empty,
and every stored iterator leads to its order. -/
theorem pipeline_safe (toDouble : ℚ → Option P) (memory : Command P) (buffer : ℕ → Command P)
    (boot : ℤ) (acts : List Action) :
    Happened.printed .undefinedBehaviour ∉ (pipeline toDouble memory buffer boot).log acts ∧
      ((pipeline toDouble memory buffer boot).run acts).exchange.Safe := by
  have hinv : Inv toDouble ((pipeline toDouble memory buffer boot).log acts)
      ((pipeline toDouble memory buffer boot).run acts) := inv_run buffer boot acts
  have hserial := hinv.serial
  refine ⟨fun hmem => ?_, ?_⟩
  · have hprinted : Event.undefinedBehaviour ∈
        printed ((pipeline toDouble memory buffer boot).log acts) :=
      List.mem_filterMap.mpr ⟨_, hmem, rfl⟩
    rw [hserial.printed] at hprinted
    exact defined_engine _ hprinted
  · rw [hserial.exchange]
    exact safe_engine _

end Pipeline
end MatchingEngine
