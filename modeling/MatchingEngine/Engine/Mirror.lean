import MatchingEngine.Engine.Dispatch
import MatchingEngine.OrderBook.Mirror

/-!
# The two sides of the books are mirror images

Two runs side by side: one of some commands, the other of the same commands with `BUY`
and `SELL` exchanged and the prices reversed.

* `Exchange.Mirrored` relates their states: the books are mirror images of each other,
  for the same symbols, and the routes are the same.
* `Exchange.Mirrored.update`, `mirrored_dispatch`: a command and its mirror
  image keep the states related.
* `mirror_images`: so the whole runs are.

The prices of the trades are not compared: when both timestamps agree the price is the
buyer's, which is the other order of the mirrored trade.
-/

namespace MatchingEngine

variable {P : Type}

/-- The command with the sides exchanged and the prices reversed, as far as it has
them. -/
def Command.mirror (neg : P → P) (cmd : Command P) : Command P :=
  match cmd.type with
  | .new => { cmd with side := cmd.side.opposite, price := neg cmd.price }
  | .modify => { cmd with price := neg cmd.price }
  | .cancel => cmd
  | .stats => cmd
  | .book => cmd

theorem Command.symbolStr_mirror (neg : P → P) (cmd : Command P) :
    (cmd.mirror neg).symbolStr = cmd.symbolStr := by
  rw [Command.mirror]
  cases cmd.type <;> rfl

variable [LinearOrder P]

/-! ## Mirrored exchanges -/

namespace Exchange

/-- The exchanges have books for the same symbols, mirror images of each other, and
route the same identifiers to the same symbols. -/
structure Mirrored (neg : P → P) (ex ex' : Exchange P) : Prop where
  book : ∀ s, OrderBook.Mirrored neg (ex.book s) (ex'.book s)
  symbols : ∀ s, s ∈ ex'.books ↔ s ∈ ex.books
  routes : ex'.orderSymbolMap = ex.orderSymbolMap

variable {neg : P → P} {ex ex' : Exchange P}

theorem mirrored_empty : Mirrored neg (empty : Exchange P) empty where
  book s := by
    rw [book_empty]
    exact OrderBook.mirrored_empty
  symbols s := Iff.rfl
  routes := rfl

theorem Mirrored.addOrder (h : Mirrored neg ex ex') (hneg : StrictAnti neg) (symbol : Str)
    (o : Order P) :
    Mirrored neg (ex.addOrder symbol o).1 (ex'.addOrder symbol (o.mirror neg)).1 where
  book s := by
    rw [book_addOrder, book_addOrder]
    split
    · exact (h.book symbol).addOrder hneg o
    · exact h.book s
  symbols s := by rw [mem_books_addOrder, mem_books_addOrder, h.symbols]
  routes := by
    rw [orderSymbolMap_addOrder, orderSymbolMap_addOrder, h.routes]
    rfl

theorem Mirrored.cancelOrder (h : Mirrored neg ex ex') (hneg : StrictAnti neg) (i : UInt64) :
    Mirrored neg (ex.cancelOrder i).1 (ex'.cancelOrder i).1 where
  book s := by
    rw [book_cancelOrder, book_cancelOrder, h.routes]
    split
    · exact (h.book s).cancelOrder hneg i
    · exact h.book s
  symbols s := by rw [mem_books_cancelOrder, mem_books_cancelOrder, h.symbols, h.routes]
  routes := by
    refine Finmap.ext_lookup fun j => ?_
    rw [lookup_cancelOrder, lookup_cancelOrder, h.routes]

theorem Mirrored.modifyOrder (h : Mirrored neg ex ex') (hneg : StrictAnti neg) (i : UInt64)
    (symbol : Str) (q : Int32) (p : P) (ts : ℤ) :
    Mirrored neg (ex.modifyOrder i symbol q p ts).1 (ex'.modifyOrder i symbol q (neg p) ts).1 where
  book s := by
    rw [book_modifyOrder, book_modifyOrder, h.routes]
    split
    · exact (h.book symbol).modifyOrder hneg i q p ts
    · exact h.book s
  symbols s := by rw [mem_books_modifyOrder, mem_books_modifyOrder, h.symbols, h.routes]
  routes := by rw [orderSymbolMap_modifyOrder, orderSymbolMap_modifyOrder, h.routes]

theorem Mirrored.matchOrders (h : Mirrored neg ex ex') (hneg : StrictAnti neg) (symbol : Str) :
    Mirrored neg (ex.matchOrders symbol).1 (ex'.matchOrders symbol).1 where
  book s := by
    rw [book_matchOrders, book_matchOrders]
    split
    · exact ((h.book symbol).matchOrders hneg).2
    · exact h.book s
  symbols s := by rw [mem_books_matchOrders, mem_books_matchOrders, h.symbols]
  routes := by rw [orderSymbolMap_matchOrders, orderSymbolMap_matchOrders, h.routes]

/-- The first half of a command and of its mirror image. -/
theorem Mirrored.update (h : Mirrored neg ex ex') (hneg : StrictAnti neg) (cmd : Command P) :
    Mirrored neg (MatchingEngine.update ex cmd).1
      (MatchingEngine.update ex' (cmd.mirror neg)).1 := by
  rw [MatchingEngine.update, MatchingEngine.update, Command.mirror]
  cases htype : cmd.type with
  | stats => simpa only [htype] using h
  | book => simpa only [htype] using h
  | new => exact h.addOrder hneg cmd.symbolStr cmd.order
  | cancel =>
    simp only [htype]
    exact h.cancelOrder hneg cmd.orderId
  | modify =>
    exact h.modifyOrder hneg cmd.orderId cmd.symbolStr cmd.quantity cmd.price cmd.timestamp

end Exchange

/-- **A command and its mirror image**, on mirrored exchanges. -/
theorem mirrored_dispatch {neg : P → P} (hneg : StrictAnti neg) {ex ex' : Exchange P}
    (h : Exchange.Mirrored neg ex ex') (hl : ex.Linked) (hu : ex.Uncrossed) (hl' : ex'.Linked)
    (hu' : ex'.Uncrossed) (cmd : Command P) :
    Exchange.Mirrored neg (dispatch ex cmd).1 (dispatch ex' (cmd.mirror neg)).1 ∧
      List.Forall₂ Trade.Exchanged (trades (dispatch ex cmd).2)
        (trades (dispatch ex' (cmd.mirror neg)).2) := by
  have hupd := h.update hneg cmd
  refine ⟨?_, ?_⟩
  · rw [dispatch_eq hl hu, dispatch_eq hl' hu', Command.symbolStr_mirror]
    exact hupd.matchOrders hneg cmd.symbolStr
  · rw [trades_dispatch_matchOrders hl hu, trades_dispatch_matchOrders hl' hu',
      Command.symbolStr_mirror]
    exact ((hupd.book cmd.symbolStr).matchOrders hneg).1

/-- The run of the mirrored commands. -/
theorem mirrored_run {neg : P → P} (hneg : StrictAnti neg) (cmds : List (Command P)) :
    Exchange.Mirrored neg (engine.run cmds) (engine.run (cmds.map (Command.mirror neg))) ∧
      List.Forall₂ Trade.Exchanged (trades (engine.log cmds))
        (trades (engine.log (cmds.map (Command.mirror neg)))) := by
  induction cmds using List.reverseRecOn with
  | nil => exact ⟨Exchange.mirrored_empty, List.Forall₂.nil⟩
  | append_singleton cmds cmd ih =>
    obtain ⟨hstate, htrades⟩ := mirrored_dispatch hneg ih.1 (linked_engine _) (uncrossed_engine _)
      (linked_engine _) (uncrossed_engine _) cmd
    rw [List.map_append, List.map_singleton, engine_run_concat, engine_run_concat,
      Machine.log_concat, Machine.log_concat, trades_append, trades_append]
    exact ⟨hstate, List.rel_append ih.2 htrades⟩

/-- **The two sides are mirror images.**  For every function that reverses the order of
the prices, the run of the mirrored commands has, after every command, the mirrored
books, and it makes the same trades with buyer and seller exchanged. -/
theorem mirror_images (neg : P → P) (hneg : StrictAnti neg) (cmds : List (Command P)) :
    (∀ k, k <+: cmds →
      Exchange.Mirrored neg (engine.run k) (engine.run (k.map (Command.mirror neg)))) ∧
    List.Forall₂ Trade.Exchanged (trades (engine.log cmds))
      (trades (engine.log (cmds.map (Command.mirror neg)))) :=
  ⟨fun k _ => (mirrored_run hneg k).1, (mirrored_run hneg cmds).2⟩

/-- Negated integers: a sweep of two levels, and a tie of timestamps. -/
theorem mirror_images_sweep :
    let cmds : List (Command ℤ) := [.newOrder 1 .sell ['A'] 5 10 7 0 0,
      .newOrder 2 .sell ['A'] 5 11 7 0 0, .newOrder 3 .buy ['A'] 8 12 7 0 0]
    Exchange.Mirrored Neg.neg (engine.run cmds) (engine.run (cmds.map (Command.mirror Neg.neg))) ∧
      trades (engine.log cmds) = [⟨12, 5, 3, 1⟩, ⟨12, 3, 3, 2⟩] ∧
      trades (engine.log (cmds.map (Command.mirror Neg.neg))) =
        [⟨-10, 5, 1, 3⟩, ⟨-11, 3, 2, 3⟩] := by
  intro cmds
  have hneg : StrictAnti (Neg.neg : ℤ → ℤ) := fun _ _ h => Int.neg_lt_neg h
  exact ⟨(mirror_images Neg.neg hneg cmds).1 cmds (List.prefix_refl _), by decide, by decide⟩

end MatchingEngine
