import MatchingEngine.Exchange.Routing
import MatchingEngine.Engine.Ledger

/-!
# A finished order stays finished

A fill erases the order from its book's `orderMap` and leaves its route in
`orderSymbolMap`, so a later `CANCEL` or `MODIFY` of a filled order still reaches a
book.  That it finds nothing there is a fact about runs.

* `rests_of_update`: only a `NEW` makes an identifier rest that did not.
* `Finishes.gone`: the command that cancels or fills an order leaves its identifier
  in no book.
* `finished_stays`: from there on the identifier never rests, never trades, and
  requests that carry it change no book.
-/

namespace MatchingEngine

variable {P : Type} [LinearOrder P]

/-! ## Only a `NEW` makes an identifier rest -/

/-- What rests after the first half of a command rested before, or is the order of
a `NEW`. -/
theorem rests_of_update {ex : Exchange P} (hl : ex.Linked) {cmd : Command P} {s : Str}
    {i : UInt64} (h : ((update ex cmd).1.book s).Rests i) :
    (∃ s', (ex.book s').Rests i) ∨ (cmd.type = .new ∧ cmd.orderId = i) := by
  obtain ⟨side, e, he, rfl⟩ := h
  rcases update_cases hl cmd with hidle | ⟨o, b₀, hin⟩
  · obtain ⟨e₀, he₀, -, -, ho⟩ := hidle.quiet s side e he
    exact Or.inl ⟨s, side, e₀, he₀, by rw [ho]⟩
  by_cases hs : s = cmd.symbolStr
  · subst hs
    rw [hin.enters.inserted] at he
    rcases OrderBook.mem_resting_insertOrder.mp he with ⟨-, rfl⟩ | he₀
    · rcases hin.cause with ⟨hnew, -⟩ | ⟨loc, n, hre, -⟩
      · exact Or.inr ⟨hnew, hin.id.symm⟩
      · exact Or.inl ⟨cmd.symbolStr, loc.side, _, hre.rests, hre.id.trans hin.id.symm⟩
    · exact Or.inl ⟨cmd.symbolStr, side, e, (hin.enters.sublist side).subset he₀, rfl⟩
  · rw [hin.enters.others s hs] at he
    exact Or.inl ⟨s, side, e, he, rfl⟩

/-- Matching makes nothing rest. -/
theorem rests_of_dispatch {ex : Exchange P} (hl : ex.Linked) (hu : ex.Uncrossed)
    {cmd : Command P} {s : Str} {i : UInt64} (h : ((dispatch ex cmd).1.book s).Rests i) :
    ((update ex cmd).1.book s).Rests i := by
  obtain ⟨side, e, he, rfl⟩ := h
  obtain ⟨e₀, he₀, -, -, ho⟩ := within_dispatch hl hu cmd s side e he
  exact ⟨side, e₀, he₀, by rw [ho]⟩

/-- The parties of a trade rest in the book of the command's symbol after the first
half of the command. -/
theorem rests_of_trade {ex : Exchange P} (hl : ex.Linked) (hu : ex.Uncrossed)
    {cmd : Command P} {t : Trade P} (ht : t ∈ trades (dispatch ex cmd).2) :
    ((update ex cmd).1.book cmd.symbolStr).Rests t.buyer ∧
      ((update ex cmd).1.book cmd.symbolStr).Rests t.seller := by
  rw [trades_dispatch hl hu] at ht
  obtain ⟨bid, hbid, ask, hask, -, hbuyer, hseller, -⟩ := (Ladder.trades_between _).2 t ht
  exact ⟨⟨.buy, bid, hbid, hbuyer.symm⟩, ⟨.sell, ask, hask, hseller.symm⟩⟩

/-! ## Finished orders -/

/-- The command finishes order `i`: it is a cancel that the book accepts, or one of
the iterations of `matchOrders` it causes fills the order. -/
def Finishes (ex : Exchange P) (cmd : Command P) (i : UInt64) : Prop :=
  (cmd.type = .cancel ∧ ∃ side q p, Event.cancel i side q p ∈ (dispatch ex cmd).2) ∨
    ∃ x ∈ iterations ex cmd, x.1.Rests i ∧ ¬ x.2.2.Rests i

/-- The identifier was given out, and no order with it rests any more. -/
structure Gone (cmds : List (Command P)) (i : UInt64) : Prop where
  given : i ∈ newIds cmds
  absent : ∀ s, ¬ ((engine.run cmds).book s).Rests i

/-- The first half of no command brings the identifier back. -/
theorem Gone.update {cmds : List (Command P)} {i : UInt64} (h : Gone cmds i) {cmd : Command P}
    (hfresh : FreshNew (cmds ++ [cmd])) (s : Str) :
    ¬ ((MatchingEngine.update (engine.run cmds) cmd).1.book s).Rests i := by
  intro hrests
  rcases rests_of_update (linked_engine cmds) hrests with ⟨s', hs'⟩ | ⟨hnew, rfl⟩
  · exact h.absent s' hs'
  · exact not_mem_newIds hfresh hnew h.given

/-- One command preserves that the identifier is gone. -/
theorem Gone.dispatch {cmds : List (Command P)} {i : UInt64} (h : Gone cmds i)
    {cmd : Command P} (hfresh : FreshNew (cmds ++ [cmd])) : Gone (cmds ++ [cmd]) i where
  given := by
    rw [newIds_append]
    exact List.mem_append_left _ h.given
  absent s hrests := by
    rw [engine_run_concat] at hrests
    exact h.update hfresh s (rests_of_dispatch (linked_engine cmds) (uncrossed_engine cmds) hrests)

/-- A run of commands preserves that the identifier is gone. -/
theorem Gone.run {cmds : List (Command P)} {i : UInt64} (h : Gone cmds i)
    {rest : List (Command P)} (hfresh : FreshNew (cmds ++ rest)) : Gone (cmds ++ rest) i := by
  induction rest using List.reverseRecOn with
  | nil => rwa [List.append_nil]
  | append_singleton rest c ih =>
    rw [← List.append_assoc] at hfresh ⊢
    exact (ih hfresh.initial).dispatch hfresh

/-- The next command has no trade with the identifier. -/
theorem Gone.no_trade {cmds : List (Command P)} {i : UInt64} (h : Gone cmds i)
    {cmd : Command P} (hfresh : FreshNew (cmds ++ [cmd])) {t : Trade P}
    (ht : t ∈ trades (MatchingEngine.dispatch (engine.run cmds) cmd).2) :
    t.buyer ≠ i ∧ t.seller ≠ i := by
  obtain ⟨hb, hs⟩ := rests_of_trade (linked_engine cmds) (uncrossed_engine cmds) ht
  refine ⟨?_, ?_⟩
  · rintro rfl
    exact h.update hfresh _ hb
  · rintro rfl
    exact h.update hfresh _ hs

/-- A `CANCEL` or a `MODIFY` of the identifier leaves the books as they are. -/
theorem Gone.no_change {cmds : List (Command P)} {i : UInt64} (h : Gone cmds i)
    (hfresh : FreshNew cmds) {cmd : Command P} (hid : cmd.orderId = i)
    (htype : cmd.type = .cancel ∨ cmd.type = .modify) :
    (MatchingEngine.dispatch (engine.run cmds) cmd).1.books = (engine.run cmds).books := by
  subst hid
  have hw := wf_engine hfresh
  have hh : (engine.run cmds).Housed := by
    rw [engine_run]
    exact Exchange.housed_run _
  rw [MatchingEngine.dispatch]
  rcases htype with hcancel | hmodify
  · rw [hcancel]
    exact hw.routed.books_cancelOrder hw.linked hh h.absent
  · -- the request changes nothing, so the book it matches is uncrossed
    rw [hmodify]
    have hsame := hw.routed.modifyOrder_eq hw.linked hh (h.absent cmd.symbolStr) cmd.quantity
      cmd.price cmd.timestamp
    simp only [hsame]
    rw [Exchange.matchOrders_of_uncrossed hw.linked (uncrossed_engine cmds cmd.symbolStr)]

/-- A cancel that the book accepts takes the order away. -/
theorem gone_of_cancel {cmds : List (Command P)} {cmd : Command P} {i : UInt64}
    (hfresh : FreshNew (cmds ++ [cmd])) (hcancel : cmd.type = .cancel) {side : Side} {q : Int32}
    {p : P} (hev : Event.cancel i side q p ∈ (dispatch (engine.run cmds) cmd).2) :
    Gone (cmds ++ [cmd]) i := by
  have hw := wf_engine hfresh.initial
  have hdispatch : dispatch (engine.run cmds) cmd = (engine.run cmds).cancelOrder cmd.orderId := by
    rw [dispatch, hcancel]
  have hid : i = cmd.orderId ∧ ∃ s, ((engine.run cmds).book s).Rests i := by
    rw [hdispatch] at hev
    rcases Exchange.cancelOrder_cases (engine.run cmds) cmd.orderId with
      ⟨-, h⟩ | ⟨symbol, -, -, -, h⟩
    · rw [h] at hev
      exact absurd (List.mem_singleton.mp hev) (by simp)
    · rw [h] at hev
      rcases OrderBook.cancelOrder_cases (hw.linked symbol) cmd.orderId with
        ⟨-, h⟩ | ⟨loc, n, -, hn, -, hnid, h⟩
      · rw [h] at hev
        exact absurd (List.mem_singleton.mp hev) (by simp)
      · rw [h] at hev
        injection List.mem_singleton.mp hev with hid
        subst hid
        exact ⟨rfl, symbol, loc.side, _, hn, hnid⟩
  obtain ⟨rfl, s, hrests⟩ := hid
  refine ⟨?_, fun s' => ?_⟩
  · rw [newIds_append]
    exact List.mem_append_left _ (mem_newIds_of_rests hfresh.initial hrests)
  · rw [engine_run_concat]
    exact fun h => not_rests_update_cancel hw.linked hw.routed hcancel s'
      (rests_of_dispatch hw.linked (uncrossed_engine cmds) h)

/-- An iteration that fills an order takes it away. -/
theorem gone_of_fill {cmds : List (Command P)} {cmd : Command P} {i : UInt64}
    (hfresh : FreshNew (cmds ++ [cmd])) {x : OrderBook P × Trade P × OrderBook P}
    (hx : x ∈ iterations (engine.run cmds) cmd) (hbefore : x.1.Rests i)
    (hafter : ¬ x.2.2.Rests i) : Gone (cmds ++ [cmd]) i := by
  have hl := linked_engine cmds
  have hu := uncrossed_engine cmds
  have hstart : ((update (engine.run cmds) cmd).1.book cmd.symbolStr).Rests i :=
    (Loop.trace_invariant
      (I := fun b => b.Rests i → ((update (engine.run cmds) cmd).1.book cmd.symbolStr).Rests i)
      (fun _ _ _ hb hstep hrests => hb (hrests.of_matchStep hstep)) _ _ id x hx).1 hbefore
  refine ⟨?_, fun s hrests => ?_⟩
  · obtain ⟨side, e, he, rfl⟩ := hstart
    obtain ⟨c, hc, hnew, hid, -⟩ := entered_of_update (entered_of_rests cmds) he
    exact List.mem_filterMap.mpr ⟨c, hc, by rw [Command.newId, hnew, hid]⟩
  · rw [engine_run_concat] at hrests
    have hs : s = cmd.symbolStr :=
      (routed_update hfresh).symbol_unique (rests_of_dispatch hl hu hrests) hstart
    -- the loop goes on from the iteration that filled the order
    obtain ⟨m, hm⟩ := Loop.final_of_mem_trace _ hx
    rw [hs, dispatch_eq hl hu, Exchange.book_matchOrders, if_pos rfl,
      OrderBook.matchOrders] at hrests
    rw [hm] at hrests
    exact Loop.final_invariant (I := fun b : OrderBook P => ¬ b.Rests i)
      (fun _ _ _ hb hstep hrests => hb (hrests.of_matchStep hstep)) m _ hafter hrests

/-- **The command that finishes an order** leaves it in no book. -/
theorem Finishes.gone {cmds : List (Command P)} {cmd : Command P} {i : UInt64}
    (hfresh : FreshNew (cmds ++ [cmd])) (h : Finishes (engine.run cmds) cmd i) :
    Gone (cmds ++ [cmd]) i := by
  rcases h with ⟨hcancel, side, q, p, hev⟩ | ⟨x, hx, hbefore, hafter⟩
  · exact gone_of_cancel hfresh hcancel hev
  · exact gone_of_fill hfresh hx hbefore hafter

/-- **A finished order stays finished.**  In a run without reused identifiers, once a
command has cancelled or filled an order, its identifier rests in no book at any later
moment, no later command trades with it, and a later `CANCEL` or `MODIFY` of it, with
whatever symbol, leaves the books as they are. -/
theorem finished_stays (cmds : List (Command P)) (cmd : Command P) (rest : List (Command P))
    (i : UInt64) (hfresh : FreshNew (cmds ++ [cmd] ++ rest))
    (hfin : Finishes (engine.run cmds) cmd i) :
    (∀ k, k <+: rest → ∀ s, ¬ ((engine.run (cmds ++ [cmd] ++ k)).book s).Rests i) ∧
    ∀ k c, k ++ [c] <+: rest →
      (∀ t ∈ trades (dispatch (engine.run (cmds ++ [cmd] ++ k)) c).2,
        t.buyer ≠ i ∧ t.seller ≠ i) ∧
      (c.orderId = i → c.type = .cancel ∨ c.type = .modify →
        (dispatch (engine.run (cmds ++ [cmd] ++ k)) c).1.books =
          (engine.run (cmds ++ [cmd] ++ k)).books) := by
  have hfreshk : ∀ {k : List (Command P)}, k <+: rest → FreshNew (cmds ++ [cmd] ++ k) := by
    rintro k ⟨rest', rfl⟩
    rw [← List.append_assoc] at hfresh
    exact hereditary_freshNew.of_append hfresh
  have hgone : ∀ {k : List (Command P)}, k <+: rest → Gone (cmds ++ [cmd] ++ k) i := fun hk =>
    (hfin.gone (hereditary_freshNew.of_append hfresh)).run (hfreshk hk)
  refine ⟨fun k hk => (hgone hk).absent, fun k c hkc => ?_⟩
  have hk := (List.prefix_append k [c]).trans hkc
  have hfreshc := hfreshk hkc
  rw [← List.append_assoc] at hfreshc
  exact ⟨fun t ht => (hgone hk).no_trade hfreshc ht,
    fun hid htype => (hgone hk).no_change (hfreshk hk) hid htype⟩

/-- An ask that is filled, and a cancel and modifies of it under two symbols. -/
theorem finished_stays_filled :
    let cmds : List (Command ℤ) := [.newOrder 1 .sell ['A'] 5 10 1 0 0]
    let cmd : Command ℤ := .newOrder 2 .buy ['A'] 8 10 2 0 0
    let rest : List (Command ℤ) := [.modifyOrder 1 ['A'] 7 21 3 0 0,
      .modifyOrder 1 ['B'] 7 21 4 0 0, .cancelOrder 1 5 0 0, .newOrder 3 .sell ['A'] 8 9 6 0 0]
    (∀ k, k <+: rest → ∀ s, ¬ ((engine.run (cmds ++ [cmd] ++ k)).book s).Rests 1) ∧
      tradesIn ['A'] (cmds ++ [cmd] ++ rest) = [⟨10, 5, 2, 1⟩, ⟨10, 3, 2, 3⟩] := by
  intro cmds cmd rest
  have hrun : Finishes (engine.run cmds) cmd 1 := by
    obtain ⟨x, hx, hbefore, hafter⟩ :
        ∃ x ∈ iterations (engine.run cmds) cmd, 1 ∈ x.1.ids ∧ 1 ∉ x.2.2.ids := by decide
    exact Or.inr ⟨x, hx, OrderBook.mem_ids.mp hbefore,
      fun h => hafter (OrderBook.mem_ids.mpr h)⟩
  exact ⟨(finished_stays cmds cmd rest 1 (by decide) hrun).1, by decide⟩

end MatchingEngine
