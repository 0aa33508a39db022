import MatchingEngine.OrderBook.Refinement

/-!
# An exchange without books

The exchange as a caller sees it: the orders of all symbols in one list, the symbol
every identifier was entered under, and the counters of every symbol that has been
traded.  Nothing is nested and nothing is indexed.

`Refines ex pl` relates the exchange of the source to it, and each call has one lemma:
the two print the same line and stay related.

* `refines_plain`: along every history of calls that adds no identifier twice, the
  exchange prints what the plain one prints, and so do its two displays at the end.
-/

namespace MatchingEngine

variable {P : Type}

/-- The exchange with one list for all books. -/
structure PlainExchange (P : Type) where
  /-- Every resting order, in the order in which they took their place. -/
  orders : PlainOrders P
  /-- The symbol an identifier was entered under. -/
  routes : Finmap fun _ : UInt64 => Str
  /-- The counters of every symbol an order was entered for. -/
  stats : Finmap fun _ : Str => SymbolStats

/-- The counters after an order. -/
def SymbolStats.ordered (st : SymbolStats) : SymbolStats :=
  { st with totalOrders := st.totalOrders + 1 }

/-- The counters after trades. -/
def SymbolStats.traded (st : SymbolStats) (ts : List (Trade P)) : SymbolStats where
  totalOrders := st.totalOrders
  totalTrades := st.totalTrades + UInt64.ofNat ts.length
  totalVolume := st.totalVolume + (ts.map fun t => UInt64.ofInt t.quantity.toInt).sum

variable [LinearOrder P]

namespace PlainExchange

/-- Before the first order. -/
def empty : PlainExchange P := ⟨[], ∅, ∅⟩

/-- Enter an order at the end of the list. -/
def addOrder (pl : PlainExchange P) (symbol : Str) (o : Order P) :
    PlainExchange P × List (Event P) :=
  ({ orders := pl.orders ++ [(symbol, o)]
     routes := pl.routes.insert o.orderId symbol
     stats := pl.stats.insert symbol ((pl.stats.lookup symbol).getD {}).ordered },
    [.new o.orderId o.side o.quantity o.price])

/-- Take an order out of the list. -/
def cancelOrder (pl : PlainExchange P) (i : UInt64) : PlainExchange P × List (Event P) :=
  match pl.routes.lookup i with
  | none => (pl, [.cancelNotFoundInAnyBook i])
  | some _ =>
    ({ pl with orders := pl.orders.remove i, routes := pl.routes.erase i },
      match pl.orders.lookup i with
      | none => [.cancelNotFound i]
      | some (_, o) => [.cancel i o.side o.quantity o.price])

/-- The same price and a smaller quantity keep the place of an order; anything else
gives it a new place at the end. -/
def modifyOrder (pl : PlainExchange P) (i : UInt64) (symbol : Str) (newQty : Int32)
    (newPrice : P) (timestamp : ℤ) : PlainExchange P × List (Event P) :=
  match pl.routes.lookup i with
  | none => (pl, [.modifyNotFoundInAnyBook i])
  | some actual =>
    if actual ≠ symbol then (pl, [.modifyWrongSymbol i actual symbol])
    else
      match pl.orders.lookup i with
      | none => (pl, [.modifyNotFound i])
      | some (_, o) =>
        if newPrice = o.price ∧ newQty < o.quantity then
          ({ pl with orders := pl.orders.setQuantity i newQty },
            [.modifyInPlace i o.quantity newQty])
        else
          ({ pl with orders := pl.orders.remove i ++
              [(symbol, ⟨i, o.side, newPrice, newQty, timestamp⟩)] },
            [.modifyReinsert i o.quantity o.price newQty newPrice])

/-- Match the orders of a symbol. -/
def matchOrders (pl : PlainExchange P) (symbol : Str) : PlainExchange P × List (Event P) :=
  match pl.stats.lookup symbol with
  | none => (pl, [])
  | some st =>
    let r := pl.orders.matchOrders symbol
    ({ pl with orders := r.1, stats := pl.stats.insert symbol (st.traded r.2) },
      r.2.map .trade)

/-- Display a symbol. -/
def printBook (pl : PlainExchange P) (symbol : Str) : List (Event P) :=
  match pl.stats.lookup symbol with
  | none => [.bookNotFound symbol]
  | some _ => [.book symbol (pl.orders.depth symbol .buy) (pl.orders.depth symbol .sell)]

/-- Display the counters. -/
def printStats (pl : PlainExchange P) : List (Event P) :=
  [.stats (pl.stats.keys.image fun symbol => (symbol, (pl.stats.lookup symbol).getD {}))]

/-- Perform a call. -/
def apply (pl : PlainExchange P) : Exchange.Op P → PlainExchange P × List (Event P)
  | .addOrder symbol o => pl.addOrder symbol o
  | .cancelOrder i => pl.cancelOrder i
  | .modifyOrder i symbol q p ts => pl.modifyOrder i symbol q p ts
  | .matchOrders symbol => pl.matchOrders symbol

/-- The plain exchange as a machine that reads calls. -/
def api : Machine (PlainExchange P) (Exchange.Op P) (Event P) := ⟨empty, apply⟩

omit [LinearOrder P] in
/-- No trade leaves the counters as they are. -/
theorem traded_nil (st : SymbolStats) : st.traded ([] : List (Trade P)) = st := by
  simp [SymbolStats.traded]

/-- Where nothing crosses, matching changes nothing. -/
theorem matchOrders_of_none {pl : PlainExchange P} {symbol : Str}
    (h : pl.orders.matchStep symbol = none) : pl.matchOrders symbol = (pl, []) := by
  rw [matchOrders]
  cases hst : pl.stats.lookup symbol with
  | none => rfl
  | some st =>
    have hsame : pl.stats.insert symbol st = pl.stats := by
      refine Finmap.ext_lookup fun s => ?_
      by_cases hs : s = symbol
      · rw [hs, Finmap.lookup_insert, hst]
      · rw [Finmap.lookup_insert_of_ne _ hs]
    simp only [PlainOrders.matchOrders, Loop.final_of_none h, Loop.outputs_of_none h, traded_nil,
      List.map_nil, hsame]

/-- The counters of a symbol, zero where there are none. -/
def counters (pl : PlainExchange P) (s : Str) : SymbolStats := (pl.stats.lookup s).getD {}

/-- The symbol of every order has counters. -/
def Housed (pl : PlainExchange P) : Prop := ∀ e ∈ pl.orders, ∃ st, pl.stats.lookup e.1 = some st

/-- **Matching**, whether or not the symbol is known: the trades are those of the list. -/
theorem Housed.matchOrders {pl : PlainExchange P} (h : pl.Housed) (symbol : Str) :
    (pl.matchOrders symbol).2 = (pl.orders.matchOrders symbol).2.map .trade ∧
      (pl.matchOrders symbol).1.orders = (pl.orders.matchOrders symbol).1 ∧
      (pl.matchOrders symbol).1.routes = pl.routes ∧
      ∀ s, (pl.matchOrders symbol).1.counters s =
        if s = symbol then (pl.counters symbol).traded (pl.orders.matchOrders symbol).2
        else pl.counters s := by
  cases hst : pl.stats.lookup symbol with
  | none =>
    -- an unknown symbol has no orders that could trade
    have hidle : pl.orders.matchStep symbol = none := by
      refine PlainOrders.matchStep_eq_none_iff.mpr fun e he hon => ?_
      obtain ⟨st, hst'⟩ := h e he
      rw [hon.1, hst] at hst'
      exact absurd hst' (by simp)
    rw [matchOrders_of_none hidle, PlainOrders.matchOrders, Loop.final_of_none hidle,
      Loop.outputs_of_none hidle]
    refine ⟨rfl, rfl, rfl, fun s => ?_⟩
    rw [traded_nil]
    split
    · rename_i hs
      rw [hs]
    · rfl
  | some st =>
    rw [PlainExchange.matchOrders, hst]
    refine ⟨rfl, rfl, rfl, fun s => ?_⟩
    simp only [counters]
    by_cases hs : s = symbol
    · rw [if_pos hs, hs, Finmap.lookup_insert, hst]
      rfl
    · rw [if_neg hs, Finmap.lookup_insert_of_ne _ hs]

end PlainExchange

namespace Exchange

open OrderBook (Rests)

/-- The exchange holds what the plain one does: the queues of its books, its routes and
its counters. -/
structure Refines (ex : Exchange P) (pl : PlainExchange P) : Prop where
  groups : ∀ s, (ex.book s).Groups s pl.orders
  distinct : pl.orders.Distinct
  routes : pl.routes = ex.orderSymbolMap
  stats : ∀ s, pl.stats.lookup s = (ex.books.lookup s).map OrderBook.stats

theorem refines_empty : (empty : Exchange P).Refines PlainExchange.empty where
  groups s := by
    rw [book_empty]
    exact OrderBook.groups_empty s
  distinct := List.nodup_nil
  routes := rfl
  stats s := by
    rw [PlainExchange.empty, empty, Finmap.lookup_empty, Finmap.lookup_empty, Option.map_none]

section Refines

variable {ex : Exchange P} {pl : PlainExchange P}

/-! ## What the two know of an identifier -/

/-- The identifiers of the list are those that rest somewhere. -/
theorem Refines.mem_ids (h : ex.Refines pl) {i : UInt64} :
    i ∈ pl.orders.ids ↔ ∃ s, (ex.book s).Rests i := by
  rw [PlainOrders.mem_ids]
  constructor
  · rintro ⟨⟨s, o⟩, he, hi⟩
    exact ⟨s, (h.groups s).rests_iff.mpr ⟨o, he, hi⟩⟩
  · rintro ⟨s, hs⟩
    obtain ⟨o, ho, hi⟩ := (h.groups s).rests_iff.mp hs
    exact ⟨(s, o), ho, hi⟩

/-- A node of a book is the order of the list with its identifier. -/
theorem Refines.lookup_of_resting (h : ex.Refines pl) {s : Str} {side : Side} {e : P × Node P}
    (he : e ∈ (ex.book s).resting side) :
    pl.orders.lookup e.2.order.orderId = some (s, e.2.order) :=
  h.distinct.lookup_eq_some.mpr ⟨((h.groups s).mem_of_resting he).1, rfl⟩

/-- An identifier that its book does not know is not in the list. -/
theorem Refines.lookup_eq_none (h : ex.Refines pl) (hl : ex.Linked) (hr : ex.Routed)
    {s : Str} {i : UInt64} (hroute : ex.orderSymbolMap.lookup i = some s)
    (hnone : (ex.book s).orderMap.lookup i = none) : i ∉ pl.orders.ids := by
  rw [h.mem_ids]
  rintro ⟨s', hs'⟩
  obtain rfl : s = s' := Option.some_inj.mp (hroute.symm.trans (hr.routed s' i hs'))
  obtain ⟨loc, hloc⟩ := (OrderBook.rests_iff (hl s) (hr.indexed s) i).mp hs'
  rw [hnone] at hloc
  exact absurd hloc (by simp)

/-- An identifier rests in no book but the one it is routed to. -/
theorem Routed.not_rests_of_ne (hr : ex.Routed) {s s' : Str} {i : UInt64}
    (hroute : ex.orderSymbolMap.lookup i = some s) (hs : s' ≠ s) : ¬ (ex.book s').Rests i :=
  fun hi => hs (Option.some_inj.mp ((hr.routed s' i hi).symm.trans hroute))

/-- Storing the book of a symbol whose counters stay. -/
theorem Refines.stats_insert (h : ex.Refines pl) {s : Str} {b : OrderBook P}
    {m : Finmap fun _ : UInt64 => Str} (hs : s ∈ ex.books) (hb : b.stats = (ex.book s).stats)
    (s' : Str) : pl.stats.lookup s' =
      ((⟨ex.books.insert s b, m⟩ : Exchange P).books.lookup s').map OrderBook.stats := by
  rw [h.stats]
  by_cases hc : s' = s
  · obtain ⟨b₀, hb₀⟩ := Finmap.mem_iff.mp hs
    rw [hc, Finmap.lookup_insert, hb₀, Option.map_some, Option.map_some, hb, book_of_lookup hb₀]
  · rw [Finmap.lookup_insert_of_ne _ hc]

/-- A symbol without counters has no book. -/
theorem Refines.stats_getD (h : ex.Refines pl) (s : Str) :
    (pl.stats.lookup s).getD {} = (ex.book s).stats := by
  rw [h.stats, book]
  cases ex.books.lookup s with
  | none => rfl
  | some b => rfl

/-- The list is crossed where the book is. -/
theorem Refines.matchStep_none (h : ex.Refines pl) (hl : ex.Linked) {s : Str}
    (hu : (ex.book s).Uncrossed) : pl.orders.matchStep s = none :=
  (h.groups s).matchStep_none (hl s) ((OrderBook.matchStep_eq_none_iff (hl s).nonempty).mpr hu)

theorem Refines.housed (h : ex.Refines pl) : pl.Housed := by
  intro e he
  obtain ⟨n, hn, -⟩ := (h.groups e.1).mem_iff.mp he
  cases hb : ex.books.lookup e.1 with
  | none =>
    rw [book, hb, Option.getD_none, OrderBook.resting_empty] at hn
    exact absurd hn List.not_mem_nil
  | some b => exact ⟨b.stats, by rw [h.stats, hb, Option.map_some]⟩

/-! ## One lemma for each call -/

theorem Refines.addOrder (h : ex.Refines pl) {symbol : Str} {o : Order P}
    (hnew : ∀ s, ¬ (ex.book s).Rests o.orderId) :
    (ex.addOrder symbol o).2 = (pl.addOrder symbol o).2 ∧
      (ex.addOrder symbol o).1.Refines (pl.addOrder symbol o).1 := by
  refine ⟨rfl, fun s => ?_, ?_, ?_, fun s => ?_⟩
  · rw [book_addOrder]
    split
    · rename_i hs
      subst hs
      exact (h.groups s).addOrder o
    · rename_i hs
      exact (h.groups s).append_of_ne hs o
  · refine PlainOrders.distinct_append_singleton h.distinct fun hmem => ?_
    obtain ⟨s, hs⟩ := h.mem_ids.mp hmem
    exact hnew s hs
  · rw [PlainExchange.addOrder, orderSymbolMap_addOrder, h.routes]
  · rw [PlainExchange.addOrder, Exchange.addOrder]
    by_cases hs : s = symbol
    · rw [hs, Finmap.lookup_insert, Finmap.lookup_insert, h.stats_getD, Option.map_some,
        OrderBook.addOrder, OrderBook.stats_insertOrder]
      rfl
    · rw [Finmap.lookup_insert_of_ne _ hs, Finmap.lookup_insert_of_ne _ hs, h.stats]

/-- Whatever has happened to the books of the other symbols: nothing rests there under
an identifier that is routed here. -/
theorem Refines.others (h : ex.Refines pl) (hr : ex.Routed) {symbol : Str} {i : UInt64}
    (hroute : ex.orderSymbolMap.lookup i = some symbol) {g : Order P → Option (Order P)}
    (hkeep : PlainOrders.Keeps g) (hself : ∀ o, o.orderId ≠ i → g o = some o) {s : Str}
    (hs : s ≠ symbol) : (ex.book s).Groups s (pl.orders.amend g) :=
  (h.groups s).amend_of_not_rests hkeep hself (hr.not_rests_of_ne hroute hs)

theorem Refines.cancelOrder (h : ex.Refines pl) (hl : ex.Linked) (hr : ex.Routed)
    (hh : ex.Housed) (i : UInt64) :
    (ex.cancelOrder i).2 = (pl.cancelOrder i).2 ∧
      (ex.cancelOrder i).1.Refines (pl.cancelOrder i).1 := by
  rw [Exchange.cancelOrder, PlainExchange.cancelOrder, h.routes]
  cases hroute : ex.orderSymbolMap.lookup i with
  | none => exact ⟨rfl, h⟩
  | some symbol =>
    have hself : ∀ o : Order P, o.orderId ≠ i → PlainOrders.without i o = some o :=
      fun o ho => if_neg ho
    have hstats := h.stats_insert (m := ex.orderSymbolMap.erase i) (hh i symbol hroute)
      (OrderBook.stats_cancelOrder (hl symbol) i)
    have hdistinct : (pl.orders.remove i).Distinct :=
      h.distinct.amend fun o o' ho => (PlainOrders.keeps_without i o o' ho).1
    have hgroups : ((ex.book symbol).cancelOrder i).1.Groups symbol (pl.orders.remove i) →
        ∀ s, Exchange.book ⟨ex.books.insert symbol ((ex.book symbol).cancelOrder i).1,
          ex.orderSymbolMap.erase i⟩ s |>.Groups s (pl.orders.remove i) := by
      intro hown s
      rw [book_insert]
      split
      · rename_i hs
        rwa [hs]
      · rename_i hs
        exact h.others hr hroute (PlainOrders.keeps_without i) hself hs
    rcases OrderBook.cancelOrder_cases (hl symbol) i with
      ⟨hnone, hbook⟩ | ⟨loc, n, hloc, hn, -, hid, hbook⟩
    · have hids := h.lookup_eq_none hl hr hroute hnone
      refine ⟨?_, hgroups ?_, hdistinct, rfl, hstats⟩
      · simp only [hbook, PlainOrders.lookup_eq_none.mpr hids]
      · rw [hbook]
        refine (h.groups symbol).amend_of_not_rests (PlainOrders.keeps_without i) hself ?_
        exact fun hi => hids (h.mem_ids.mpr ⟨symbol, hi⟩)
    · have hlookup := h.lookup_of_resting hn
      rw [hid] at hlookup
      refine ⟨?_, hgroups ?_, hdistinct, rfl, hstats⟩
      · simp only [hbook, hlookup]
      · rw [hbook]
        exact (h.groups symbol).unlink (hl symbol) (hr.indexed symbol) hloc

theorem Refines.modifyOrder (h : ex.Refines pl) (hl : ex.Linked) (hr : ex.Routed)
    (hh : ex.Housed) (i : UInt64) (symbol : Str) (q : Int32) (p : P) (ts : ℤ) :
    (ex.modifyOrder i symbol q p ts).2 = (pl.modifyOrder i symbol q p ts).2 ∧
      (ex.modifyOrder i symbol q p ts).1.Refines (pl.modifyOrder i symbol q p ts).1 := by
  rw [Exchange.modifyOrder, PlainExchange.modifyOrder, h.routes]
  cases hroute : ex.orderSymbolMap.lookup i with
  | none => exact ⟨rfl, h⟩
  | some actual =>
    by_cases hsymbol : actual = symbol
    case neg =>
      simp only [ne_eq, hsymbol, not_false_eq_true, if_true]
      exact ⟨trivial, h⟩
    subst hsymbol
    simp only [ne_eq, not_true_eq_false, if_false]
    have hbooks := hh i actual hroute
    rcases OrderBook.modifyOrder_cases (hl actual) i q p ts with
      ⟨hnone, hbook⟩ | ⟨loc, n, hloc, hn, -, hid, -, -, hcase⟩
    · have hids := h.lookup_eq_none hl hr hroute hnone
      rw [hbook, PlainOrders.lookup_eq_none.mpr hids]
      rw [insert_of_lookup (hh.lookup_book hroute)]
      exact ⟨rfl, h⟩
    · have hlookup := h.lookup_of_resting hn
      rw [hid] at hlookup
      rw [hlookup]
      rcases hcase with ⟨hp, hq, hbook⟩ | ⟨hno, hbook⟩
      · simp only [hbook, if_pos (And.intro hp hq)]
        refine ⟨trivial, fun s => ?_, ?_, rfl, ?_⟩
        · rw [book_insert]
          split
          · rename_i hs
            rw [hs]
            exact (h.groups actual).setQuantity (hl actual) (hr.indexed actual) hloc q
          · rename_i hs
            exact h.others hr hroute (PlainOrders.keeps_withQuantity i q)
              (fun o ho => by rw [PlainOrders.withQuantity, if_neg ho]) hs
        · exact h.distinct.amend fun o o' ho => (PlainOrders.keeps_withQuantity i q o o' ho).1
        · exact h.stats_insert hbooks (OrderBook.stats_setQuantity _ _ _)
      · simp only [hbook, if_neg hno]
        refine ⟨trivial, fun s => ?_, ?_, rfl, ?_⟩
        · rw [book_insert]
          split
          · rename_i hs
            rw [hs]
            exact ((h.groups actual).unlink (hl actual) (hr.indexed actual) hloc).insertOrder _
          · rename_i hs
            exact (h.others hr hroute (PlainOrders.keeps_without i)
              (fun o ho => if_neg ho) hs).append_of_ne hs _
        · refine PlainOrders.distinct_append_singleton
            (h.distinct.amend fun o o' ho => (PlainOrders.keeps_without i o o' ho).1) ?_
          exact PlainOrders.not_mem_ids_remove pl.orders i
        · exact h.stats_insert hbooks (by rw [OrderBook.stats_insertOrder, OrderBook.stats_unlink])

theorem Refines.matchOrders (h : ex.Refines pl) (hl : ex.Linked) (hr : ex.Routed) (symbol : Str) :
    (ex.matchOrders symbol).2 = (pl.matchOrders symbol).2 ∧
      (ex.matchOrders symbol).1.Refines (pl.matchOrders symbol).1 := by
  obtain ⟨hout, hgroups, hdistinct, hothers⟩ :=
    (h.groups symbol).matchOrders (hl symbol) (hr.indexed symbol)
  rw [PlainExchange.matchOrders, h.stats]
  cases hbook : ex.books.lookup symbol with
  | none =>
    rw [Exchange.matchOrders, hbook]
    exact ⟨rfl, h⟩
  | some b =>
    have hb : ex.book symbol = b := book_of_lookup hbook
    have hmatch : ex.matchOrders symbol =
        (⟨ex.books.insert symbol (ex.book symbol).matchOrders.1, ex.orderSymbolMap⟩,
          (ex.book symbol).matchOrders.2) := by
      rw [Exchange.matchOrders, hbook, hb]
    rw [hmatch, Option.map_some]
    refine ⟨hout, fun s => ?_, hdistinct h.distinct, h.routes, fun s => ?_⟩
    · rw [book_insert]
      split
      · rename_i hs
        rwa [hs]
      · rename_i hs
        exact hothers _ s (h.groups s) fun i hi hi' => hs (hr.symbol_unique hi' hi)
    · by_cases hs : s = symbol
      · obtain ⟨hord, htrd, hvol, -⟩ := OrderBook.stats_matchOrders (ex.book symbol)
        rw [hout, OrderBook.trades_map_trade] at htrd hvol
        subst hs
        simp only [Finmap.lookup_insert, Option.map_some, ← hb, SymbolStats.traded, ← hord,
          ← htrd, ← hvol]
      · simp only [Finmap.lookup_insert_of_ne _ hs, h.stats]

/-! ## The displays -/

theorem Refines.printBook (h : ex.Refines pl) (hl : ex.Linked) (symbol : Str) :
    ex.printBook symbol = pl.printBook symbol := by
  rw [Exchange.printBook, PlainExchange.printBook, h.stats]
  cases hbook : ex.books.lookup symbol with
  | none => rfl
  | some b =>
    have hgroups := h.groups symbol
    have hlinked := hl symbol
    rw [book_of_lookup hbook] at hgroups hlinked
    have hbids := hgroups.depth hlinked .buy
    have hasks := hgroups.depth hlinked .sell
    simp only [Option.map_some, OrderBook.printBook, ← hbids, ← hasks, OrderBook.levels_buy,
      OrderBook.levels_sell]

theorem Refines.printStats (h : ex.Refines pl) : ex.printStats = pl.printStats := by
  have hkeys : pl.stats.keys = ex.books.keys := by
    ext s
    rw [Finmap.mem_keys, Finmap.mem_keys, ← Finmap.lookup_isSome, ← Finmap.lookup_isSome, h.stats,
      Option.isSome_map]
  rw [Exchange.printStats, PlainExchange.printStats, hkeys]
  simp only [h.stats_getD]

end Refines

/-! ## Histories -/

omit [LinearOrder P] in
/-- What a call adds has not been added before. -/
theorem FreshIds.not_mem {h : List (Op P)} {op : Op P} (hfresh : FreshIds (h ++ [op]))
    {i : UInt64} (hi : op.addedId = some i) : i ∉ addedIds h := by
  intro hmem
  rw [FreshIds, addedIds_append] at hfresh
  have hop : i ∈ addedIds [op] := List.mem_filterMap.mpr ⟨op, List.mem_singleton_self op, hi⟩
  exact (List.nodup_append.mp hfresh).2.2 i hmem i hop rfl

/-- Related exchanges stay related, and print the same. -/
theorem Refines.apply {h : List (Op P)} {ex : Exchange P} {pl : PlainExchange P}
    (hr : ex.Refines pl) (hw : Wf h ex) (hh : ex.Housed) {op : Op P}
    (hfresh : FreshIds (h ++ [op])) :
    (ex.apply op).2 = (pl.apply op).2 ∧ (ex.apply op).1.Refines (pl.apply op).1 := by
  cases op with
  | addOrder symbol o => exact hr.addOrder fun s hi => hfresh.not_mem rfl (hw.known s _ hi)
  | cancelOrder i => exact hr.cancelOrder hw.linked hw.routed hh i
  | modifyOrder i symbol q p ts => exact hr.modifyOrder hw.linked hw.routed hh i symbol q p ts
  | matchOrders symbol => exact hr.matchOrders hw.linked hw.routed symbol

/-- **The exchange is its plain form.**  Along every history of calls that adds no
identifier twice the two print the same lines, and afterwards they display the same
books and the same counters. -/
theorem refines_plain (h : List (Op P)) (hfresh : FreshIds h) :
    api.log h = PlainExchange.api.log h ∧
      (api.run h : Exchange P).Refines (PlainExchange.api.run h) := by
  refine api.simulation PlainExchange.api hereditary_freshIds
    (R := fun _ ex pl => ex.Refines pl) refines_empty (fun h op pl hf hr => ?_) h hfresh
  exact hr.apply (wf_run h (hereditary_freshIds h op hf)) (housed_run h) hf

/-- Two asks against one bid, matched by one call. -/
theorem refines_plain_crossed :
    let h : List (Op ℤ) := [.addOrder ['A'] ⟨1, .buy, 10, 5, 1⟩,
      .addOrder ['A'] ⟨2, .sell, 9, 2, 2⟩, .addOrder ['A'] ⟨3, .sell, 8, 2, 3⟩,
      .modifyOrder 2 ['B'] 7 9 4, .matchOrders ['A'], .cancelOrder 2]
    api.log h = PlainExchange.api.log h ∧
      (PlainExchange.api.log h).drop 3 = [.modifyWrongSymbol 2 ['A'] ['B'],
        .trade ⟨10, 2, 1, 3⟩, .trade ⟨10, 2, 1, 2⟩, .cancelNotFound 2] :=
  ⟨(refines_plain _ (by decide)).1, by decide⟩

end Exchange
end MatchingEngine
