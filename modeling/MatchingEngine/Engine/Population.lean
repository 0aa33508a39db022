import MatchingEngine.Engine.Plain
import MatchingEngine.Engine.Independence

/-!
# How many orders there are

Every `NEW` puts one order into the list, every accepted cancel takes one out, and every
trade takes out one or two.  So over a whole run the trades are paid for by the orders that
were entered, however deep the single sweeps go.  The routing map is a second account: a
`NEW` adds a route, and only a cancel removes one, be it accepted or too late.

* `PlainOrders.length_matchOrders`: what the loop takes out of the list.
* `Account.update`, `Account.matchOrders`: one command.
* `population`: the two accounts along every run.
-/

namespace MatchingEngine

variable {P : Type}

/-- A cancel that has been accepted. -/
def Event.isCancel : Event P → Bool
  | .cancel _ _ _ _ => true
  | _ => false

/-- A cancel that has been routed to a book in which the order is no more. -/
def Event.isLateCancel : Event P → Bool
  | .cancelNotFound _ => true
  | _ => false

/-! ## The list -/

namespace PlainOrders

/-- A change of one identifier takes out at most one order. -/
theorem length_le_length_amend (orders : PlainOrders P) (hd : orders.Distinct) {i : UInt64}
    {g : Order P → Option (Order P)} (hself : ∀ o, o.orderId ≠ i → g o = some o) :
    orders.length ≤ (orders.amend g).length + 1 := by
  induction orders with
  | nil => exact Nat.zero_le _
  | cons e orders ih =>
    obtain ⟨hnot, hrest⟩ := List.nodup_cons.mp hd
    rw [amend_cons, List.length_append, List.length_cons]
    by_cases hi : e.2.orderId = i
    · -- the rest carries other identifiers
      have hsame : amend orders g = orders := by
        refine amend_eq_self fun e' he' => hself e'.2 fun h => hnot ?_
        exact List.mem_map.mpr ⟨e', he', h.trans hi.symm⟩
      rw [hsame]
      omega
    · have hle := ih hrest
      rw [hself e.2 hi, Option.map_some, Option.toList_some, List.length_singleton]
      omega

theorem length_le_length_fill {orders : PlainOrders P} (hd : orders.Distinct) (i : UInt64)
    (q : Int32) : orders.length ≤ (orders.fill i q).length + 1 :=
  length_le_length_amend orders hd fun _ ho => if_neg ho

/-- A cancel takes out the order it names. -/
theorem length_remove {orders : PlainOrders P} (hd : orders.Distinct) {i : UInt64}
    (hi : i ∈ orders.ids) : (orders.remove i).length + 1 = orders.length := by
  have hle := length_le_length_amend (g := without i) orders hd fun _ ho => if_neg ho
  obtain ⟨e, he, hid⟩ := mem_ids.mp hi
  have hlt : (orders.remove i).length < orders.length := by
    refine List.length_filterMap_lt_length_iff_exists.mpr ⟨e, he, ?_⟩
    rw [without, if_pos hid, Option.map_none]
  rw [← remove] at hle
  omega

/-- A cancel that names no order takes out none. -/
theorem remove_of_not_mem {orders : PlainOrders P} {i : UInt64} (hi : i ∉ orders.ids) :
    orders.remove i = orders :=
  amend_eq_self fun e he => if_neg fun h => hi (mem_ids.mpr ⟨e, he, h⟩)

theorem length_setQuantity (orders : PlainOrders P) (i : UInt64) (q : Int32) :
    (orders.setQuantity i q).length = orders.length := by
  have hmap : orders.setQuantity i q = orders.map fun e =>
      (e.1, if e.2.orderId = i then { e.2 with quantity := q } else e.2) :=
    congrFun List.filterMap_eq_map _
  rw [hmap, List.length_map]

variable [LinearOrder P]

/-- **What the loop takes out:** one order or two for every trade. -/
theorem length_matchOrders {orders : PlainOrders P} (hd : orders.Distinct) (s : Str) :
    (orders.matchOrders s).1.length + (orders.matchOrders s).2.length ≤ orders.length ∧
      orders.length ≤ (orders.matchOrders s).1.length + 2 * (orders.matchOrders s).2.length := by
  refine Loop.loop_induction List.length
    (fun _ _ _ (h : matchStep s _ = some _) => length_matchStep h)
    (C := fun (l : PlainOrders P) ts (f : PlainOrders P) => l.Distinct →
      f.length + ts.length ≤ l.length ∧ l.length ≤ f.length + 2 * ts.length)
    ?_ ?_ orders.length orders le_rfl hd
  · intro l _ _
    exact ⟨le_rfl, le_rfl⟩
  · intro (l : PlainOrders P) t l' ts f h ih hl
    have hlt := length_matchStep h
    obtain ⟨bid, ask, -, -, -, -, rfl⟩ := matchStep_eq_some h
    have hl' : (l.fill bid.orderId t.quantity).Distinct :=
      hl.amend fun o o' ho => (keeps_filled _ _ o o' ho).1
    obtain ⟨hlow, hhigh⟩ := ih (hl'.amend fun o o' ho => (keeps_filled _ _ o o' ho).1)
    have hbid := length_le_length_fill hl bid.orderId t.quantity
    have hask := length_le_length_fill hl' ask.orderId t.quantity
    rw [List.length_cons]
    omega

end PlainOrders

/-! ## One command -/

namespace PlainExchange

/-- The two accounts, after `n` orders entered, `c` accepted and `x` late cancels and `t`
trades. -/
structure Account (pl : PlainExchange P) (n c x t : ℕ) : Prop where
  routed : pl.routes.keys.card + c + x = n
  atMost : pl.orders.length + c + t ≤ n
  atLeast : n ≤ pl.orders.length + c + 2 * t

theorem account_empty : (empty : PlainExchange P).Account 0 0 0 0 where
  routed := rfl
  atMost := le_rfl
  atLeast := le_rfl

variable {pl : PlainExchange P} {n c x t : ℕ}

theorem Account.addOrder (h : pl.Account n c x t) {o : Order P}
    (ho : pl.routes.lookup o.orderId = none) (symbol : Str) :
    (pl.addOrder symbol o).1.Account (n + 1) c x t where
  routed := by
    have hkeys : (pl.routes.insert o.orderId symbol).keys = insert o.orderId pl.routes.keys := by
      ext i
      rw [Finmap.mem_keys, Finmap.mem_insert, Finset.mem_insert, Finmap.mem_keys]
    have hnot : o.orderId ∉ pl.routes.keys := by
      rw [Finmap.mem_keys, Finmap.mem_iff]
      rintro ⟨s, hs⟩
      rw [ho] at hs
      exact absurd hs (by simp)
    rw [PlainExchange.addOrder, hkeys, Finset.card_insert_of_notMem hnot]
    have := h.routed
    omega
  atMost := by
    rw [PlainExchange.addOrder, List.length_append, List.length_singleton]
    have := h.atMost
    omega
  atLeast := by
    rw [PlainExchange.addOrder, List.length_append, List.length_singleton]
    have := h.atLeast
    omega

theorem Account.cancelOrder (h : pl.Account n c x t) (hd : pl.orders.Distinct) (i : UInt64) :
    (pl.cancelOrder i).1.Account n (c + (pl.cancelOrder i).2.countP Event.isCancel)
      (x + (pl.cancelOrder i).2.countP Event.isLateCancel) t := by
  rw [PlainExchange.cancelOrder]
  cases hroute : pl.routes.lookup i with
  | none => exact h
  | some symbol =>
    have hmem : i ∈ pl.routes.keys := Finmap.mem_keys.mpr (Finmap.mem_iff.mpr ⟨symbol, hroute⟩)
    have hcard : (pl.routes.erase i).keys.card + 1 = pl.routes.keys.card := by
      rw [Finmap.keys_erase, Finset.card_erase_add_one hmem]
    obtain ⟨hrouted, hmost, hleast⟩ := h
    cases hlookup : pl.orders.lookup i with
    | none =>
      have hsame := PlainOrders.remove_of_not_mem (PlainOrders.lookup_eq_none.mp hlookup)
      rw [← hcard] at hrouted
      refine ⟨?_, ?_, ?_⟩
      · have hlate : (pl.routes.erase i).keys.card + c + (x + 1) = n := by omega
        exact hlate
      · rw [hsame]
        exact hmost
      · rw [hsame]
        exact hleast
    | some e =>
      have hlen : (pl.orders.remove i).length + 1 = pl.orders.length := by
        obtain ⟨he, hid⟩ := hd.lookup_eq_some.mp hlookup
        exact PlainOrders.length_remove hd (PlainOrders.mem_ids.mpr ⟨e, he, hid⟩)
      rw [← hcard] at hrouted
      rw [← hlen] at hmost hleast
      refine ⟨?_, ?_, ?_⟩
      · have haccepted : (pl.routes.erase i).keys.card + (c + 1) + x = n := by omega
        exact haccepted
      · have haccepted : (pl.orders.remove i).length + (c + 1) + t ≤ n := by omega
        exact haccepted
      · have haccepted : n ≤ (pl.orders.remove i).length + (c + 1) + 2 * t := by omega
        exact haccepted

variable [LinearOrder P]

theorem Account.modifyOrder (h : pl.Account n c x t) (hd : pl.orders.Distinct) (i : UInt64)
    (symbol : Str) (q : Int32) (p : P) (ts : ℤ) :
    (pl.modifyOrder i symbol q p ts).1.Account n
      (c + (pl.modifyOrder i symbol q p ts).2.countP Event.isCancel)
      (x + (pl.modifyOrder i symbol q p ts).2.countP Event.isLateCancel) t := by
  rw [PlainExchange.modifyOrder]
  cases hroute : pl.routes.lookup i with
  | none => exact h
  | some actual =>
    by_cases hsymbol : actual ≠ symbol
    · simp only [if_pos hsymbol]
      exact h
    simp only [if_neg hsymbol]
    cases hlookup : pl.orders.lookup i with
    | none => exact h
    | some e =>
      obtain ⟨hrouted, hmost, hleast⟩ := h
      by_cases hin : p = e.2.price ∧ q < e.2.quantity
      · simp only [if_pos hin]
        refine ⟨hrouted, ?_, ?_⟩
        · rw [PlainOrders.length_setQuantity]
          exact hmost
        · rw [PlainOrders.length_setQuantity]
          exact hleast
      · simp only [if_neg hin]
        have hlen : (pl.orders.remove i).length + 1 = pl.orders.length := by
          obtain ⟨he, hid⟩ := hd.lookup_eq_some.mp hlookup
          exact PlainOrders.length_remove hd (PlainOrders.mem_ids.mpr ⟨e, he, hid⟩)
        refine ⟨hrouted, ?_, ?_⟩
        · rw [List.length_append, List.length_singleton, hlen]
          exact hmost
        · rw [List.length_append, List.length_singleton, hlen]
          exact hleast

/-- The first half of a command. -/
theorem Account.update (h : pl.Account n c x t) (hd : pl.orders.Distinct) {cmd : Command P}
    (hnew : cmd.type = .new → pl.routes.lookup cmd.orderId = none) :
    (plainUpdate pl cmd).1.Account (n + (newIds [cmd]).length)
      (c + (plainUpdate pl cmd).2.countP Event.isCancel)
      (x + (plainUpdate pl cmd).2.countP Event.isLateCancel) t := by
  have hids : (newIds [cmd]).length = if cmd.type = .new then 1 else 0 := by
    rw [newIds, List.filterMap_cons, List.filterMap_nil, Command.newId]
    cases cmd.type <;> rfl
  rw [plainUpdate, hids]
  cases htype : cmd.type with
  | stats => exact h
  | new => exact h.addOrder (hnew htype) _
  | cancel => exact h.cancelOrder hd _
  | modify => exact h.modifyOrder hd _ _ _ _ _
  | book =>
    simp only [PlainExchange.printBook]
    cases pl.stats.lookup cmd.symbolStr <;> exact h

/-- The second half. -/
theorem Account.matchOrders (h : pl.Account n c x t) (hd : pl.orders.Distinct)
    (hh : pl.Housed) (symbol : Str) :
    (pl.matchOrders symbol).1.Account n
      (c + (pl.matchOrders symbol).2.countP Event.isCancel)
      (x + (pl.matchOrders symbol).2.countP Event.isLateCancel)
      (t + (trades (pl.matchOrders symbol).2).length) := by
  obtain ⟨hout, horders, hroutes, -⟩ := hh.matchOrders symbol
  obtain ⟨hmost, hleast⟩ := PlainOrders.length_matchOrders hd symbol
  have hnone : ∀ ts : List (Trade P), (ts.map Event.trade).countP Event.isCancel = 0 ∧
      (ts.map Event.trade).countP Event.isLateCancel = 0 := by
    intro ts
    rw [List.countP_map, List.countP_map]
    exact ⟨congrFun List.countP_false ts, congrFun List.countP_false ts⟩
  obtain ⟨hc, hx⟩ := hnone (pl.orders.matchOrders symbol).2
  rw [hout, hc, hx, OrderBook.trades_map_trade]
  obtain ⟨hrouted, hmost', hleast'⟩ := h
  refine ⟨?_, ?_, ?_⟩
  · rw [hroutes]
    exact hrouted
  · rw [horders]
    omega
  · rw [horders]
    omega

end PlainExchange

/-! ## Runs -/

variable [LinearOrder P]

/-- An update makes no trade. -/
theorem trades_plainUpdate {cmds : List (Command P)} {cmd : Command P} {pl : PlainExchange P}
    (hr : (engine.run cmds).Refines pl) (hfresh : FreshNew (cmds ++ [cmd])) :
    trades (plainUpdate pl cmd).2 = [] := by
  rw [← (refines_update hr hfresh).1, trades_update (linked_engine cmds)]

/-- The accounts of the list along a run. -/
theorem account_run (cmds : List (Command P)) (hfresh : FreshNew cmds) :
    (plainEngine.run cmds).Account (newIds cmds).length
      ((plainEngine.log cmds).countP Event.isCancel)
      ((plainEngine.log cmds).countP Event.isLateCancel)
      (trades (plainEngine.log cmds)).length := by
  induction cmds using List.reverseRecOn with
  | nil => exact PlainExchange.account_empty
  | append_singleton cmds cmd ih =>
    have hinit := hereditary_freshNew cmds cmd hfresh
    have hrefines := (refines_engine hinit).2
    have hupdate := (refines_update hrefines hfresh).2
    have hroute : cmd.type = .new → (plainEngine.run cmds).routes.lookup cmd.orderId = none := by
      intro hnew
      rw [hrefines.routes]
      cases hlookup : (engine.run cmds).orderSymbolMap.lookup cmd.orderId with
      | none => rfl
      | some s =>
        obtain ⟨c, hc, hcnew, -, hid⟩ := entered_of_route cmds hlookup
        exact absurd (List.mem_filterMap.mpr ⟨c, hc, by rw [Command.newId, hcnew, hid]⟩)
          (not_mem_newIds hfresh hnew)
    have h := ((ih hinit).update hrefines.distinct hroute).matchOrders hupdate.distinct
      hupdate.housed cmd.symbolStr
    rw [plainEngine_run_concat, plainEngine_log_concat, plainDispatch_eq hrefines hfresh,
      newIds_append, List.length_append, trades_append, trades_append,
      trades_plainUpdate hrefines hfresh, List.nil_append, List.length_append]
    simp only [List.countP_append, ← Nat.add_assoc]
    exact h

/-- The orders in all books. -/
def Exchange.restingCount (ex : Exchange P) : ℕ := ∑ s ∈ ex.books.keys, (ex.book s).restingCount

/-- The list is as long as the books are full. -/
theorem Exchange.Refines.length_orders {ex : Exchange P} {pl : PlainExchange P}
    (h : ex.Refines pl) (hl : ex.Linked) (hr : ex.Routed) :
    pl.orders.length = ex.restingCount := by
  have hids : pl.orders.ids.toFinset =
      ex.books.keys.biUnion fun s => (ex.book s).ids.toFinset := by
    ext i
    rw [List.mem_toFinset, h.mem_ids, Finset.mem_biUnion]
    constructor
    · rintro ⟨s, hs⟩
      obtain ⟨o, ho, -⟩ := (h.groups s).rests_iff.mp hs
      obtain ⟨st, hst⟩ := h.housed (s, o) ho
      rw [h.stats] at hst
      obtain ⟨b, hb, -⟩ := Option.map_eq_some_iff.mp hst
      exact ⟨s, Finmap.mem_keys.mpr (Finmap.mem_iff.mpr ⟨b, hb⟩),
        List.mem_toFinset.mpr (OrderBook.mem_ids.mpr hs)⟩
    · rintro ⟨s, -, hi⟩
      exact ⟨s, OrderBook.mem_ids.mp (List.mem_toFinset.mp hi)⟩
  have hdisjoint : (ex.books.keys : Set Str).PairwiseDisjoint fun s =>
      (ex.book s).ids.toFinset := by
    intro s _ s' _ hne
    refine Finset.disjoint_left.mpr fun i hi hi' => hne ?_
    exact hr.symbol_unique (OrderBook.mem_ids.mp (List.mem_toFinset.mp hi))
      (OrderBook.mem_ids.mp (List.mem_toFinset.mp hi'))
  have hlen : pl.orders.length = pl.orders.ids.toFinset.card := by
    rw [List.toFinset_card_of_nodup h.distinct, PlainOrders.ids, List.length_map]
  rw [hlen, hids, Finset.card_biUnion hdisjoint, Exchange.restingCount]
  refine Finset.sum_congr rfl fun s _ => ?_
  rw [List.toFinset_card_of_nodup ((hr.indexed s).nodup_ids (hl s)), OrderBook.length_ids]

/-- **The two accounts.**  In every run without reused identifiers, what has been entered
and neither rests nor was cancelled has been filled, and every trade fills one order or two:
there are never more trades than orders entered.  And what has been entered is what is still
routed and what was cancelled, in time or too late: an order that was filled keeps its route
until somebody tries to cancel it. -/
theorem population (cmds : List (Command P)) (hfresh : FreshNew cmds) :
    (engine.run cmds).restingCount + (engine.log cmds).countP Event.isCancel +
        (trades (engine.log cmds)).length ≤ (newIds cmds).length ∧
      (newIds cmds).length ≤ (engine.run cmds).restingCount +
        (engine.log cmds).countP Event.isCancel + 2 * (trades (engine.log cmds)).length ∧
      (newIds cmds).length = (engine.run cmds).orderSymbolMap.keys.card +
        (engine.log cmds).countP Event.isCancel +
        (engine.log cmds).countP Event.isLateCancel := by
  obtain ⟨hlog, hrefines⟩ := refines_engine hfresh
  have hw := wf_engine hfresh
  obtain ⟨hrouted, hmost, hleast⟩ := account_run cmds hfresh
  rw [hrefines.length_orders hw.linked hw.routed, ← hlog] at hmost hleast
  rw [hrefines.routes, ← hlog] at hrouted
  exact ⟨hmost, hleast, hrouted.symm⟩

/-- A sweep that fills three orders in two trades, a cancel in time and a late one. -/
theorem population_sweep :
    let cmds : List (Command ℤ) :=
      [.newOrder 1 .sell ['A'] 5 10 1 0 0, .newOrder 2 .sell ['A'] 3 10 2 0 0,
        .newOrder 3 .sell ['B'] 4 11 3 0 0, .newOrder 4 .buy ['A'] 8 10 4 0 0,
        .newOrder 5 .buy ['B'] 4 9 5 0 0, .cancelOrder 3 6 0 0, .cancelOrder 2 7 0 0]
    (newIds cmds).length = (engine.run cmds).orderSymbolMap.keys.card + 1 + 1 ∧
      (engine.run cmds).restingCount = 1 ∧ (trades (engine.log cmds)).length = 2 := by
  intro cmds
  have h := (population cmds (by decide)).2.2
  have hcancel : (engine.log cmds).countP Event.isCancel = 1 := by decide
  have hlate : (engine.log cmds).countP Event.isLateCancel = 1 := by decide
  rw [hcancel, hlate] at h
  exact ⟨h, by decide, by decide⟩

end MatchingEngine
