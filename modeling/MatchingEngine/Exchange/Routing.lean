import MatchingEngine.Exchange.Invariant
import Mathlib.Algebra.Ring.Nat
import Mathlib.Algebra.BigOperators.Group.Finset.Basic

/-!
# Routes

`orderSymbolMap` routes a cancel or a modify to the book of its order.  Orders
leave a book in two ways, and only one of them is told to the exchange: a cancel
drops the route of its order, a fill leaves it where it is.

* `housed_run`: every route leads to a book that exists, so following a stale one
  creates none.
* `cancel_exact`: the exact effect of a cancel, and that a request for an order
  that is not there changes nothing.
* `routes_exact_iff`: the routes are exactly those of the resting orders, in every
  state of a run, if and only if `matchOrders` never meets a crossed book.
-/

namespace MatchingEngine

variable {P : Type} [LinearOrder P]

namespace Exchange

/-! ## Every route leads to a book -/

/-- Every route leads to a book that exists. -/
def Housed (ex : Exchange P) : Prop := ∀ i s, ex.orderSymbolMap.lookup i = some s → s ∈ ex.books

theorem housed_empty : (empty : Exchange P).Housed := by
  intro i s h
  rw [empty, Finmap.lookup_empty] at h
  exact absurd h (by simp)

/-- A call creates books at most, and routes only to books. -/
theorem Housed.apply {ex : Exchange P} (hh : ex.Housed) (op : Op P) : (ex.apply op).1.Housed := by
  intro i s h
  cases op with
  | addOrder symbol o =>
    rw [Exchange.apply, orderSymbolMap_addOrder] at h
    rw [Exchange.apply, mem_books_addOrder]
    by_cases hi : i = o.orderId
    · rw [hi, Finmap.lookup_insert] at h
      exact Or.inl (Option.some_inj.mp h).symm
    · rw [Finmap.lookup_insert_of_ne _ hi] at h
      exact Or.inr (hh i s h)
  | cancelOrder j =>
    rw [Exchange.apply, lookup_cancelOrder] at h
    rw [Exchange.apply, mem_books_cancelOrder]
    split at h
    · exact absurd h (by simp)
    · exact Or.inr (hh i s h)
  | modifyOrder j symbol q p ts =>
    rw [Exchange.apply, orderSymbolMap_modifyOrder] at h
    rw [Exchange.apply, mem_books_modifyOrder]
    exact Or.inr (hh i s h)
  | matchOrders symbol =>
    rw [Exchange.apply, orderSymbolMap_matchOrders] at h
    rw [Exchange.apply, mem_books_matchOrders]
    exact hh i s h

theorem housed_run (h : List (Op P)) : (api.run h : Exchange P).Housed :=
  api.run_invariant housed_empty (fun _ op hh => hh.apply op) h

theorem Housed.lookup_book {ex : Exchange P} (hh : ex.Housed) {i : UInt64} {s : Str}
    (h : ex.orderSymbolMap.lookup i = some s) : ex.books.lookup s = some (ex.book s) := by
  obtain ⟨b, hb⟩ := Finmap.mem_iff.mp (hh i s h)
  rw [hb, book_of_lookup hb]

/-! ## The exact effect of a cancel -/

/-- From `ex` to `ex'` exactly the node `n` leaves, which stood in the level `k` of
a side of the book of `symbol`, and its identifier `i` is forgotten. -/
structure Removes (ex ex' : Exchange P) (i : UInt64) (symbol : Str) (side : Side) (k : P)
    (n : Node P) : Prop where
  /-- The level keeps the rest of its queue in order, and goes when there is none;
  the other levels of the side stay. -/
  level : ∃ pre queue₁ queue₂ post,
    ((ex.book symbol).levels side).entries = pre ++ (k, queue₁ ++ n :: queue₂) :: post ∧
    ((ex'.book symbol).levels side).entries =
      pre ++ ((if (queue₁ ++ queue₂).isEmpty then [] else [(k, queue₁ ++ queue₂)]) ++ post)
  opposite : (ex'.book symbol).levels side.opposite = (ex.book symbol).levels side.opposite
  stats : (ex'.book symbol).stats = (ex.book symbol).stats
  orderMap : (ex'.book symbol).orderMap = (ex.book symbol).orderMap.erase i
  /-- Every other book is what it was, and no book is created. -/
  others : ∀ s, s ≠ symbol → ex'.books.lookup s = ex.books.lookup s
  books : ∀ s, s ∈ ex'.books ↔ s ∈ ex.books
  orderSymbolMap : ex'.orderSymbolMap = ex.orderSymbolMap.erase i

/-- A cancel removes the order it names. -/
theorem Routed.removes {ex : Exchange P} (hr : ex.Routed) (hl : ex.Linked) (hh : ex.Housed)
    {i : UInt64} {symbol : Str} {side : Side} {k : P} {n : Node P}
    (hn : (k, n) ∈ (ex.book symbol).resting side) (hid : n.order.orderId = i) :
    Removes ex (ex.cancelOrder i).1 i symbol side k n := by
  subst hid
  have hroute := hr.routed symbol _ ⟨side, (k, n), hn, rfl⟩
  have hentry : (ex.book symbol).orderMap.lookup n.order.orderId = some ⟨side, k, n.addr⟩ :=
    hr.indexed symbol side (k, n) hn
  have hbook := hh.lookup_book hroute
  have hcancel : (ex.cancelOrder n.order.orderId).1 =
      ⟨ex.books.insert symbol ((ex.book symbol).cancelOrder n.order.orderId).1,
        ex.orderSymbolMap.erase n.order.orderId⟩ := by
    rw [Exchange.cancelOrder, hroute]
  have hunlink : ((ex.book symbol).cancelOrder n.order.orderId).1 =
      (ex.book symbol).unlink n.order.orderId ⟨side, k, n.addr⟩ :=
    OrderBook.cancelOrder_of_lookup (hl symbol) hentry
  have hself : (ex.cancelOrder n.order.orderId).1.book symbol =
      (ex.book symbol).unlink n.order.orderId ⟨side, k, n.addr⟩ := by
    rw [hcancel, book_insert, if_pos rfl, hunlink]
  refine ⟨?_, ?_, ?_, ?_, fun s hs => ?_, fun s => ?_, by rw [hcancel]⟩
  · rw [hself, OrderBook.levels_unlink, OrderBook.levels_removeByLocation, if_pos rfl]
    exact (hl symbol).entries_eraseNode hn
  · have hne : side.opposite ≠ side := by cases side <;> simp [Side.opposite]
    rw [hself, OrderBook.levels_unlink, OrderBook.levels_removeByLocation, if_neg hne]
  · rw [hself, OrderBook.stats_unlink]
  · rw [hself, OrderBook.orderMap_unlink]
  · rw [hcancel, Finmap.lookup_insert_of_ne _ hs]
  · rw [hcancel, Finmap.mem_insert]
    refine ⟨?_, Or.inr⟩
    rintro (rfl | h)
    · exact Finmap.mem_iff.mpr ⟨_, hbook⟩
    · exact h

/-- A cancel of an order that does not rest leaves the books as they are. -/
theorem Routed.books_cancelOrder {ex : Exchange P} (hr : ex.Routed) (hl : ex.Linked)
    (hh : ex.Housed) {i : UInt64} (hno : ∀ s, ¬ (ex.book s).Rests i) :
    (ex.cancelOrder i).1.books = ex.books := by
  rw [Exchange.cancelOrder]
  cases hroute : ex.orderSymbolMap.lookup i with
  | none => rfl
  | some symbol =>
    -- a route that a fill has left behind leads to a book that does not know the order
    rcases OrderBook.cancelOrder_cases (hl symbol) i with ⟨-, h⟩ | ⟨loc, n, hloc, -⟩
    · simp only [h]
      exact insert_of_lookup (hh.lookup_book hroute)
    · exact absurd ((OrderBook.rests_iff (hl symbol) (hr.indexed symbol) i).mpr ⟨loc, hloc⟩)
        (hno symbol)

/-- A modify of an order that does not rest in the book of its symbol changes
nothing. -/
theorem Routed.modifyOrder_eq {ex : Exchange P} (hr : ex.Routed) (hl : ex.Linked)
    (hh : ex.Housed) {i : UInt64} {symbol : Str} (hno : ¬ (ex.book symbol).Rests i) (q : Int32)
    (p : P) (ts : ℤ) : (ex.modifyOrder i symbol q p ts).1 = ex := by
  rcases modifyOrder_cases ex i symbol q p ts with ⟨-, e, -, h, -⟩ | ⟨hroute, -⟩
  · rw [h]
  rw [Exchange.modifyOrder, hroute]
  simp only [ne_eq, not_true_eq_false, if_false]
  rcases OrderBook.modifyOrder_cases (hl symbol) i q p ts with ⟨-, h⟩ | ⟨loc, n, hloc, -⟩
  · rw [h, insert_of_lookup (hh.lookup_book hroute)]
  · exact absurd ((OrderBook.rests_iff (hl symbol) (hr.indexed symbol) i).mpr ⟨loc, hloc⟩) hno

/-- **The exact effect of cancel, and the atomicity of rejections**, in every state
reached without reusing an identifier: a cancel of a resting order removes exactly
that order; a cancel of any other identifier leaves the books as they are; and a
modify of an identifier that does not rest, or rests under another symbol, changes
nothing at all. -/
theorem cancel_exact (h : List (Op P)) (hfresh : FreshIds h) (i : UInt64) :
    (∀ symbol side k n, (k, n) ∈ ((api.run h : Exchange P).book symbol).resting side →
      n.order.orderId = i →
      Removes (api.run h) ((api.run h : Exchange P).cancelOrder i).1 i symbol side k n) ∧
    ((∀ s, ¬ ((api.run h : Exchange P).book s).Rests i) →
      ((api.run h : Exchange P).cancelOrder i).1.books = (api.run h : Exchange P).books) ∧
    ∀ symbol q p ts, (∀ s, ((api.run h : Exchange P).book s).Rests i → s ≠ symbol) →
      ((api.run h : Exchange P).modifyOrder i symbol q p ts).1 = api.run h := by
  have hw := wf_run h hfresh
  have hh := housed_run h
  refine ⟨fun symbol side k n hn hid => hw.routed.removes hw.linked hh hn hid,
    fun hno => hw.routed.books_cancelOrder hw.linked hh hno, fun symbol q p ts hno => ?_⟩
  exact hw.routed.modifyOrder_eq hw.linked hh (fun hrests => hno symbol hrests rfl) q p ts

/-- A cancel from the middle of a level, and a cancel of an order that was filled. -/
theorem cancel_exact_middle :
    let h : List (Op ℤ) :=
      [.addOrder ['A'] ⟨1, .buy, 10, 5, 1⟩, .addOrder ['A'] ⟨2, .buy, 10, 5, 2⟩,
        .addOrder ['A'] ⟨3, .buy, 10, 5, 3⟩, .addOrder ['A'] ⟨4, .sell, 10, 5, 4⟩,
        .matchOrders ['A']]
    Removes (api.run h) ((api.run h).cancelOrder 2).1 2 ['A'] .buy 10 ⟨1, ⟨2, .buy, 10, 5, 2⟩⟩ ∧
      ((api.run h).cancelOrder 1).1.books = (api.run h).books := by
  intro h
  have hw := wf_run h (by decide)
  refine ⟨(cancel_exact h (by decide) 2).1 _ _ _ _ (by decide) rfl,
    (cancel_exact h (by decide) 1).2.1 fun s hrests => ?_⟩
  have hroute : (api.run h).orderSymbolMap.lookup 1 = some ['A'] := by decide
  obtain rfl : ['A'] = s := Option.some_inj.mp (hroute.symm.trans (hw.routed.routed s 1 hrests))
  have hnone : ((api.run h).book ['A']).orderMap.lookup 1 = none := by decide
  obtain ⟨loc, hloc⟩ :=
    (OrderBook.rests_iff (hw.linked ['A']) (hw.routed.indexed ['A']) 1).mp hrests
  rw [hnone] at hloc
  exact absurd hloc (by simp)

end Exchange

/-! ## A crossed book fills an order -/

namespace OrderBook

/-- One iteration of `matchOrders` fills one of the heads, whose identifier rests no
more. -/
theorem filled_of_matchStep {b b' : OrderBook P} {t : Trade P} (hb : b.Linked) (hi : b.Indexed)
    (h : b.matchStep = some (t, b')) : ∃ i, b.Rests i ∧ ¬ b'.Rests i := by
  have hb' := hb.matchStep h
  have hi' := hi.matchStep hb h
  obtain ⟨bid, bids, ask, asks, hbuy, hsell, -, ht, -, -, hmap, -⟩ := matchStep_eq_some h
  have hbid : b.Rests bid.2.order.orderId :=
    ⟨.buy, bid, by rw [hbuy]; exact List.mem_cons_self, rfl⟩
  have hask : b.Rests ask.2.order.orderId :=
    ⟨.sell, ask, by rw [hsell]; exact List.mem_cons_self, rfl⟩
  have hq : bid.2.order.quantity - t.quantity = 0 ∨ ask.2.order.quantity - t.quantity = 0 := by
    rw [ht]
    exact sub_stdMin_eq_zero _ _
  have hgone : ∀ i, b'.orderMap.lookup i = none → ¬ b'.Rests i := by
    intro i hnone hrests
    obtain ⟨loc, hloc⟩ := (rests_iff hb' hi' i).mp hrests
    rw [hnone] at hloc
    exact absurd hloc (by simp)
  rcases hq with hq | hq
  · have hnone : (eraseFilled b.orderMap bid.2.order t.quantity).lookup bid.2.order.orderId =
        none := by rw [lookup_eraseFilled, if_pos ⟨hq, rfl⟩]
    exact ⟨_, hbid, hgone _ (by rw [hmap, lookup_eraseFilled, hnone, ite_self])⟩
  · refine ⟨_, hask, hgone _ ?_⟩
    rw [hmap, lookup_eraseFilled, if_pos ⟨hq, rfl⟩]

/-- **Matching a crossed book fills an order.** -/
theorem filled_of_crossed {b : OrderBook P} (hb : b.Linked) (hi : b.Indexed)
    (hc : ¬ b.Uncrossed) : ∃ i, b.Rests i ∧ ¬ b.matchOrders.1.Rests i := by
  cases hstep : b.matchStep with
  | none => exact absurd ((matchStep_eq_none_iff hb.nonempty).mp hstep) hc
  | some r =>
    obtain ⟨t, b₁⟩ := r
    obtain ⟨i, hbefore, hafter⟩ := filled_of_matchStep hb hi hstep
    -- the loop has left its first state, and what is filled stays away
    have hloop : b.matchOrders.1 = b ∨ ¬ b.matchOrders.1.Rests i := by
      refine matchOrders_invariant (I := fun b' => b' = b ∨ ¬ b'.Rests i) ?_ (Or.inl rfl)
      rintro b' t' b'' (rfl | hgone) h
      · rw [hstep] at h
        cases h
        exact Or.inr hafter
      · exact Or.inr fun hrests => hgone (hrests.of_matchStep h)
    rcases hloop with hsame | hgone
    · have hnone := b.matchStep_matchOrders
      rw [hsame, hstep] at hnone
      exact absurd hnone (by simp)
    · exact ⟨i, hbefore, hgone⟩

/-- The identifiers of the resting orders. -/
def ids (b : OrderBook P) : List UInt64 :=
  (b.resting .buy ++ b.resting .sell).map fun e => e.2.order.orderId

theorem mem_ids {b : OrderBook P} {i : UInt64} : i ∈ b.ids ↔ b.Rests i := by
  rw [ids, List.mem_map]
  constructor
  · rintro ⟨e, he, rfl⟩
    rcases List.mem_append.mp he with he | he
    · exact ⟨.buy, e, he, rfl⟩
    · exact ⟨.sell, e, he, rfl⟩
  · rintro ⟨s, e, he, rfl⟩
    cases s with
    | buy => exact ⟨e, List.mem_append_left _ he, rfl⟩
    | sell => exact ⟨e, List.mem_append_right _ he, rfl⟩

theorem length_ids (b : OrderBook P) : b.ids.length = b.restingCount := by
  rw [ids, List.length_map, List.length_append, restingCount]

theorem Indexed.nodup_ids {b : OrderBook P} (hb : b.Linked) (hi : b.Indexed) : b.ids.Nodup := by
  have hmem : ∀ e, e ∈ b.resting .buy ++ b.resting .sell → ∃ s, e ∈ b.resting s := by
    intro e he
    rcases List.mem_append.mp he with he | he
    · exact ⟨.buy, he⟩
    · exact ⟨.sell, he⟩
  have hnd : (b.resting .buy ++ b.resting .sell).Nodup := hb.nodup.of_map _
  refine (List.nodup_map_iff_inj_on hnd).mpr fun e he e' he' hid => ?_
  obtain ⟨s, hs⟩ := hmem e he
  obtain ⟨s', hs'⟩ := hmem e' he'
  exact (hi.id_inj hb hs hs' hid).2

end OrderBook

/-! ## The routes of the resting orders -/

namespace Exchange

/-- The routes are exactly those of the resting orders. -/
structure RoutesExact (ex : Exchange P) : Prop where
  /-- A routed identifier rests in the book it is routed to. -/
  live : ∀ i s, ex.orderSymbolMap.lookup i = some s → (ex.book s).Rests i
  /-- There are as many routes as resting orders. -/
  size : ex.orderSymbolMap.keys.card = ∑ s ∈ ex.books.keys, (ex.book s).restingCount

/-- Where every route is live, there are as many as resting orders. -/
theorem Routed.size {ex : Exchange P} (hr : ex.Routed) (hl : ex.Linked) (hh : ex.Housed)
    (hlive : ∀ i s, ex.orderSymbolMap.lookup i = some s → (ex.book s).Rests i) :
    ex.orderSymbolMap.keys.card = ∑ s ∈ ex.books.keys, (ex.book s).restingCount := by
  have hkeys : ex.orderSymbolMap.keys =
      ex.books.keys.biUnion fun s => (ex.book s).ids.toFinset := by
    ext i
    rw [Finmap.mem_keys, Finmap.mem_iff, Finset.mem_biUnion]
    constructor
    · rintro ⟨s, hs⟩
      exact ⟨s, Finmap.mem_keys.mpr (hh i s hs),
        List.mem_toFinset.mpr (OrderBook.mem_ids.mpr (hlive i s hs))⟩
    · rintro ⟨s, -, hi⟩
      exact ⟨s, hr.routed s i (OrderBook.mem_ids.mp (List.mem_toFinset.mp hi))⟩
  have hdisjoint : (ex.books.keys : Set Str).PairwiseDisjoint fun s =>
      (ex.book s).ids.toFinset := by
    intro s _ s' _ hne
    refine Finset.disjoint_left.mpr fun i hi hi' => hne ?_
    exact hr.symbol_unique (OrderBook.mem_ids.mp (List.mem_toFinset.mp hi))
      (OrderBook.mem_ids.mp (List.mem_toFinset.mp hi'))
  rw [hkeys, Finset.card_biUnion hdisjoint]
  refine Finset.sum_congr rfl fun s _ => ?_
  rw [List.toFinset_card_of_nodup ((hr.indexed s).nodup_ids (hl s)), OrderBook.length_ids]

/-- A call that matches no crossed book keeps every route live. -/
theorem Routed.live_apply {ex : Exchange P} (hr : ex.Routed) (hl : ex.Linked)
    (hlive : ∀ i s, ex.orderSymbolMap.lookup i = some s → (ex.book s).Rests i) {op : Op P}
    (hu : ∀ symbol, op = .matchOrders symbol → (ex.book symbol).Uncrossed) :
    ∀ i s, (ex.apply op).1.orderSymbolMap.lookup i = some s →
      ((ex.apply op).1.book s).Rests i := by
  intro i s h
  cases op with
  | addOrder symbol o =>
    rw [Exchange.apply, orderSymbolMap_addOrder] at h
    rw [Exchange.apply, book_addOrder]
    by_cases hi : i = o.orderId
    · rw [hi, Finmap.lookup_insert] at h
      rw [if_pos (Option.some_inj.mp h).symm, hi]
      exact OrderBook.rests_addOrder.mpr (Or.inl rfl)
    · rw [Finmap.lookup_insert_of_ne _ hi] at h
      split
      · rename_i hs
        rw [← hs]
        exact OrderBook.rests_addOrder.mpr (Or.inr (hlive i s h))
      · exact hlive i s h
  | cancelOrder j =>
    rw [Exchange.apply, lookup_cancelOrder] at h
    rw [Exchange.apply, book_cancelOrder]
    split at h
    · exact absurd h (by simp)
    · rename_i hij
      split
      · exact (OrderBook.rests_cancelOrder (hl s) (hr.indexed s)).mpr ⟨hlive i s h, hij⟩
      · exact hlive i s h
  | modifyOrder j symbol q p ts =>
    rw [Exchange.apply, orderSymbolMap_modifyOrder] at h
    rw [Exchange.apply, book_modifyOrder]
    split
    · rename_i hs
      rw [OrderBook.rests_modifyOrder (hl symbol) (hr.indexed symbol), ← hs.1]
      exact hlive i s h
    · exact hlive i s h
  | matchOrders symbol =>
    rw [Exchange.apply, orderSymbolMap_matchOrders] at h
    rw [Exchange.apply, book_matchOrders]
    split
    · rename_i hs
      rw [OrderBook.matchOrders_of_uncrossed (hl symbol) (hu symbol rfl), ← hs]
      exact hlive i s h
    · exact hlive i s h

/-- **When the routes are exactly those of the resting orders.**  Along a history of
calls without reused identifiers they are, in every state, if and only if every
call of `matchOrders` finds its book uncrossed: a fill leaves its route behind. -/
theorem routes_exact_iff (h : List (Op P)) (hfresh : FreshIds h) :
    (∀ k, k <+: h → RoutesExact (api.run k : Exchange P)) ↔
      ∀ k symbol, k ++ [.matchOrders symbol] <+: h →
        ((api.run k : Exchange P).book symbol).Uncrossed := by
  have hfreshk : ∀ {k : List (Op P)}, k <+: h → FreshIds k := by
    rintro k ⟨rest, rfl⟩
    exact hereditary_freshIds.of_append hfresh
  constructor
  · intro hexact k symbol hk
    by_contra hc
    have hw := wf_run k (hfreshk ((List.prefix_append _ _).trans hk))
    obtain ⟨i, hbefore, hafter⟩ := OrderBook.filled_of_crossed (hw.linked symbol)
      (hw.routed.indexed symbol) hc
    have hroute := hw.routed.routed symbol i hbefore
    have hlive := (hexact _ hk).live i symbol
    rw [Machine.run_concat] at hlive
    change (((api.run k).matchOrders symbol).1).orderSymbolMap.lookup i = some symbol →
      (((api.run k).matchOrders symbol).1.book symbol).Rests i at hlive
    rw [orderSymbolMap_matchOrders, book_matchOrders, if_pos rfl] at hlive
    exact hafter (hlive hroute)
  · intro hu k hk
    have hw := wf_run k (hfreshk hk)
    have hlive : ∀ i s, (api.run k : Exchange P).orderSymbolMap.lookup i = some s →
        ((api.run k : Exchange P).book s).Rests i := by
      clear hw
      induction k using List.reverseRecOn with
      | nil =>
        intro i s hi
        rw [Machine.run_nil, show (api (P := P)).init = empty from rfl, empty,
          Finmap.lookup_empty] at hi
        exact absurd hi (by simp)
      | append_singleton k op ih =>
        have hk' := (List.prefix_append k [op]).trans hk
        have hw := wf_run k (hfreshk hk')
        rw [Machine.run_concat]
        exact hw.routed.live_apply hw.linked (ih hk') fun symbol hop => hu k symbol (hop ▸ hk)
    exact ⟨hlive, hw.routed.size hw.linked (housed_run k) hlive⟩

/-- Two orders in two books, and nothing to match. -/
theorem routes_exact_iff_apart :
    let h : List (Op ℤ) := [.addOrder ['A'] ⟨1, .buy, 10, 5, 1⟩, .matchOrders ['A'],
      .addOrder ['B'] ⟨2, .sell, 9, 2, 2⟩, .matchOrders ['B'], .cancelOrder 1]
    (∀ k, k <+: h → RoutesExact (api.run k : Exchange ℤ)) ↔
      ∀ k symbol, k ++ [.matchOrders symbol] <+: h →
        ((api.run k : Exchange ℤ).book symbol).Uncrossed :=
  routes_exact_iff _ (by decide)

/-- **A fill leaves its route behind.**  A bid and an ask that fill each other: both
identifiers are still routed, and no order rests. -/
theorem routes_exact_filled :
    let h : List (Op ℤ) := [.addOrder ['A'] ⟨1, .buy, 10, 5, 1⟩,
      .addOrder ['A'] ⟨2, .sell, 10, 5, 2⟩, .matchOrders ['A']]
    FreshIds h ∧ (api.run h : Exchange ℤ).orderSymbolMap.lookup 1 = some ['A'] ∧
      ((api.run h : Exchange ℤ).book ['A']).restingCount = 0 ∧
      ¬ RoutesExact (api.run h : Exchange ℤ) := by
  intro h
  have hroute : (api.run h : Exchange ℤ).orderSymbolMap.lookup 1 = some ['A'] := by decide
  have hnone : ((api.run h : Exchange ℤ).book ['A']).ids = [] := by decide
  refine ⟨by decide, hroute, by decide, fun hexact => ?_⟩
  have hrests := OrderBook.mem_ids.mpr (hexact.live 1 ['A'] hroute)
  rw [hnone] at hrests
  exact absurd hrests List.not_mem_nil

end Exchange
end MatchingEngine
