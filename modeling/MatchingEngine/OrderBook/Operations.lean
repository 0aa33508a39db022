import MatchingEngine.OrderBook.Linked
import Mathlib.Data.UInt

/-!
# The operations of the book

The outcomes of `addOrder`, `cancelOrder`, `modifyOrder` and `matchOrders` on a
linked book: which branch is taken, what it leaves, what it prints.  The branches
with undefined behaviour are not among them, since every entry of the index of a
linked book can be followed.

`matchOrders` is a loop; each iteration removes an order (`restingCount_matchStep`),
so the number of orders bounds it and it ends because the book is no longer
crossed (`uncrossed_matchOrders`).
-/

namespace MatchingEngine

variable {P : Type} [LinearOrder P]

namespace OrderBook

/-! ## Adding -/

theorem resting_addOrder (b : OrderBook P) (o : Order P) (s : Side) :
    (b.addOrder o).1.resting s = (b.insertOrder o).resting s := by
  cases s <;> rfl

theorem Linked.addOrder {b : OrderBook P} (hb : b.Linked) (o : Order P) :
    (b.addOrder o).1.Linked := by
  have h := hb.insertOrder o
  refine ⟨fun s => ?_, fun s e he => ?_, fun s e he => ?_, ?_, fun i loc hloc => ?_⟩
  · cases s with
    | buy => exact h.nonempty .buy
    | sell => exact h.nonempty .sell
  · rw [resting_addOrder] at he
    exact h.keyed s e he
  · rw [resting_addOrder] at he
    exact h.bounded s e he
  · rw [resting_addOrder, resting_addOrder]
    exact h.nodup
  · rw [resting_addOrder]
    exact h.located i loc hloc

theorem Indexed.addOrder {b : OrderBook P} (hi : b.Indexed) {o : Order P}
    (hnew : ¬ b.Rests o.orderId) : (b.addOrder o).1.Indexed := by
  intro s e he
  rw [resting_addOrder] at he
  exact hi.insertOrder hnew s e he

theorem rests_addOrder {b : OrderBook P} {o : Order P} {i : UInt64} :
    (b.addOrder o).1.Rests i ↔ i = o.orderId ∨ b.Rests i := by
  rw [← rests_insertOrder]
  refine exists_congr fun s => ?_
  rw [resting_addOrder]

/-! ## Cancelling -/

/-- **The outcomes of `cancelOrder`**: there is no such order, or it is found
through the index and unlinked. -/
theorem cancelOrder_cases {b : OrderBook P} (hb : b.Linked) (i : UInt64) :
    (b.orderMap.lookup i = none ∧ b.cancelOrder i = (b, [.cancelNotFound i])) ∨
      ∃ loc n, b.orderMap.lookup i = some loc ∧ (loc.price, n) ∈ b.resting loc.side ∧
        n.addr = loc.it ∧ n.order.orderId = i ∧
        b.cancelOrder i =
          (b.unlink i loc, [.cancel i n.order.side n.order.quantity n.order.price]) := by
  cases hloc : b.orderMap.lookup i with
  | none => exact Or.inl ⟨rfl, by rw [cancelOrder, hloc]⟩
  | some loc =>
    obtain ⟨n, hderef, hn, haddr, hid, hside, hprice⟩ := hb.deref_eq hloc
    refine Or.inr ⟨loc, n, rfl, hn, haddr, hid, ?_⟩
    rw [cancelOrder, hloc, hside, hprice]
    simp only [hderef]
    rfl

/-- A cancel of an identifier that is registered unlinks it. -/
theorem cancelOrder_of_lookup {b : OrderBook P} (hb : b.Linked) {i : UInt64}
    {loc : OrderLocation P} (hloc : b.orderMap.lookup i = some loc) :
    (b.cancelOrder i).1 = b.unlink i loc := by
  rcases cancelOrder_cases hb i with ⟨hnone, -⟩ | ⟨loc', n, hloc', -, -, -, h⟩
  · rw [hloc] at hnone
    exact absurd hnone (by simp)
  · rw [h, Option.some_inj.mp (hloc.symm.trans hloc')]

theorem Linked.cancelOrder {b : OrderBook P} (hb : b.Linked) (i : UInt64) :
    (b.cancelOrder i).1.Linked := by
  rcases cancelOrder_cases hb i with ⟨-, h⟩ | ⟨loc, n, hloc, -, -, -, h⟩
  · rwa [h]
  · rw [h]
    exact hb.unlink hloc

/-- A cancel only takes away. -/
theorem resting_cancelOrder_sublist {b : OrderBook P} (hb : b.Linked) (i : UInt64) (s : Side) :
    ((b.cancelOrder i).1.resting s).Sublist (b.resting s) := by
  rcases cancelOrder_cases hb i with ⟨-, h⟩ | ⟨loc, n, -, -, -, -, h⟩
  · rw [h]
  · rw [h, resting_unlink]
    exact resting_removeByLocation_sublist _ loc s

theorem stats_cancelOrder {b : OrderBook P} (hb : b.Linked) (i : UInt64) :
    (b.cancelOrder i).1.stats = b.stats := by
  rcases cancelOrder_cases hb i with ⟨-, h⟩ | ⟨loc, n, -, -, -, -, h⟩
  · rw [h]
  · rw [h, stats_unlink]

theorem Indexed.cancelOrder {b : OrderBook P} (hb : b.Linked) (hi : b.Indexed) (i : UInt64) :
    (b.cancelOrder i).1.Indexed := by
  rcases cancelOrder_cases hb i with ⟨-, h⟩ | ⟨loc, n, hloc, -, -, -, h⟩
  · rwa [h]
  · rw [h]
    exact hi.unlink hb hloc

theorem rests_cancelOrder {b : OrderBook P} (hb : b.Linked) (hi : b.Indexed) {i j : UInt64} :
    (b.cancelOrder i).1.Rests j ↔ b.Rests j ∧ j ≠ i := by
  rcases cancelOrder_cases hb i with ⟨hnone, h⟩ | ⟨loc, n, hloc, -, -, -, h⟩
  · rw [h]
    refine ⟨fun hj => ⟨hj, ?_⟩, And.left⟩
    rintro rfl
    obtain ⟨loc, hloc⟩ := (rests_iff hb hi j).mp hj
    rw [hnone] at hloc
    exact absurd hloc (by simp)
  · rw [h]
    exact rests_unlink hb hi hloc

/-! ## Modifying -/

/-- **The outcomes of `modifyOrder`**: there is no such order; it is updated in
place; or it is unlinked and inserted again. -/
theorem modifyOrder_cases {b : OrderBook P} (hb : b.Linked) (i : UInt64) (newQty : Int32)
    (newPrice : P) (ts : ℤ) :
    (b.orderMap.lookup i = none ∧
      b.modifyOrder i newQty newPrice ts = (b, [.modifyNotFound i])) ∨
    ∃ loc n, b.orderMap.lookup i = some loc ∧ (loc.price, n) ∈ b.resting loc.side ∧
      n.addr = loc.it ∧ n.order.orderId = i ∧ n.order.side = loc.side ∧
      n.order.price = loc.price ∧
      ((newPrice = n.order.price ∧ newQty < n.order.quantity ∧
        b.modifyOrder i newQty newPrice ts =
          (b.setQuantity loc newQty, [.modifyInPlace i n.order.quantity newQty])) ∨
      (¬ (newPrice = n.order.price ∧ newQty < n.order.quantity) ∧
        b.modifyOrder i newQty newPrice ts =
          ((b.unlink i loc).insertOrder ⟨i, n.order.side, newPrice, newQty, ts⟩,
            [.modifyReinsert i n.order.quantity n.order.price newQty newPrice]))) := by
  cases hloc : b.orderMap.lookup i with
  | none => exact Or.inl ⟨rfl, by rw [modifyOrder, hloc]⟩
  | some loc =>
    obtain ⟨n, hderef, hn, haddr, hid, hside, hprice⟩ := hb.deref_eq hloc
    refine Or.inr ⟨loc, n, rfl, hn, haddr, hid, hside, hprice, ?_⟩
    rw [modifyOrder, hloc]
    simp only [hderef]
    by_cases hc : newPrice = n.order.price ∧ newQty < n.order.quantity
    · rw [if_pos hc]
      exact Or.inl ⟨hc.1, hc.2, rfl⟩
    · rw [if_neg hc]
      exact Or.inr ⟨hc, rfl⟩

theorem Linked.modifyOrder {b : OrderBook P} (hb : b.Linked) (i : UInt64) (newQty : Int32)
    (newPrice : P) (ts : ℤ) : (b.modifyOrder i newQty newPrice ts).1.Linked := by
  rcases modifyOrder_cases hb i newQty newPrice ts with
    ⟨-, h⟩ | ⟨loc, n, hloc, -, -, -, -, -, ⟨-, -, h⟩ | ⟨-, h⟩⟩
  · rwa [h]
  · rw [h]
    exact hb.setQuantity loc newQty
  · rw [h]
    exact (hb.unlink hloc).insertOrder _

theorem Indexed.modifyOrder {b : OrderBook P} (hb : b.Linked) (hi : b.Indexed) (i : UInt64)
    (newQty : Int32) (newPrice : P) (ts : ℤ) :
    (b.modifyOrder i newQty newPrice ts).1.Indexed := by
  rcases modifyOrder_cases hb i newQty newPrice ts with
    ⟨-, h⟩ | ⟨loc, n, hloc, -, -, -, -, -, ⟨-, -, h⟩ | ⟨-, h⟩⟩
  · rwa [h]
  · rw [h]
    exact hi.setQuantity loc newQty
  · rw [h]
    exact (hi.unlink hb hloc).insertOrder fun hr => ((rests_unlink hb hi hloc).mp hr).2 rfl

theorem rests_modifyOrder {b : OrderBook P} (hb : b.Linked) (hi : b.Indexed) {i j : UInt64}
    {newQty : Int32} {newPrice : P} {ts : ℤ} :
    (b.modifyOrder i newQty newPrice ts).1.Rests j ↔ b.Rests j := by
  rcases modifyOrder_cases hb i newQty newPrice ts with
    ⟨-, h⟩ | ⟨loc, n, hloc, hn, -, hid, -, -, ⟨-, -, h⟩ | ⟨-, h⟩⟩
  · rw [h]
  · rw [h]
    exact rests_setQuantity
  · rw [h, rests_insertOrder, rests_unlink hb hi hloc]
    refine ⟨?_, fun hj => ?_⟩
    · rintro (rfl | ⟨hj, -⟩)
      · exact ⟨loc.side, _, hn, hid⟩
      · exact hj
    · by_cases hji : j = i
      · exact Or.inl hji
      · exact Or.inr ⟨hj, hji⟩

/-! ## Matching -/

/-- **Min and subtract zero one side**, whatever the two machine integers are. -/
theorem sub_stdMin_eq_zero (x y : Int32) : x - stdMin x y = 0 ∨ y - stdMin x y = 0 := by
  rw [stdMin]
  split
  · exact Or.inr (Int32.sub_self y)
  · exact Or.inl (Int32.sub_self x)

omit [LinearOrder P] in
theorem length_fillHead_le (h : P × Node P) (q : Int32) (l : List (P × Node P)) :
    (fillHead h q l).length ≤ l.length + 1 := by
  rw [fillHead]
  split
  · exact Nat.le_succ _
  · exact le_refl _

omit [LinearOrder P] in
theorem length_fillHead_of_filled {h : P × Node P} {q : Int32} (l : List (P × Node P))
    (hq : h.2.order.quantity - q = 0) : (fillHead h q l).length = l.length := by
  rw [fillHead, if_pos hq]

/-- Every iteration removes at least one order. -/
theorem restingCount_matchStep {b b' : OrderBook P} {t : Trade P}
    (h : b.matchStep = some (t, b')) : b'.restingCount < b.restingCount := by
  obtain ⟨bid, bids, ask, asks, hbuy, hsell, -, ht, hbuy', hsell', -⟩ := matchStep_eq_some h
  have h1 := length_fillHead_le bid t.quantity bids
  have h2 := length_fillHead_le ask t.quantity asks
  have hq : bid.2.order.quantity - t.quantity = 0 ∨ ask.2.order.quantity - t.quantity = 0 := by
    rw [ht]
    exact sub_stdMin_eq_zero _ _
  rw [restingCount, restingCount, hbuy, hsell, hbuy', hsell', List.length_cons, List.length_cons]
  rcases hq with hq | hq
  · have h3 := length_fillHead_of_filled bids hq
    omega
  · have h3 := length_fillHead_of_filled asks hq
    omega

/-- No bid reaches an ask. -/
def Uncrossed (b : OrderBook P) : Prop :=
  ∀ e ∈ b.resting .buy, ∀ e' ∈ b.resting .sell, e.1 < e'.1

/-- The heads decide whether a book is crossed. -/
theorem uncrossed_of_heads {b : OrderBook P}
    (h : ∀ bid bids ask asks, b.resting .buy = bid :: bids → b.resting .sell = ask :: asks →
      bid.1 < ask.1) : b.Uncrossed := by
  intro e he e' he'
  obtain ⟨bid, bids, hbuy⟩ := List.exists_cons_of_ne_nil (List.ne_nil_of_mem he)
  obtain ⟨ask, asks, hsell⟩ := List.exists_cons_of_ne_nil (List.ne_nil_of_mem he')
  have hlt := h bid bids ask asks hbuy hsell
  have ho := b.keyOrdered_resting .buy
  have ho' := b.keyOrdered_resting .sell
  rw [hbuy] at he ho
  rw [hsell] at he' ho'
  have h1 : e.1 ≤ bid.1 := by
    rcases List.mem_cons.mp he with rfl | he
    · exact le_refl _
    · exact not_lt.mp ((List.pairwise_cons.mp ho).1 e he)
  have h2 : ask.1 ≤ e'.1 := by
    rcases List.mem_cons.mp he' with rfl | he'
    · exact le_refl _
    · exact not_lt.mp ((List.pairwise_cons.mp ho').1 e' he')
  exact lt_of_le_of_lt h1 (lt_of_lt_of_le hlt h2)

theorem begin?_of_resting_eq_cons {b : OrderBook P} {s : Side} {e : P × Node P}
    {l : List (P × Node P)} (hne : (b.levels s).NonemptyLevels) (h : b.resting s = e :: l) :
    ∃ queue, (b.levels s).begin? = some (e.1, e.2 :: queue) := by
  rw [resting, LevelMap.flat_eq] at h
  cases hm : (b.levels s).entries with
  | nil =>
    rw [hm, LevelMap.flatEntries_nil] at h
    exact absurd h (by simp)
  | cons a rest =>
    obtain ⟨k, q⟩ := a
    have hq : q ≠ [] := hne (k, q) (by rw [hm]; exact List.mem_cons_self)
    obtain ⟨n, queue, rfl⟩ := List.exists_cons_of_ne_nil hq
    rw [hm, LevelMap.flatEntries_cons, List.map_cons, List.cons_append] at h
    have he : (k, n) = e := (List.cons.inj h).1
    refine ⟨queue, ?_⟩
    rw [OrderedMap.begin?_eq_some]
    exact ⟨rest, by rw [hm, ← he]⟩

/-- **The loop condition.**  Without empty levels, `matchOrders` goes on exactly
while the heads of the two sides cross, and so it never reads the front of an
empty queue. -/
theorem matchStep_isSome_iff {b : OrderBook P} (hne : ∀ s, (b.levels s).NonemptyLevels) :
    b.matchStep.isSome ↔ ∃ bid bids ask asks, b.resting .buy = bid :: bids ∧
      b.resting .sell = ask :: asks ∧ ask.1 ≤ bid.1 := by
  constructor
  · intro h
    obtain ⟨⟨t, b'⟩, hstep⟩ := Option.isSome_iff_exists.mp h
    obtain ⟨bid, bids, ask, asks, hbuy, hsell, hle, -⟩ := matchStep_eq_some hstep
    exact ⟨bid, bids, ask, asks, hbuy, hsell, hle⟩
  · rintro ⟨bid, bids, ask, asks, hbuy, hsell, hle⟩
    obtain ⟨q, hq⟩ := begin?_of_resting_eq_cons (hne .buy) hbuy
    obtain ⟨q', hq'⟩ := begin?_of_resting_eq_cons (hne .sell) hsell
    rw [levels_buy] at hq
    rw [levels_sell] at hq'
    rw [OrderBook.matchStep, hq, hq']
    simp only [if_neg (not_lt.mpr hle), Option.isSome_some]

theorem matchStep_eq_none_iff {b : OrderBook P} (hne : ∀ s, (b.levels s).NonemptyLevels) :
    b.matchStep = none ↔ b.Uncrossed := by
  rw [← Option.not_isSome_iff_eq_none, matchStep_isSome_iff hne]
  constructor
  · intro h
    refine uncrossed_of_heads fun bid bids ask asks hbuy hsell => not_le.mp fun hle => ?_
    exact h ⟨bid, bids, ask, asks, hbuy, hsell, hle⟩
  · rintro h ⟨bid, bids, ask, asks, hbuy, hsell, hle⟩
    refine absurd (h bid ?_ ask ?_) (not_lt.mpr hle)
    · rw [hbuy]
      exact List.mem_cons_self
    · rw [hsell]
      exact List.mem_cons_self

/-- What an iteration preserves, `matchOrders` preserves. -/
theorem matchOrders_invariant {I : OrderBook P → Prop}
    (hI : ∀ b t b', I b → b.matchStep = some (t, b') → I b') {b : OrderBook P} (hb : I b) :
    I b.matchOrders.1 :=
  Loop.final_invariant hI b.restingCount b hb

theorem Linked.matchOrders {b : OrderBook P} (hb : b.Linked) : b.matchOrders.1.Linked :=
  matchOrders_invariant (fun _ _ _ hb h => hb.matchStep h) hb

theorem Indexed.matchOrders {b : OrderBook P} (hb : b.Linked) (hi : b.Indexed) :
    b.matchOrders.1.Indexed :=
  (matchOrders_invariant (I := fun b => b.Linked ∧ b.Indexed)
    (fun _ _ _ hb h => ⟨hb.1.matchStep h, hb.2.matchStep hb.1 h⟩) ⟨hb, hi⟩).2

theorem Rests.of_matchOrders {b : OrderBook P} {i : UInt64} (h : b.matchOrders.1.Rests i) :
    b.Rests i :=
  matchOrders_invariant (I := fun b' => b'.Rests i → b.Rests i)
    (fun _ _ _ ih hstep hr => ih (hr.of_matchStep hstep)) (fun hr => hr) h

/-- The bound on the number of iterations is never what stops the loop. -/
theorem matchStep_matchOrders (b : OrderBook P) : b.matchOrders.1.matchStep = none :=
  Loop.step_final_eq_none restingCount (fun _ _ _ h => restingCount_matchStep h)
    b.restingCount b (le_refl _)

/-- **`matchOrders` leaves the book uncrossed.** -/
theorem uncrossed_matchOrders {b : OrderBook P} (hb : b.Linked) : b.matchOrders.1.Uncrossed :=
  (matchStep_eq_none_iff hb.matchOrders.nonempty).mp b.matchStep_matchOrders

/-- On an uncrossed book `matchOrders` does nothing. -/
theorem matchOrders_of_uncrossed {b : OrderBook P} (hb : b.Linked) (h : b.Uncrossed) :
    b.matchOrders = (b, []) := by
  have hnone := (matchStep_eq_none_iff hb.nonempty).mpr h
  rw [OrderBook.matchOrders, Loop.final_of_none hnone, Loop.outputs_of_none hnone, List.map_nil]

omit [LinearOrder P] in
/-- The trades of a log that reports only trades. -/
theorem trades_map_trade (ts : List (Trade P)) : trades (ts.map Event.trade) = ts := by
  rw [trades, List.filterMap_map]
  exact List.filterMap_some

theorem matchOrders_events (b : OrderBook P) :
    b.matchOrders.2 = (trades b.matchOrders.2).map Event.trade := by
  rw [OrderBook.matchOrders, trades_map_trade]

/-- **The counters of `matchOrders`**, in the arithmetic of the machine: one trade
for each line of the log, and the sum of their quantities. -/
theorem stats_matchOrders (b : OrderBook P) :
    b.matchOrders.1.stats.totalOrders = b.stats.totalOrders ∧
      b.matchOrders.1.stats.totalTrades =
        b.stats.totalTrades + UInt64.ofNat (trades b.matchOrders.2).length ∧
      b.matchOrders.1.stats.totalVolume = b.stats.totalVolume +
        ((trades b.matchOrders.2).map fun t => UInt64.ofInt t.quantity.toInt).sum ∧
      b.matchOrders.1.nextNode = b.nextNode := by
  have hdecr : ∀ (b : OrderBook P) t b', b.matchStep = some (t, b') →
      b'.restingCount < b.restingCount := fun _ _ _ h => restingCount_matchStep h
  have hloop := Loop.loop_induction restingCount hdecr
    (C := fun b ts b' => b'.stats.totalOrders = b.stats.totalOrders ∧
      b'.stats.totalTrades = b.stats.totalTrades + UInt64.ofNat ts.length ∧
      b'.stats.totalVolume = b.stats.totalVolume +
        (ts.map fun t => UInt64.ofInt t.quantity.toInt).sum ∧ b'.nextNode = b.nextNode)
    ?_ ?_ b.restingCount b (le_refl _)
  · rw [OrderBook.matchOrders, trades_map_trade]
    exact hloop
  · intro b _
    refine ⟨rfl, ?_, ?_, rfl⟩
    · rw [List.length_nil]
      exact (UInt64.add_zero _).symm
    · rw [List.map_nil, List.sum_nil, UInt64.add_zero]
  · intro b t b₁ ts b' hstep ih
    obtain ⟨-, -, -, -, -, -, -, -, -, -, -, hord, htrd, hvol, hnext, -⟩ := matchStep_eq_some hstep
    obtain ⟨ih1, ih2, ih3, ih4⟩ := ih
    refine ⟨ih1.trans hord, ?_, ?_, ih4.trans hnext⟩
    · rw [ih2, htrd, List.length_cons, UInt64.ofNat_add, UInt64.add_assoc,
        UInt64.add_comm (UInt64.ofNat ts.length)]
      rfl
    · rw [ih3, hvol, List.map_cons, List.sum_cons, UInt64.add_assoc]

end OrderBook
end MatchingEngine
