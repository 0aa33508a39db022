import MatchingEngine.OrderBook.Operations

/-!
# The mirror image of a book

The two sides are two maps with opposite comparators, and most operations of the book
are written out twice, once for each.  Exchanging the sides and reversing the prices
turns one copy into the other.

`neg` reverses the order of the prices.  `Mirrored neg b b'` says that `b'` is `b` with
bids and asks exchanged and `neg` applied to every price; queues keep their order, and
nodes their addresses.  Each operation carries mirrored books to mirrored books, and
`mirrored_matchOrders` does so for the loop, whose trades have buyer and seller
exchanged.
-/

namespace MatchingEngine

variable {P : Type}

@[simp] theorem Side.opposite_opposite (s : Side) : s.opposite.opposite = s := by
  cases s <;> rfl

theorem Side.opposite_inj {s s' : Side} : s.opposite = s'.opposite ↔ s = s' := by
  cases s <;> cases s' <;> decide

section Records

variable (neg : P → P)

/-- The order on the other side, at the reversed price. -/
def Order.mirror (o : Order P) : Order P :=
  { o with side := o.side.opposite, price := neg o.price }

/-- The node of the mirrored order, at the same address. -/
def Node.mirror (n : Node P) : Node P := ⟨n.addr, n.order.mirror neg⟩

/-- The location on the other side, at the reversed price. -/
def OrderLocation.mirror (loc : OrderLocation P) : OrderLocation P :=
  ⟨loc.side.opposite, neg loc.price, loc.it⟩

end Records

/-- The trades have the same quantity, and buyer and seller are exchanged. -/
structure Trade.Exchanged (t t' : Trade P) : Prop where
  buyer : t'.buyer = t.seller
  seller : t'.seller = t.buyer
  quantity : t'.quantity = t.quantity

variable [LinearOrder P]

/-- Reversing the prices exchanges the comparators. -/
theorem before_opposite {neg : P → P} (hneg : StrictAnti neg) (s : Side) (p q : P) :
    before s.opposite (neg p) (neg q) ↔ before s p q := by
  cases s with
  | buy => exact hneg.lt_iff_gt
  | sell => exact hneg.lt_iff_gt

theorem stdMin_comm (a b : Int32) : stdMin a b = stdMin b a := by
  rw [stdMin, stdMin]
  rcases lt_trichotomy a.toInt b.toInt with h | h | h
  · rw [if_neg (Int32.lt_iff_toInt_lt.not.mpr h.le.not_gt), if_pos (Int32.lt_iff_toInt_lt.mpr h)]
  · rw [Int32.toInt_inj.mp h]
  · rw [if_pos (Int32.lt_iff_toInt_lt.mpr h), if_neg (Int32.lt_iff_toInt_lt.not.mpr h.le.not_gt)]

namespace OrderBook

/-- `b'` is the mirror image of `b`. -/
structure Mirrored (neg : P → P) (b b' : OrderBook P) : Prop where
  levels : ∀ s, OrderedMap.Renames neg (List.map (Node.mirror neg)) (b.levels s)
    (b'.levels s.opposite)
  orderMap : ∀ i, b'.orderMap.lookup i = (b.orderMap.lookup i).map (OrderLocation.mirror neg)
  stats : b'.stats = b.stats
  nextNode : b'.nextNode = b.nextNode

variable {neg : P → P} {b b' : OrderBook P}

theorem mirrored_empty : Mirrored neg (empty : OrderBook P) empty where
  levels s := by cases s <;> exact OrderedMap.renames_empty _ _
  orderMap i := by rw [empty, Finmap.lookup_empty, Option.map_none]
  stats := rfl
  nextNode := rfl

/-! ## The operations -/

/-- Looking through the iterator of the mirrored location. -/
theorem Mirrored.deref_eq (h : Mirrored neg b b') (hneg : StrictAnti neg)
    (loc : OrderLocation P) :
    b'.deref (loc.mirror neg) = (b.deref loc).map (Order.mirror neg) := by
  rw [deref, deref, OrderLocation.mirror, (h.levels loc.side).find?_eq hneg.injective]
  cases (b.levels loc.side).find? loc.price with
  | none => rfl
  | some queue =>
    rw [Option.map_some, Option.bind_some, Option.bind_some, List.find?_map, Option.map_map,
      Option.map_map]
    rfl

theorem Mirrored.insertOrder (h : Mirrored neg b b') (hneg : StrictAnti neg) (o : Order P) :
    Mirrored neg (b.insertOrder o) (b'.insertOrder (o.mirror neg)) where
  levels s := by
    have hside : s.opposite = (o.mirror neg).side ↔ s = o.side := Side.opposite_inj
    rw [levels_insertOrder, levels_insertOrder]
    by_cases hs : s = o.side
    · rw [if_pos hs, if_pos (hside.mpr hs), h.nextNode]
      exact LevelMap.renames_pushBack (h.levels s) (before_opposite hneg s) hneg.injective o.price
        (⟨b.nextNode, o⟩ : Node P)
    · rw [if_neg hs, if_neg fun hc => hs (hside.mp hc)]
      exact h.levels s
  orderMap i := by
    rw [orderMap_insertOrder, orderMap_insertOrder, h.nextNode]
    change ((b'.orderMap.insert o.orderId _).lookup i) = _
    by_cases hi : i = o.orderId
    · rw [hi, Finmap.lookup_insert, Finmap.lookup_insert]
      rfl
    · rw [Finmap.lookup_insert_of_ne _ hi, Finmap.lookup_insert_of_ne _ hi, h.orderMap]
  stats := by rw [stats_insertOrder, stats_insertOrder, h.stats]
  nextNode := by rw [nextNode_insertOrder, nextNode_insertOrder, h.nextNode]

/-- Erasing a node of a level. -/
theorem renames_eraseNode (hneg : StrictAnti neg) {s : Side}
    {m : LevelMap (before (P := P) s) (Node P)}
    {m' : LevelMap (before (P := P) s.opposite) (Node P)}
    (h : OrderedMap.Renames neg (List.map (Node.mirror neg)) m m') (price : P) (it : ℕ) :
    OrderedMap.Renames neg (List.map (Node.mirror neg)) (eraseNode m price it)
      (eraseNode m' (neg price) it) := by
  rw [eraseNode, eraseNode, h.find?_eq hneg.injective]
  cases m.find? price with
  | none => exact h
  | some queue =>
    simp only [Option.map_some, List.filter_map]
    exact LevelMap.renames_setLevel h (before_opposite hneg s) hneg.injective price _

theorem Mirrored.unlink (h : Mirrored neg b b') (hneg : StrictAnti neg) (i : UInt64)
    (loc : OrderLocation P) : Mirrored neg (b.unlink i loc) (b'.unlink i (loc.mirror neg)) where
  levels s := by
    have hside : s.opposite = (loc.mirror neg).side ↔ s = loc.side := Side.opposite_inj
    rw [levels_unlink, levels_unlink, levels_removeByLocation, levels_removeByLocation]
    by_cases hs : s = loc.side
    · rw [if_pos hs, if_pos (hside.mpr hs)]
      exact renames_eraseNode hneg (h.levels s) loc.price loc.it
    · rw [if_neg hs, if_neg fun hc => hs (hside.mp hc)]
      exact h.levels s
  orderMap j := by
    rw [orderMap_unlink, orderMap_unlink]
    by_cases hj : j = i
    · rw [hj, Finmap.lookup_erase, Finmap.lookup_erase, Option.map_none]
    · rw [Finmap.lookup_erase_ne hj, Finmap.lookup_erase_ne hj, h.orderMap]
  stats := by rw [stats_unlink, stats_unlink, h.stats]
  nextNode := by rw [nextNode_unlink, nextNode_unlink, h.nextNode]

omit [LinearOrder P] in
/-- Setting the quantities of a queue. -/
theorem map_requantify (it : ℕ) (q : Int32) (queue : List (Node P)) :
    (queue.map (Node.mirror neg)).map (requantify it q) =
      (queue.map (requantify it q)).map (Node.mirror neg) := by
  rw [List.map_map, List.map_map]
  refine List.map_congr_left fun n _ => ?_
  by_cases hn : n.addr = it
  · rw [Function.comp, Function.comp, requantify, requantify, if_pos hn,
      if_pos (show (n.mirror neg).addr = it from hn)]
    rfl
  · rw [Function.comp, Function.comp, requantify, requantify, if_neg hn,
      if_neg (show ¬ (n.mirror neg).addr = it from hn)]

theorem Mirrored.setQuantity (h : Mirrored neg b b') (hneg : StrictAnti neg)
    (loc : OrderLocation P) (q : Int32) :
    Mirrored neg (b.setQuantity loc q) (b'.setQuantity (loc.mirror neg) q) where
  levels s := by
    have hside : s.opposite = (loc.mirror neg).side ↔ s = loc.side := Side.opposite_inj
    have hfind := (h.levels s).find?_eq hneg.injective loc.price
    rw [levels_setQuantity, levels_setQuantity]
    by_cases hs : s = loc.side
    · rw [if_pos hs, if_pos (hside.mpr hs), show (loc.mirror neg).price = neg loc.price from rfl,
        hfind]
      cases (b.levels s).find? loc.price with
      | none => exact h.levels s
      | some queue =>
        simp only [Option.map_some, map_requantify]
        exact LevelMap.renames_setLevel (h.levels s) (before_opposite hneg s) hneg.injective
          loc.price _
    · rw [if_neg hs, if_neg fun hc => hs (hside.mp hc)]
      exact h.levels s
  orderMap i := by rw [orderMap_setQuantity, orderMap_setQuantity, h.orderMap]
  stats := by rw [stats_setQuantity, stats_setQuantity, h.stats]
  nextNode := by rw [nextNode_setQuantity, nextNode_setQuantity, h.nextNode]

theorem Mirrored.addOrder (h : Mirrored neg b b') (hneg : StrictAnti neg) (o : Order P) :
    Mirrored neg (b.addOrder o).1 (b'.addOrder (o.mirror neg)).1 := by
  have hins := h.insertOrder hneg o
  refine ⟨hins.levels, hins.orderMap, ?_, hins.nextNode⟩
  rw [OrderBook.addOrder, OrderBook.addOrder]
  simp only [hins.stats]

theorem Mirrored.cancelOrder (h : Mirrored neg b b') (hneg : StrictAnti neg) (i : UInt64) :
    Mirrored neg (b.cancelOrder i).1 (b'.cancelOrder i).1 := by
  rw [OrderBook.cancelOrder, OrderBook.cancelOrder, h.orderMap]
  cases hloc : b.orderMap.lookup i with
  | none => exact h
  | some loc =>
    simp only [Option.map_some, h.deref_eq hneg]
    cases b.deref loc with
    | none => exact h
    | some o => exact h.unlink hneg i loc

theorem Mirrored.modifyOrder (h : Mirrored neg b b') (hneg : StrictAnti neg) (i : UInt64)
    (q : Int32) (p : P) (ts : ℤ) :
    Mirrored neg (b.modifyOrder i q p ts).1 (b'.modifyOrder i q (neg p) ts).1 := by
  rw [OrderBook.modifyOrder, OrderBook.modifyOrder, h.orderMap]
  cases hloc : b.orderMap.lookup i with
  | none => exact h
  | some loc =>
    simp only [Option.map_some, h.deref_eq hneg]
    cases b.deref loc with
    | none => exact h
    | some o =>
      have hcond : (neg p = (o.mirror neg).price ∧ q < (o.mirror neg).quantity) ↔
          (p = o.price ∧ q < o.quantity) :=
        and_congr_left fun _ => hneg.injective.eq_iff
      simp only [Option.map_some, hcond]
      split
      · exact h.setQuantity hneg loc q
      · exact (h.unlink hneg i loc).insertOrder hneg ⟨i, o.side, p, q, ts⟩

/-! ## Matching -/

omit [LinearOrder P] in
/-- What a fill leaves of the mirrored queue. -/
theorem fillFront_mirror (n : Node P) (queue : List (Node P)) (q : Int32) :
    fillFront (n.mirror neg) (queue.map (Node.mirror neg)) q =
      (fillFront n queue q).map (Node.mirror neg) := by
  rw [fillFront, fillFront]
  by_cases hq : n.order.quantity - q = 0
  · rw [if_pos hq, if_pos (show (n.mirror neg).order.quantity - q = 0 from hq)]
  · rw [if_neg hq, if_neg (show ¬ (n.mirror neg).order.quantity - q = 0 from hq)]
    rfl

/-- **One iteration on mirrored books.**  Either both loops stop, or both trade, with
buyer and seller exchanged, and the books stay mirrored. -/
theorem Mirrored.matchStep (h : Mirrored neg b b') (hneg : StrictAnti neg) :
    (b.matchStep = none ∧ b'.matchStep = none) ∨
      ∃ t b₁ t' b₁', b.matchStep = some (t, b₁) ∧ b'.matchStep = some (t', b₁') ∧
        t.Exchanged t' ∧ Mirrored neg b₁ b₁' := by
  have hbids : b'.asks.begin? = _ := (h.levels .buy).begin?_eq
  have hasks : b'.bids.begin? = _ := (h.levels .sell).begin?_eq
  rw [OrderBook.matchStep, OrderBook.matchStep, hbids, hasks, levels_buy, levels_sell]
  rcases b.bids.begin? with _ | ⟨bidPrice, _ | ⟨firstBid, bidRest⟩⟩
  · refine Or.inl ⟨rfl, ?_⟩
    rcases b.asks.begin? with _ | ⟨askPrice, _ | ⟨firstAsk, askRest⟩⟩ <;> rfl
  · refine Or.inl ⟨rfl, ?_⟩
    rcases b.asks.begin? with _ | ⟨askPrice, _ | ⟨firstAsk, askRest⟩⟩ <;> rfl
  rcases b.asks.begin? with _ | ⟨askPrice, _ | ⟨firstAsk, askRest⟩⟩
  · exact Or.inl ⟨rfl, rfl⟩
  · exact Or.inl ⟨rfl, rfl⟩
  simp only [Option.map_some, Prod.map_apply, List.map_cons]
  by_cases hlt : bidPrice < askPrice
  · exact Or.inl ⟨if_pos hlt, if_pos (hneg.lt_iff_gt.mpr hlt)⟩
  rw [if_neg hlt, if_neg fun hc => hlt (hneg.lt_iff_gt.mp hc)]
  have hqty : (tradeOf (firstAsk.mirror neg).order (firstBid.mirror neg).order).quantity =
      (tradeOf firstBid.order firstAsk.order).quantity := stdMin_comm _ _
  refine Or.inr ⟨_, _, _, _, rfl, rfl, ⟨rfl, rfl, hqty⟩, fun s => ?_, fun i => ?_, ?_, ?_⟩
  · rw [hqty, fillFront_mirror, fillFront_mirror]
    cases s with
    | buy =>
      exact LevelMap.renames_setLevel (h.levels .buy) (before_opposite hneg .buy) hneg.injective
        bidPrice _
    | sell =>
      exact LevelMap.renames_setLevel (h.levels .sell) (before_opposite hneg .sell) hneg.injective
        askPrice _
  · -- both loops erase the filled orders, in the opposite order
    simp only [hqty, lookup_eraseFilled, h.orderMap]
    have hfilled : ∀ n : Node P, (n.mirror neg).order.quantity = n.order.quantity ∧
        (n.mirror neg).order.orderId = n.order.orderId := fun n => ⟨rfl, rfl⟩
    simp only [hfilled]
    split_ifs <;> rfl
  · simp only [hqty, h.stats]
  · exact h.nextNode

theorem Mirrored.restingCount_eq (h : Mirrored neg b b') : b'.restingCount = b.restingCount := by
  have hflat : ∀ s, (b'.resting s.opposite).length = (b.resting s).length := fun s => by
    rw [resting, LevelMap.flat_renames (h.levels s), List.length_map]
    rfl
  rw [restingCount, restingCount, add_comm, ← hflat .buy, ← hflat .sell]
  rfl

/-- **Matching mirrored books**: the trades have buyer and seller exchanged, and the
books stay mirrored. -/
theorem Mirrored.matchOrders (h : Mirrored neg b b') (hneg : StrictAnti neg) :
    List.Forall₂ Trade.Exchanged (trades b.matchOrders.2) (trades b'.matchOrders.2) ∧
      Mirrored neg b.matchOrders.1 b'.matchOrders.1 := by
  rw [OrderBook.matchOrders, OrderBook.matchOrders, trades_map_trade, trades_map_trade,
    h.restingCount_eq]
  refine Loop.simulation (fun b b' hb hnone => ?_) (fun b b' t b₁ hb hsome => ?_) _ b b' h
  · rcases hb.matchStep hneg with ⟨-, h'⟩ | ⟨t, b₁, t', b₁', h', -⟩
    · exact h'
    · rw [hnone] at h'
      exact absurd h' (by simp)
  · rcases hb.matchStep hneg with ⟨h', -⟩ | ⟨t₀, b₀, t', b₁', h₀, h', ht, hb'⟩
    · rw [hsome] at h'
      exact absurd h' (by simp)
    · rw [hsome] at h₀
      obtain ⟨rfl, rfl⟩ := Prod.mk.inj (Option.some.inj h₀)
      exact ⟨t', b₁', h', ht, hb'⟩

end OrderBook
end MatchingEngine
