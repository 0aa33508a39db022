import MatchingEngine.OrderBook.Basic

/-!
# What each operation does to the reading of a side

`resting s` lists the orders of a side in priority order.  Each operation of the
book is described here once, by what it does to `resting`, to `orderMap`, to the
counters and to the supply of nodes; later proofs use these lemmas and never
unfold an operation again.

* `resting_insertOrder`: a stable insertion on the order's side.
* `resting_removeByLocation`, `resting_setQuantity`: a filter, a map.
* `matchStep_eq_some`: one iteration meets the two heads, and leaves of each what
  the fill leaves.
-/

namespace MatchingEngine

variable {P : Type} [LinearOrder P]

namespace OrderBook

/-! ## Sides -/

@[simp] theorem levels_buy (b : OrderBook P) : b.levels .buy = b.bids := rfl

@[simp] theorem levels_sell (b : OrderBook P) : b.levels .sell = b.asks := rfl

@[simp] theorem levels_setLevels_self (b : OrderBook P) (s : Side)
    (m : LevelMap (before (P := P) s) (Node P)) : (b.setLevels s m).levels s = m := by
  cases s <;> rfl

theorem levels_setLevels_of_ne (b : OrderBook P) {s s' : Side} (h : s' ≠ s)
    (m : LevelMap (before (P := P) s) (Node P)) : (b.setLevels s m).levels s' = b.levels s' := by
  cases s <;> cases s' <;> first | rfl | exact absurd rfl h

@[simp] theorem orderMap_setLevels (b : OrderBook P) (s : Side)
    (m : LevelMap (before (P := P) s) (Node P)) : (b.setLevels s m).orderMap = b.orderMap := by
  cases s <;> rfl

@[simp] theorem stats_setLevels (b : OrderBook P) (s : Side)
    (m : LevelMap (before (P := P) s) (Node P)) : (b.setLevels s m).stats = b.stats := by
  cases s <;> rfl

@[simp] theorem nextNode_setLevels (b : OrderBook P) (s : Side)
    (m : LevelMap (before (P := P) s) (Node P)) : (b.setLevels s m).nextNode = b.nextNode := by
  cases s <;> rfl

@[simp] theorem resting_empty (s : Side) : (empty : OrderBook P).resting s = [] := by
  cases s <;> rfl

theorem keyOrdered_resting (b : OrderBook P) (s : Side) :
    KeyOrdered (before s) Prod.fst (b.resting s) :=
  LevelMap.keyOrdered_flat (b.levels s)

/-! ## Inserting -/

theorem levels_insertOrder (b : OrderBook P) (o : Order P) (s : Side) :
    (b.insertOrder o).levels s =
      if s = o.side then (b.levels s).pushBack o.price ⟨b.nextNode, o⟩ else b.levels s := by
  rw [insertOrder]
  cases ho : o.side <;> cases s <;> rfl

@[simp] theorem orderMap_insertOrder (b : OrderBook P) (o : Order P) :
    (b.insertOrder o).orderMap =
      b.orderMap.insert o.orderId ⟨o.side, o.price, b.nextNode⟩ := by
  rw [insertOrder]
  cases ho : o.side <;> rfl

@[simp] theorem stats_insertOrder (b : OrderBook P) (o : Order P) :
    (b.insertOrder o).stats = b.stats := by
  rw [insertOrder]
  cases ho : o.side <;> rfl

@[simp] theorem nextNode_insertOrder (b : OrderBook P) (o : Order P) :
    (b.insertOrder o).nextNode = b.nextNode + 1 := rfl

/-- **Insertion.**  The new node goes behind everything on its side that is not
strictly worse. -/
theorem resting_insertOrder (b : OrderBook P) (o : Order P) (s : Side) :
    (b.insertOrder o).resting s =
      if s = o.side then
        insertAfter (before s) Prod.fst (o.price, (⟨b.nextNode, o⟩ : Node P)) (b.resting s)
      else b.resting s := by
  rw [resting, levels_insertOrder]
  split
  · exact LevelMap.flat_pushBack (b.levels s) o.price ⟨b.nextNode, o⟩
  · rfl

theorem mem_resting_insertOrder {b : OrderBook P} {o : Order P} {s : Side} {e : P × Node P} :
    e ∈ (b.insertOrder o).resting s ↔
      (s = o.side ∧ e = (o.price, ⟨b.nextNode, o⟩)) ∨ e ∈ b.resting s := by
  rw [resting_insertOrder]
  split
  · rename_i hs
    rw [mem_insertAfter]
    simp only [hs, true_and]
  · rename_i hs
    simp only [hs, false_and, false_or]

/-! ## Removing -/

theorem levels_removeByLocation (b : OrderBook P) (loc : OrderLocation P) (s : Side) :
    (b.removeByLocation loc).levels s =
      if s = loc.side then eraseNode (b.levels s) loc.price loc.it else b.levels s := by
  rw [removeByLocation]
  cases hs : loc.side <;> cases s <;> rfl

@[simp] theorem orderMap_removeByLocation (b : OrderBook P) (loc : OrderLocation P) :
    (b.removeByLocation loc).orderMap = b.orderMap := by
  rw [removeByLocation]
  cases hs : loc.side <;> rfl

@[simp] theorem stats_removeByLocation (b : OrderBook P) (loc : OrderLocation P) :
    (b.removeByLocation loc).stats = b.stats := by
  rw [removeByLocation]
  cases hs : loc.side <;> rfl

@[simp] theorem nextNode_removeByLocation (b : OrderBook P) (loc : OrderLocation P) :
    (b.removeByLocation loc).nextNode = b.nextNode := by
  rw [removeByLocation]
  cases hs : loc.side <;> rfl

theorem flat_eraseNode {s : Side} (m : LevelMap (before (P := P) s) (Node P)) (price : P)
    (it : ℕ) :
    (eraseNode m price it).flat =
      m.flat.filter fun e => !decide (e.1 = price) || decide (e.2.addr ≠ it) := by
  rw [eraseNode]
  split
  · rename_i queue hq
    exact LevelMap.flat_setLevel_filter hq fun n => decide (n.addr ≠ it)
  · rename_i hq
    rw [List.filter_eq_self.mpr]
    intro e he
    obtain ⟨q, hmem, -⟩ := LevelMap.mem_flat.mp (show (e.1, e.2) ∈ m.flat from he)
    have hne : e.1 ≠ price := OrderedMap.find?_eq_none.mp hq (e.1, q) hmem
    simp [hne]

/-- **Removal.**  Exactly the node the location names leaves its side. -/
theorem resting_removeByLocation (b : OrderBook P) (loc : OrderLocation P) (s : Side) :
    (b.removeByLocation loc).resting s =
      if s = loc.side then
        (b.resting s).filter fun e => !decide (e.1 = loc.price) || decide (e.2.addr ≠ loc.it)
      else b.resting s := by
  rw [resting, levels_removeByLocation]
  split
  · exact flat_eraseNode (b.levels s) loc.price loc.it
  · rfl

theorem mem_resting_removeByLocation {b : OrderBook P} {loc : OrderLocation P} {s : Side}
    {e : P × Node P} :
    e ∈ (b.removeByLocation loc).resting s ↔
      e ∈ b.resting s ∧ ¬ (s = loc.side ∧ e.1 = loc.price ∧ e.2.addr = loc.it) := by
  rw [resting_removeByLocation]
  split
  · rename_i hs
    rw [List.mem_filter]
    simp only [hs, true_and, Bool.or_eq_true, Bool.not_eq_true', decide_eq_false_iff_not,
      decide_eq_true_eq, not_and_or]
  · rename_i hs
    simp only [hs, false_and, not_false_iff, and_true]

theorem resting_removeByLocation_sublist (b : OrderBook P) (loc : OrderLocation P) (s : Side) :
    ((b.removeByLocation loc).resting s).Sublist (b.resting s) := by
  rw [resting_removeByLocation]
  split
  · exact List.filter_sublist
  · exact List.Sublist.refl _

/-! ## Looking through an iterator -/

theorem deref_eq_some {b : OrderBook P} {loc : OrderLocation P} {o : Order P}
    (h : b.deref loc = some o) :
    ∃ n, (loc.price, n) ∈ b.resting loc.side ∧ n.addr = loc.it ∧ n.order = o := by
  obtain ⟨n, hn, ho⟩ := Option.map_eq_some_iff.mp h
  obtain ⟨queue, hqueue, hfind⟩ := Option.bind_eq_some_iff.mp hn
  refine ⟨n, LevelMap.mem_flat.mpr ⟨queue, OrderedMap.find?_eq_some.mp hqueue, ?_⟩, ?_, ho⟩
  · exact List.mem_of_find?_eq_some hfind
  · simpa using List.find?_some hfind

theorem deref_ne_none {b : OrderBook P} {loc : OrderLocation P} {n : Node P}
    (h : (loc.price, n) ∈ b.resting loc.side) (hn : n.addr = loc.it) : b.deref loc ≠ none := by
  obtain ⟨queue, hqueue, hmem⟩ := LevelMap.mem_flat.mp h
  intro hnone
  rw [deref, OrderedMap.find?_eq_some.mpr hqueue, Option.bind_some, Option.map_eq_none_iff,
    List.find?_eq_none] at hnone
  exact hnone n hmem (by simpa using hn)

/-- Rewrite the quantity of the node at an address. -/
def requantify (it : ℕ) (q : Int32) (n : Node P) : Node P :=
  if n.addr = it then { n with order := { n.order with quantity := q } } else n

omit [LinearOrder P] in
@[simp] theorem addr_requantify (it : ℕ) (q : Int32) (n : Node P) :
    (requantify it q n).addr = n.addr := by
  rw [requantify]
  split <;> rfl

theorem levels_setQuantity (b : OrderBook P) (loc : OrderLocation P) (q : Int32) (s : Side) :
    (b.setQuantity loc q).levels s =
      if s = loc.side then
        match (b.levels s).find? loc.price with
        | some queue => (b.levels s).setLevel loc.price (queue.map (requantify loc.it q))
        | none => b.levels s
      else b.levels s := by
  rw [setQuantity]
  split
  · rename_i queue hq
    split
    · rename_i hs
      subst hs
      rw [levels_setLevels_self, hq]
      rfl
    · rename_i hs
      rw [levels_setLevels_of_ne b hs]
  · rename_i hq
    split
    · rename_i hs
      subst hs
      rw [hq]
    · rfl

@[simp] theorem orderMap_setQuantity (b : OrderBook P) (loc : OrderLocation P) (q : Int32) :
    (b.setQuantity loc q).orderMap = b.orderMap := by
  rw [setQuantity]
  split <;> simp

@[simp] theorem stats_setQuantity (b : OrderBook P) (loc : OrderLocation P) (q : Int32) :
    (b.setQuantity loc q).stats = b.stats := by
  rw [setQuantity]
  split <;> simp

@[simp] theorem nextNode_setQuantity (b : OrderBook P) (loc : OrderLocation P) (q : Int32) :
    (b.setQuantity loc q).nextNode = b.nextNode := by
  rw [setQuantity]
  split <;> simp

/-- **Update in place.**  The node keeps its position; its quantity changes. -/
theorem resting_setQuantity (b : OrderBook P) (loc : OrderLocation P) (q : Int32) (s : Side) :
    (b.setQuantity loc q).resting s = (b.resting s).map fun e =>
      (e.1, if s = loc.side ∧ e.1 = loc.price then requantify loc.it q e.2 else e.2) := by
  have hsame : ∀ l : List (P × Node P), (∀ e ∈ l, ¬ (s = loc.side ∧ e.1 = loc.price)) →
      (l.map fun e => (e.1, if s = loc.side ∧ e.1 = loc.price then requantify loc.it q e.2
        else e.2)) = l := by
    intro l hl
    rw [List.map_congr_left (g := id) fun e he => by rw [if_neg (hl e he)]; rfl, List.map_id]
  rw [resting, levels_setQuantity]
  split
  · rename_i hs
    split
    · rename_i queue hq
      rw [LevelMap.flat_setLevel_map hq (requantify loc.it q)]
      refine List.map_congr_left fun e _ => ?_
      by_cases he : e.1 = loc.price
      · rw [if_pos he, if_pos ⟨hs, he⟩, he]
      · rw [if_neg he, if_neg fun h => he h.2]
    · rename_i hq
      refine (hsame _ fun e he hk => ?_).symm
      obtain ⟨queue, hmem, -⟩ := LevelMap.mem_flat.mp (show (e.1, e.2) ∈ (b.levels s).flat from he)
      exact OrderedMap.find?_eq_none.mp hq (e.1, queue) hmem hk.2
  · rename_i hs
    exact (hsame _ fun e _ hk => hs hk.1).symm

/-! ## One iteration of the matching loop -/

/-- What a fill leaves of a list of orders: its head with the rest of its
quantity, or nothing of its head when that is zero. -/
def fillHead (e : P × Node P) (tradeQty : Int32) (l : List (P × Node P)) : List (P × Node P) :=
  if e.2.order.quantity - tradeQty = 0 then l
  else (e.1, { e.2 with order := e.2.order.fill tradeQty }) :: l

omit [LinearOrder P] in
/-- A head that is filled goes. -/
theorem fillHead_filled {e : P × Node P} {tradeQty : Int32} (l : List (P × Node P))
    (h : tradeQty = e.2.order.quantity) : fillHead e tradeQty l = l := by
  rw [fillHead, h, if_pos (Int32.sub_self _)]

omit [LinearOrder P] in
/-- What is left of a list after a fill comes from the list, and carries the same
order but for the quantity of the head; a filled head is gone. -/
theorem fillHead_origin {h e : P × Node P} {tradeQty : Int32} {l : List (P × Node P)}
    (he : e ∈ fillHead h tradeQty l) :
    ∃ e₀ ∈ h :: l, e₀.1 = e.1 ∧ e₀.2.addr = e.2.addr ∧
      e.2.order = { e₀.2.order with quantity := e.2.order.quantity } ∧
      (h.2.order.quantity - tradeQty = 0 → e₀ ∈ l) := by
  rw [fillHead] at he
  split at he
  · exact ⟨e, List.mem_cons_of_mem _ he, rfl, rfl, rfl, fun _ => he⟩
  · rename_i hq
    rcases List.mem_cons.mp he with rfl | he
    · exact ⟨h, List.mem_cons_self, rfl, rfl, rfl, fun h0 => absurd h0 hq⟩
    · exact ⟨e, List.mem_cons_of_mem _ he, rfl, rfl, rfl, fun _ => he⟩

omit [LinearOrder P] in
/-- What a fill keeps: everything but a filled head. -/
theorem mem_fillHead_of_mem {h e : P × Node P} {tradeQty : Int32} {l : List (P × Node P)}
    (he : e ∈ h :: l) (hfilled : e = h → h.2.order.quantity - tradeQty ≠ 0) :
    ∃ n, (e.1, n) ∈ fillHead h tradeQty l ∧ n.addr = e.2.addr ∧
      n.order.orderId = e.2.order.orderId := by
  rw [fillHead]
  rcases List.mem_cons.mp he with rfl | he
  · rw [if_neg (hfilled rfl)]
    exact ⟨_, List.mem_cons_self, rfl, rfl⟩
  · split
    · exact ⟨e.2, he, rfl, rfl⟩
    · exact ⟨e.2, List.mem_cons_of_mem _ he, rfl, rfl⟩

omit [LinearOrder P] in
theorem addrs_fillHead_sublist (h : P × Node P) (tradeQty : Int32) (l : List (P × Node P)) :
    ((fillHead h tradeQty l).map fun e => e.2.addr).Sublist ((h :: l).map fun e => e.2.addr) := by
  rw [fillHead]
  split
  · exact (List.sublist_cons_self _ _).map _
  · exact List.Sublist.refl _

omit [LinearOrder P] in
theorem lookup_eraseFilled (m : Finmap fun _ : UInt64 => OrderLocation P) (o : Order P)
    (tradeQty : Int32) (i : UInt64) :
    (eraseFilled m o tradeQty).lookup i =
      if o.quantity - tradeQty = 0 ∧ i = o.orderId then none else m.lookup i := by
  rw [eraseFilled]
  by_cases hq : o.quantity - tradeQty = 0
  · rw [if_pos hq]
    by_cases hi : i = o.orderId
    · rw [if_pos ⟨hq, hi⟩, hi, Finmap.lookup_erase]
    · rw [if_neg fun h => hi h.2, Finmap.lookup_erase_ne hi]
  · rw [if_neg hq, if_neg fun h => hq h.1]

omit [LinearOrder P] in
theorem map_fillFront (k : P) (n : Node P) (queue : List (Node P)) (tradeQty : Int32)
    (rest : List (P × Node P)) :
    ((fillFront n queue tradeQty).map fun x => (k, x)) ++ rest =
      fillHead (k, n) tradeQty ((queue.map fun x => (k, x)) ++ rest) := by
  rw [fillFront, fillHead]
  split <;> rfl

/-- **One iteration of `matchOrders`.**  The heads of the two sides cross; each
side keeps what the fill leaves of it; the filled orders leave the index; the
counters advance. -/
theorem matchStep_eq_some {b b' : OrderBook P} {t : Trade P} (h : b.matchStep = some (t, b')) :
    ∃ bid bids ask asks,
      b.resting .buy = bid :: bids ∧ b.resting .sell = ask :: asks ∧ ask.1 ≤ bid.1 ∧
      t = tradeOf bid.2.order ask.2.order ∧
      b'.resting .buy = fillHead bid t.quantity bids ∧
      b'.resting .sell = fillHead ask t.quantity asks ∧
      b'.orderMap = eraseFilled (eraseFilled b.orderMap bid.2.order t.quantity)
        ask.2.order t.quantity ∧
      b'.stats.totalOrders = b.stats.totalOrders ∧
      b'.stats.totalTrades = b.stats.totalTrades + 1 ∧
      b'.stats.totalVolume = b.stats.totalVolume + UInt64.ofInt t.quantity.toInt ∧
      b'.nextNode = b.nextNode ∧
      ((∀ s, (b.levels s).NonemptyLevels) → ∀ s, (b'.levels s).NonemptyLevels) := by
  rw [matchStep] at h
  split at h
  · rename_i bidPrice firstBid bidRest askPrice firstAsk askRest hbid hask
    split at h
    · exact absurd h (by simp)
    · rename_i hcross
      obtain ⟨ht, hb'⟩ := Prod.mk.inj (Option.some.inj h)
      obtain ⟨bids, hbids, hbids'⟩ := LevelMap.flat_setLevel_begin hbid
        (fillFront firstBid bidRest t.quantity)
      obtain ⟨asks, hasks, hasks'⟩ := LevelMap.flat_setLevel_begin hask
        (fillFront firstAsk askRest t.quantity)
      rw [map_fillFront] at hbids' hasks'
      rw [ht] at hb'
      subst hb'
      refine ⟨(bidPrice, firstBid), _, (askPrice, firstAsk), _, hbids, hasks, not_lt.mp hcross,
        ht.symm, hbids', hasks', rfl, rfl, rfl, rfl, rfl, fun hne s => ?_⟩
      cases s with
      | buy => exact LevelMap.nonemptyLevels_setLevel (hne .buy) _ _
      | sell => exact LevelMap.nonemptyLevels_setLevel (hne .sell) _ _
  · exact absurd h (by simp)

end OrderBook
end MatchingEngine
