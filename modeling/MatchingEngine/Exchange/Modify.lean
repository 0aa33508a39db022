import MatchingEngine.Exchange.Invariant
import MatchingEngine.OrderBook.Queues

/-!
# What a modify does to the queues

A modify at the order's own price and below its quantity rewrites the quantity where
it stands (`OnlyQuantity`).  Every other modify is a cancel followed by the entry of a
new order under the old identifier, except that the counters do not notice
(`Requeues`).

The comments of the source name three situations, a smaller quantity, a larger one and
another price; the branch of the source tells two apart.  A modify that changes neither
price nor quantity therefore takes the way of the larger quantity, and the order goes
to the back of its queue.  `keepsPlace_iff` says when this is not to be seen.
-/

namespace MatchingEngine

variable {P : Type} [LinearOrder P]

namespace OrderBook

/-- From `b` to `b'` nothing changes but the quantity of the node at an address. -/
structure OnlyQuantity (b b' : OrderBook P) (it : ℕ) (q : Int32) : Prop where
  levels : ∀ s, (b'.levels s).entries =
    (b.levels s).entries.map fun e => (e.1, e.2.map (requantify it q))
  orderMap : b'.orderMap = b.orderMap
  stats : b'.stats = b.stats
  nextNode : b'.nextNode = b.nextNode

/-- From `b` to `b'` the order `n`, which stood in the level `k` of a side, is
cancelled and the order `o` is added, which carries its identifier. -/
structure Requeues (b b' : OrderBook P) (side : Side) (k : P) (n : Node P) (o : Order P) :
    Prop where
  bids : b'.bids = ((b.cancelOrder o.orderId).1.addOrder o).1.bids
  asks : b'.asks = ((b.cancelOrder o.orderId).1.addOrder o).1.asks
  orderMap : b'.orderMap = ((b.cancelOrder o.orderId).1.addOrder o).1.orderMap
  /-- The order is last in the queue of its new price. -/
  last : ∃ ahead it, (b'.levels side).find? o.price = some (ahead ++ [⟨it, o⟩])
  /-- A level that the order leaves is gone exactly when the order was alone there. -/
  level : o.price ≠ k →
    ((b'.levels side).find? k = none ↔ (b.levels side).find? k = some [n])
  /-- The other orders of every queue are what they were, in the same order. -/
  others : ∀ s p, (b'.queue s p).filter (fun m => decide (m.order.orderId ≠ o.orderId)) =
    (b.queue s p).filter fun m => decide (m.order.orderId ≠ o.orderId)
  stats : b'.stats = b.stats

section Resting

variable {b : OrderBook P} (hb : b.Linked) (hi : b.Indexed) {s : Side} {k : P} {n : Node P}
  (hn : (k, n) ∈ b.resting s)

/-! ## The two branches -/

include hb hi hn in
/-- A modify of a resting order takes one of the two branches of the source. -/
theorem modifyOrder_of_rests (q : Int32) (p : P) (ts : ℤ) :
    (p = n.order.price ∧ q < n.order.quantity ∧
      (b.modifyOrder n.order.orderId q p ts).1 = b.setQuantity ⟨s, k, n.addr⟩ q) ∨
    (¬ (p = n.order.price ∧ q < n.order.quantity) ∧
      (b.modifyOrder n.order.orderId q p ts).1 =
        (b.unlink n.order.orderId ⟨s, k, n.addr⟩).insertOrder
          ⟨n.order.orderId, s, p, q, ts⟩) := by
  have hentry : b.orderMap.lookup n.order.orderId = some ⟨s, k, n.addr⟩ := hi s (k, n) hn
  have hside : n.order.side = s := (hb.keyed s (k, n) hn).1
  rcases modifyOrder_cases hb n.order.orderId q p ts with
    ⟨hnone, -⟩ | ⟨loc, m, hloc, hm, haddr, -, -, -, hcase⟩
  · rw [hentry] at hnone
    exact absurd hnone (by simp)
  · obtain rfl : ⟨s, k, n.addr⟩ = loc := Option.some_inj.mp (hentry.symm.trans hloc)
    obtain rfl : m = n := congrArg Prod.snd (hb.addr_inj hm hn haddr).2
    rcases hcase with ⟨hp, hq, h⟩ | ⟨hc, h⟩
    · exact Or.inl ⟨hp, hq, by rw [h]⟩
    · refine Or.inr ⟨hc, ?_⟩
      rw [h, hside]

include hb hn in
/-- A level that does not hold the node does not hold its address. -/
theorem map_requantify_of_ne (q : Int32) {s' : Side} {e : P × List (Node P)}
    (he : e ∈ (b.levels s').entries) (hne : ¬ (s' = s ∧ e.1 = k)) :
    e.2.map (requantify n.addr q) = e.2 := by
  refine (List.map_congr_left fun m hm => ?_).trans (List.map_id _)
  have hmem : (e.1, m) ∈ b.resting s' := LevelMap.mem_flat.mpr ⟨e.2, he, hm⟩
  rw [requantify, if_neg]
  · rfl
  · intro haddr
    obtain ⟨hs, heq⟩ := hb.addr_inj hmem hn haddr
    exact hne ⟨hs, congrArg Prod.fst heq⟩

include hb hn in
/-- **In place**: the levels are what they were but for one quantity. -/
theorem entries_setQuantity (q : Int32) (s' : Side) :
    ((b.setQuantity ⟨s, k, n.addr⟩ q).levels s').entries =
      (b.levels s').entries.map fun e => (e.1, e.2.map (requantify n.addr q)) := by
  have hsame : ∀ l : List (P × List (Node P)),
      (∀ e ∈ l, e ∈ (b.levels s').entries ∧ ¬ (s' = s ∧ e.1 = k)) →
      l.map (fun e => (e.1, e.2.map (requantify n.addr q))) = l := by
    intro l hl
    refine (List.map_congr_left fun e he => ?_).trans (List.map_id _)
    rw [map_requantify_of_ne hb hn q (hl e he).1 (hl e he).2]
    rfl
  rw [levels_setQuantity]
  by_cases hs : s' = s
  · subst hs
    obtain ⟨queue, hmem, hnq⟩ := LevelMap.mem_flat.mp hn
    obtain ⟨pre, post, hsplit⟩ := List.append_of_mem hmem
    have hsorted := (b.levels s').sorted
    rw [hsplit] at hsorted
    have hpre : ∀ e ∈ pre, e ∈ (b.levels s').entries ∧ ¬ (s' = s' ∧ e.1 = k) := fun e he =>
      ⟨by rw [hsplit]; exact List.mem_append_left _ he,
        fun h => OrderedMap.key_ne_of_sorted hsorted (Or.inl he) h.2⟩
    have hpost : ∀ e ∈ post, e ∈ (b.levels s').entries ∧ ¬ (s' = s' ∧ e.1 = k) := fun e he =>
      ⟨by rw [hsplit]; exact List.mem_append_right _ (List.mem_cons_of_mem _ he),
        fun h => OrderedMap.key_ne_of_sorted hsorted (Or.inr he) h.2⟩
    have hqueue : (queue.map (requantify n.addr q)).isEmpty = false := by
      rw [List.isEmpty_map]
      exact List.isEmpty_eq_false_iff.mpr (List.ne_nil_of_mem hnq)
    rw [if_pos rfl, OrderedMap.find?_eq_some.mpr hmem]
    simp only []
    rw [LevelMap.entries_setLevel hsplit, hqueue, hsplit, List.map_append, List.map_cons,
      hsame pre hpre, hsame post hpost]
    rfl
  · rw [if_neg hs]
    exact (hsame _ fun e he => ⟨he, fun h => hs h.1⟩).symm

include hb hn in
theorem onlyQuantity_setQuantity (q : Int32) :
    b.OnlyQuantity (b.setQuantity ⟨s, k, n.addr⟩ q) n.addr q where
  levels := entries_setQuantity hb hn q
  orderMap := orderMap_setQuantity b _ q
  stats := stats_setQuantity b _ q
  nextNode := nextNode_setQuantity b _ q

include hb hi hn in
/-- **Removed and inserted again**, an order is cancelled and added. -/
theorem requeues_insertOrder (p : P) (q : Int32) (ts : ℤ) :
    b.Requeues ((b.unlink n.order.orderId ⟨s, k, n.addr⟩).insertOrder
      ⟨n.order.orderId, s, p, q, ts⟩) s k n ⟨n.order.orderId, s, p, q, ts⟩ := by
  have hloc : b.orderMap.lookup n.order.orderId = some ⟨s, k, n.addr⟩ := hi s (k, n) hn
  have hcancel : (b.cancelOrder n.order.orderId).1 =
      b.unlink n.order.orderId ⟨s, k, n.addr⟩ := cancelOrder_of_lookup hb hloc
  have hne := ((hb.unlink hloc).insertOrder ⟨n.order.orderId, s, p, q, ts⟩).nonempty s
  refine ⟨?_, ?_, ?_, ?_, fun hp => ?_, fun s' p' => ?_, ?_⟩
  · rw [hcancel]
    rfl
  · rw [hcancel]
    rfl
  · rw [hcancel]
    rfl
  · exact ⟨_, _, find?_insertOrder _ ⟨n.order.orderId, s, p, q, ts⟩⟩
  · have hqueue := queue_insertOrder (b.unlink n.order.orderId ⟨s, k, n.addr⟩)
      ⟨n.order.orderId, s, p, q, ts⟩ s k
    rw [if_neg fun h => hp h.2.symm, queue_unlink hb hi hloc] at hqueue
    rw [LevelMap.find?_eq_none_iff_queue hne, ← queue, hqueue, filter_queue_eq_nil_iff hb hi hn]
    constructor
    · intro hsingle
      rw [← hsingle]
      exact LevelMap.find?_eq_some_of_queue (by rw [← queue, hsingle]; simp)
    · intro hfind
      exact LevelMap.queue_of_find? hfind
  · rw [queue_insertOrder, queue_unlink hb hi hloc]
    split
    · rw [List.filter_append, List.filter_filter]
      simp
    · rw [List.filter_filter]
      simp
  · rw [stats_insertOrder, stats_unlink]

/-! ## The place in the queue -/

include hb hi hn in
/-- What a modify does to the identifiers of every queue. -/
theorem queueIds_modifyOrder (q : Int32) (p : P) (ts : ℤ) (s' : Side) (k' : P) :
    (b.modifyOrder n.order.orderId q p ts).1.queueIds s' k' =
      if p = n.order.price ∧ q < n.order.quantity then b.queueIds s' k'
      else if s' = s ∧ k' = p then sendBack n.order.orderId (b.queueIds s' k')
      else (b.queueIds s' k').filter fun j => decide (j ≠ n.order.orderId) := by
  have hloc : b.orderMap.lookup n.order.orderId = some ⟨s, k, n.addr⟩ := hi s (k, n) hn
  rcases modifyOrder_of_rests hb hi hn q p ts with ⟨hp, hq, h⟩ | ⟨hc, h⟩
  · rw [h, if_pos ⟨hp, hq⟩, queueIds_setQuantity]
  · rw [h, if_neg hc]
    exact queueIds_insertOrder_unlink hb hi hloc (o := ⟨n.order.orderId, s, p, q, ts⟩) rfl s' k'

include hb hi hn in
/-- After a modify the order rests at its new price with its new quantity. -/
theorem rests_of_modifyOrder (q : Int32) (p : P) (ts : ℤ) :
    ∃ n', (p, n') ∈ (b.modifyOrder n.order.orderId q p ts).1.resting s ∧
      n'.order.orderId = n.order.orderId ∧ n'.order.price = p ∧ n'.order.quantity = q := by
  have hkey : n.order.price = k := (hb.keyed s (k, n) hn).2
  rcases modifyOrder_of_rests hb hi hn q p ts with ⟨hp, hq, h⟩ | ⟨hc, h⟩
  · rw [h]
    refine ⟨{ n with order := { n.order with quantity := q } }, ?_, rfl, hp.symm, rfl⟩
    have hmem : (k, { n with order := { n.order with quantity := q } }) ∈
        (b.setQuantity ⟨s, k, n.addr⟩ q).resting s := mem_setQuantity_self hn rfl q
    rwa [hp, hkey]
  · rw [h]
    exact ⟨_, mem_resting_insertOrder.mpr (Or.inl ⟨rfl, rfl⟩), rfl, rfl, rfl⟩

include hb hi hn in
theorem getLast?_queueIds_iff :
    (b.queueIds s k).getLast? = some n.order.orderId ↔ (b.queue s k).getLast? = some n := by
  rw [queueIds, List.getLast?_map]
  constructor
  · intro h
    obtain ⟨m, hm, hid⟩ := Option.map_eq_some_iff.mp h
    have hmem := mem_queue.mp (List.mem_of_getLast? hm)
    have hmn : m = n := congrArg Prod.snd (hi.id_inj hb hmem hn hid).2
    rw [hm, hmn]
  · intro h
    rw [h]
    rfl

include hb hi hn in
/-- **A modify that changes nothing** leaves every queue in its order exactly when
the order is the last of its own. -/
theorem queueIds_modifyOrder_same_iff (ts : ℤ) :
    (∀ s' k', (b.modifyOrder n.order.orderId n.order.quantity n.order.price ts).1.queueIds s' k' =
      b.queueIds s' k') ↔ (b.queueIds s k).getLast? = some n.order.orderId := by
  have hkey : n.order.price = k := (hb.keyed s (k, n) hn).2
  have hlt : ¬ (n.order.price = n.order.price ∧ n.order.quantity < n.order.quantity) :=
    fun h => Int32.lt_irrefl h.2
  rw [← sendBack_eq_self_iff (nodup_queueIds hb hi s k)]
  constructor
  · intro h
    have hsk := h s k
    rwa [queueIds_modifyOrder hb hi hn, if_neg hlt, if_pos ⟨rfl, hkey.symm⟩] at hsk
  · intro h s' k'
    rw [queueIds_modifyOrder hb hi hn, if_neg hlt]
    split
    · rename_i hc
      rw [hc.1, hc.2, hkey, h]
    · rename_i hc
      exact filter_queueIds_of_ne hb hi hn fun hc' => hc ⟨hc'.1, hc'.2.trans hkey.symm⟩

end Resting

/-- What the documented policy promises of a modify of the order `n`, which stands in
the level `k` of a side: its place in the queue changes only with the price or for a
larger quantity, and the same modify at any later time leaves every queue in its
order. -/
structure KeepsPlace (b : OrderBook P) (s : Side) (k : P) (n : Node P) (q : Int32) (p : P)
    (ts : ℤ) : Prop where
  position : ((b.modifyOrder n.order.orderId q p ts).1.queueIds s k).idxOf n.order.orderId ≠
      (b.queueIds s k).idxOf n.order.orderId →
    p ≠ n.order.price ∨ n.order.quantity < q
  repeated : ∀ ts', ts < ts' → ∀ s' k',
    ((b.modifyOrder n.order.orderId q p ts).1.modifyOrder n.order.orderId q p ts').1.queueIds
      s' k' = (b.modifyOrder n.order.orderId q p ts).1.queueIds s' k'

/-- The promise about the same modify, by the queue it finds. -/
theorem repeated_iff {b : OrderBook P} (hb : b.Linked) (hi : b.Indexed) {s : Side} {k : P}
    {n : Node P} (hn : (k, n) ∈ b.resting s) (q : Int32) (p : P) (ts : ℤ) :
    (∀ ts', ts < ts' → ∀ s' k',
      ((b.modifyOrder n.order.orderId q p ts).1.modifyOrder n.order.orderId q p ts').1.queueIds
        s' k' = (b.modifyOrder n.order.orderId q p ts).1.queueIds s' k') ↔
    ((b.modifyOrder n.order.orderId q p ts).1.queueIds s p).getLast? = some n.order.orderId := by
  obtain ⟨n', hn', hid, hp, hq⟩ := rests_of_modifyOrder hb hi hn q p ts
  have hsame := fun ts' => queueIds_modifyOrder_same_iff (hb.modifyOrder n.order.orderId q p ts)
    (hi.modifyOrder hb n.order.orderId q p ts) hn' ts'
  rw [hid, hp, hq] at hsame
  constructor
  · exact fun h => (hsame (ts + 1)).mp (h (ts + 1) (by omega))
  · exact fun h ts' _ => (hsame ts').mpr h

/-- **When a modify keeps the place it should**: the price changes, or the quantity
grows, or the order is the last of its queue. -/
theorem keepsPlace_iff {b : OrderBook P} (hb : b.Linked) (hi : b.Indexed) {s : Side} {k : P}
    {n : Node P} (hn : (k, n) ∈ b.resting s) (q : Int32) (p : P) (ts : ℤ) :
    b.KeepsPlace s k n q p ts ↔
      p ≠ n.order.price ∨ n.order.quantity < q ∨ (b.queue s k).getLast? = some n := by
  have hkey : n.order.price = k := (hb.keyed s (k, n) hn).2
  have hids : n.order.orderId ∈ b.queueIds s k := (mem_queueIds hb hi hn).mpr ⟨rfl, rfl⟩
  have hsplit : b.KeepsPlace s k n q p ts ↔ _ ∧ _ := ⟨fun h => ⟨h.1, h.2⟩, fun h => ⟨h.1, h.2⟩⟩
  rw [hsplit, repeated_iff hb hi hn, ← getLast?_queueIds_iff hb hi hn]
  by_cases hin : p = n.order.price ∧ q < n.order.quantity
  · -- in place: nothing moves, and the same modify is the one that changes nothing
    have hsame := fun s' k' => queueIds_modifyOrder hb hi hn q p ts s' k'
    simp only [if_pos hin] at hsame
    have hq : ¬ n.order.quantity < q := Int32.lt_asymm hin.2
    rw [hsame, hsame, hin.1, hkey]
    simp [hq]
  · -- reinserted: the order is last, and has moved unless it was last before
    have hlast : ((b.modifyOrder n.order.orderId q p ts).1.queueIds s p).getLast? =
        some n.order.orderId := by
      rw [queueIds_modifyOrder hb hi hn, if_neg hin, if_pos ⟨rfl, rfl⟩, getLast?_sendBack]
    by_cases hp : p = n.order.price
    · have hmoved : (b.modifyOrder n.order.orderId q p ts).1.queueIds s k =
          sendBack n.order.orderId (b.queueIds s k) := by
        rw [queueIds_modifyOrder hb hi hn, if_neg hin, if_pos ⟨rfl, hkey.symm.trans hp.symm⟩]
      rw [hlast, hmoved, ← idxOf_sendBack_iff (nodup_queueIds hb hi s k) hids]
      simp only [hp, ne_eq, not_true_eq_false, false_or, and_true]
      rw [← or_iff_not_imp_left, or_comm]
    · simp [hp, hlast]

end OrderBook

/-! ## Along histories -/

namespace Exchange

/-- **The semantics of modify**, of every order that rests in a book after a history in
which no identifier is added twice: a smaller quantity at the same price is written in
place, and another price or a larger quantity is a cancel followed by an add. -/
theorem modify_semantics (h : List (Op P)) (hfresh : FreshIds h) (symbol : Str) (s : Side)
    (k : P) (n : Node P) (hn : (k, n) ∈ ((api.run h : Exchange P).book symbol).resting s)
    (newQty : Int32) (newPrice : P) (timestamp : ℤ) :
    (newPrice = n.order.price → newQty < n.order.quantity →
      ((api.run h : Exchange P).book symbol).OnlyQuantity
        (((api.run h : Exchange P).book symbol).modifyOrder n.order.orderId newQty newPrice
          timestamp).1 n.addr newQty) ∧
    (newPrice ≠ n.order.price ∨ n.order.quantity < newQty →
      ((api.run h : Exchange P).book symbol).Requeues
        (((api.run h : Exchange P).book symbol).modifyOrder n.order.orderId newQty newPrice
          timestamp).1 s k n ⟨n.order.orderId, n.order.side, newPrice, newQty, timestamp⟩) := by
  have hw := wf_run h hfresh
  have hb := hw.linked symbol
  have hi := hw.routed.indexed symbol
  have hside : n.order.side = s := (hb.keyed s (k, n) hn).1
  rcases OrderBook.modifyOrder_of_rests hb hi hn newQty newPrice timestamp with
    ⟨hp, hq, hmod⟩ | ⟨hc, hmod⟩
  · rw [hmod]
    refine ⟨fun _ _ => OrderBook.onlyQuantity_setQuantity hb hn newQty, ?_⟩
    rintro (hp' | hq')
    · exact absurd hp hp'
    · exact absurd hq' (Int32.lt_asymm hq)
  · rw [hmod, hside]
    exact ⟨fun hp hq => absurd ⟨hp, hq⟩ hc, fun _ =>
      OrderBook.requeues_insertOrder hb hi hn newPrice newQty timestamp⟩

/-- Of three bids at one price, the second is reduced, and the first is moved to a
level of its own. -/
theorem modify_semantics_middle :
    let h : List (Op ℤ) :=
      [.addOrder ['A'] ⟨1, .buy, 10, 5, 1⟩, .addOrder ['A'] ⟨2, .buy, 10, 5, 2⟩,
        .addOrder ['A'] ⟨3, .buy, 10, 5, 3⟩]
    ((api.run h).book ['A']).OnlyQuantity
        (((api.run h).book ['A']).modifyOrder 2 4 10 9).1 1 4 ∧
      ((api.run h).book ['A']).Requeues (((api.run h).book ['A']).modifyOrder 1 5 11 9).1 .buy 10
        ⟨0, ⟨1, .buy, 10, 5, 1⟩⟩ ⟨1, .buy, 11, 5, 9⟩ := by
  intro h
  exact ⟨(modify_semantics h (by decide) ['A'] .buy 10 ⟨1, ⟨2, .buy, 10, 5, 2⟩⟩ (by decide) 4 10
      9).1 rfl (by decide),
    (modify_semantics h (by decide) ['A'] .buy 10 ⟨0, ⟨1, .buy, 10, 5, 1⟩⟩ (by decide) 5 11
      9).2 (Or.inl (by decide))⟩

/-- **Priority is lost for the documented reasons only**, and the same modify again
moves nothing, exactly when the price changes, or the quantity grows, or the order is
the last of its queue. -/
theorem modify_keepsPlace_iff (h : List (Op P)) (hfresh : FreshIds h) (symbol : Str) (s : Side)
    (k : P) (n : Node P) (hn : (k, n) ∈ ((api.run h : Exchange P).book symbol).resting s)
    (q : Int32) (p : P) (t : ℤ) :
    ((api.run h : Exchange P).book symbol).KeepsPlace s k n q p t ↔
      p ≠ n.order.price ∨ n.order.quantity < q ∨
        (((api.run h : Exchange P).book symbol).queue s k).getLast? = some n := by
  have hw := wf_run h hfresh
  exact OrderBook.keepsPlace_iff (hw.linked symbol) (hw.routed.indexed symbol) hn q p t

/-- The last of two bids may be modified freely. -/
theorem modify_keepsPlace_last :
    let h : List (Op ℤ) :=
      [.addOrder ['A'] ⟨1, .buy, 10, 5, 1⟩, .addOrder ['A'] ⟨2, .buy, 10, 5, 2⟩]
    ((api.run h).book ['A']).KeepsPlace .buy 10 ⟨1, ⟨2, .buy, 10, 5, 2⟩⟩ 5 10 3 := by
  intro h
  exact (modify_keepsPlace_iff h (by decide) ['A'] .buy 10 ⟨1, ⟨2, .buy, 10, 5, 2⟩⟩ (by decide)
    5 10 3).mpr (Or.inr (Or.inr (by decide)))

/-- The first of two bids is modified to what it is, and stands behind the other. -/
theorem modify_loses_place :
    ¬ ∀ h : List (Op ℤ), FreshIds h → ∀ symbol s k n,
      (k, n) ∈ ((api.run h).book symbol).resting s → ∀ q p t,
        ((api.run h).book symbol).KeepsPlace s k n q p t := by
  intro hall
  have hkeeps := hall
    [.addOrder ['A'] ⟨1, .buy, 10, 5, 1⟩, .addOrder ['A'] ⟨2, .buy, 10, 5, 2⟩] (by decide)
    ['A'] .buy 10 ⟨0, ⟨1, .buy, 10, 5, 1⟩⟩ (by decide) 5 10 3
  exact absurd (hkeeps.position (by decide)) (by decide)

end Exchange
end MatchingEngine
