import MatchingEngine.OrderBook.Plain
import MatchingEngine.OrderBook.Depth
import MatchingEngine.Exchange.Routing
import Mathlib.Data.List.Find

/-!
# The books against the plain list

`Groups b s orders` connects a book to the list of all orders: every queue of the book
`b` of the symbol `s` is what the list holds of it, in the order of the list.  The list
says nothing of addresses, locations and levels, and the book nothing of the order in
which orders of different queues came.

Each operation of the book has one lemma.

* `Groups.insertOrder`, `Groups.unlink`, `Groups.setQuantity`: a change of the book is
  the change of the list that names the same identifier.
* `Groups.amend_of_not_rests`: a change of the list is not seen from a book where the
  identifier does not rest.
* `Groups.best`: the front of the best level is the best order of the list.
* `Groups.matchOrders`: the two loops make the same trades.
* `Groups.depth`: the book displays what the list does.
-/

namespace MatchingEngine

variable {P : Type} [LinearOrder P]

namespace OrderBook

open PlainOrders (Keeps filled)

/-- A queue is what its side holds at its price. -/
theorem queue_eq_filter {b : OrderBook P} (hb : b.Linked) (side : Side) (k : P) :
    b.queue side k = ((b.resting side).filter fun e => decide (e.1 = k)).map Prod.snd := by
  cases hq : (b.levels side).find? k with
  | none =>
    have hnil : b.queue side k = [] := LevelMap.queue_of_find?_none hq
    have hfilter : ((b.resting side).filter fun e => decide (e.1 = k)) = [] := by
      refine List.filter_eq_nil_iff.mpr fun e he hk => ?_
      have hmem : e.2 ∈ b.queue side k := by
        rw [mem_queue, ← of_decide_eq_true hk]
        exact he
      rw [hnil] at hmem
      exact absurd hmem List.not_mem_nil
    rw [hnil, hfilter, List.map_nil]
  | some queue =>
    have hflat := ((LevelMap.find?_iff_flat (hb.nonempty side)).mp hq).2
    rw [OrderBook.queue, LevelMap.queue_of_find? hq, resting, ← hflat, List.map_map]
    exact (List.map_id _).symm

/-- Every queue of the book of `s` is what the list holds of it. -/
def Groups (b : OrderBook P) (s : Str) (orders : PlainOrders P) : Prop :=
  ∀ side k, (b.queue side k).map Node.order = orders.queue s side k

theorem groups_empty (s : Str) : (empty : OrderBook P).Groups s [] := by
  intro side k
  have hnil : (empty : OrderBook P).queue side k = [] := by
    refine List.eq_nil_iff_forall_not_mem.mpr fun n hn => ?_
    rw [mem_queue, resting_empty] at hn
    exact absurd hn List.not_mem_nil
  rw [hnil]
  rfl

section Groups

variable {b : OrderBook P} {s : Str} {orders : PlainOrders P}

/-! ## The orders of a book -/

/-- What the list holds of a symbol rests in its book. -/
theorem Groups.mem_iff (hg : b.Groups s orders) {o : Order P} :
    (s, o) ∈ orders ↔ ∃ n, (o.price, n) ∈ b.resting o.side ∧ n.order = o := by
  have hqueue : (s, o) ∈ orders ↔ o ∈ (b.queue o.side o.price).map Node.order := by
    rw [hg, PlainOrders.mem_queue]
    simp only [and_true]
  rw [hqueue, List.mem_map]
  simp only [mem_queue]

/-- What rests in the book is in the list, under its own side and price. -/
theorem Groups.mem_of_resting (hg : b.Groups s orders) {side : Side} {e : P × Node P}
    (he : e ∈ b.resting side) :
    (s, e.2.order) ∈ orders ∧ e.2.order.side = side ∧ e.2.order.price = e.1 := by
  rw [← PlainOrders.mem_queue, ← hg]
  exact List.mem_map_of_mem (mem_queue.mpr he)

theorem Groups.rests_iff (hg : b.Groups s orders) {i : UInt64} :
    b.Rests i ↔ ∃ o, (s, o) ∈ orders ∧ o.orderId = i := by
  constructor
  · rintro ⟨side, e, he, hi⟩
    exact ⟨e.2.order, (hg.mem_of_resting he).1, hi⟩
  · rintro ⟨o, ho, hi⟩
    obtain ⟨n, hn, rfl⟩ := hg.mem_iff.mp ho
    exact ⟨n.order.side, _, hn, hi⟩

/-- A book holds no more orders than the list. -/
theorem Groups.restingCount_le (hg : b.Groups s orders) (hb : b.Linked) (hi : b.Indexed) :
    b.restingCount ≤ orders.length := by
  have hsub : b.ids ⊆ orders.ids := by
    intro i hmem
    obtain ⟨o, ho, hid⟩ := hg.rests_iff.mp (mem_ids.mp hmem)
    exact PlainOrders.mem_ids.mpr ⟨(s, o), ho, hid⟩
  have hle := (List.subperm_of_subset (hi.nodup_ids hb) hsub).length_le
  rwa [length_ids, PlainOrders.ids, List.length_map] at hle

/-! ## Changing the list -/

/-- A new place at the end of the list is the last of its queue. -/
theorem Groups.insertOrder (hg : b.Groups s orders) (o : Order P) :
    (b.insertOrder o).Groups s (orders ++ [(s, o)]) := by
  intro side k
  rw [queue_insertOrder, PlainOrders.queue_append, PlainOrders.queue_singleton, ← hg]
  by_cases hc : side = o.side ∧ k = o.price
  · rw [if_pos hc, if_pos ⟨⟨rfl, hc.1.symm⟩, hc.2.symm⟩, List.map_append, List.map_singleton]
  · rw [if_neg hc, if_neg fun h => hc ⟨h.1.2.symm, h.2.symm⟩, List.append_nil]

theorem Groups.addOrder (hg : b.Groups s orders) (o : Order P) :
    (b.addOrder o).1.Groups s (orders ++ [(s, o)]) := by
  intro side k
  rw [← hg.insertOrder o side k]
  cases side <;> rfl

/-- The other books do not see it. -/
theorem Groups.append_of_ne (hg : b.Groups s orders) {s' : Str} (hs : s ≠ s') (o : Order P) :
    b.Groups s (orders ++ [(s', o)]) := by
  intro side k
  rw [PlainOrders.queue_append, PlainOrders.queue_singleton, if_neg fun h => hs h.1.1.symm,
    List.append_nil, hg]

/-- A change of one identifier is not seen from a book where it does not rest. -/
theorem Groups.amend_of_not_rests (hg : b.Groups s orders) {g : Order P → Option (Order P)}
    (hkeep : Keeps g) {i : UInt64} (hself : ∀ o, o.orderId ≠ i → g o = some o)
    (hi : ¬ b.Rests i) : b.Groups s (orders.amend g) := by
  intro side k
  have hsome : ∀ o ∈ orders.queue s side k, g o = some o := by
    intro o ho
    refine hself o fun hid => hi (hg.rests_iff.mpr ⟨o, ?_, hid⟩)
    exact (PlainOrders.mem_queue.mp ho).1
  rw [PlainOrders.queue_amend hkeep, List.filterMap_congr hsome, hg]
  exact List.filterMap_some.symm

theorem Groups.unlink (hg : b.Groups s orders) (hb : b.Linked) (hi : b.Indexed) {i : UInt64}
    {loc : OrderLocation P} (hloc : b.orderMap.lookup i = some loc) :
    (b.unlink i loc).Groups s (orders.remove i) := by
  intro side k
  rw [queue_unlink hb hi hloc, PlainOrders.queue_remove, ← hg, List.filter_map]
  rfl

theorem Groups.setQuantity (hg : b.Groups s orders) (hb : b.Linked) (hi : b.Indexed)
    {i : UInt64} {loc : OrderLocation P} (hloc : b.orderMap.lookup i = some loc) (q : Int32) :
    (b.setQuantity loc q).Groups s (orders.setQuantity i q) := by
  intro side k
  obtain ⟨n₀, hn₀, haddr, hid⟩ := hb.located i loc hloc
  -- within the level of the location, the address and the identifier pick one node
  have hnode : ∀ n ∈ b.queue side k, (side = loc.side ∧ k = loc.price) ∧ n.addr = loc.it ↔
      n.order.orderId = i := by
    intro n hn
    have hmem : (k, n) ∈ b.resting side := mem_queue.mp hn
    constructor
    · rintro ⟨-, ha⟩
      have heq := (hb.addr_inj hmem hn₀ (ha.trans haddr.symm)).2
      rw [← hid, ← (Prod.mk.inj heq).2]
    · intro ho
      obtain ⟨hs, heq⟩ := hi.id_inj hb hmem hn₀ (ho.trans hid.symm)
      obtain ⟨hk, hn⟩ := Prod.mk.inj heq
      exact ⟨⟨hs, hk⟩, by rw [hn, haddr]⟩
  have horder : ∀ n ∈ b.queue side k,
      (if side = loc.side ∧ k = loc.price then requantify loc.it q n else n).order =
        if n.order.orderId = i then { n.order with quantity := q } else n.order := by
    intro n hn
    by_cases ho : n.order.orderId = i
    · obtain ⟨hc, ha⟩ := (hnode n hn).mpr ho
      rw [if_pos hc, if_pos ho, requantify, if_pos ha]
    · rw [if_neg ho]
      split
      · rename_i hc
        rw [requantify, if_neg fun ha => ho ((hnode n hn).mp ⟨hc, ha⟩)]
      · rfl
  rw [PlainOrders.queue_setQuantity, ← hg, List.map_map, queue_setQuantity]
  refine Eq.trans ?_ (List.map_congr_left horder)
  split
  · rw [List.map_map]
    rfl
  · rfl

/-! ## The best order -/

/-- **The front of the best level** is the best order of the list. -/
theorem Groups.best (hg : b.Groups s orders) (hb : b.Linked) (side : Side) :
    orders.best s side = (b.resting side).head?.map fun e => e.2.order := by
  rw [PlainOrders.best]
  have hon : ∀ e ∈ orders, PlainOrders.On s side e →
      ∃ n, (e.2.price, n) ∈ b.resting side ∧ n.order = e.2 := by
    rintro ⟨s', o⟩ he ⟨rfl, rfl⟩
    exact hg.mem_iff.mp he
  cases hrest : b.resting side with
  | nil =>
    have hnone : ∀ e ∈ orders, ¬ decide (orders.Unbeaten s side e) = true := by
      intro e he hun
      obtain ⟨n, hn, -⟩ := hon e he (of_decide_eq_true hun).1
      rw [hrest] at hn
      exact absurd hn List.not_mem_nil
    rw [List.find?_eq_none.mpr hnone]
    rfl
  | cons h rest =>
    have hordered := b.keyOrdered_resting side
    rw [hrest] at hordered
    have hfirst : ∀ e ∈ b.resting side, ¬ before side e.1 h.1 := by
      intro e he
      rw [hrest] at he
      rcases List.mem_cons.mp he with rfl | he
      · exact irrefl _
      · exact (List.pairwise_cons.mp hordered).1 e he
    have hhead : h ∈ b.resting side := by
      rw [hrest]
      exact List.mem_cons_self
    obtain ⟨hmem, hside, hprice⟩ := hg.mem_of_resting hhead
    -- what no order beats is what stands at the price of the head
    have hunbeaten : ∀ e ∈ orders, decide (orders.Unbeaten s side e) =
        decide (PlainOrders.On s side e ∧ e.2.price = h.1) := by
      intro e he
      refine decide_eq_decide.mpr ⟨fun hun => ⟨hun.1, ?_⟩, fun hk => ⟨hk.1, fun e' he' hon' => ?_⟩⟩
      · obtain ⟨n, hn, -⟩ := hon e he hun.1
        have hbeat := hun.2 (s, h.2.order) hmem ⟨rfl, hside⟩
        rw [hprice] at hbeat
        rcases trichotomous_of (before side) e.2.price h.1 with hlt | heq | hlt
        · exact absurd hlt (hfirst _ hn)
        · exact heq
        · exact absurd hlt hbeat
      · obtain ⟨n, hn, -⟩ := hon e' he' hon'
        rw [hk.2]
        exact hfirst _ hn
    have hqueue : (orders.queue s side h.1).head? = some h.2.order := by
      rw [← hg, queue_eq_filter hb, hrest, List.filter_cons_of_pos (by simp)]
      rfl
    rw [List.find?_congr hunbeaten, ← List.head?_filter, ← List.head?_map, List.head?_cons,
      Option.map_some]
    exact hqueue

/-! ## Matching -/

/-- A fill of an identifier, seen from a place of a side. -/
def filledEntry (i : UInt64) (q : Int32) (e : P × Node P) : Option (P × Node P) :=
  (filled i q e.2.order).map fun o => (e.1, { e.2 with order := o })

omit [LinearOrder P] in
/-- A fill of the head is a fill of its identifier, when the rest carries others. -/
theorem fillHead_eq_filterMap {h : P × Node P} {q : Int32} {l : List (P × Node P)}
    (hne : ∀ e ∈ l, e.2.order.orderId ≠ h.2.order.orderId) :
    fillHead h q l = (h :: l).filterMap (filledEntry h.2.order.orderId q) := by
  have hsome : ∀ e ∈ l, filledEntry h.2.order.orderId q e = some e := by
    intro e he
    rw [filledEntry, filled, if_neg (hne e he)]
    rfl
  rw [List.filterMap_cons, List.filterMap_congr hsome, List.filterMap_some, fillHead, filledEntry,
    filled, if_pos rfl]
  split <;> rfl

/-- A fill goes through each queue. -/
theorem filterMap_filledEntry (i : UInt64) (q : Int32) (k : P) (l : List (P × Node P)) :
    (((l.filterMap (filledEntry i q)).filter fun e => decide (e.1 = k)).map Prod.snd).map
        Node.order =
      (((l.filter fun e => decide (e.1 = k)).map Prod.snd).map Node.order).filterMap
        (filled i q) := by
  induction l with
  | nil => rfl
  | cons e l ih =>
    by_cases hk : e.1 = k
    · cases hf : filled i q e.2.order with
      | none =>
        rw [List.filterMap_cons_none (by rw [filledEntry, hf]; rfl),
          List.filter_cons_of_pos (by simpa using hk), List.map_cons, List.map_cons,
          List.filterMap_cons_none hf, ih]
      | some o =>
        rw [List.filterMap_cons_some (b := (e.1, { e.2 with order := o }))
          (by rw [filledEntry, hf]; rfl), List.filter_cons_of_pos (by simpa using hk),
          List.filter_cons_of_pos (by simpa using hk), List.map_cons, List.map_cons,
          List.map_cons, List.map_cons, List.filterMap_cons_some hf, ih]
    · rw [List.filter_cons_of_neg (by simpa using hk), ← ih]
      cases hf : filled i q e.2.order with
      | none => rw [List.filterMap_cons_none (by rw [filledEntry, hf]; rfl)]
      | some o =>
        rw [List.filterMap_cons_some (b := (e.1, { e.2 with order := o }))
          (by rw [filledEntry, hf]; rfl), List.filter_cons_of_neg (by simpa using hk)]

/-- **A fill of the head of a side, seen from a queue.** -/
theorem queue_fillHead {b' : OrderBook P} (hb : b.Linked) (hb' : b'.Linked) {side : Side}
    {h : P × Node P} {l : List (P × Node P)} {q : Int32} (hrest : b.resting side = h :: l)
    (hne : ∀ e ∈ l, e.2.order.orderId ≠ h.2.order.orderId)
    (hrest' : b'.resting side = fillHead h q l) (k : P) :
    (b'.queue side k).map Node.order =
      ((b.queue side k).map Node.order).filterMap (filled h.2.order.orderId q) := by
  rw [queue_eq_filter hb', hrest', fillHead_eq_filterMap hne, filterMap_filledEntry, ← hrest,
    ← queue_eq_filter hb]

/-- A side repeats no identifier. -/
theorem Indexed.head_ne (hb : b.Linked) (hi : b.Indexed) {side : Side} {h : P × Node P}
    {l : List (P × Node P)} (hrest : b.resting side = h :: l) :
    ∀ e ∈ l, e.2.order.orderId ≠ h.2.order.orderId := by
  intro e he hid
  have hnd := hb.nodup_resting side
  have hmem : e ∈ b.resting side := by
    rw [hrest]
    exact List.mem_cons_of_mem _ he
  have hhead : h ∈ b.resting side := by
    rw [hrest]
    exact List.mem_cons_self
  have heq := (hi.id_inj hb hmem hhead hid).2
  rw [hrest, heq.symm] at hnd
  exact (List.nodup_cons.mp hnd).1 he

/-- **One iteration of `matchOrders`** is the fill of two identifiers. -/
theorem Groups.matchStep (hg : b.Groups s orders) (hb : b.Linked) (hi : b.Indexed)
    {t : Trade P} {b' : OrderBook P} (h : b.matchStep = some (t, b')) :
    ∃ bid ask, b.Rests bid ∧ b.Rests ask ∧
      orders.matchStep s = some (t, (orders.fill bid t.quantity).fill ask t.quantity) ∧
      b'.Groups s ((orders.fill bid t.quantity).fill ask t.quantity) := by
  have hb' := hb.matchStep h
  obtain ⟨bid, bids, ask, asks, hbuy, hsell, hle, ht, hbuy', hsell', -⟩ := matchStep_eq_some h
  have hbid : bid ∈ b.resting .buy := by rw [hbuy]; exact List.mem_cons_self
  have hask : ask ∈ b.resting .sell := by rw [hsell]; exact List.mem_cons_self
  refine ⟨bid.2.order.orderId, ask.2.order.orderId, ⟨.buy, bid, hbid, rfl⟩,
    ⟨.sell, ask, hask, rfl⟩, ?_, fun side k => ?_⟩
  · have hbest := hg.best hb .buy
    have hbest' := hg.best hb .sell
    rw [hbuy, List.head?_cons, Option.map_some] at hbest
    rw [hsell, List.head?_cons, Option.map_some] at hbest'
    have hcross : ¬ bid.2.order.price < ask.2.order.price := by
      rw [(hb.keyed .buy bid hbid).2, (hb.keyed .sell ask hask).2]
      exact not_lt.mpr hle
    rw [PlainOrders.matchStep, hbest, hbest']
    simp only [if_neg hcross, ← ht]
  · rw [PlainOrders.queue_fill, PlainOrders.queue_fill, ← hg]
    -- the fill of an order of the other side passes over the queue
    have hskip : ∀ {side' : Side} {e : P × Node P}, e ∈ b.resting side' → side ≠ side' →
        ∀ o ∈ (b.queue side k).map Node.order, o.orderId ≠ e.2.order.orderId := by
      intro side' e he hs o ho
      obtain ⟨n, hn, rfl⟩ := List.mem_map.mp ho
      exact fun hid => hs (hi.id_inj hb (mem_queue.mp hn) he hid).1
    cases side with
    | buy =>
      have hqueue := queue_fillHead hb hb' hbuy (hi.head_ne hb hbuy) hbuy' k
      rw [hqueue]
      refine (PlainOrders.filterMap_filled_of_ne fun o ho => ?_).symm
      obtain ⟨o₀, ho₀, hf⟩ := List.mem_filterMap.mp ho
      rw [(PlainOrders.keeps_filled _ _ o₀ o hf).1]
      exact hskip hask (by simp) o₀ ho₀
    | sell =>
      rw [PlainOrders.filterMap_filled_of_ne (hskip hbid (by simp))]
      exact queue_fillHead hb hb' hsell (hi.head_ne hb hsell) hsell' k

/-- The two loops stop together. -/
theorem Groups.matchStep_none (hg : b.Groups s orders) (hb : b.Linked)
    (h : b.matchStep = none) : orders.matchStep s = none := by
  have huncrossed := (matchStep_eq_none_iff hb.nonempty).mp h
  rw [PlainOrders.matchStep, hg.best hb .buy, hg.best hb .sell]
  cases hbuy : b.resting .buy with
  | nil => rfl
  | cons bid bids =>
    cases hsell : b.resting .sell with
    | nil => rfl
    | cons ask asks =>
      have hbid : bid ∈ b.resting .buy := by rw [hbuy]; exact List.mem_cons_self
      have hask : ask ∈ b.resting .sell := by rw [hsell]; exact List.mem_cons_self
      have hlt := huncrossed bid hbid ask hask
      rw [← (hb.keyed .buy bid hbid).2, ← (hb.keyed .sell ask hask).2] at hlt
      simp only [List.head?_cons, Option.map_some, if_pos hlt]

/-- **The two loops make the same trades.**  The book ends with what the list holds of
its symbol, and no other book sees anything of it. -/
theorem Groups.matchOrders (hg : b.Groups s orders) (hb : b.Linked) (hi : b.Indexed) :
    b.matchOrders.2 = (orders.matchOrders s).2.map Event.trade ∧
      b.matchOrders.1.Groups s (orders.matchOrders s).1 ∧
      (orders.Distinct → (orders.matchOrders s).1.Distinct) ∧
      ∀ (b₀ : OrderBook P) s₀, b₀.Groups s₀ orders → (∀ i, b.Rests i → ¬ b₀.Rests i) →
        b₀.Groups s₀ (orders.matchOrders s).1 := by
  have hsim := Loop.simulation (Q := Eq)
    (R := fun b' orders' => b'.Linked ∧ b'.Indexed ∧ b'.Groups s orders' ∧
      (∀ i, b'.Rests i → b.Rests i) ∧ (orders.Distinct → orders'.Distinct) ∧
      ∀ (b₀ : OrderBook P) s₀, b₀.Groups s₀ orders → (∀ i, b.Rests i → ¬ b₀.Rests i) →
        b₀.Groups s₀ orders')
    (fun b' orders' hr (h : OrderBook.matchStep b' = none) => hr.2.2.1.matchStep_none hr.1 h) ?_
    b.restingCount b orders
    ⟨hb, hi, hg, fun _ h => h, fun h => h, fun _ _ h _ => h⟩
  · obtain ⟨hout, hlinked, -, hgroups, -, hdistinct, hothers⟩ := hsim
    rw [List.forall₂_eq_eq_eq] at hout
    -- the bound of the longer loop is not what stops it
    have hstop : PlainOrders.matchStep s (Loop.final (PlainOrders.matchStep s) b.restingCount
        orders) = none := hgroups.matchStep_none hlinked b.matchStep_matchOrders
    obtain ⟨hfinal, houtputs⟩ := Loop.final_of_le (hg.restingCount_le hb hi) hstop
    rw [PlainOrders.matchOrders, hfinal, houtputs, ← hout]
    exact ⟨rfl, hgroups, hdistinct, hothers⟩
  · rintro b' orders' t b'' ⟨hb', hi', hg', hrests, hdistinct, hothers⟩ h
    obtain ⟨bid, ask, hbid, hask, hstep, hgroups⟩ := hg'.matchStep hb' hi' h
    refine ⟨t, _, hstep, rfl, hb'.matchStep h, hi'.matchStep hb' h, hgroups,
      fun i hr => hrests i (hr.of_matchStep h), fun hd => ?_, fun b₀ s₀ hg₀ hno => ?_⟩
    · exact ((hdistinct hd).amend fun o o' ho => (PlainOrders.keeps_filled _ _ o o' ho).1).amend
        fun o o' ho => (PlainOrders.keeps_filled _ _ o o' ho).1
    · have hskip : ∀ (i : UInt64) (o : Order P), o.orderId ≠ i → filled i t.quantity o = some o :=
        fun i o ho => if_neg ho
      exact ((hothers b₀ s₀ hg₀ hno).amend_of_not_rests (PlainOrders.keeps_filled _ _) (hskip bid)
        (hno bid (hrests bid hbid))).amend_of_not_rests (PlainOrders.keeps_filled _ _) (hskip ask)
        (hno ask (hrests ask hask))

/-! ## Display -/

/-- The levels of a side, best first, are at the prices of the list. -/
theorem Groups.prices (hg : b.Groups s orders) (hb : b.Linked) (side : Side) :
    (b.levels side).entries.map Prod.fst = orders.prices s side := by
  have hkeys : ((b.levels side).entries.map Prod.fst).Pairwise (before side) := by
    rw [List.pairwise_map]
    exact (b.levels side).sorted
  have hmem : ∀ k, k ∈ (b.levels side).entries.map Prod.fst ↔ k ∈ orders.prices s side := by
    intro k
    have hqueue : k ∈ (b.levels side).entries.map Prod.fst ↔ ∃ n, n ∈ b.queue side k := by
      rw [List.mem_map]
      constructor
      · rintro ⟨e, he, rfl⟩
        rw [queue_of_mem_entries he]
        exact List.exists_mem_of_ne_nil _ (hb.nonempty side e he)
      · rintro ⟨n, hn⟩
        obtain ⟨q, hq, -⟩ := LevelMap.mem_flat.mp (mem_queue.mp hn)
        exact ⟨_, hq, rfl⟩
    rw [hqueue, PlainOrders.prices, List.mem_insertionSort, List.mem_dedup, List.mem_map]
    constructor
    · rintro ⟨n, hn⟩
      obtain ⟨hmem, hside, hprice⟩ := hg.mem_of_resting (mem_queue.mp hn)
      exact ⟨(s, n.order), List.mem_filter.mpr ⟨hmem, decide_eq_true ⟨rfl, hside⟩⟩, hprice⟩
    · rintro ⟨⟨s', o⟩, he, rfl⟩
      obtain ⟨hmem, hon⟩ := List.mem_filter.mp he
      obtain ⟨rfl, rfl⟩ := of_decide_eq_true hon
      obtain ⟨n, hn, -⟩ := hg.mem_iff.mp hmem
      exact ⟨n, mem_queue.mpr hn⟩
  have hnodup : ((b.levels side).entries.map Prod.fst).Nodup :=
    hkeys.imp fun hab => ne_of_irrefl hab
  have hsorted : ((b.levels side).entries.map Prod.fst).Pairwise (notAfter side) :=
    hkeys.imp fun hab => asymm hab
  have hperm : ((b.levels side).entries.map Prod.fst).Perm (orders.prices s side) := by
    refine (List.perm_ext_iff_of_nodup hnodup ?_).mpr hmem
    exact (List.perm_insertionSort _ _).nodup_iff.mpr (List.nodup_dedup _)
  exact hperm.eq_of_pairwise' hsorted (List.pairwise_insertionSort _ _)

/-- **The book displays what the list does.** -/
theorem Groups.depth (hg : b.Groups s orders) (hb : b.Linked) (side : Side) :
    OrderBook.depth (b.levels side) = orders.depth s side := by
  rw [OrderBook.depth, PlainOrders.depth, ← hg.prices hb, ← List.map_take, List.map_map]
  refine List.map_congr_left fun e he => ?_
  have hqueue := queue_of_mem_entries (List.mem_of_mem_take he)
  rw [Function.comp, ← hg, hqueue, List.foldl_map, List.length_map]

end Groups

end OrderBook
end MatchingEngine
