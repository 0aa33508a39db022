import MatchingEngine.Exchange.Basic
import Mathlib.Data.Int.Order.Basic

/-!
# The representation invariant of the exchange

The two parts of the invariant of a book are carried to all books at once:
`Linked` holds whatever identifiers orders are given, `Routed` needs them to be
new.  Both are preserved by every call of the class, and along a history whose
added identifiers are pairwise different both hold (`wf_run`).

`RepInv` is the same invariant said in terms of positions: which node stands
where in which queue of which side of which book.
-/

namespace MatchingEngine

variable {P : Type} [LinearOrder P]

namespace Exchange

open OrderBook (Rests)

/-! ## All books at once -/

/-- The pointers of every book are sound. -/
def Linked (ex : Exchange P) : Prop := ∀ s, (ex.book s).Linked

/-- Every resting order is in the index of its book and routed to its symbol. -/
structure Routed (ex : Exchange P) : Prop where
  indexed : ∀ s, (ex.book s).Indexed
  routed : ∀ s i, (ex.book s).Rests i → ex.orderSymbolMap.lookup i = some s

theorem linked_empty : (empty : Exchange P).Linked := fun s => by
  rw [book_empty]
  exact OrderBook.linked_empty

theorem routed_empty : (empty : Exchange P).Routed where
  indexed s := by rw [book_empty]; exact OrderBook.indexed_empty
  routed s i h := by rw [book_empty] at h; exact absurd h (OrderBook.not_rests_empty i)

theorem Linked.addOrder {ex : Exchange P} (hl : ex.Linked) (symbol : Str) (o : Order P) :
    (ex.addOrder symbol o).1.Linked := by
  intro s
  rw [book_addOrder]
  split
  · exact (hl symbol).addOrder o
  · exact hl s

theorem Linked.cancelOrder {ex : Exchange P} (hl : ex.Linked) (i : UInt64) :
    (ex.cancelOrder i).1.Linked := by
  intro s
  rw [book_cancelOrder]
  split
  · exact (hl s).cancelOrder i
  · exact hl s

theorem Linked.modifyOrder {ex : Exchange P} (hl : ex.Linked) (i : UInt64) (symbol : Str)
    (q : Int32) (p : P) (ts : ℤ) : (ex.modifyOrder i symbol q p ts).1.Linked := by
  intro s
  rw [book_modifyOrder]
  split
  · exact (hl symbol).modifyOrder i q p ts
  · exact hl s

theorem Linked.matchOrders {ex : Exchange P} (hl : ex.Linked) (symbol : Str) :
    (ex.matchOrders symbol).1.Linked := by
  intro s
  rw [book_matchOrders]
  split
  · exact (hl symbol).matchOrders
  · exact hl s

theorem Linked.apply {ex : Exchange P} (hl : ex.Linked) (op : Op P) : (ex.apply op).1.Linked := by
  cases op with
  | addOrder symbol o => exact hl.addOrder symbol o
  | cancelOrder i => exact hl.cancelOrder i
  | modifyOrder i symbol q p ts => exact hl.modifyOrder i symbol q p ts
  | matchOrders symbol => exact hl.matchOrders symbol

/-- The identifier a call adds. -/
def Op.addedId : Op P → Option UInt64
  | .addOrder _ o => some o.orderId
  | _ => none

/-- An identifier rests in at most one book. -/
theorem Routed.symbol_unique {ex : Exchange P} (hr : ex.Routed) {s s' : Str} {i : UInt64}
    (h : (ex.book s).Rests i) (h' : (ex.book s').Rests i) : s = s' :=
  Option.some_inj.mp ((hr.routed s i h).symm.trans (hr.routed s' i h'))

theorem Routed.addOrder {ex : Exchange P} (hr : ex.Routed) {symbol : Str} {o : Order P}
    (hnew : ∀ s, ¬ (ex.book s).Rests o.orderId) : (ex.addOrder symbol o).1.Routed where
  indexed s := by
    rw [book_addOrder]
    split
    · exact (hr.indexed symbol).addOrder (hnew symbol)
    · exact hr.indexed s
  routed s i h := by
    rw [orderSymbolMap_addOrder]
    rw [book_addOrder] at h
    split at h
    · rename_i hs
      rcases OrderBook.rests_addOrder.mp h with rfl | h
      · rw [Finmap.lookup_insert, hs]
      · have hne : i ≠ o.orderId := fun he => hnew symbol (he ▸ h)
        rw [Finmap.lookup_insert_of_ne _ hne, hr.routed symbol i h, hs]
    · have hne : i ≠ o.orderId := fun he => hnew s (he ▸ h)
      rw [Finmap.lookup_insert_of_ne _ hne, hr.routed s i h]

theorem Routed.cancelOrder {ex : Exchange P} (hl : ex.Linked) (hr : ex.Routed) (i : UInt64) :
    (ex.cancelOrder i).1.Routed where
  indexed s := by
    rw [book_cancelOrder]
    split
    · exact (hr.indexed s).cancelOrder (hl s) i
    · exact hr.indexed s
  routed s j hj := by
    -- what still rests is not `i`: in its own book it is gone, in another it never was
    rw [book_cancelOrder] at hj
    rw [lookup_cancelOrder]
    split at hj
    · obtain ⟨hj, hne⟩ := (OrderBook.rests_cancelOrder (hl s) (hr.indexed s)).mp hj
      rw [if_neg hne]
      exact hr.routed s j hj
    · rename_i hs
      have hroute := hr.routed s j hj
      have hne : j ≠ i := by
        rintro rfl
        exact hs hroute
      rw [if_neg hne]
      exact hroute

theorem Routed.modifyOrder {ex : Exchange P} (hl : ex.Linked) (hr : ex.Routed) (i : UInt64)
    (symbol : Str) (q : Int32) (p : P) (ts : ℤ) : (ex.modifyOrder i symbol q p ts).1.Routed := by
  refine ⟨fun s => ?_, fun s j hj => ?_⟩
  · rw [book_modifyOrder]
    split
    · exact (hr.indexed symbol).modifyOrder (hl symbol) i q p ts
    · exact hr.indexed s
  · rw [orderSymbolMap_modifyOrder]
    rw [book_modifyOrder] at hj
    split at hj
    · rename_i hs
      rw [hs.1]
      exact hr.routed symbol j
        ((OrderBook.rests_modifyOrder (hl symbol) (hr.indexed symbol)).mp hj)
    · exact hr.routed s j hj

theorem Routed.matchOrders {ex : Exchange P} (hl : ex.Linked) (hr : ex.Routed) (symbol : Str) :
    (ex.matchOrders symbol).1.Routed where
  indexed s := by
    rw [book_matchOrders]
    split
    · exact (hr.indexed symbol).matchOrders (hl symbol)
    · exact hr.indexed s
  routed s j hj := by
    rw [orderSymbolMap_matchOrders]
    rw [book_matchOrders] at hj
    split at hj
    · rename_i hs
      rw [hs]
      exact hr.routed symbol j hj.of_matchOrders
    · exact hr.routed s j hj

theorem Routed.apply {ex : Exchange P} (hl : ex.Linked) (hr : ex.Routed) {op : Op P}
    (hnew : ∀ i, op.addedId = some i → ∀ s, ¬ (ex.book s).Rests i) : (ex.apply op).1.Routed := by
  cases op with
  | addOrder symbol o => exact hr.addOrder (hnew o.orderId rfl)
  | cancelOrder i => exact hr.cancelOrder hl i
  | modifyOrder i symbol q p ts => exact hr.modifyOrder hl i symbol q p ts
  | matchOrders symbol => exact hr.matchOrders hl symbol

/-- What rests after a call rested before it, or is what the call added. -/
theorem rests_apply {ex : Exchange P} (hl : ex.Linked) (hr : ex.Routed) {op : Op P} {s : Str}
    {i : UInt64} (h : ((ex.apply op).1.book s).Rests i) :
    op.addedId = some i ∨ (ex.book s).Rests i := by
  cases op with
  | addOrder symbol o =>
    rw [apply, book_addOrder] at h
    split at h
    · rename_i hs
      rcases OrderBook.rests_addOrder.mp h with rfl | h
      · exact Or.inl rfl
      · rw [hs]
        exact Or.inr h
    · exact Or.inr h
  | cancelOrder j =>
    refine Or.inr ?_
    rw [apply, book_cancelOrder] at h
    split at h
    · exact ((OrderBook.rests_cancelOrder (hl s) (hr.indexed s)).mp h).1
    · exact h
  | modifyOrder j symbol q p ts =>
    refine Or.inr ?_
    rw [apply, book_modifyOrder] at h
    split at h
    · rename_i hs
      rw [hs.1]
      exact (OrderBook.rests_modifyOrder (hl symbol) (hr.indexed symbol)).mp h
    · exact h
  | matchOrders symbol =>
    refine Or.inr ?_
    rw [apply, book_matchOrders] at h
    split at h
    · rename_i hs
      rw [hs]
      exact h.of_matchOrders
    · exact h

/-! ## Histories -/

/-- The identifiers added along a list of calls. -/
def addedIds (h : List (Op P)) : List UInt64 := h.filterMap Op.addedId

/-- No identifier is added twice. -/
def FreshIds (h : List (Op P)) : Prop := (addedIds h).Nodup

instance (h : List (Op P)) : Decidable (FreshIds h) :=
  inferInstanceAs (Decidable (addedIds h).Nodup)

omit [LinearOrder P] in
theorem addedIds_append (h k : List (Op P)) : addedIds (h ++ k) = addedIds h ++ addedIds k :=
  List.filterMap_append

omit [LinearOrder P] in
theorem hereditary_freshIds : Machine.Hereditary (FreshIds (P := P)) := by
  intro h op hh
  rw [FreshIds, addedIds_append] at hh
  exact (List.nodup_append.mp hh).1

/-- The invariant along a history: sound pointers, exact indices and routes, and
every resting identifier was added. -/
structure Wf (h : List (Op P)) (ex : Exchange P) : Prop where
  linked : ex.Linked
  routed : ex.Routed
  known : ∀ s i, (ex.book s).Rests i → i ∈ addedIds h

theorem wf_empty : Wf [] (empty : Exchange P) where
  linked := linked_empty
  routed := routed_empty
  known s i h := by rw [book_empty] at h; exact absurd h (OrderBook.not_rests_empty i)

/-- One call preserves the invariant. -/
theorem Wf.apply {h : List (Op P)} {ex : Exchange P} (hw : Wf h ex) {op : Op P}
    (hfresh : FreshIds (h ++ [op])) : Wf (h ++ [op]) (ex.apply op).1 := by
  have hnew : ∀ i, op.addedId = some i → ∀ s, ¬ (ex.book s).Rests i := by
    intro i hi s hrests
    rw [FreshIds, addedIds_append] at hfresh
    have hmem : i ∈ addedIds [op] := List.mem_filterMap.mpr ⟨op, List.mem_singleton_self op, hi⟩
    exact (List.nodup_append.mp hfresh).2.2 i (hw.known s i hrests) i hmem rfl
  refine ⟨hw.linked.apply op, hw.routed.apply hw.linked hnew, fun s i hi => ?_⟩
  rw [addedIds_append, List.mem_append]
  rcases rests_apply hw.linked hw.routed hi with hadd | hrests
  · exact Or.inr (List.mem_filterMap.mpr ⟨op, List.mem_singleton_self op, hadd⟩)
  · exact Or.inl (hw.known s i hrests)

theorem linked_run (h : List (Op P)) : (api.run h : Exchange P).Linked :=
  api.run_invariant linked_empty (fun _ op hl => hl.apply op) h

theorem wf_run (h : List (Op P)) (hfresh : FreshIds h) : Wf h (api.run h) :=
  api.run_induction hereditary_freshIds wf_empty (fun _ _ hf hw => hw.apply hf) h hfresh

/-! ## Positions -/

/-- Node `n` stands at position `j` of the level of price `k` on side `s` of the
book of `symbol`. -/
def At (ex : Exchange P) (symbol : Str) (s : Side) (k : P) (j : ℕ) (n : Node P) : Prop :=
  ∃ b queue, ex.books.lookup symbol = some b ∧ (b.levels s).find? k = some queue ∧
    queue[j]? = some n

/-- The representation invariant, position by position. -/
structure RepInv (ex : Exchange P) : Prop where
  /-- An identifier occurs at one position at most, over all queues of all books. -/
  id_unique : ∀ symbol s k j n symbol' s' k' j' n', ex.At symbol s k j n →
    ex.At symbol' s' k' j' n' → n.order.orderId = n'.order.orderId →
    symbol = symbol' ∧ s = s' ∧ k = k' ∧ j = j'
  /-- `orderMap` has an entry for an identifier exactly when it rests in the book. -/
  entry_iff : ∀ symbol b i, ex.books.lookup symbol = some b →
    ((∃ loc, b.orderMap.lookup i = some loc) ↔
      ∃ s k j n, ex.At symbol s k j n ∧ n.order.orderId = i)
  /-- The entry is the side, the level and the node of the order, whose own side
  and price are that side and that level. -/
  entry_exact : ∀ symbol b s k j n, ex.books.lookup symbol = some b → ex.At symbol s k j n →
    b.orderMap.lookup n.order.orderId = some ⟨s, k, n.addr⟩ ∧ n.order.side = s ∧
      n.order.price = k
  /-- An iterator designates one position of its book. -/
  iterator_unique : ∀ symbol s k j n s' k' j' n', ex.At symbol s k j n →
    ex.At symbol s' k' j' n' → n.addr = n'.addr → s = s' ∧ k = k' ∧ j = j'
  /-- No level is empty. -/
  nonempty : ∀ symbol b s k queue, ex.books.lookup symbol = some b →
    (b.levels s).find? k = some queue → queue ≠ []
  /-- Every resting order is routed to the book it rests in. -/
  routed : ∀ symbol s k j n, ex.At symbol s k j n →
    ex.orderSymbolMap.lookup n.order.orderId = some symbol

theorem At.mem_resting {ex : Exchange P} {symbol : Str} {s : Side} {k : P} {j : ℕ} {n : Node P}
    (h : ex.At symbol s k j n) : (k, n) ∈ (ex.book symbol).resting s := by
  obtain ⟨b, queue, hb, hq, hn⟩ := h
  rw [book_of_lookup hb]
  exact LevelMap.mem_flat.mpr
    ⟨queue, OrderedMap.find?_eq_some.mp hq, List.mem_of_getElem? hn⟩

/-- Two positions with the same node are one position. -/
theorem At.position_unique {ex : Exchange P} (hl : ex.Linked) {symbol : Str} {s : Side} {k : P}
    {j j' : ℕ} {n : Node P} (h : ex.At symbol s k j n) (h' : ex.At symbol s k j' n) : j = j' := by
  obtain ⟨b, queue, hb, hq, hn⟩ := h
  obtain ⟨b', queue', hb', hq', hn'⟩ := h'
  rw [hb] at hb'
  cases hb'
  rw [hq] at hq'
  cases hq'
  have hnd := (hl symbol).nodup_resting s
  rw [book_of_lookup hb] at hnd
  have hsub := LevelMap.level_sublist_flat hq
  have hqueue : queue.Nodup := (hnd.sublist hsub).of_map _
  have hj : j < queue.length := (List.getElem?_eq_some_iff.mp hn).1
  exact (List.getElem?_inj hj hqueue).mp (hn.trans hn'.symm)

theorem Wf.repInv {h : List (Op P)} {ex : Exchange P} (hw : Wf h ex) : RepInv ex where
  id_unique symbol s k j n symbol' s' k' j' n' hat hat' hid := by
    have hmem := hat.mem_resting
    have hmem' := hat'.mem_resting
    have hsymbol : symbol = symbol' :=
      hw.routed.symbol_unique ⟨s, _, hmem, rfl⟩ ⟨s', _, hmem', hid.symm⟩
    subst hsymbol
    obtain ⟨hs, he⟩ := (hw.routed.indexed symbol).id_inj (hw.linked symbol) hmem hmem' hid
    obtain ⟨hk, hn⟩ := Prod.mk.inj he
    subst hs hk hn
    exact ⟨rfl, rfl, rfl, hat.position_unique hw.linked hat'⟩
  entry_iff symbol b i hb := by
    have hiff := OrderBook.rests_iff (hw.linked symbol) (hw.routed.indexed symbol) i
    rw [book_of_lookup hb] at hiff
    rw [← hiff]
    constructor
    · rintro ⟨s, ⟨k, n⟩, he, hid⟩
      obtain ⟨queue, hq, hn⟩ := LevelMap.mem_flat.mp he
      obtain ⟨j, hj⟩ := List.mem_iff_getElem?.mp hn
      exact ⟨s, k, j, n, ⟨b, queue, hb, OrderedMap.find?_eq_some.mpr hq, hj⟩, hid⟩
    · rintro ⟨s, k, j, n, hat, hid⟩
      have hmem := hat.mem_resting
      rw [book_of_lookup hb] at hmem
      exact ⟨s, (k, n), hmem, hid⟩
  entry_exact symbol b s k j n hb hat := by
    have hmem := hat.mem_resting
    have hentry := hw.routed.indexed symbol s (k, n) hmem
    obtain ⟨hside, hprice⟩ := (hw.linked symbol).keyed s (k, n) hmem
    rw [book_of_lookup hb] at hentry
    exact ⟨hentry, hside, hprice⟩
  iterator_unique symbol s k j n s' k' j' n' hat hat' haddr := by
    obtain ⟨hs, he⟩ := (hw.linked symbol).addr_inj hat.mem_resting hat'.mem_resting haddr
    obtain ⟨hk, hn⟩ := Prod.mk.inj he
    subst hs hk hn
    exact ⟨rfl, rfl, hat.position_unique hw.linked hat'⟩
  nonempty symbol b s k queue hb hq := by
    have hne := (hw.linked symbol).nonempty s
    rw [book_of_lookup hb] at hne
    exact hne (k, queue) (OrderedMap.find?_eq_some.mp hq)
  routed symbol s k j n hat := hw.routed.routed symbol _ ⟨s, _, hat.mem_resting, rfl⟩

/-- **The representation invariant holds after every history of calls** in which
no identifier is added twice. -/
theorem repInv_run (h : List (Op P)) (hfresh : FreshIds h) : RepInv (api.run h) :=
  (wf_run h hfresh).repInv

/-- A history with a partial fill, a reinserting modify and a cancel. -/
theorem repInv_run_mixed :
    let h : List (Op ℤ) :=
      [.addOrder ['A'] ⟨1, .buy, 10, 5, 1⟩, .addOrder ['A'] ⟨2, .sell, 9, 2, 2⟩, .matchOrders ['A'],
        .modifyOrder 1 ['A'] 8 11 3, .addOrder ['B'] ⟨3, .sell, 7, 4, 4⟩, .cancelOrder 3]
    RepInv (api.run h) ∧ ((api.run h).book ['A']).Rests 1 :=
  ⟨repInv_run _ (by decide), .buy, (11, ⟨2, ⟨1, .buy, 11, 8, 3⟩⟩), by decide, rfl⟩

end Exchange
end MatchingEngine
