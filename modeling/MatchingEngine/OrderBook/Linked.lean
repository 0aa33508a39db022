import MatchingEngine.OrderBook.Resting

/-!
# The links of the book

`Linked b` says that the pointers of the book are sound: no level is empty, an
order rests on its own side at its own price, addresses are never shared, and
every entry of `orderMap` names a live node with its identifier.  It holds of
every book the operations can build, whatever identifiers they are given.

`Indexed b` is the converse of the last clause: every resting order has its
entry.  It needs identifiers not to be reused, and together the two say that
`orderMap` is exactly the index of the resting orders.

Each operation has one lemma for each of the two.
-/

namespace MatchingEngine

variable {P : Type} [LinearOrder P]

namespace OrderBook

/-- The pointers of the book are sound. -/
structure Linked (b : OrderBook P) : Prop where
  nonempty : ∀ s, (b.levels s).NonemptyLevels
  keyed : ∀ s, ∀ e ∈ b.resting s, e.2.order.side = s ∧ e.2.order.price = e.1
  bounded : ∀ s, ∀ e ∈ b.resting s, e.2.addr < b.nextNode
  nodup : ((b.resting .buy ++ b.resting .sell).map fun e => e.2.addr).Nodup
  located : ∀ i loc, b.orderMap.lookup i = some loc →
    ∃ n, (loc.price, n) ∈ b.resting loc.side ∧ n.addr = loc.it ∧ n.order.orderId = i

/-- Every resting order has its entry in `orderMap`. -/
def Indexed (b : OrderBook P) : Prop :=
  ∀ s, ∀ e ∈ b.resting s, b.orderMap.lookup e.2.order.orderId = some ⟨s, e.1, e.2.addr⟩

/-- An order with this identifier rests in the book. -/
def Rests (b : OrderBook P) (i : UInt64) : Prop := ∃ s, ∃ e ∈ b.resting s, e.2.order.orderId = i

theorem linked_empty : (empty : OrderBook P).Linked where
  nonempty s := by cases s <;> exact LevelMap.nonemptyLevels_empty
  keyed s e he := by rw [resting_empty] at he; exact absurd he List.not_mem_nil
  bounded s e he := by rw [resting_empty] at he; exact absurd he List.not_mem_nil
  nodup := by rw [resting_empty, resting_empty]; exact List.nodup_nil
  located i loc h := by rw [empty, Finmap.lookup_empty] at h; exact absurd h (by simp)

theorem indexed_empty : (empty : OrderBook P).Indexed := by
  intro s e he
  rw [resting_empty] at he
  exact absurd he List.not_mem_nil

theorem not_rests_empty (i : UInt64) : ¬ (empty : OrderBook P).Rests i := by
  rintro ⟨s, e, he, -⟩
  rw [resting_empty] at he
  exact absurd he List.not_mem_nil

/-! ## Addresses -/

/-- The addresses of all nodes of the book. -/
def addrs (b : OrderBook P) : List ℕ := (b.resting .buy ++ b.resting .sell).map fun e => e.2.addr

theorem mem_addrs {b : OrderBook P} {a : ℕ} :
    a ∈ b.addrs ↔ ∃ s, ∃ e ∈ b.resting s, e.2.addr = a := by
  rw [addrs, List.mem_map]
  constructor
  · rintro ⟨e, he, ha⟩
    rcases List.mem_append.mp he with h | h
    · exact ⟨.buy, e, h, ha⟩
    · exact ⟨.sell, e, h, ha⟩
  · rintro ⟨s, e, he, ha⟩
    cases s with
    | buy => exact ⟨e, List.mem_append_left _ he, ha⟩
    | sell => exact ⟨e, List.mem_append_right _ he, ha⟩

/-- **An address names one node**, on one side. -/
theorem Linked.addr_inj {b : OrderBook P} (hb : b.Linked) {s s' : Side} {e e' : P × Node P}
    (he : e ∈ b.resting s) (he' : e' ∈ b.resting s') (h : e.2.addr = e'.2.addr) :
    s = s' ∧ e = e' := by
  have hnd := hb.nodup
  rw [List.map_append, List.nodup_append] at hnd
  obtain ⟨hbuy, hsell, hcross⟩ := hnd
  have hne : ∀ x ∈ b.resting .buy, ∀ y ∈ b.resting .sell, x.2.addr ≠ y.2.addr :=
    fun x hx y hy => hcross _ (List.mem_map_of_mem hx) _ (List.mem_map_of_mem hy)
  cases s <;> cases s'
  · exact ⟨rfl, List.inj_on_of_nodup_map hbuy he he' h⟩
  · exact absurd h (hne e he e' he')
  · exact absurd h.symm (hne e' he' e he)
  · exact ⟨rfl, List.inj_on_of_nodup_map hsell he he' h⟩

/-- The two sides of a book whose addresses are among those of another one. -/
theorem nodup_addrs_of_sublist {b b' : OrderBook P} (hb : b.addrs.Nodup)
    (h : ∀ s, ((b'.resting s).map fun e => e.2.addr).Sublist
      ((b.resting s).map fun e => e.2.addr)) :
    b'.addrs.Nodup := by
  rw [addrs, List.map_append] at hb ⊢
  exact hb.sublist ((h .buy).append (h .sell))

/-- **An identifier names one order** of an indexed book. -/
theorem Indexed.id_inj {b : OrderBook P} (hb : b.Linked) (hi : b.Indexed) {s s' : Side}
    {e e' : P × Node P} (he : e ∈ b.resting s) (he' : e' ∈ b.resting s')
    (h : e.2.order.orderId = e'.2.order.orderId) : s = s' ∧ e = e' := by
  have h1 := hi s e he
  have h2 := hi s' e' he'
  rw [h] at h1
  have hloc := Option.some_inj.mp (h1.symm.trans h2)
  exact hb.addr_inj he he' (congrArg OrderLocation.it hloc)

/-- Of an indexed book, `orderMap` knows exactly the resting orders. -/
theorem rests_iff {b : OrderBook P} (hb : b.Linked) (hi : b.Indexed) (i : UInt64) :
    b.Rests i ↔ ∃ loc, b.orderMap.lookup i = some loc := by
  constructor
  · rintro ⟨s, e, he, rfl⟩
    exact ⟨_, hi s e he⟩
  · rintro ⟨loc, hloc⟩
    obtain ⟨n, hn, -, hid⟩ := hb.located i loc hloc
    exact ⟨loc.side, _, hn, hid⟩

/-- Through an iterator of the index one reads the order with that identifier. -/
theorem Linked.deref_eq {b : OrderBook P} (hb : b.Linked) {i : UInt64} {loc : OrderLocation P}
    (h : b.orderMap.lookup i = some loc) :
    ∃ n, b.deref loc = some n.order ∧ (loc.price, n) ∈ b.resting loc.side ∧ n.addr = loc.it ∧
      n.order.orderId = i ∧ n.order.side = loc.side ∧ n.order.price = loc.price := by
  obtain ⟨n, hn, haddr, hid⟩ := hb.located i loc h
  obtain ⟨hside, hprice⟩ := hb.keyed loc.side _ hn
  cases hd : b.deref loc with
  | none => exact absurd hd (deref_ne_none hn haddr)
  | some o =>
    obtain ⟨n', hn', haddr', ho⟩ := deref_eq_some hd
    have heq := (hb.addr_inj hn hn' (haddr.trans haddr'.symm)).2
    have hnn : n = n' := congrArg Prod.snd heq
    exact ⟨n, by rw [hnn, ho], hn, haddr, hid, hside, hprice⟩

/-! ## Inserting -/

theorem Linked.insertOrder {b : OrderBook P} (hb : b.Linked) (o : Order P) :
    (b.insertOrder o).Linked where
  nonempty s := by
    rw [levels_insertOrder]
    split
    · exact LevelMap.nonemptyLevels_pushBack (hb.nonempty s) _ _
    · exact hb.nonempty s
  keyed s e he := by
    rcases mem_resting_insertOrder.mp he with ⟨hs, rfl⟩ | he
    · exact ⟨hs.symm, rfl⟩
    · exact hb.keyed s e he
  bounded s e he := by
    rw [nextNode_insertOrder]
    rcases mem_resting_insertOrder.mp he with ⟨-, rfl⟩ | he
    · exact Nat.lt_succ_self _
    · exact Nat.lt_succ_of_lt (hb.bounded s e he)
  nodup := by
    -- the node supply keeps the new address apart from the old ones
    have hfresh : b.nextNode ∉ b.addrs := by
      intro hmem
      obtain ⟨s, e, he, ha⟩ := mem_addrs.mp hmem
      exact absurd (hb.bounded s e he) (by omega)
    have hcons : (b.nextNode :: b.addrs).Nodup := List.nodup_cons.mpr ⟨hfresh, hb.nodup⟩
    refine hcons.perm ?_
    cases ho : o.side with
    | buy =>
      rw [resting_insertOrder, resting_insertOrder, if_pos ho.symm, if_neg (by rw [ho]; simp),
        addrs, ← List.map_cons (f := fun e : P × Node P => e.2.addr)
          (a := (o.price, (⟨b.nextNode, o⟩ : Node P))), ← List.cons_append]
      exact ((insertAfter_perm _ _).symm.append_right _).map _
    | sell =>
      rw [resting_insertOrder, resting_insertOrder, if_pos ho.symm, if_neg (by rw [ho]; simp),
        addrs, ← List.map_cons (f := fun e : P × Node P => e.2.addr)
          (a := (o.price, (⟨b.nextNode, o⟩ : Node P)))]
      exact (List.perm_middle.symm.trans ((insertAfter_perm _ _).symm.append_left _)).map _
  located i loc h := by
    rw [orderMap_insertOrder] at h
    by_cases hi : i = o.orderId
    · subst hi
      rw [Finmap.lookup_insert] at h
      have hloc := (Option.some_inj.mp h).symm
      subst hloc
      exact ⟨⟨b.nextNode, o⟩, mem_resting_insertOrder.mpr (Or.inl ⟨rfl, rfl⟩), rfl, rfl⟩
    · rw [Finmap.lookup_insert_of_ne _ hi] at h
      obtain ⟨n, hn, haddr, hid⟩ := hb.located i loc h
      exact ⟨n, mem_resting_insertOrder.mpr (Or.inr hn), haddr, hid⟩

theorem Indexed.insertOrder {b : OrderBook P} (hi : b.Indexed) {o : Order P}
    (hnew : ¬ b.Rests o.orderId) : (b.insertOrder o).Indexed := by
  intro s e he
  rw [orderMap_insertOrder]
  rcases mem_resting_insertOrder.mp he with ⟨hs, rfl⟩ | he
  · rw [Finmap.lookup_insert, hs]
  · have hne : e.2.order.orderId ≠ o.orderId := fun h => hnew ⟨s, e, he, h⟩
    rw [Finmap.lookup_insert_of_ne _ hne, hi s e he]

theorem rests_insertOrder {b : OrderBook P} {o : Order P} {i : UInt64} :
    (b.insertOrder o).Rests i ↔ i = o.orderId ∨ b.Rests i := by
  constructor
  · rintro ⟨s, e, he, rfl⟩
    rcases mem_resting_insertOrder.mp he with ⟨-, rfl⟩ | he
    · exact Or.inl rfl
    · exact Or.inr ⟨s, e, he, rfl⟩
  · rintro (rfl | ⟨s, e, he, rfl⟩)
    · exact ⟨o.side, _, mem_resting_insertOrder.mpr (Or.inl ⟨rfl, rfl⟩), rfl⟩
    · exact ⟨s, e, mem_resting_insertOrder.mpr (Or.inr he), rfl⟩

/-! ## Removing -/

/-- `removeByLocation` followed by `orderMap.erase`. -/
def unlink (b : OrderBook P) (i : UInt64) (loc : OrderLocation P) : OrderBook P :=
  { b.removeByLocation loc with orderMap := (b.removeByLocation loc).orderMap.erase i }

@[simp] theorem resting_unlink (b : OrderBook P) (i : UInt64) (loc : OrderLocation P) (s : Side) :
    (b.unlink i loc).resting s = (b.removeByLocation loc).resting s := by
  cases s <;> rfl

@[simp] theorem orderMap_unlink (b : OrderBook P) (i : UInt64) (loc : OrderLocation P) :
    (b.unlink i loc).orderMap = b.orderMap.erase i := by
  rw [unlink]
  simp only [orderMap_removeByLocation]

theorem levels_unlink (b : OrderBook P) (i : UInt64) (loc : OrderLocation P) (s : Side) :
    (b.unlink i loc).levels s = (b.removeByLocation loc).levels s := by
  cases s <;> rfl

theorem nextNode_unlink (b : OrderBook P) (i : UInt64) (loc : OrderLocation P) :
    (b.unlink i loc).nextNode = b.nextNode := nextNode_removeByLocation b loc

theorem stats_unlink (b : OrderBook P) (i : UInt64) (loc : OrderLocation P) :
    (b.unlink i loc).stats = b.stats := stats_removeByLocation b loc

theorem nonemptyLevels_eraseNode {s : Side} {m : LevelMap (before (P := P) s) (Node P)}
    (h : m.NonemptyLevels) (price : P) (it : ℕ) : (eraseNode m price it).NonemptyLevels := by
  rw [eraseNode]
  split
  · exact LevelMap.nonemptyLevels_setLevel h _ _
  · exact h

theorem Linked.unlink {b : OrderBook P} (hb : b.Linked) {i : UInt64} {loc : OrderLocation P}
    (hloc : b.orderMap.lookup i = some loc) : (b.unlink i loc).Linked where
  nonempty s := by
    rw [levels_unlink, levels_removeByLocation]
    split
    · exact nonemptyLevels_eraseNode (hb.nonempty s) _ _
    · exact hb.nonempty s
  keyed s e he := by
    rw [resting_unlink] at he
    exact hb.keyed s e (mem_resting_removeByLocation.mp he).1
  bounded s e he := by
    rw [resting_unlink] at he
    rw [nextNode_unlink]
    exact hb.bounded s e (mem_resting_removeByLocation.mp he).1
  nodup := nodup_addrs_of_sublist (b := b) hb.nodup fun s => by
    rw [resting_unlink]
    exact (resting_removeByLocation_sublist b loc s).map _
  located j loc' h := by
    rw [orderMap_unlink] at h
    have hji : j ≠ i := by
      rintro rfl
      rw [Finmap.lookup_erase] at h
      exact absurd h (by simp)
    rw [Finmap.lookup_erase_ne hji] at h
    obtain ⟨n, hn, haddr, hid⟩ := hb.located j loc' h
    refine ⟨n, ?_, haddr, hid⟩
    rw [resting_unlink, mem_resting_removeByLocation]
    refine ⟨hn, ?_⟩
    rintro ⟨hside, hprice, hit⟩
    -- the node that leaves carries the identifier `i`
    obtain ⟨n', hn', haddr', hid'⟩ := hb.located i loc hloc
    have heq := (hb.addr_inj hn hn' (hit.trans haddr'.symm)).2
    have hnn : n = n' := congrArg Prod.snd heq
    exact hji (hid.symm.trans ((congrArg (fun n : Node P => n.order.orderId) hnn).trans hid'))

/-- The addresses in a level are pairwise different. -/
theorem Linked.nodup_level {b : OrderBook P} (hb : b.Linked) {s : Side} {k : P}
    {queue : List (Node P)} (h : (b.levels s).find? k = some queue) :
    (queue.map fun n => n.addr).Nodup := by
  have hnd := hb.nodup
  rw [List.map_append, List.nodup_append] at hnd
  have hside : ((b.resting s).map fun e => e.2.addr).Nodup := by
    cases s with
    | buy => exact hnd.1
    | sell => exact hnd.2.1
  have hsub := (LevelMap.level_sublist_flat h).map fun e : P × Node P => e.2.addr
  rw [List.map_map] at hsub
  exact hside.sublist hsub

/-- **Where a node is erased**: its level keeps the rest of its queue, and goes when
there is none. -/
theorem Linked.entries_eraseNode {b : OrderBook P} (hb : b.Linked) {s : Side} {k : P}
    {n : Node P} (hn : (k, n) ∈ b.resting s) :
    ∃ pre queue₁ queue₂ post, (b.levels s).entries = pre ++ (k, queue₁ ++ n :: queue₂) :: post ∧
      (eraseNode (b.levels s) k n.addr).entries =
        pre ++ ((if (queue₁ ++ queue₂).isEmpty then [] else [(k, queue₁ ++ queue₂)]) ++ post) := by
  obtain ⟨queue, hmem, hnq⟩ := LevelMap.mem_flat.mp hn
  have hfind := OrderedMap.find?_eq_some.mpr hmem
  have hnd := hb.nodup_level hfind
  obtain ⟨queue₁, queue₂, rfl⟩ := List.append_of_mem hnq
  obtain ⟨pre, post, hsplit⟩ := List.append_of_mem hmem
  refine ⟨pre, queue₁, queue₂, post, hsplit, ?_⟩
  -- no other node of the level has the address
  rw [List.map_append, List.map_cons, List.nodup_append, List.nodup_cons] at hnd
  obtain ⟨-, ⟨hafter, -⟩, hbefore⟩ := hnd
  have h₁ : ∀ m ∈ queue₁, m.addr ≠ n.addr := fun m hm =>
    hbefore _ (List.mem_map_of_mem hm) _ List.mem_cons_self
  have h₂ : ∀ m ∈ queue₂, m.addr ≠ n.addr := fun m hm ha =>
    hafter (ha ▸ List.mem_map_of_mem (f := fun n : Node P => n.addr) hm)
  have hfilter : (queue₁ ++ n :: queue₂).filter (fun m => decide (m.addr ≠ n.addr)) =
      queue₁ ++ queue₂ := by
    rw [List.filter_append, List.filter_cons_of_neg (by simp),
      List.filter_eq_self.mpr fun m hm => by simpa using h₁ m hm,
      List.filter_eq_self.mpr fun m hm => by simpa using h₂ m hm]
  rw [eraseNode, hfind]
  simp only [hfilter]
  exact LevelMap.entries_setLevel hsplit _

/-- What is left after an identifier has been unlinked. -/
theorem mem_resting_unlink {b : OrderBook P} (hb : b.Linked) (hi : b.Indexed) {i : UInt64}
    {loc : OrderLocation P} (hloc : b.orderMap.lookup i = some loc) {s : Side}
    {e : P × Node P} :
    e ∈ (b.unlink i loc).resting s ↔ e ∈ b.resting s ∧ e.2.order.orderId ≠ i := by
  obtain ⟨n, hn, haddr, hid⟩ := hb.located i loc hloc
  rw [resting_unlink, mem_resting_removeByLocation]
  refine and_congr_right fun he => not_congr ⟨?_, ?_⟩
  · rintro ⟨-, -, hit⟩
    have heq := (hb.addr_inj he hn (hit.trans haddr.symm)).2
    rw [heq]
    exact hid
  · intro hei
    obtain ⟨hs, heq⟩ := hi.id_inj hb he hn (hei.trans hid.symm)
    exact ⟨hs, congrArg Prod.fst heq, (congrArg (fun x : P × Node P => x.2.addr) heq).trans haddr⟩

theorem Indexed.unlink {b : OrderBook P} (hb : b.Linked) (hi : b.Indexed) {i : UInt64}
    {loc : OrderLocation P} (hloc : b.orderMap.lookup i = some loc) : (b.unlink i loc).Indexed := by
  intro s e he
  obtain ⟨he', hne⟩ := (mem_resting_unlink hb hi hloc).mp he
  rw [orderMap_unlink, Finmap.lookup_erase_ne hne, hi s e he']

theorem rests_unlink {b : OrderBook P} (hb : b.Linked) (hi : b.Indexed) {i j : UInt64}
    {loc : OrderLocation P} (hloc : b.orderMap.lookup i = some loc) :
    (b.unlink i loc).Rests j ↔ b.Rests j ∧ j ≠ i := by
  constructor
  · rintro ⟨s, e, he, rfl⟩
    obtain ⟨he', hne⟩ := (mem_resting_unlink hb hi hloc).mp he
    exact ⟨⟨s, e, he', rfl⟩, hne⟩
  · rintro ⟨⟨s, e, he, rfl⟩, hne⟩
    exact ⟨s, e, (mem_resting_unlink hb hi hloc).mpr ⟨he, hne⟩, rfl⟩

/-! ## Updating in place -/

theorem mem_resting_setQuantity {b : OrderBook P} {loc : OrderLocation P} {q : Int32} {s : Side}
    {e : P × Node P} (h : e ∈ (b.setQuantity loc q).resting s) :
    ∃ e₀ ∈ b.resting s, e₀.1 = e.1 ∧ e₀.2.addr = e.2.addr ∧
      e.2.order = { e₀.2.order with quantity := e.2.order.quantity } := by
  rw [resting_setQuantity] at h
  obtain ⟨e₀, he₀, rfl⟩ := List.mem_map.mp h
  refine ⟨e₀, he₀, rfl, ?_, ?_⟩
  · by_cases hc : s = loc.side ∧ e₀.1 = loc.price
    · simp [hc]
    · simp [hc]
  · by_cases hc : s = loc.side ∧ e₀.1 = loc.price
    · by_cases ha : e₀.2.addr = loc.it <;> simp [hc, ha, requantify]
    · simp [hc]

/-- An order in the book with one quantity set is the order that was set, or one that
rested before. -/
theorem order_of_setQuantity {b : OrderBook P} (hb : b.Linked) {loc : OrderLocation P}
    {n : Node P} (hn : (loc.price, n) ∈ b.resting loc.side) (haddr : n.addr = loc.it) {q : Int32}
    {s : Side} {e : P × Node P} (h : e ∈ (b.setQuantity loc q).resting s) :
    e ∈ b.resting s ∨ (e.2.order.orderId = n.order.orderId ∧ e.2.order.quantity = q) := by
  rw [resting_setQuantity] at h
  obtain ⟨e₀, he₀, rfl⟩ := List.mem_map.mp h
  by_cases hlevel : s = loc.side ∧ e₀.1 = loc.price
  · by_cases ha : e₀.2.addr = loc.it
    · have heq := (hb.addr_inj he₀ hn (ha.trans haddr.symm)).2
      rw [if_pos hlevel, requantify, if_pos ha, heq]
      exact Or.inr ⟨rfl, rfl⟩
    · rw [if_pos hlevel, requantify, if_neg ha]
      exact Or.inl he₀
  · rw [if_neg hlevel]
    exact Or.inl he₀

/-- The order a location names has the quantity that is set. -/
theorem mem_setQuantity_self {b : OrderBook P} {loc : OrderLocation P} {n : Node P}
    (hn : (loc.price, n) ∈ b.resting loc.side) (haddr : n.addr = loc.it) (q : Int32) :
    (loc.price, { n with order := { n.order with quantity := q } }) ∈
      (b.setQuantity loc q).resting loc.side := by
  rw [resting_setQuantity]
  refine List.mem_map.mpr ⟨(loc.price, n), hn, ?_⟩
  rw [if_pos ⟨rfl, rfl⟩, requantify, if_pos haddr]

theorem addrs_setQuantity (b : OrderBook P) (loc : OrderLocation P) (q : Int32) (s : Side) :
    ((b.setQuantity loc q).resting s).map (fun e => e.2.addr) =
      (b.resting s).map fun e => e.2.addr := by
  rw [resting_setQuantity, List.map_map]
  refine List.map_congr_left fun e _ => ?_
  by_cases hc : s = loc.side ∧ e.1 = loc.price <;> simp [Function.comp, hc]

theorem Linked.setQuantity {b : OrderBook P} (hb : b.Linked) (loc : OrderLocation P) (q : Int32) :
    (b.setQuantity loc q).Linked where
  nonempty s := by
    rw [levels_setQuantity]
    split
    · split
      · exact LevelMap.nonemptyLevels_setLevel (hb.nonempty s) _ _
      · exact hb.nonempty s
    · exact hb.nonempty s
  keyed s e he := by
    obtain ⟨e₀, he₀, hk, -, ho⟩ := mem_resting_setQuantity he
    obtain ⟨hside, hprice⟩ := hb.keyed s e₀ he₀
    rw [ho]
    exact ⟨hside, hprice.trans hk⟩
  bounded s e he := by
    obtain ⟨e₀, he₀, -, ha, -⟩ := mem_resting_setQuantity he
    rw [nextNode_setQuantity, ← ha]
    exact hb.bounded s e₀ he₀
  nodup := nodup_addrs_of_sublist (b := b) hb.nodup fun s => by rw [addrs_setQuantity]
  located i loc' h := by
    rw [orderMap_setQuantity] at h
    obtain ⟨n, hn, haddr, hid⟩ := hb.located i loc' h
    rw [resting_setQuantity]
    refine ⟨_, List.mem_map.mpr ⟨(loc'.price, n), hn, rfl⟩, ?_, ?_⟩
    · split
      · rw [addr_requantify, haddr]
      · exact haddr
    · split
      · rw [requantify]
        split <;> exact hid
      · exact hid

theorem Indexed.setQuantity {b : OrderBook P} (hi : b.Indexed) (loc : OrderLocation P)
    (q : Int32) : (b.setQuantity loc q).Indexed := by
  intro s e he
  obtain ⟨e₀, he₀, hk, ha, ho⟩ := mem_resting_setQuantity he
  rw [orderMap_setQuantity, ho, ← hk, ← ha]
  exact hi s e₀ he₀

theorem rests_setQuantity {b : OrderBook P} {loc : OrderLocation P} {q : Int32} {i : UInt64} :
    (b.setQuantity loc q).Rests i ↔ b.Rests i := by
  constructor
  · rintro ⟨s, e, he, rfl⟩
    obtain ⟨e₀, he₀, -, -, ho⟩ := mem_resting_setQuantity he
    exact ⟨s, e₀, he₀, by rw [ho]⟩
  · rintro ⟨s, e, he, rfl⟩
    refine ⟨s, _, by rw [resting_setQuantity]; exact List.mem_map.mpr ⟨e, he, rfl⟩, ?_⟩
    simp only [requantify]
    split
    · split <;> rfl
    · rfl

/-! ## Matching -/

/-- Every order left by an iteration was there before it, with the same
identifier, side, price and timestamp, at the same place. -/
theorem mem_resting_matchStep {b b' : OrderBook P} {t : Trade P}
    (h : b.matchStep = some (t, b')) {s : Side} {e : P × Node P} (he : e ∈ b'.resting s) :
    ∃ e₀ ∈ b.resting s, e₀.1 = e.1 ∧ e₀.2.addr = e.2.addr ∧
      e.2.order = { e₀.2.order with quantity := e.2.order.quantity } := by
  obtain ⟨bid, bids, ask, asks, hbuy, hsell, -, -, hbuy', hsell', -⟩ := matchStep_eq_some h
  cases s with
  | buy =>
    rw [hbuy'] at he
    obtain ⟨e₀, he₀, hk, ha, ho, -⟩ := fillHead_origin he
    exact ⟨e₀, by rwa [hbuy], hk, ha, ho⟩
  | sell =>
    rw [hsell'] at he
    obtain ⟨e₀, he₀, hk, ha, ho, -⟩ := fillHead_origin he
    exact ⟨e₀, by rwa [hsell], hk, ha, ho⟩

theorem Linked.matchStep {b b' : OrderBook P} {t : Trade P} (hb : b.Linked)
    (h : b.matchStep = some (t, b')) : b'.Linked := by
  obtain ⟨bid, bids, ask, asks, hbuy, hsell, -, -, hbuy', hsell', hmap, -, -, -, hnext, hne⟩ :=
    matchStep_eq_some h
  refine ⟨hne hb.nonempty, fun s e he => ?_, fun s e he => ?_, ?_, fun i loc hloc => ?_⟩
  · obtain ⟨e₀, he₀, hk, -, ho⟩ := mem_resting_matchStep h he
    obtain ⟨hside, hprice⟩ := hb.keyed s e₀ he₀
    rw [ho]
    exact ⟨hside, hprice.trans hk⟩
  · obtain ⟨e₀, he₀, -, ha, -⟩ := mem_resting_matchStep h he
    rw [hnext, ← ha]
    exact hb.bounded s e₀ he₀
  · refine nodup_addrs_of_sublist (b := b) hb.nodup fun s => ?_
    cases s with
    | buy => rw [hbuy, hbuy']; exact addrs_fillHead_sublist bid t.quantity bids
    | sell => rw [hsell, hsell']; exact addrs_fillHead_sublist ask t.quantity asks
  · -- an entry that is still there is not that of a filled order
    rw [hmap, lookup_eraseFilled] at hloc
    split at hloc
    · exact absurd hloc (by simp)
    rename_i hask
    rw [lookup_eraseFilled] at hloc
    split at hloc
    · exact absurd hloc (by simp)
    rename_i hbid
    obtain ⟨n, hn, haddr, hid⟩ := hb.located i loc hloc
    cases hs : loc.side with
    | buy =>
      rw [hs, hbuy] at hn
      obtain ⟨n', hn', ha', hid'⟩ := mem_fillHead_of_mem hn
        fun he hq => hbid ⟨hq, by rw [← he]; exact hid.symm⟩
      exact ⟨n', by rwa [hbuy'], ha'.trans haddr, hid'.trans hid⟩
    | sell =>
      rw [hs, hsell] at hn
      obtain ⟨n', hn', ha', hid'⟩ := mem_fillHead_of_mem hn
        fun he hq => hask ⟨hq, by rw [← he]; exact hid.symm⟩
      exact ⟨n', by rwa [hsell'], ha'.trans haddr, hid'.trans hid⟩

/-- A side of a linked book repeats no order. -/
theorem Linked.nodup_resting {b : OrderBook P} (hb : b.Linked) (s : Side) :
    (b.resting s).Nodup := by
  have hnd := hb.nodup
  rw [List.map_append, List.nodup_append] at hnd
  cases s with
  | buy => exact hnd.1.of_map _
  | sell => exact hnd.2.1.of_map _

theorem Indexed.matchStep {b b' : OrderBook P} {t : Trade P} (hb : b.Linked) (hi : b.Indexed)
    (h : b.matchStep = some (t, b')) : b'.Indexed := by
  obtain ⟨bid, bids, ask, asks, hbuy, hsell, -, -, hbuy', hsell', hmap, -⟩ := matchStep_eq_some h
  have hbidmem : bid ∈ b.resting .buy := by rw [hbuy]; exact List.mem_cons_self
  have haskmem : ask ∈ b.resting .sell := by rw [hsell]; exact List.mem_cons_self
  have hndbuy : bid ∉ bids := by
    have hnd := hb.nodup_resting .buy
    rw [hbuy] at hnd
    exact (List.nodup_cons.mp hnd).1
  have hndsell : ask ∉ asks := by
    have hnd := hb.nodup_resting .sell
    rw [hsell] at hnd
    exact (List.nodup_cons.mp hnd).1
  -- an order that is still there is neither of the filled ones
  have key : ∀ s, ∀ e₀ ∈ b.resting s,
      (s = .buy → bid.2.order.quantity - t.quantity = 0 → e₀ ∈ bids) →
      (s = .sell → ask.2.order.quantity - t.quantity = 0 → e₀ ∈ asks) →
      b'.orderMap.lookup e₀.2.order.orderId = some ⟨s, e₀.1, e₀.2.addr⟩ := by
    intro s e₀ he₀ h1 h2
    rw [hmap, lookup_eraseFilled, if_neg, lookup_eraseFilled, if_neg]
    · exact hi s e₀ he₀
    · rintro ⟨hq, hid⟩
      obtain ⟨hs, heq⟩ := hi.id_inj hb he₀ hbidmem hid
      exact hndbuy (heq ▸ h1 hs hq)
    · rintro ⟨hq, hid⟩
      obtain ⟨hs, heq⟩ := hi.id_inj hb he₀ haskmem hid
      exact hndsell (heq ▸ h2 hs hq)
  intro s e he
  cases s with
  | buy =>
    rw [hbuy'] at he
    obtain ⟨e₀, he₀, hk, ha, ho, hfill⟩ := fillHead_origin he
    rw [ho, ← hk, ← ha]
    exact key .buy e₀ (by rwa [hbuy]) (fun _ => hfill) (fun hc => absurd hc (by simp))
  | sell =>
    rw [hsell'] at he
    obtain ⟨e₀, he₀, hk, ha, ho, hfill⟩ := fillHead_origin he
    rw [ho, ← hk, ← ha]
    exact key .sell e₀ (by rwa [hsell]) (fun hc => absurd hc (by simp)) (fun _ => hfill)

theorem Rests.of_matchStep {b b' : OrderBook P} {t : Trade P} {i : UInt64}
    (h : b.matchStep = some (t, b')) (hr : b'.Rests i) : b.Rests i := by
  obtain ⟨s, e, he, rfl⟩ := hr
  obtain ⟨e₀, he₀, -, -, ho⟩ := mem_resting_matchStep h he
  exact ⟨s, e₀, he₀, by rw [ho]⟩

end OrderBook
end MatchingEngine
