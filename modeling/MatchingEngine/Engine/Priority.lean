import MatchingEngine.Engine.TradePrice

/-!
# Time priority

Nothing in the program records when an order came to its place: the place is the
position in the queue of a level.  The priority of an order is a fact about the run,
the last command that was its `NEW` or a `MODIFY` that inserted it again.

* `places l` forgets of a side everything but prices and identifiers.  Cancelling,
  lowering a quantity and filling take places away and never exchange two of them
  (`places_update`, `places_matchStep`).
* `Queued` is the invariant: on each side of each book the orders of one price stand in
  the order of their priorities (`queued_engine`).
* `price_time_priority`: at every trade both parties are foremost on their sides.
-/

namespace MatchingEngine

variable {P : Type}

/-! ## Places -/

/-- The prices and the identifiers of a list of orders. -/
def places (l : List (P × Node P)) : List (P × UInt64) := l.map fun e => (e.1, e.2.order.orderId)

theorem mem_places {l : List (P × Node P)} {k : P} {i : UInt64} :
    (k, i) ∈ places l ↔ ∃ e ∈ l, e.1 = k ∧ e.2.order.orderId = i := by
  simp only [places, List.mem_map, Prod.mk.injEq]

theorem places_fillHead (h : P × Node P) (q : Int32) (l : List (P × Node P)) :
    (places (OrderBook.fillHead h q l)).Sublist (places (h :: l)) := by
  rw [OrderBook.fillHead]
  split
  · exact (List.sublist_cons_self h l).map _
  · exact List.Sublist.refl _

variable [LinearOrder P]

theorem places_setQuantity (b : OrderBook P) (loc : OrderLocation P) (q : Int32) (s : Side) :
    places ((b.setQuantity loc q).resting s) = places (b.resting s) := by
  rw [OrderBook.resting_setQuantity, places, List.map_map]
  refine List.map_congr_left fun e _ => ?_
  by_cases hc : s = loc.side ∧ e.1 = loc.price
  · by_cases ha : e.2.addr = loc.it <;> simp [Function.comp, hc, ha, OrderBook.requantify]
  · simp [Function.comp, hc]

/-- An iteration of `matchOrders` takes places away. -/
theorem places_matchStep {b b' : OrderBook P} {t : Trade P} (h : b.matchStep = some (t, b'))
    (side : Side) : (places (b'.resting side)).Sublist (places (b.resting side)) := by
  obtain ⟨bid, bids, ask, asks, hbuy, hsell, -, -, hbuy', hsell', -⟩ :=
    OrderBook.matchStep_eq_some h
  cases side with
  | buy =>
    rw [hbuy, hbuy']
    exact places_fillHead bid _ bids
  | sell =>
    rw [hsell, hsell']
    exact places_fillHead ask _ asks

/-- A command that inserts nothing takes places away. -/
theorem places_update {ex : Exchange P} (hl : ex.Linked) (hr : ex.Routed) {cmd : Command P}
    (hidle : Idle ex cmd) (s : Str) (side : Side) :
    (places (((update ex cmd).1.book s).resting side)).Sublist
      (places ((ex.book s).resting side)) := by
  cases htype : cmd.type with
  | stats => rw [update, htype]
  | book => rw [update, htype]
  | new => exact absurd htype hidle.not_new
  | cancel =>
    rw [update, htype]
    simp only [Exchange.book_cancelOrder]
    split
    · exact (OrderBook.resting_cancelOrder_sublist (hl s) cmd.orderId side).map _
    · exact List.Sublist.refl _
  | modify =>
    rcases modify_cases hl htype with ⟨-, hbook, -⟩ |
      ⟨hacc, hother, loc, n, -, hn, -, hid, -, ⟨-, -, h, -⟩ | ⟨hno, -⟩⟩
    · rw [hbook]
    · by_cases hs : s = cmd.symbolStr
      · rw [hs, h, places_setQuantity]
      · rw [hother s hs]
    · -- an accepted modify that does not insert its order again lowers it
      rcases hidle.modify htype with hrej | ⟨side', e, he, hei, hp, hq⟩
      · exact absurd hrej hacc
      · have heq := ((hr.indexed _).id_inj (hl _) he hn (hei.trans hid.symm)).2
        rw [heq] at hp hq
        exact absurd ⟨hp, hq⟩ hno

/-! ## Priority -/

/-- The command gives its order a new place: it is a `NEW`, or a `MODIFY` that is
accepted and does not merely lower the quantity. -/
def Prioritises (ex : Exchange P) (cmd : Command P) : Prop :=
  cmd.type = .new ∨ (cmd.type = .modify ∧ ¬ Rejected ex cmd ∧ ¬ Lowers ex cmd)

/-- Command number `j` of the run gives order `i` a new place. -/
def PrioritisedAt (cmds : List (Command P)) (i : UInt64) (j : ℕ) : Prop :=
  ∃ c, cmds[j]? = some c ∧ c.orderId = i ∧ Prioritises (engine.run (cmds.take j)) c

/-- Command number `j` is the priority command of order `i`, the last one that gave it
a new place. -/
def PriorityAt (cmds : List (Command P)) (i : UInt64) (j : ℕ) : Prop :=
  PrioritisedAt cmds i j ∧ ∀ j', PrioritisedAt cmds i j' → j' ≤ j

/-- The priority command of order `i` was dispatched before that of order `i'`. -/
def Earlier (cmds : List (Command P)) (i i' : UInt64) : Prop :=
  ∃ j j', PriorityAt cmds i j ∧ PriorityAt cmds i' j' ∧ j < j'

theorem prioritisedAt_concat {cmds : List (Command P)} {cmd : Command P} {i : UInt64} {j : ℕ} :
    PrioritisedAt (cmds ++ [cmd]) i j ↔ PrioritisedAt cmds i j ∨
      (j = cmds.length ∧ cmd.orderId = i ∧ Prioritises (engine.run cmds) cmd) := by
  rcases lt_trichotomy j cmds.length with hj | rfl | hj
  · rw [PrioritisedAt, List.getElem?_append_left hj, List.take_append_of_le_length hj.le]
    exact (or_iff_left fun h => hj.ne h.1).symm
  · rw [PrioritisedAt, PrioritisedAt, List.getElem?_concat_length, List.getElem?_eq_none le_rfl,
      List.take_left']
    simp
    rfl
  · rw [PrioritisedAt, PrioritisedAt, List.getElem?_eq_none (by simp; omega),
      List.getElem?_eq_none hj.le]
    simp [hj.ne']

theorem PrioritisedAt.lt {cmds : List (Command P)} {i : UInt64} {j : ℕ}
    (h : PrioritisedAt cmds i j) : j < cmds.length := by
  obtain ⟨c, hc, -⟩ := h
  exact (List.getElem?_eq_some_iff.mp hc).1

/-- A command that gives another order a place, or none, leaves the priority. -/
theorem PriorityAt.concat {cmds : List (Command P)} {cmd : Command P} {i : UInt64} {j : ℕ}
    (h : PriorityAt cmds i j)
    (hcmd : ¬ (cmd.orderId = i ∧ Prioritises (engine.run cmds) cmd)) :
    PriorityAt (cmds ++ [cmd]) i j := by
  refine ⟨prioritisedAt_concat.mpr (Or.inl h.1), fun j' hj' => ?_⟩
  rcases prioritisedAt_concat.mp hj' with hj' | ⟨-, hj'⟩
  · exact h.2 j' hj'
  · exact absurd hj' hcmd

/-- A command that gives its order a place is its priority command. -/
theorem priorityAt_self {cmds : List (Command P)} {cmd : Command P}
    (hcmd : Prioritises (engine.run cmds) cmd) :
    PriorityAt (cmds ++ [cmd]) cmd.orderId cmds.length := by
  refine ⟨prioritisedAt_concat.mpr (Or.inr ⟨rfl, rfl, hcmd⟩), fun j' hj' => ?_⟩
  have hlt := hj'.lt
  rw [List.length_append, List.length_singleton] at hlt
  omega

/-! ## The queues are in the order of the priorities -/

/-- Every order of the list has a priority command, and those of one price stand in
the order in which these were dispatched. -/
structure Queued (cmds : List (Command P)) (l : List (P × UInt64)) : Prop where
  given : ∀ u ∈ l, ∃ j, PriorityAt cmds u.2 j
  ordered : l.Pairwise fun u v => u.1 = v.1 → Earlier cmds u.2 v.2

theorem Queued.sublist {cmds : List (Command P)} {l l' : List (P × UInt64)} (h : Queued cmds l)
    (hl : l'.Sublist l) : Queued cmds l' :=
  ⟨fun u hu => h.given u (hl.subset hu), h.ordered.sublist hl⟩

/-- A command that gives none of the orders a new place. -/
theorem Queued.concat {cmds : List (Command P)} {cmd : Command P} {l : List (P × UInt64)}
    (h : Queued cmds l)
    (hcmd : ∀ u ∈ l, ¬ (cmd.orderId = u.2 ∧ Prioritises (engine.run cmds) cmd)) :
    Queued (cmds ++ [cmd]) l := by
  refine ⟨fun u hu => ?_, h.ordered.imp_of_mem fun {u v} hu hv huv hk => ?_⟩
  · obtain ⟨j, hj⟩ := h.given u hu
    exact ⟨j, hj.concat (hcmd u hu)⟩
  · obtain ⟨j, j', hj, hj', hlt⟩ := huv hk
    exact ⟨j, j', hj.concat (hcmd u hu), hj'.concat (hcmd v hv), hlt⟩

/-- **The order that is inserted** goes behind those of its price, and its priority
command is the latest. -/
theorem Queued.insertAfter {cmds : List (Command P)} {cmd : Command P} {side : Side} {p : P}
    {l : List (P × UInt64)} (h : Queued cmds l) (hcmd : Prioritises (engine.run cmds) cmd)
    (hne : ∀ u ∈ l, u.2 ≠ cmd.orderId) :
    Queued (cmds ++ [cmd])
      (MatchingEngine.insertAfter (before side) Prod.fst (p, cmd.orderId) l) := by
  have hold := h.concat fun u hu hc => hne u hu hc.1.symm
  refine ⟨fun u hu => ?_, pairwise_insertAfter hold.ordered fun u hu _ => ?_⟩
  · rcases mem_insertAfter.mp hu with rfl | hu
    · exact ⟨cmds.length, priorityAt_self hcmd⟩
    · exact hold.given u hu
  · obtain ⟨j, hj⟩ := h.given u hu
    exact ⟨j, cmds.length, hj.concat fun hc => hne u hu hc.1.symm, priorityAt_self hcmd, hj.1.lt⟩

theorem places_insertAfter (side : Side) (e : P × Node P) (l : List (P × Node P)) :
    places (insertAfter (before side) Prod.fst e l) =
      insertAfter (before side) Prod.fst (e.1, e.2.order.orderId) (places l) := by
  rw [insertAfter, insertAfter, places, places, List.map_append, List.map_cons, List.filter_map,
    List.filter_map]
  rfl

section Fresh

variable {cmds : List (Command P)} {cmd : Command P} {o : Order P} {b₀ : OrderBook P}

/-- A command that inserts an order gives it a new place. -/
theorem Incoming.prioritises (hfresh : FreshNew (cmds ++ [cmd]))
    (hin : Incoming (engine.run cmds) cmd o b₀) : Prioritises (engine.run cmds) cmd := by
  rcases hin.cause with ⟨hnew, -⟩ | ⟨loc, n, hre, -⟩
  · exact Or.inl hnew
  · exact Or.inr ⟨hre.modify, hre.accepted, hre.not_lowers hfresh⟩

/-- No order of another book carries the identifier of the order that enters. -/
theorem Incoming.absent_elsewhere (hfresh : FreshNew (cmds ++ [cmd]))
    (hin : Incoming (engine.run cmds) cmd o b₀) {s : Str} (hs : s ≠ cmd.symbolStr) :
    ¬ ((engine.run cmds).book s).Rests cmd.orderId := by
  rcases hin.cause with ⟨hnew, -⟩ | ⟨loc, n, hre, -⟩
  · exact not_rests_of_new hfresh hnew s
  · exact fun h => hs ((wf_engine hfresh.initial).routed.symbol_unique h
      ⟨loc.side, _, hre.rests, hre.id⟩)

/-- The first half of a command keeps the queues in order. -/
theorem queued_update (hfresh : FreshNew (cmds ++ [cmd]))
    (h : ∀ s side, Queued cmds (places (((engine.run cmds).book s).resting side)))
    (s : Str) (side : Side) :
    Queued (cmds ++ [cmd]) (places (((update (engine.run cmds) cmd).1.book s).resting side)) := by
  have hw := wf_engine hfresh.initial
  rcases update_cases hw.linked cmd with hidle | ⟨o, b₀, hin⟩
  · refine ((h s side).sublist (places_update hw.linked hw.routed hidle s side)).concat ?_
    rintro u - ⟨-, hnew | ⟨hmodify, hacc, hlow⟩⟩
    · exact hidle.not_new hnew
    · exact (hidle.modify hmodify).elim hacc hlow
  by_cases hs : s = cmd.symbolStr
  · subst hs
    have hold : Queued cmds (places (b₀.resting side)) :=
      (h _ side).sublist ((hin.enters.sublist side).map _)
    have hne : ∀ u ∈ places (b₀.resting side), u.2 ≠ cmd.orderId := by
      rintro ⟨k, i⟩ hu
      obtain ⟨e, he, -, rfl⟩ := mem_places.mp hu
      exact hin.absent hfresh side e he
    rw [hin.enters.inserted, OrderBook.resting_insertOrder]
    split
    · rw [places_insertAfter]
      simp only [hin.id]
      exact hold.insertAfter (hin.prioritises hfresh) hne
    · exact hold.concat fun u hu hc => hne u hu hc.1.symm
  · rw [hin.enters.others s hs]
    refine (h s side).concat ?_
    rintro ⟨k, i⟩ hu ⟨hid, -⟩
    obtain ⟨e, he, -, rfl⟩ := mem_places.mp hu
    exact hin.absent_elsewhere hfresh hs ⟨side, e, he, hid.symm⟩

end Fresh

/-- Matching a book keeps its queues in order. -/
theorem queued_matchOrders {cmds : List (Command P)} {b : OrderBook P}
    (h : ∀ side, Queued cmds (places (b.resting side))) (side : Side) :
    Queued cmds (places (b.matchOrders.1.resting side)) :=
  OrderBook.matchOrders_invariant
    (I := fun b : OrderBook P => ∀ side, Queued cmds (places (b.resting side)))
    (fun _ _ _ hb hstep side => (hb side).sublist (places_matchStep hstep side)) h side

/-- **Along a run the queues are in the order of the priorities.** -/
theorem queued_engine (cmds : List (Command P)) (hfresh : FreshNew cmds) (s : Str)
    (side : Side) : Queued cmds (places (((engine.run cmds).book s).resting side)) := by
  induction cmds using List.reverseRecOn generalizing s side with
  | nil =>
    rw [Machine.run_nil, show (engine (P := P)).init = Exchange.empty from rfl,
      Exchange.book_empty, OrderBook.resting_empty]
    exact ⟨fun u hu => absurd hu List.not_mem_nil, List.Pairwise.nil⟩
  | append_singleton cmds cmd ih =>
    have hupd := queued_update hfresh fun s side => ih hfresh.initial s side
    rw [engine_run_concat, dispatch_eq (linked_engine cmds) (uncrossed_engine cmds),
      Exchange.book_matchOrders]
    split
    · exact queued_matchOrders (fun side => hupd _ side) side
    · exact hupd s side

/-! ## The parties of a trade -/

/-- Order `i` is foremost on its side of the book: no order there has a better price,
and its priority command was dispatched before that of every other order of its
price. -/
def Foremost (cmds : List (Command P)) (b : OrderBook P) (side : Side) (i : UInt64) : Prop :=
  ∃ e ∈ b.resting side, e.2.order.orderId = i ∧ (∃ j, PriorityAt cmds i j) ∧
    (∀ e' ∈ b.resting side, ¬ before side e'.2.order.price e.2.order.price) ∧
    ∀ e' ∈ b.resting side, e'.2.order.price = e.2.order.price → e' ≠ e →
      Earlier cmds i e'.2.order.orderId

/-- The head of a side whose queues are in order is foremost. -/
theorem foremost_head {cmds : List (Command P)} {b : OrderBook P} (hb : b.Linked) {side : Side}
    (hq : Queued cmds (places (b.resting side))) {e : P × Node P} {l : List (P × Node P)}
    (hside : b.resting side = e :: l) : Foremost cmds b side e.2.order.orderId := by
  have hprice : ∀ e' ∈ b.resting side, e'.2.order.price = e'.1 := fun e' he' =>
    (hb.keyed side e' he').2
  have hmem : e ∈ b.resting side := by
    rw [hside]
    exact List.mem_cons_self
  refine ⟨e, hmem, rfl, hq.given (e.1, e.2.order.orderId) (mem_places.mpr ⟨e, hmem, rfl, rfl⟩),
    fun e' he' => ?_, fun e' he' hk hne => ?_⟩
  · have hord := b.keyOrdered_resting side
    rw [hside, KeyOrdered, List.pairwise_cons] at hord
    rw [hprice e' he', hprice e hmem]
    rw [hside] at he'
    rcases List.mem_cons.mp he' with rfl | he'
    · exact irrefl _
    · exact hord.1 e' he'
  · have hord := hq.ordered
    rw [hside, places, List.map_cons, List.pairwise_cons] at hord
    rw [hprice e' he', hprice e hmem] at hk
    rw [hside] at he'
    rcases List.mem_cons.mp he' with rfl | he'
    · exact absurd rfl hne
    · exact hord.1 (e'.1, e'.2.order.orderId) (List.mem_map.mpr ⟨e', he', rfl⟩) hk.symm

/-- **Price-time priority.**  In a run without reused identifiers, at every trade each
party is foremost among the orders that rest on its side of the book at that moment. -/
theorem price_time_priority (cmds : List (Command P)) (hfresh : FreshNew cmds)
    (k : List (Command P)) (cmd : Command P) (hk : k ++ [cmd] <+: cmds) :
    (iterations (engine.run k) cmd).map (fun x => x.2.1) =
      trades (dispatch (engine.run k) cmd).2 ∧
    ∀ x ∈ iterations (engine.run k) cmd, ∀ side,
      Foremost (k ++ [cmd]) x.1 side (x.2.1.party side) := by
  have hl := linked_engine k
  have hfreshk : FreshNew (k ++ [cmd]) := by
    obtain ⟨rest, rfl⟩ := hk
    exact hereditary_freshNew.of_append hfresh
  refine ⟨iterations_trades hl (uncrossed_engine k) cmd, fun x hx side => ?_⟩
  -- every iteration starts in a sound book whose queues are in order
  obtain ⟨⟨hb, hq⟩, hstep⟩ := Loop.trace_invariant
    (I := fun b : OrderBook P => b.Linked ∧
      ∀ side, Queued (k ++ [cmd]) (places (b.resting side)))
    (fun b t b' hb hstep => ⟨hb.1.matchStep hstep,
      fun side => (hb.2 side).sublist (places_matchStep hstep side)⟩) _ _
    ⟨linked_update hl cmd cmd.symbolStr,
      queued_update hfreshk (queued_engine k hfreshk.initial) cmd.symbolStr⟩ x hx
  obtain ⟨bid, bids, ask, asks, hbuy, hsell, -, ht, -⟩ := OrderBook.matchStep_eq_some hstep
  rw [ht]
  cases side with
  | buy => exact foremost_head hb (hq .buy) hbuy
  | sell => exact foremost_head hb (hq .sell) hsell

/-- A bid that is raised in quantity loses its place to the one behind it, and one that
is lowered keeps it. -/
theorem price_time_priority_modified :
    let k : List (Command ℤ) := [.newOrder 1 .buy ['A'] 5 10 1 0 0,
      .newOrder 2 .buy ['A'] 5 10 2 0 0, .modifyOrder 1 ['A'] 6 10 3 0 0,
      .modifyOrder 2 ['A'] 4 10 4 0 0]
    let cmd : Command ℤ := .newOrder 3 .sell ['A'] 5 10 5 0 0
    (∀ x ∈ iterations (engine.run k) cmd, ∀ side,
      Foremost (k ++ [cmd]) x.1 side (x.2.1.party side)) ∧
      trades (dispatch (engine.run k) cmd).2 = [⟨10, 4, 2, 3⟩, ⟨10, 1, 1, 3⟩] := by
  intro k cmd
  exact ⟨(price_time_priority (k ++ [cmd]) (by decide) k cmd (List.prefix_refl _)).2, by decide⟩

end MatchingEngine
