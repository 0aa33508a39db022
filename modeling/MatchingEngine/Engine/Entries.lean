import MatchingEngine.Engine.Crossing
import MatchingEngine.OrderBook.Quantity

/-!
# What a command writes

A command writes a quantity when it is a `NEW`, or a `MODIFY` that is not
rejected (`Sets`).  After the first half of a command every resting order is one
that rested before, unchanged, or the order the command has set
(`mem_of_mem_update`), and a `MODIFY` leaves the nodes of the other orders where they
are (`modify_changes`).  Two things follow for whole runs.

* `entered_of_rests`, `entered_of_trade`: what rests on a side of the book of a
  symbol, and what trades there, was entered by a `NEW` command with that side and
  that symbol.
* `positive_dispatch_iff`: a command keeps all quantities positive, in the books
  and in its trades, exactly when the quantity it sets is positive.
-/

namespace MatchingEngine

variable {P : Type} [LinearOrder P]

/-- The command sets the quantity of its order: it is a `NEW`, or a `MODIFY` that
is not rejected. -/
def Sets (ex : Exchange P) (cmd : Command P) : Prop :=
  cmd.type = .new ∨ (cmd.type = .modify ∧ ¬ Rejected ex cmd)

theorem Sets.not_cancel {ex : Exchange P} {cmd : Command P} (h : Sets ex cmd) :
    cmd.type ≠ .cancel := by
  rcases h with h | ⟨h, -⟩ <;> rw [h] <;> simp

/-! ## The orders after the first half -/

/-- **Every order after the first half of a command** rested there before, or is
the order the command has set. -/
theorem mem_of_mem_update {ex : Exchange P} (hl : ex.Linked) {cmd : Command P} {s : Str}
    {side : Side} {e : P × Node P} (he : e ∈ ((update ex cmd).1.book s).resting side) :
    e ∈ (ex.book s).resting side ∨
      (Sets ex cmd ∧ s = cmd.symbolStr ∧ e.2.order.orderId = cmd.orderId ∧
        e.2.order.quantity = cmd.quantity) := by
  cases htype : cmd.type with
  | stats =>
    rw [update, htype] at he
    exact Or.inl he
  | book =>
    rw [update, htype] at he
    exact Or.inl he
  | cancel =>
    rw [update, htype] at he
    simp only [Exchange.book_cancelOrder] at he
    split at he
    · exact Or.inl ((OrderBook.resting_cancelOrder_sublist (hl s) cmd.orderId side).subset he)
    · exact Or.inl he
  | new =>
    rw [book_update_new ex htype] at he
    split at he
    · rename_i hs
      rw [OrderBook.resting_addOrder] at he
      rcases OrderBook.mem_resting_insertOrder.mp he with ⟨-, rfl⟩ | he
      · exact Or.inr ⟨Or.inl htype, hs, rfl, rfl⟩
      · exact Or.inl (by rw [hs]; exact he)
    · exact Or.inl he
  | modify =>
    rcases modify_cases hl htype with ⟨-, hbook, -⟩ | ⟨hacc, hother, loc, n, hloc, hn, haddr, hid,
      -, ⟨-, -, h, -⟩ | ⟨-, h, -⟩⟩
    · rw [hbook] at he
      exact Or.inl he
    · by_cases hs : s = cmd.symbolStr
      · rw [hs] at he ⊢
        rw [h] at he
        rcases OrderBook.order_of_setQuantity (hl _) hn haddr he with he | ⟨hid', hq⟩
        · exact Or.inl he
        · exact Or.inr ⟨Or.inr ⟨htype, hacc⟩, rfl, hid'.trans hid, hq⟩
      · rw [hother s hs] at he
        exact Or.inl he
    · by_cases hs : s = cmd.symbolStr
      · rw [hs] at he ⊢
        rw [h] at he
        rcases OrderBook.mem_resting_insertOrder.mp he with ⟨-, rfl⟩ | he
        · exact Or.inr ⟨Or.inr ⟨htype, hacc⟩, rfl, rfl, rfl⟩
        · rw [OrderBook.resting_unlink] at he
          exact Or.inl ((OrderBook.resting_removeByLocation_sublist _ loc side).subset he)
      · rw [hother s hs] at he
        exact Or.inl he

/-- The order a command sets rests, before the book is matched, with the quantity
of the command. -/
theorem Sets.rests {ex : Exchange P} (hl : ex.Linked) {cmd : Command P} (h : Sets ex cmd) :
    ∃ side, ∃ e ∈ ((update ex cmd).1.book cmd.symbolStr).resting side,
      e.2.order.orderId = cmd.orderId ∧ e.2.order.quantity = cmd.quantity := by
  rcases h with hnew | ⟨hmod, hacc⟩
  · refine ⟨cmd.side, (cmd.price, ⟨(ex.book cmd.symbolStr).nextNode, cmd.order⟩), ?_, rfl, rfl⟩
    rw [book_update_new ex hnew, if_pos rfl, OrderBook.resting_addOrder]
    exact OrderBook.mem_resting_insertOrder.mpr (Or.inl ⟨rfl, rfl⟩)
  · rcases modify_cases hl hmod with ⟨hrej, -⟩ |
      ⟨-, -, loc, n, -, hn, haddr, hid, -, ⟨-, -, h, -⟩ | ⟨-, h, -⟩⟩
    · exact absurd hrej hacc
    · rw [h]
      exact ⟨loc.side, _, OrderBook.mem_setQuantity_self hn haddr cmd.quantity, hid, rfl⟩
    · rw [h]
      exact ⟨n.order.side, _, OrderBook.mem_resting_insertOrder.mpr (Or.inl ⟨rfl, rfl⟩), rfl, rfl⟩

/-! ## What a `MODIFY` reaches -/

namespace OrderBook

/-- The nodes of the orders with another identifier. -/
def others (b : OrderBook P) (i : UInt64) (side : Side) : List (P × Node P) :=
  (b.resting side).filter fun e => decide (e.2.order.orderId ≠ i)

variable {b : OrderBook P} {loc : OrderLocation P} {n : Node P}

/-- Updating an order in place leaves the others where they are. -/
theorem others_setQuantity (hb : b.Linked) (hn : (loc.price, n) ∈ b.resting loc.side)
    (haddr : n.addr = loc.it) (q : Int32) (side : Side) :
    (b.setQuantity loc q).others n.order.orderId side = b.others n.order.orderId side := by
  unfold others
  rw [resting_setQuantity, List.filter_map]
  have hid : ∀ e ∈ b.resting side, (if side = loc.side ∧ e.1 = loc.price then
      requantify loc.it q e.2 else e.2).order.orderId = e.2.order.orderId := by
    intro e _
    split
    · rw [requantify]
      split <;> rfl
    · rfl
  rw [List.filter_congr (q := fun e => decide (e.2.order.orderId ≠ n.order.orderId))
    fun e he => by simp only [Function.comp, hid e he]]
  refine (List.map_congr_left fun e he => ?_).trans (List.map_id _)
  obtain ⟨he, hne⟩ := List.mem_filter.mp he
  -- the node at the address is the one that is updated
  have hother : e.2.addr ≠ loc.it := by
    intro ha
    rw [(hb.addr_inj he hn (ha.trans haddr.symm)).2] at hne
    simp at hne
  rw [requantify, if_neg hother, ite_self]
  rfl

/-- Removing an order leaves the others where they are. -/
theorem others_removeByLocation (hb : b.Linked) (hn : (loc.price, n) ∈ b.resting loc.side)
    (haddr : n.addr = loc.it) (side : Side) :
    (b.removeByLocation loc).others n.order.orderId side = b.others n.order.orderId side := by
  unfold others
  rw [resting_removeByLocation]
  split
  · rw [List.filter_filter]
    refine List.filter_congr fun e he => ?_
    by_cases ha : e.2.addr = loc.it
    · rw [(hb.addr_inj he hn (ha.trans haddr.symm)).2]
      simp
    · simp [ha]
  · rfl

/-- Inserting an order leaves the others where they are. -/
theorem others_insertOrder (b : OrderBook P) (o : Order P) (side : Side) :
    (b.insertOrder o).others o.orderId side = b.others o.orderId side := by
  unfold others
  rw [resting_insertOrder]
  split
  · exact (keyOrdered_resting b side).filter_insertAfter (by simp)
  · rfl

end OrderBook

/-- The order that a line of the log reports as modified. -/
def Event.modified? : Event P → Option UInt64
  | .modifyInPlace orderId _ _ => some orderId
  | .modifyReinsert orderId _ _ _ _ => some orderId
  | _ => none

/-- **What an accepted `MODIFY` reports**: the order of its identifier, which rests in
the book of its symbol. -/
theorem modify_accepted {ex : Exchange P} (hl : ex.Linked) {cmd : Command P}
    (hmod : cmd.type = .modify) {j : UInt64}
    (hj : j ∈ (update ex cmd).2.filterMap Event.modified?) :
    j = cmd.orderId ∧
      ∃ side, ∃ e ∈ (ex.book cmd.symbolStr).resting side, e.2.order.orderId = cmd.orderId := by
  obtain ⟨ev, hev, hjev⟩ := List.mem_filterMap.mp hj
  rcases modify_cases hl hmod with ⟨-, -, e, h, he⟩ |
    ⟨-, -, loc, n, -, hn, -, hid, -, ⟨-, -, -, h⟩ | ⟨-, -, h⟩⟩
  · rw [h, List.mem_singleton] at hev
    subst hev
    rcases he with ⟨i, rfl⟩ | ⟨i, rfl⟩ | ⟨i, s, s', rfl⟩
    · cases hjev
    · cases hjev
    · cases hjev
  · rw [h, List.mem_singleton] at hev
    subst hev
    exact ⟨(Option.some.inj hjev).symm, loc.side, _, hn, hid⟩
  · rw [h, List.mem_singleton] at hev
    subst hev
    exact ⟨(Option.some.inj hjev).symm, loc.side, _, hn, hid⟩

/-- **What a `MODIFY` changes**: a queue stays as it is, node by node, or it is one of
the book of the command's symbol with an order of the command's identifier, and the
nodes of the others stay as they are. -/
theorem modify_changes {ex : Exchange P} (hl : ex.Linked) {cmd : Command P}
    (hmod : cmd.type = .modify) (s : Str) (side : Side) :
    ((update ex cmd).1.book s).resting side = (ex.book s).resting side ∨
      (s = cmd.symbolStr ∧ (∃ e ∈ (ex.book s).resting side, e.2.order.orderId = cmd.orderId) ∧
        ((update ex cmd).1.book s).others cmd.orderId side =
          (ex.book s).others cmd.orderId side) := by
  rcases modify_cases hl hmod with ⟨-, hbook, -⟩ |
    ⟨-, hother, loc, n, -, hn, haddr, hid, hside, hcase⟩
  · rw [hbook]
    exact Or.inl rfl
  by_cases hs : s = cmd.symbolStr
  · subst hs
    by_cases hloc : side = loc.side
    · subst hloc
      refine Or.inr ⟨rfl, ⟨_, hn, hid⟩, ?_⟩
      rcases hcase with ⟨-, -, h, -⟩ | ⟨-, h, -⟩
      · rw [h, ← hid]
        exact OrderBook.others_setQuantity (hl _) hn haddr cmd.quantity _
      · rw [h]
        refine (OrderBook.others_insertOrder _ _ _).trans ?_
        rw [OrderBook.others, OrderBook.resting_unlink, ← hid]
        exact OrderBook.others_removeByLocation (hl _) hn haddr _
    · left
      rcases hcase with ⟨-, -, h, -⟩ | ⟨-, h, -⟩
      · rw [h, OrderBook.resting_setQuantity]
        exact (List.map_congr_left fun e _ => by rw [if_neg fun hc => hloc hc.1]; rfl).trans
          (List.map_id _)
      · rw [h, OrderBook.resting_insertOrder, if_neg fun hc => hloc (hc.trans hside),
          OrderBook.resting_unlink, OrderBook.resting_removeByLocation, if_neg hloc]
  · rw [hother s hs]
    exact Or.inl rfl

/-! ## Who entered an order -/

/-- A `NEW` command of the run gave this identifier to an order on this side of
the book of this symbol. -/
def Entered (cmds : List (Command P)) (symbol : Str) (side : Side) (i : UInt64) : Prop :=
  ∃ c ∈ cmds, c.type = .new ∧ c.orderId = i ∧ c.side = side ∧ c.symbolStr = symbol

omit [LinearOrder P] in
theorem Entered.mono {cmds cmds' : List (Command P)} {symbol : Str} {side : Side} {i : UInt64}
    (h : Entered cmds symbol side i) (hsub : cmds ⊆ cmds') : Entered cmds' symbol side i := by
  obtain ⟨c, hc, h⟩ := h
  exact ⟨c, hsub hc, h⟩

theorem entered_of_update {cmds : List (Command P)} {cmd : Command P}
    (hprev : ∀ s side, ∀ e ∈ ((engine.run cmds).book s).resting side,
      Entered cmds s side e.2.order.orderId)
    {s : Str} {side : Side} {e : P × Node P}
    (he : e ∈ ((update (engine.run cmds) cmd).1.book s).resting side) :
    Entered (cmds ++ [cmd]) s side e.2.order.orderId := by
  have hsub : cmds ⊆ cmds ++ [cmd] := List.subset_append_left _ _
  rcases update_cases (linked_engine cmds) cmd with hidle | ⟨o, b₀, hin⟩
  · obtain ⟨e₀, he₀, -, -, ho⟩ := hidle.quiet s side e he
    rw [ho]
    exact (hprev s side e₀ he₀).mono hsub
  by_cases hs : s = cmd.symbolStr
  · subst hs
    rw [hin.enters.inserted] at he
    rcases OrderBook.mem_resting_insertOrder.mp he with ⟨hside, rfl⟩ | he₀
    · rcases hin.cause with ⟨hnew, hside', -⟩ | ⟨loc, n, hre, hside', -⟩
      · exact ⟨cmd, List.mem_append_right _ (List.mem_singleton_self cmd), hnew, hin.id.symm,
          hside'.symm.trans hside.symm, rfl⟩
      · -- the modified order rested in this book, on this side
        have hn := hprev _ loc.side _ hre.rests
        rw [hside, hside', hin.id, ← hre.id]
        exact hn.mono hsub
    · exact (hprev _ side e ((hin.enters.sublist side).subset he₀)).mono hsub
  · rw [hin.enters.others s hs] at he
    exact (hprev s side e he).mono hsub

/-- **What rests was entered there**: on that side, under that symbol. -/
theorem entered_of_rests (cmds : List (Command P)) :
    ∀ s side, ∀ e ∈ ((engine.run cmds).book s).resting side,
      Entered cmds s side e.2.order.orderId := by
  induction cmds using List.reverseRecOn with
  | nil =>
    intro s side e he
    rw [Machine.run_nil, show (engine (P := P)).init = Exchange.empty from rfl,
      Exchange.book_empty, OrderBook.resting_empty] at he
    exact absurd he List.not_mem_nil
  | append_singleton cmds cmd ih =>
    intro s side e he
    rw [engine_run_concat] at he
    obtain ⟨e₁, he₁, -, -, ho⟩ :=
      within_dispatch (linked_engine cmds) (uncrossed_engine cmds) cmd s side e he
    rw [ho]
    exact entered_of_update ih he₁

/-- **What trades was entered there**: the buyer as a bid and the seller as an ask,
under the symbol of the command that makes them trade. -/
theorem entered_of_trade {cmds : List (Command P)} {cmd : Command P} {t : Trade P}
    (ht : t ∈ trades (dispatch (engine.run cmds) cmd).2) :
    Entered (cmds ++ [cmd]) cmd.symbolStr .buy t.buyer ∧
      Entered (cmds ++ [cmd]) cmd.symbolStr .sell t.seller := by
  rw [trades_dispatch (linked_engine cmds) (uncrossed_engine cmds)] at ht
  obtain ⟨bid, hbid, ask, hask, -, hbuyer, hseller, -⟩ := (Ladder.trades_between _).2 t ht
  rw [hbuyer, hseller]
  exact ⟨entered_of_update (entered_of_rests cmds) hbid,
    entered_of_update (entered_of_rests cmds) hask⟩

/-- A command after whose first half the book of its symbol is crossed trades. -/
theorem trades_ne_nil {ex : Exchange P} (hl : ex.Linked) (hu : ex.Uncrossed) {cmd : Command P}
    {bid ask : P × Node P}
    (hbid : bid ∈ ((update ex cmd).1.book cmd.symbolStr).resting .buy)
    (hask : ask ∈ ((update ex cmd).1.book cmd.symbolStr).resting .sell) (hle : ask.1 ≤ bid.1) :
    trades (dispatch ex cmd).2 ≠ [] := by
  intro hnil
  rw [trades_dispatch hl hu] at hnil
  have hfinal := ladder_dispatch hl hu cmd
  -- a loop that emits nothing has stopped at once
  have hstop : ∀ L : Ladder P, L.trades = [] → L.final = L := fun L =>
    Ladder.loop_induction (C := fun L ts F => ts = [] → F = L) (fun _ _ _ => rfl)
      (fun _ _ _ _ _ _ _ h => absurd h (List.cons_ne_nil _ _)) L
  rw [hstop _ hnil] at hfinal
  have huncrossed := uncrossed_dispatch hl hu cmd cmd.symbolStr
  have hbid' : bid ∈ ((dispatch ex cmd).1.book cmd.symbolStr).resting .buy := by
    rw [show ((dispatch ex cmd).1.book cmd.symbolStr).resting .buy = _ from
      congrArg Ladder.bids hfinal]
    exact hbid
  have hask' : ask ∈ ((dispatch ex cmd).1.book cmd.symbolStr).resting .sell := by
    rw [show ((dispatch ex cmd).1.book cmd.symbolStr).resting .sell = _ from
      congrArg Ladder.asks hfinal]
    exact hask
  exact absurd hle (not_le.mpr (huncrossed bid hbid' ask hask'))

/-! ## Positive quantities -/

/-- Every quantity of the ladder is positive exactly when every trade of the loop
is of a positive quantity and what remains is positive. -/
theorem Ladder.positive_iff (L : Ladder P) :
    (PositiveQty L.bids ∧ PositiveQty L.asks) ↔
      (∀ t ∈ L.trades, 0 < t.quantity) ∧ PositiveQty L.final.bids ∧ PositiveQty L.final.asks := by
  refine loop_induction (C := fun L ts F => (PositiveQty L.bids ∧ PositiveQty L.asks) ↔
    (∀ t ∈ ts, 0 < t.quantity) ∧ PositiveQty F.bids ∧ PositiveQty F.asks) ?_ ?_ L
  · intro L _
    exact ⟨fun h => ⟨fun t ht => absurd ht List.not_mem_nil, h⟩, And.right⟩
  · intro L t L' ts F hstep ih
    rw [List.forall_mem_cons, and_assoc, ← ih]
    constructor
    · rintro ⟨hb, ha⟩
      exact step_quantity hstep hb ha
    · rintro ⟨ht, hb', ha'⟩
      obtain ⟨bid, bids, ask, asks, rfl, -, htrade, rfl⟩ := step_eq_some hstep
      obtain ⟨hbid, hask⟩ := tradeOf_pos.mp (htrade ▸ ht)
      -- what stands behind the heads is still there after the fill
      have htail : ∀ (h : P × Node P) (l : List (P × Node P)), 0 < h.2.order.quantity →
          PositiveQty (OrderBook.fillHead h t.quantity l) → PositiveQty (h :: l) := by
        intro h l hh hfill e he
        rcases List.mem_cons.mp he with rfl | he
        · exact hh
        · refine hfill e ?_
          unfold OrderBook.fillHead
          split
          · exact he
          · exact List.mem_cons_of_mem _ he
      exact ⟨htail bid bids hbid hb', htail ask asks hask ha'⟩

namespace Exchange

/-- Every resting order has a positive quantity. -/
def Positive (ex : Exchange P) : Prop := ∀ s side, PositiveQty ((ex.book s).resting side)

theorem positive_empty : (empty : Exchange P).Positive := by
  intro s side e he
  rw [book_empty, OrderBook.resting_empty] at he
  exact absurd he List.not_mem_nil

end Exchange

/-- The first half of a command keeps the quantities positive exactly when it sets
a positive one. -/
theorem positive_update_iff {ex : Exchange P} (hl : ex.Linked) (hp : ex.Positive)
    (cmd : Command P) : (update ex cmd).1.Positive ↔ (Sets ex cmd → 0 < cmd.quantity) := by
  constructor
  · intro h hsets
    obtain ⟨side, e, he, -, hq⟩ := hsets.rests hl
    rw [← hq]
    exact h _ side e he
  · intro h s side e he
    rcases mem_of_mem_update hl he with he | ⟨hsets, -, -, hq⟩
    · exact hp s side e he
    · rw [hq]
      exact h hsets

/-- **A command keeps all quantities positive**, in its trades and in the books,
exactly when the quantity it sets, if it sets one, is positive. -/
theorem positive_dispatch_iff {ex : Exchange P} (hl : ex.Linked) (hu : ex.Uncrossed)
    (hp : ex.Positive) (cmd : Command P) :
    ((∀ t ∈ trades (dispatch ex cmd).2, 0 < t.quantity) ∧ (dispatch ex cmd).1.Positive) ↔
      (Sets ex cmd → 0 < cmd.quantity) := by
  have hladder := Ladder.positive_iff ((update ex cmd).1.book cmd.symbolStr).ladder
  rw [← ladder_dispatch hl hu, ← trades_dispatch hl hu] at hladder
  rw [← positive_update_iff hl hp]
  constructor
  · rintro ⟨htrades, hpos⟩ s side
    by_cases hs : s = cmd.symbolStr
    · subst hs
      obtain ⟨hb, ha⟩ := hladder.mpr ⟨htrades, hpos _ .buy, hpos _ .sell⟩
      cases side with
      | buy => exact hb
      | sell => exact ha
    · have h := hpos s side
      rwa [dispatch_eq hl hu, Exchange.book_matchOrders, if_neg hs] at h
  · intro hpos
    obtain ⟨htrades, hb, ha⟩ := hladder.mp ⟨hpos _ .buy, hpos _ .sell⟩
    refine ⟨htrades, fun s side => ?_⟩
    by_cases hs : s = cmd.symbolStr
    · subst hs
      cases side with
      | buy => exact hb
      | sell => exact ha
    · rw [dispatch_eq hl hu, Exchange.book_matchOrders, if_neg hs]
      exact hpos s side

end MatchingEngine
