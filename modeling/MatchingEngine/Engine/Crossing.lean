import MatchingEngine.Engine.Dispatch
import Mathlib.Algebra.Ring.Int.Defs
import Mathlib.Data.Int.Order.Basic

/-!
# Crossed books and who trades

Two results about whole runs that rest on the books being uncrossed between two
commands.

* `never_crossed`: after every command the best bid of every book is below its
  best ask, and matching again changes nothing.
* `only_incoming_trades`: `matchOrders` does not know which order is new, but of
  two orders that cross one must be, so every trade of a command has the
  command's own order as exactly one of its parties.
-/

namespace MatchingEngine

variable {P : Type} [LinearOrder P]

/-! ## Crossed books -/

/-- The levels at the two ends of an uncrossed book do not meet. -/
theorem OrderBook.Uncrossed.best_lt {b : OrderBook P} (hb : b.Linked) (hu : b.Uncrossed)
    {bid ask : P × List (Node P)} (hbid : b.bids.begin? = some bid)
    (hask : b.asks.begin? = some ask) : bid.1 < ask.1 := by
  obtain ⟨bidRest, hbids⟩ := OrderedMap.begin?_eq_some.mp hbid
  obtain ⟨askRest, hasks⟩ := OrderedMap.begin?_eq_some.mp hask
  have hbidmem : bid ∈ b.bids.entries := by rw [hbids]; exact List.mem_cons_self
  have haskmem : ask ∈ b.asks.entries := by rw [hasks]; exact List.mem_cons_self
  obtain ⟨n, hn⟩ := List.exists_mem_of_ne_nil _ (hb.nonempty .buy bid hbidmem)
  obtain ⟨m, hm⟩ := List.exists_mem_of_ne_nil _ (hb.nonempty .sell ask haskmem)
  have hrest : (bid.1, n) ∈ b.resting .buy := LevelMap.mem_flat.mpr ⟨bid.2, hbidmem, hn⟩
  have hrest' : (ask.1, m) ∈ b.resting .sell := LevelMap.mem_flat.mpr ⟨ask.2, haskmem, hm⟩
  exact hu _ hrest _ hrest'

/-- **No book is ever left crossed.**  After every run of commands, whatever
identifiers and quantities they carry, every book has its best bid strictly below
its best ask, and calling `matchOrders` again on any symbol changes nothing. -/
theorem never_crossed (cmds : List (Command P)) :
    (∀ symbol b, (engine.run cmds).books.lookup symbol = some b →
      ∀ bid ask, b.bids.begin? = some bid → b.asks.begin? = some ask → bid.1 < ask.1) ∧
    ∀ symbol, (engine.run cmds).matchOrders symbol = (engine.run cmds, []) := by
  have hl := linked_engine cmds
  have hu := uncrossed_engine cmds
  constructor
  · intro symbol b hb bid ask hbid hask
    have hlb := hl symbol
    have hub := hu symbol
    rw [Exchange.book_of_lookup hb] at hlb hub
    exact hub.best_lt hlb hbid hask
  · exact fun symbol => Exchange.matchOrders_of_uncrossed hl (hu symbol)

/-! ## The order that enters -/

/-- **Who trades when one order enters an uncrossed book**: that order, on its
side, with an order of the other side that was there. -/
theorem Enters.party {ex ex' : Exchange P} {symbol : Str} {o : Order P} {b₀ : OrderBook P}
    (hent : Enters ex ex' symbol o b₀) (hu : (ex.book symbol).Uncrossed) {t : Trade P}
    (ht : t ∈ (ex'.book symbol).ladder.trades) :
    (o.side = .buy ∧ t.buyer = o.orderId ∧ ∃ e ∈ b₀.resting .sell,
      t.seller = e.2.order.orderId ∧
      t.price = if o.timestamp ≤ e.2.order.timestamp then o.price else e.2.order.price) ∨
    (o.side = .sell ∧ t.seller = o.orderId ∧ ∃ e ∈ b₀.resting .buy,
      t.buyer = e.2.order.orderId ∧
      t.price = if e.2.order.timestamp ≤ o.timestamp then e.2.order.price else o.price) := by
  obtain ⟨bid, hbid, ask, hask, hle, hbuyer, hseller, hprice⟩ := (Ladder.trades_between _).2 t ht
  simp only [OrderBook.ladder, hent.inserted] at hbid hask
  rcases OrderBook.mem_resting_insertOrder.mp hbid with ⟨hs, rfl⟩ | hbid₀
  · rcases OrderBook.mem_resting_insertOrder.mp hask with ⟨hs', -⟩ | hask₀
    · rw [← hs] at hs'
      exact absurd hs' (by simp)
    · exact Or.inl ⟨hs.symm, hbuyer, ask, hask₀, hseller, hprice⟩
  · rcases OrderBook.mem_resting_insertOrder.mp hask with ⟨hs', rfl⟩ | hask₀
    · exact Or.inr ⟨hs'.symm, hseller, bid, hbid₀, hbuyer, hprice⟩
    · -- both were there, and then they did not cross
      have hlt := hu bid ((hent.sublist .buy).subset hbid₀) ask ((hent.sublist .sell).subset hask₀)
      exact absurd hle (not_le.mpr hlt)

/-- Where nothing enters, nothing trades. -/
theorem Quiet.trades_eq_nil {ex ex' : Exchange P} (h : Quiet ex ex') (hu : ex.Uncrossed)
    (symbol : Str) : (ex'.book symbol).ladder.trades = [] := by
  rw [List.eq_nil_iff_forall_not_mem]
  intro t ht
  obtain ⟨bid, hbid, ask, hask, hle, -⟩ := (Ladder.trades_between _).2 t ht
  exact absurd hle (not_le.mpr (h.uncrossed hu symbol bid hbid ask hask))

/-! ## The order that enters, in a run without reused identifiers -/

section Fresh

variable {cmds : List (Command P)} {cmd : Command P} {o : Order P} {b₀ : OrderBook P}

/-- No other order of its book carries the identifier of the order that enters. -/
theorem Incoming.absent (hfresh : FreshNew (cmds ++ [cmd]))
    (hin : Incoming (engine.run cmds) cmd o b₀) (side : Side) :
    ∀ e ∈ b₀.resting side, e.2.order.orderId ≠ cmd.orderId := by
  have hw := wf_engine (hereditary_freshNew cmds cmd hfresh)
  rcases hin.cause with ⟨hnew, -, rfl⟩ | ⟨loc, n, hre, -, rfl⟩
  · exact fun e he hei => not_rests_of_new hfresh hnew _ ⟨side, e, he, hei⟩
  · exact fun e he => ((OrderBook.mem_resting_unlink (hw.linked _) (hw.routed.indexed _)
      hre.located).mp he).2

/-- A modify that inserts its order again does not lower it in place. -/
theorem Reinserts.not_lowers (hfresh : FreshNew (cmds ++ [cmd])) {loc : OrderLocation P}
    {n : Node P} (hre : Reinserts (engine.run cmds) cmd loc n) :
    ¬ Lowers (engine.run cmds) cmd := by
  have hw := wf_engine (hereditary_freshNew cmds cmd hfresh)
  rintro ⟨side, e, he, hei, hp, hq⟩
  have heq := ((hw.routed.indexed _).id_inj (hw.linked _) he hre.rests (hei.trans hre.id.symm)).2
  rw [heq] at hp hq
  exact hre.not_lower ⟨hp, hq⟩

omit [LinearOrder P] in
theorem FreshNew.initial (hfresh : FreshNew (cmds ++ [cmd])) : FreshNew cmds :=
  hereditary_freshNew cmds cmd hfresh

end Fresh

/-! ## Only the incoming order trades -/

/-- An order with this identifier rests, and stays where it is while the command
updates the books. -/
def Stays (ex : Exchange P) (cmd : Command P) (i : UInt64) : Prop :=
  ∃ s side, ∃ e ∈ (ex.book s).resting side, ∃ e' ∈ ((update ex cmd).1.book s).resting side,
    e'.2.addr = e.2.addr ∧ e.2.order.orderId = i

/-- Of all orders only the command's own trades. -/
structure OnlyIncoming (ex : Exchange P) (cmd : Command P) : Prop where
  /-- Only a `NEW` and an accepted `MODIFY` trade, and then the command's order is
  exactly one of the two parties. -/
  one_party : ∀ t ∈ trades (dispatch ex cmd).2,
    (cmd.type = .new ∨ cmd.type = .modify ∧ ¬ Rejected ex cmd) ∧
      ((t.buyer = cmd.orderId ∧ t.seller ≠ cmd.orderId) ∨
        (t.seller = cmd.orderId ∧ t.buyer ≠ cmd.orderId))
  cancel : cmd.type = .cancel → trades (dispatch ex cmd).2 = []
  rejected : cmd.type = .modify → Rejected ex cmd → trades (dispatch ex cmd).2 = []
  lowers : cmd.type = .modify → Lowers ex cmd → trades (dispatch ex cmd).2 = []
  /-- Two orders that were both resting do not trade with each other. -/
  apart : ∀ t ∈ trades (dispatch ex cmd).2, ¬ (Stays ex cmd t.buyer ∧ Stays ex cmd t.seller)

/-- The order that enters does not stay: it stands in a new node. -/
theorem Incoming.not_stays {cmds : List (Command P)} {cmd : Command P} {o : Order P}
    {b₀ : OrderBook P} (hfresh : FreshNew (cmds ++ [cmd]))
    (hin : Incoming (engine.run cmds) cmd o b₀) : ¬ Stays (engine.run cmds) cmd cmd.orderId := by
  rintro ⟨s, side, e, he, e', he', haddr, hid⟩
  have hl := linked_engine cmds
  have hw := wf_engine hfresh.initial
  rcases hin.cause with ⟨hnew, -, -⟩ | ⟨loc, n, hre, -, hb₀⟩
  · exact not_rests_of_new hfresh hnew s ⟨side, e, he, hid⟩
  · -- the order is routed to the symbol of the command, so that is its book
    have hroute := hw.routed.routed s cmd.orderId ⟨side, e, he, hid⟩
    have hs : s = cmd.symbolStr := by
      by_contra hne
      exact hre.accepted (Or.inl fun h => hne (Option.some_inj.mp (hroute.symm.trans h)))
    subst hs
    have hnext : b₀.nextNode = ((engine.run cmds).book cmd.symbolStr).nextNode := by
      rw [hb₀]
      exact OrderBook.nextNode_unlink _ _ _
    rw [hin.enters.inserted] at he'
    rcases OrderBook.mem_resting_insertOrder.mp he' with ⟨-, rfl⟩ | he₀
    · have hlt := (hl _).bounded side e he
      rw [← haddr, ← hnext] at hlt
      exact absurd hlt (lt_irrefl _)
    · have heq := ((hl _).addr_inj ((hin.enters.sublist side).subset he₀) he haddr).2
      rw [heq] at he₀
      exact hin.absent hfresh side e he₀ hid

/-- The command's order is exactly one party of every trade of the command. -/
theorem Incoming.one_party {cmds : List (Command P)} {cmd : Command P} {o : Order P}
    {b₀ : OrderBook P} (hfresh : FreshNew (cmds ++ [cmd]))
    (hin : Incoming (engine.run cmds) cmd o b₀) {t : Trade P}
    (ht : t ∈ trades (dispatch (engine.run cmds) cmd).2) :
    (t.buyer = cmd.orderId ∧ t.seller ≠ cmd.orderId) ∨
      (t.seller = cmd.orderId ∧ t.buyer ≠ cmd.orderId) := by
  have hu := uncrossed_engine cmds
  rw [trades_dispatch (linked_engine cmds) hu] at ht
  rw [← hin.id]
  rcases hin.enters.party (hu _) ht with ⟨-, hb, e, he, hs, -⟩ | ⟨-, hs, e, he, hb, -⟩
  · exact Or.inl ⟨hb, by rw [hs, hin.id]; exact hin.absent hfresh .sell e he⟩
  · exact Or.inr ⟨hs, by rw [hb, hin.id]; exact hin.absent hfresh .buy e he⟩

/-- A command that inserts nothing trades nothing. -/
theorem Idle.trades_eq_nil {ex : Exchange P} {cmd : Command P} (h : Idle ex cmd) (hl : ex.Linked)
    (hu : ex.Uncrossed) : trades (dispatch ex cmd).2 = [] :=
  (trades_dispatch hl hu cmd).trans (h.quiet.trades_eq_nil hu _)

/-- **Only the incoming order trades**, in every run without reused identifiers. -/
theorem only_incoming_trades (cmds : List (Command P)) (cmd : Command P)
    (hfresh : FreshNew (cmds ++ [cmd])) : OnlyIncoming (engine.run cmds) cmd := by
  rcases update_cases (linked_engine cmds) cmd with hidle | ⟨o, b₀, hin⟩
  · have hnil := hidle.trades_eq_nil (linked_engine cmds) (uncrossed_engine cmds)
    have hnone : ∀ t, t ∉ trades (dispatch (engine.run cmds) cmd).2 := by
      rw [hnil]
      exact fun t => List.not_mem_nil
    exact ⟨fun t ht => absurd ht (hnone t), fun _ => hnil, fun _ _ => hnil, fun _ _ => hnil,
      fun t ht => absurd ht (hnone t)⟩
  · have hcause : cmd.type = .new ∨ cmd.type = .modify ∧ ¬ Rejected (engine.run cmds) cmd ∧
        ¬ Lowers (engine.run cmds) cmd := by
      rcases hin.cause with ⟨hnew, -, -⟩ | ⟨loc, n, hre, -, -⟩
      · exact Or.inl hnew
      · exact Or.inr ⟨hre.modify, hre.accepted, hre.not_lowers hfresh⟩
    refine ⟨fun t ht => ⟨hcause.imp_right fun h => ⟨h.1, h.2.1⟩, hin.one_party hfresh ht⟩,
      fun h => ?_, fun hmod hrej => ?_, fun hmod hlow => ?_, fun t ht hstays => ?_⟩
    · rcases hcause with h' | ⟨h', -⟩ <;> exact absurd (h.symm.trans h') (by simp)
    · rcases hcause with h' | ⟨-, h', -⟩
      · exact absurd (hmod.symm.trans h') (by simp)
      · exact absurd hrej h'
    · rcases hcause with h' | ⟨-, -, h'⟩
      · exact absurd (hmod.symm.trans h') (by simp)
      · exact absurd hlow h'
    · rcases hin.one_party hfresh ht with ⟨hb, -⟩ | ⟨hs, -⟩
      · exact hin.not_stays hfresh (hb ▸ hstays.1)
      · exact hin.not_stays hfresh (hs ▸ hstays.2)

/-- A sweep over two price levels: both trades have the incoming buy as a party. -/
theorem only_incoming_trades_sweep :
    let resting : List (Command ℤ) :=
      [.newOrder 1 .sell ['A'] 5 10 1 0 0, .newOrder 2 .sell ['A'] 5 11 2 0 0]
    let incoming : Command ℤ := .newOrder 3 .buy ['A'] 8 12 3 0 0
    FreshNew (resting ++ [incoming]) ∧ OnlyIncoming (engine.run resting) incoming ∧
      trades (dispatch (engine.run resting) incoming).2 = [⟨10, 5, 3, 1⟩, ⟨11, 3, 3, 2⟩] :=
  ⟨by decide, only_incoming_trades _ _ (by decide), by decide⟩

end MatchingEngine
