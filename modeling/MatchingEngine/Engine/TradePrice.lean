import MatchingEngine.Engine.Crossing
import MatchingEngine.OrderBook.Sweep

/-!
# The price of a trade

`matchOrders` takes the order with the earlier timestamp for the resting one.  In
a run whose timestamps do not decrease a resting order is never younger than the
command (`timestamp_of_rests`), and an incoming sell pays the price of the bid
that was there.  But an ask may be exactly as old as the command, since
timestamps are readings in microseconds, and then the comparison `<=` takes the
incoming buy for the resting order.

`resting_price_iff` is the exact law: in a run the trades are at the price of the
resting party if and only if no buy that enters reaches a resting ask with its
own timestamp and another price.
-/

namespace MatchingEngine

variable {P : Type}

/-- The commands that carry a reading of the clock. -/
def Command.stamped (cmd : Command P) : Bool :=
  match cmd.type with
  | .new | .cancel | .modify => true
  | _ => false

/-- The timestamps do not decrease along a run. -/
def NonDecreasing (cmds : List (Command P)) : Prop :=
  (cmds.filter Command.stamped).Pairwise fun c c' => c.timestamp ≤ c'.timestamp

instance (cmds : List (Command P)) : Decidable (NonDecreasing cmds) :=
  inferInstanceAs (Decidable (List.Pairwise _ _))

/-- The party of a trade on a side. -/
def Trade.party (t : Trade P) : Side → UInt64
  | .buy => t.buyer
  | .sell => t.seller

variable [LinearOrder P]

/-! ## Timestamps of resting orders -/

/-- Every resting order carries the timestamp of the command that put it there. -/
theorem timestamp_of_rests (cmds : List (Command P)) {s : Str} {side : Side} {e : P × Node P}
    (he : e ∈ ((engine.run cmds).book s).resting side) :
    ∃ c ∈ cmds, c.stamped ∧ e.2.order.timestamp = c.timestamp := by
  induction cmds using List.reverseRecOn generalizing e with
  | nil =>
    rw [Machine.run_nil] at he
    rw [show (engine (P := P)).init = Exchange.empty from rfl, Exchange.book_empty,
      OrderBook.resting_empty] at he
    exact absurd he List.not_mem_nil
  | append_singleton cmds cmd ih =>
    rw [engine_run_concat] at he
    rcases mem_resting_dispatch (linked_engine cmds) (uncrossed_engine cmds) he with
      ⟨e₀, he₀, -, -, ho⟩ | ⟨-, o, b₀, hin, -, ho⟩
    · obtain ⟨c, hc, hstamped, hts⟩ := ih he₀
      exact ⟨c, List.mem_append_left _ hc, hstamped, by rw [ho]; exact hts⟩
    · refine ⟨cmd, List.mem_append_right _ (List.mem_singleton_self cmd), ?_, by
        rw [ho]; exact hin.timestamp⟩
      rcases hin.cause with ⟨hnew, -, -⟩ | ⟨loc, n, hre, -, -⟩
      · rw [Command.stamped, hnew]
      · rw [Command.stamped, hre.modify]

/-- A resting order is not younger than the next command. -/
theorem timestamp_le {cmds : List (Command P)} {cmd : Command P}
    (hts : NonDecreasing (cmds ++ [cmd])) (hstamped : cmd.stamped) {s : Str} {side : Side}
    {e : P × Node P} (he : e ∈ ((engine.run cmds).book s).resting side) :
    e.2.order.timestamp ≤ cmd.timestamp := by
  obtain ⟨c, hc, hcs, heq⟩ := timestamp_of_rests cmds he
  rw [NonDecreasing, List.filter_append, List.pairwise_append] at hts
  rw [heq]
  refine hts.2.2 c (List.mem_filter.mpr ⟨hc, hcs⟩) cmd ?_
  rw [List.filter_cons_of_pos hstamped]
  exact List.mem_cons_self

/-! ## The two properties -/

/-- Every trade of the command is at the limit price of its other party, which was
resting before the command. -/
def AtRestingPrice (ex : Exchange P) (cmd : Command P) : Prop :=
  ∀ t ∈ trades (dispatch ex cmd).2, ∃ side, ∃ r ∈ (ex.book cmd.symbolStr).resting side,
    r.2.order.orderId ≠ cmd.orderId ∧ t.party side = r.2.order.orderId ∧
      t.price = r.2.order.price

/-- The command inserts a buy: it is a `NEW` buy, or a `MODIFY` that re-prices or
enlarges a resting bid. -/
def BuyEnters (ex : Exchange P) (cmd : Command P) : Prop :=
  (cmd.type = .new ∧ cmd.side = .buy) ∨
    (cmd.type = .modify ∧ ¬ Rejected ex cmd ∧ ¬ Lowers ex cmd ∧
      ∃ e ∈ (ex.book cmd.symbolStr).resting .buy, e.2.order.orderId = cmd.orderId)

/-- No buy that the command inserts reaches a resting ask with the command's own
timestamp and another price. -/
def NoTie (ex : Exchange P) (cmd : Command P) : Prop :=
  BuyEnters ex cmd →
    ∀ a ∈ reached cmd.price cmd.quantity ((ex.book cmd.symbolStr).resting .sell),
      a.2.order.timestamp = cmd.timestamp → a.2.order.price = cmd.price

section Fresh

variable {cmds : List (Command P)} {cmd : Command P} {o : Order P} {b₀ : OrderBook P}

/-- Which side the order that enters is on. -/
theorem Incoming.buyEnters_iff (hfresh : FreshNew (cmds ++ [cmd]))
    (hin : Incoming (engine.run cmds) cmd o b₀) :
    BuyEnters (engine.run cmds) cmd ↔ o.side = .buy := by
  have hw := wf_engine hfresh.initial
  rcases hin.cause with ⟨hnew, hside, -⟩ | ⟨loc, n, hre, hside, -⟩
  · rw [hside]
    constructor
    · rintro (⟨-, h⟩ | ⟨h, -⟩)
      · exact h
      · exact absurd (hnew.symm.trans h) (by simp)
    · exact fun h => Or.inl ⟨hnew, h⟩
  · rw [hside]
    constructor
    · rintro (⟨h, -⟩ | ⟨-, -, -, e, he, hid⟩)
      · exact absurd (hre.modify.symm.trans h) (by simp)
      · exact ((hw.routed.indexed _).id_inj (hw.linked _) he hre.rests
          (hid.trans hre.id.symm)).1.symm
    · exact fun h => Or.inr ⟨hre.modify, hre.accepted, hre.not_lowers hfresh, _,
        h ▸ hre.rests, hre.id⟩

/-- A command that inserts nothing inserts no buy. -/
theorem Idle.not_buyEnters {ex : Exchange P} (h : Idle ex cmd) : ¬ BuyEnters ex cmd := by
  rintro (⟨hnew, -⟩ | ⟨hmod, hrej, hlow, -⟩)
  · exact h.not_new hnew
  · rcases h.modify hmod with h' | h'
    · exact hrej h'
    · exact hlow h'

/-- **The deals of an incoming buy**: it meets the asks it reaches. -/
theorem Incoming.deals_buy {ex : Exchange P} (hl : ex.Linked) (hu : ex.Uncrossed)
    (hin : Incoming ex cmd o b₀) (hbuy : o.side = .buy) :
    (trades (dispatch ex cmd).2).map Ladder.deal =
      (reached cmd.price cmd.quantity ((ex.book cmd.symbolStr).resting .sell)).map
        fun a => Ladder.deal (tradeOf o a.2.order) := by
  have hsell : ((update ex cmd).1.book cmd.symbolStr).resting .sell =
      (ex.book cmd.symbolStr).resting .sell := by
    have hopp := hin.enters.opposite
    rw [hbuy, Side.opposite] at hopp
    rw [hin.enters.inserted, OrderBook.resting_insertOrder, hbuy, if_neg (by simp), hopp]
  have hbids : ((update ex cmd).1.book cmd.symbolStr).resting .buy =
      insertAfter (before .buy) Prod.fst (o.price, (⟨b₀.nextNode, o⟩ : Node P))
        (b₀.resting .buy) := by
    rw [hin.enters.inserted, OrderBook.resting_insertOrder, hbuy, if_pos rfl]
  have hapart : Ladder.Apart (b₀.resting .buy) ((ex.book cmd.symbolStr).resting .sell) :=
    fun e he a ha => hu _ e ((hin.enters.sublist .buy).subset he) a ha
  rw [trades_dispatch hl hu, OrderBook.ladder, hsell, hbids, ← hin.price, ← hin.quantity]
  by_cases hcross : ∃ a ∈ (ex.book cmd.symbolStr).resting .sell, a.1 ≤ o.price
  · -- the order crosses, so it is better than every bid that was there
    obtain ⟨a, ha, hle⟩ := hcross
    have hfront : ∀ e ∈ b₀.resting .buy, before .buy o.price e.1 :=
      fun e he => lt_of_lt_of_le (hapart e he a ha) hle
    have hins : insertAfter (before .buy) Prod.fst (o.price, (⟨b₀.nextNode, o⟩ : Node P))
        (b₀.resting .buy) = (o.price, ⟨b₀.nextNode, o⟩) :: b₀.resting .buy :=
      insertAfter_of_forall hfront
    rw [hins]
    exact Ladder.deals_sweep hapart
  · have hlt : ∀ a ∈ (ex.book cmd.symbolStr).resting .sell, o.price < a.1 :=
      fun a ha => not_le.mp fun hle => hcross ⟨a, ha, hle⟩
    have hnone : Ladder.Apart (insertAfter (before .buy) Prod.fst
        (o.price, (⟨b₀.nextNode, o⟩ : Node P)) (b₀.resting .buy))
        ((ex.book cmd.symbolStr).resting .sell) := by
      intro e he a ha
      rcases mem_insertAfter.mp he with rfl | he
      · exact hlt a ha
      · exact hapart e he a ha
    rw [Ladder.trades_of_apart hnone, reached_of_lt hlt]
    rfl

theorem Incoming.stamped {ex : Exchange P} (hin : Incoming ex cmd o b₀) : cmd.stamped := by
  rcases hin.cause with ⟨hnew, -, -⟩ | ⟨loc, n, hre, -, -⟩
  · rw [Command.stamped, hnew]
  · rw [Command.stamped, hre.modify]

/-- An incoming sell pays the price of the bids it meets. -/
theorem Incoming.atRestingPrice_sell (hfresh : FreshNew (cmds ++ [cmd]))
    (hts : NonDecreasing (cmds ++ [cmd])) (hin : Incoming (engine.run cmds) cmd o b₀)
    (hsell : o.side = .sell) : AtRestingPrice (engine.run cmds) cmd := by
  intro t ht
  rw [trades_dispatch (linked_engine cmds) (uncrossed_engine cmds)] at ht
  rcases hin.enters.party (uncrossed_engine cmds _) ht with
    ⟨hbuy, -⟩ | ⟨-, -, e, he, hbuyer, hprice⟩
  · rw [hsell] at hbuy
    exact absurd hbuy (by simp)
  · have hmem := (hin.enters.sublist .buy).subset he
    have hle : e.2.order.timestamp ≤ o.timestamp := by
      rw [hin.timestamp]
      exact timestamp_le hts hin.stamped hmem
    rw [if_pos hle] at hprice
    exact ⟨.buy, e, hmem, hin.absent hfresh .buy e he, hbuyer, hprice⟩

/-- An incoming buy pays the price of the asks it meets, unless there is a tie. -/
theorem Incoming.atRestingPrice_buy_iff (hfresh : FreshNew (cmds ++ [cmd]))
    (hts : NonDecreasing (cmds ++ [cmd])) (hin : Incoming (engine.run cmds) cmd o b₀)
    (hbuy : o.side = .buy) :
    AtRestingPrice (engine.run cmds) cmd ↔ NoTie (engine.run cmds) cmd := by
  have hl := linked_engine cmds
  have hw := wf_engine hfresh.initial
  have hdeals := hin.deals_buy hl (uncrossed_engine cmds) hbuy
  have hopp := hin.enters.opposite
  rw [hbuy, Side.opposite] at hopp
  constructor
  · intro hprice _ a ha htie
    have hmem := reached_subset _ _ _ a ha
    have hdeal : Ladder.deal (tradeOf o a.2.order) ∈
        (trades (dispatch (engine.run cmds) cmd).2).map Ladder.deal := by
      rw [hdeals]
      exact List.mem_map_of_mem ha
    obtain ⟨t, ht, heq⟩ := List.mem_map.mp hdeal
    obtain ⟨hb, hsp⟩ := Prod.mk.inj heq
    obtain ⟨hs, hp⟩ := Prod.mk.inj hsp
    -- on a tie the comparison takes the buy for the resting order
    have hcmd : t.price = cmd.price := by
      rw [hp, tradeOf]
      simp only
      rw [if_pos (by rw [hin.timestamp, htie]), hin.price]
    obtain ⟨side, r, hr, hne, hparty, hrp⟩ := hprice t ht
    cases side with
    | buy =>
      have hself : t.buyer = cmd.orderId := hb.trans hin.id
      exact absurd (hparty.symm.trans hself) hne
    | sell =>
      have hra := ((hw.routed.indexed _).id_inj (hw.linked _) hr hmem (hparty.symm.trans hs)).2
      rw [← hra, ← hrp, hcmd]
  · intro htie t ht
    have hdeal : Ladder.deal t ∈ (trades (dispatch (engine.run cmds) cmd).2).map Ladder.deal :=
      List.mem_map_of_mem ht
    rw [hdeals] at hdeal
    obtain ⟨a, ha, heq⟩ := List.mem_map.mp hdeal
    obtain ⟨-, hsp⟩ := Prod.mk.inj heq
    obtain ⟨hs, hp⟩ := Prod.mk.inj hsp
    have hmem := reached_subset _ _ _ a ha
    refine ⟨.sell, a, hmem, hin.absent hfresh .sell a (by rw [hopp]; exact hmem), hs.symm, ?_⟩
    rw [← hp, tradeOf]
    simp only
    split
    · rename_i hle
      rw [hin.timestamp] at hle
      have heqts := le_antisymm (timestamp_le hts hin.stamped hmem) hle
      rw [hin.price]
      exact (htie ((hin.buyEnters_iff hfresh).mpr hbuy) a ha heqts).symm
    · rfl

end Fresh

/-- One command: its trades are at the resting price exactly when there is no tie. -/
theorem atRestingPrice_iff {cmds : List (Command P)} {cmd : Command P}
    (hfresh : FreshNew (cmds ++ [cmd])) (hts : NonDecreasing (cmds ++ [cmd])) :
    AtRestingPrice (engine.run cmds) cmd ↔ NoTie (engine.run cmds) cmd := by
  rcases update_cases (linked_engine cmds) cmd with hidle | ⟨o, b₀, hin⟩
  · have hnil := hidle.trades_eq_nil (linked_engine cmds) (uncrossed_engine cmds)
    refine ⟨fun _ h => absurd h hidle.not_buyEnters, fun _ t ht => ?_⟩
    rw [hnil] at ht
    exact absurd ht List.not_mem_nil
  · cases hside : o.side with
    | buy => exact hin.atRestingPrice_buy_iff hfresh hts hside
    | sell =>
      refine ⟨fun _ h => ?_, fun _ => hin.atRestingPrice_sell hfresh hts hside⟩
      have hbuy := (hin.buyEnters_iff hfresh).mp h
      exact absurd (hside.symm.trans hbuy) (by simp)

omit [LinearOrder P] in
theorem NonDecreasing.initial {cmds cmds' : List (Command P)} (h : NonDecreasing (cmds ++ cmds')) :
    NonDecreasing cmds := by
  rw [NonDecreasing, List.filter_append, List.pairwise_append] at h
  exact h.1

/-- **The law of the trade price.**  In a run with fresh identifiers and timestamps
that do not decrease, every trade of every command is at the limit price of the
party that was resting exactly when no buy that enters reaches a resting ask with
its own timestamp and another price. -/
theorem resting_price_iff (cmds : List (Command P)) (hfresh : FreshNew cmds)
    (hts : NonDecreasing cmds) :
    (∀ before cmd after, cmds = before ++ cmd :: after →
      AtRestingPrice (engine.run before) cmd) ↔
    ∀ before cmd after, cmds = before ++ cmd :: after → NoTie (engine.run before) cmd := by
  have hstep : ∀ before cmd after, cmds = before ++ cmd :: after →
      (AtRestingPrice (engine.run before) cmd ↔ NoTie (engine.run before) cmd) := by
    intro before cmd after heq
    have hsplit : cmds = (before ++ [cmd]) ++ after := by rw [heq, List.append_assoc]; rfl
    rw [hsplit] at hfresh hts
    exact atRestingPrice_iff (hereditary_freshNew.of_append hfresh) hts.initial
  exact ⟨fun h before cmd after heq => (hstep before cmd after heq).mp (h before cmd after heq),
    fun h before cmd after heq => (hstep before cmd after heq).mpr (h before cmd after heq)⟩

/-- A sell that meets two bids, one as old as itself. -/
theorem resting_price_iff_sell :
    let cmds : List (Command ℤ) := [.newOrder 1 .buy ['A'] 5 12 1000 0 0,
      .newOrder 2 .buy ['A'] 5 11 1001 0 0, .newOrder 3 .sell ['A'] 8 10 1001 0 0]
    (∀ before cmd after, cmds = before ++ cmd :: after →
      AtRestingPrice (engine.run before) cmd) ↔
    ∀ before cmd after, cmds = before ++ cmd :: after → NoTie (engine.run before) cmd :=
  resting_price_iff _ (by decide) (by decide)

/-- **A tie.**  A sell at 10 and then a buy at 12 within the same microsecond: the
trade is at 12, the price of the order that has just come in. -/
theorem resting_price_tie :
    let sell : Command ℤ := .newOrder 1 .sell ['A'] 5 10 1000 0 0
    let buy : Command ℤ := .newOrder 2 .buy ['A'] 5 12 1000 0 0
    FreshNew [sell, buy] ∧ NonDecreasing [sell, buy] ∧
      trades (dispatch (engine.run [sell]) buy).2 = [⟨12, 5, 2, 1⟩] ∧
      ¬ AtRestingPrice (engine.run [sell]) buy := by
  refine ⟨by decide, by decide, by decide, fun h => ?_⟩
  obtain ⟨side, r, hr, hne, -, hprice⟩ := h ⟨12, 5, 2, 1⟩ (by decide)
  have hall : ∀ side, ∀ r ∈ ((engine.run [Command.newOrder 1 .sell ['A'] 5 (10 : ℤ) 1000 0 0]).book
      (Command.newOrder 2 .buy ['A'] 5 (12 : ℤ) 1000 0 0).symbolStr).resting side,
      r.2.order.price ≠ 12 := by
    intro side
    cases side <;> decide
  exact hall side r hr hprice.symm

end MatchingEngine
