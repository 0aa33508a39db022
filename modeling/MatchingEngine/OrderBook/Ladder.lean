import MatchingEngine.OrderBook.Operations

/-!
# The ladder: what matching depends on

For matching, a book is two lists of orders in priority order, each with the price
of its level: a `Ladder`.  One matching step looks at the two heads and nothing
else, so the loop over nested maps of `matchOrders` is a loop over two lists, and
`ladder_matchOrders` says that it is this one: same trades, same remaining orders.

What the loop leaves alone is said here once: the orders that remain were there
before with the same key, node, identifier, side, price and timestamp
(`Ladder.Within`).
-/

namespace MatchingEngine

variable {P : Type} [LinearOrder P]

/-- The two sides of a book, in priority order. -/
structure Ladder (P : Type) where
  bids : List (P × Node P)
  asks : List (P × Node P)

namespace Ladder

open OrderBook (fillHead)

/-- The matching step on the two heads. -/
def step (L : Ladder P) : Option (Trade P × Ladder P) :=
  match L.bids, L.asks with
  | bid :: bids, ask :: asks =>
    if bid.1 < ask.1 then none
    else
      let t := tradeOf bid.2.order ask.2.order
      some (t, ⟨fillHead bid t.quantity bids, fillHead ask t.quantity asks⟩)
  | _, _ => none

/-- The number of orders. -/
def count (L : Ladder P) : ℕ := L.bids.length + L.asks.length

/-- The orders left when no bid reaches an ask any more. -/
def final (L : Ladder P) : Ladder P := Loop.final step L.count L

/-- The trades on the way there. -/
def trades (L : Ladder P) : List (Trade P) := Loop.outputs step L.count L

/-- Both sides in the order of their keys. -/
def Ordered (L : Ladder P) : Prop :=
  KeyOrdered (before .buy) Prod.fst L.bids ∧ KeyOrdered (before .sell) Prod.fst L.asks

theorem step_cons_cons {bid ask : P × Node P} {bids asks : List (P × Node P)}
    (h : ask.1 ≤ bid.1) :
    (⟨bid :: bids, ask :: asks⟩ : Ladder P).step =
      some (tradeOf bid.2.order ask.2.order,
        ⟨fillHead bid (tradeOf bid.2.order ask.2.order).quantity bids,
          fillHead ask (tradeOf bid.2.order ask.2.order).quantity asks⟩) := by
  rw [step]
  simp only [if_neg (not_lt.mpr h)]

/-- The inversion of a step. -/
theorem step_eq_some {L L' : Ladder P} {t : Trade P} (h : L.step = some (t, L')) :
    ∃ bid bids ask asks, L = ⟨bid :: bids, ask :: asks⟩ ∧ ask.1 ≤ bid.1 ∧
      t = tradeOf bid.2.order ask.2.order ∧
      L' = ⟨fillHead bid t.quantity bids, fillHead ask t.quantity asks⟩ := by
  obtain ⟨B, A⟩ := L
  rw [step] at h
  rcases B with _ | ⟨bid, bids⟩
  · exact absurd h (by simp)
  rcases A with _ | ⟨ask, asks⟩
  · exact absurd h (by simp)
  simp only at h
  split at h
  · exact absurd h (by simp)
  · rename_i hlt
    obtain ⟨ht, hL⟩ := Prod.mk.inj (Option.some.inj h)
    subst ht
    exact ⟨bid, bids, ask, asks, rfl, not_lt.mp hlt, rfl, hL.symm⟩

theorem step_eq_none_of_lt {L : Ladder P}
    (h : ∀ e ∈ L.bids, ∀ e' ∈ L.asks, e.1 < e'.1) : L.step = none := by
  cases hs : L.step with
  | none => rfl
  | some r =>
    obtain ⟨t, L'⟩ := r
    obtain ⟨bid, bids, ask, asks, rfl, hle, -⟩ := step_eq_some hs
    exact absurd (h bid List.mem_cons_self ask List.mem_cons_self) (not_lt.mpr hle)

/-- An ordered ladder whose loop stops does not cross anywhere. -/
theorem lt_of_step_eq_none {L : Ladder P} (hL : L.Ordered) (h : L.step = none) :
    ∀ e ∈ L.bids, ∀ e' ∈ L.asks, e.1 < e'.1 := by
  obtain ⟨B, A⟩ := L
  intro e he e' he'
  rcases B with _ | ⟨bid, bids⟩
  · exact absurd he List.not_mem_nil
  rcases A with _ | ⟨ask, asks⟩
  · exact absurd he' List.not_mem_nil
  have hlt : bid.1 < ask.1 := by
    by_contra hge
    rw [step_cons_cons (not_lt.mp hge)] at h
    exact absurd h (by simp)
  have h1 : e.1 ≤ bid.1 := by
    rcases List.mem_cons.mp he with rfl | he
    · exact le_refl _
    · exact not_lt.mp ((List.pairwise_cons.mp hL.1).1 e he)
  have h2 : ask.1 ≤ e'.1 := by
    rcases List.mem_cons.mp he' with rfl | he'
    · exact le_refl _
    · exact not_lt.mp ((List.pairwise_cons.mp hL.2).1 e' he')
  exact lt_of_le_of_lt h1 (lt_of_lt_of_le hlt h2)

/-- One of the two heads leaves. -/
theorem count_step {L L' : Ladder P} {t : Trade P} (h : L.step = some (t, L')) :
    L'.count < L.count := by
  obtain ⟨bid, bids, ask, asks, rfl, -, ht, rfl⟩ := step_eq_some h
  have h1 := OrderBook.length_fillHead_le bid t.quantity bids
  have h2 := OrderBook.length_fillHead_le ask t.quantity asks
  have hq : bid.2.order.quantity - t.quantity = 0 ∨ ask.2.order.quantity - t.quantity = 0 := by
    rw [ht]
    exact OrderBook.sub_stdMin_eq_zero _ _
  simp only [count, List.length_cons]
  rcases hq with hq | hq
  · have h3 := OrderBook.length_fillHead_of_filled bids hq
    omega
  · have h3 := OrderBook.length_fillHead_of_filled asks hq
    omega

/-- Induction on the matching loop. -/
theorem loop_induction {C : Ladder P → List (Trade P) → Ladder P → Prop}
    (hstop : ∀ L, L.step = none → C L [] L)
    (hstep : ∀ L t L' ts F, L.step = some (t, L') → C L' ts F → C L (t :: ts) F) (L : Ladder P) :
    C L L.trades L.final :=
  Loop.loop_induction count (fun _ _ _ h => count_step h) hstop hstep L.count L (le_refl _)

/-! ## What the loop leaves alone -/

/-- Every order of the first list is an order of the second one, up to its
quantity. -/
def Within (l l₀ : List (P × Node P)) : Prop :=
  ∀ e ∈ l, ∃ e₀ ∈ l₀, e₀.1 = e.1 ∧ e₀.2.addr = e.2.addr ∧
    e.2.order = { e₀.2.order with quantity := e.2.order.quantity }

omit [LinearOrder P] in
theorem Within.refl (l : List (P × Node P)) : Within l l := fun e he => ⟨e, he, rfl, rfl, rfl⟩

omit [LinearOrder P] in
theorem Within.trans {l l₁ l₂ : List (P × Node P)} (h : Within l l₁) (h' : Within l₁ l₂) :
    Within l l₂ := by
  intro e he
  obtain ⟨e₁, he₁, hk, ha, ho⟩ := h e he
  obtain ⟨e₂, he₂, hk', ha', ho'⟩ := h' e₁ he₁
  exact ⟨e₂, he₂, hk'.trans hk, ha'.trans ha, by rw [ho, ho']⟩

omit [LinearOrder P] in
theorem Within.of_sublist {l l₀ : List (P × Node P)} (h : l.Sublist l₀) : Within l l₀ :=
  fun e he => ⟨e, h.subset he, rfl, rfl, rfl⟩

omit [LinearOrder P] in
theorem within_fillHead (e : P × Node P) (q : Int32) (l : List (P × Node P)) :
    Within (fillHead e q l) (e :: l) := by
  intro x hx
  obtain ⟨e₀, he₀, hk, ha, ho, -⟩ := OrderBook.fillHead_origin hx
  exact ⟨e₀, he₀, hk, ha, ho⟩

omit [LinearOrder P] in
theorem keys_fillHead_sublist (e : P × Node P) (q : Int32) (l : List (P × Node P)) :
    ((fillHead e q l).map Prod.fst).Sublist ((e :: l).map Prod.fst) := by
  rw [fillHead]
  split
  · exact (List.sublist_cons_self _ _).map _
  · exact List.Sublist.refl _

/-- A fill keeps a side in order. -/
theorem keyOrdered_fillHead {s : Side} {e : P × Node P} {l : List (P × Node P)} (q : Int32)
    (h : KeyOrdered (before s) Prod.fst (e :: l)) :
    KeyOrdered (before s) Prod.fst (fillHead e q l) := by
  have h' : ((e :: l).map Prod.fst).Pairwise fun a b => ¬ before s b a := List.pairwise_map.mpr h
  exact List.pairwise_map.mp (h'.sublist (keys_fillHead_sublist e q l))

theorem Ordered.step {L L' : Ladder P} {t : Trade P} (hL : L.Ordered)
    (h : L.step = some (t, L')) : L'.Ordered := by
  obtain ⟨bid, bids, ask, asks, rfl, -, -, rfl⟩ := step_eq_some h
  exact ⟨keyOrdered_fillHead _ hL.1, keyOrdered_fillHead _ hL.2⟩

theorem within_step {L L' : Ladder P} {t : Trade P} (h : L.step = some (t, L')) :
    Within L'.bids L.bids ∧ Within L'.asks L.asks := by
  obtain ⟨bid, bids, ask, asks, rfl, -, -, rfl⟩ := step_eq_some h
  exact ⟨within_fillHead _ _ _, within_fillHead _ _ _⟩

/-- **A trade is between two orders of the book** whose prices cross, at the price
of one of them. -/
theorem trades_between (L : Ladder P) :
    (Within L.final.bids L.bids ∧ Within L.final.asks L.asks) ∧
      ∀ t ∈ L.trades, ∃ bid ∈ L.bids, ∃ ask ∈ L.asks, ask.1 ≤ bid.1 ∧
        t.buyer = bid.2.order.orderId ∧ t.seller = ask.2.order.orderId ∧
        t.price = if bid.2.order.timestamp ≤ ask.2.order.timestamp then bid.2.order.price
          else ask.2.order.price := by
  refine loop_induction (C := fun L ts F => (Within F.bids L.bids ∧ Within F.asks L.asks) ∧
      ∀ t ∈ ts, ∃ bid ∈ L.bids, ∃ ask ∈ L.asks, ask.1 ≤ bid.1 ∧
        t.buyer = bid.2.order.orderId ∧ t.seller = ask.2.order.orderId ∧
        t.price = if bid.2.order.timestamp ≤ ask.2.order.timestamp then bid.2.order.price
          else ask.2.order.price)
    (fun L _ => ⟨⟨Within.refl _, Within.refl _⟩, fun t ht => absurd ht List.not_mem_nil⟩) ?_ L
  intro L t L' ts F h ih
  obtain ⟨⟨hb, ha⟩, hts⟩ := ih
  obtain ⟨hb', ha'⟩ := within_step h
  refine ⟨⟨hb.trans hb', ha.trans ha'⟩, fun u hu => ?_⟩
  rcases List.mem_cons.mp hu with rfl | hu
  · obtain ⟨bid, bids, ask, asks, rfl, hle, ht, -⟩ := step_eq_some h
    rw [ht]
    exact ⟨bid, List.mem_cons_self, ask, List.mem_cons_self, hle, rfl, rfl, rfl⟩
  · -- the parties of a later trade are orders of `L` with another quantity
    obtain ⟨bid, hbid, ask, hask, hle, hbuyer, hseller, hprice⟩ := hts u hu
    obtain ⟨bid₀, hbid₀, hk, -, ho⟩ := hb' bid hbid
    obtain ⟨ask₀, hask₀, hk', -, ho'⟩ := ha' ask hask
    rw [ho] at hbuyer
    rw [ho'] at hseller
    rw [ho, ho'] at hprice
    exact ⟨bid₀, hbid₀, ask₀, hask₀, by rw [hk, hk']; exact hle, hbuyer, hseller, hprice⟩

end Ladder

namespace OrderBook

/-- The ladder of a book. -/
def ladder (b : OrderBook P) : Ladder P := ⟨b.resting .buy, b.resting .sell⟩

theorem ordered_ladder (b : OrderBook P) : b.ladder.Ordered :=
  ⟨b.keyOrdered_resting .buy, b.keyOrdered_resting .sell⟩

/-- **Matching the book is matching its ladder.** -/
theorem ladder_matchOrders {b : OrderBook P} (hb : b.Linked) :
    b.matchOrders.2 = b.ladder.trades.map Event.trade ∧
      b.matchOrders.1.ladder = b.ladder.final := by
  have hnone : ∀ (b : OrderBook P) (L : Ladder P), b.Linked ∧ b.ladder = L →
      b.matchStep = none → L.step = none := by
    rintro b L ⟨hb, rfl⟩ hnone
    exact Ladder.step_eq_none_of_lt ((matchStep_eq_none_iff hb.nonempty).mp hnone)
  have hsome : ∀ (b : OrderBook P) (L : Ladder P) (t : Trade P) (b' : OrderBook P),
      b.Linked ∧ b.ladder = L → b.matchStep = some (t, b') →
        ∃ t' L', L.step = some (t', L') ∧ t = t' ∧ b'.Linked ∧ b'.ladder = L' := by
    rintro b L t b' ⟨hb, rfl⟩ hsome
    obtain ⟨bid, bids, ask, asks, hbuy, hsell, hle, ht, hbuy', hsell', -⟩ := matchStep_eq_some hsome
    refine ⟨t, b'.ladder, ?_, rfl, hb.matchStep hsome, rfl⟩
    rw [ladder, ladder, hbuy, hsell, Ladder.step_cons_cons hle, hbuy', hsell', ht]
  obtain ⟨hout, -, hfin⟩ := Loop.simulation hnone hsome b.restingCount b b.ladder ⟨hb, rfl⟩
  rw [List.forall₂_eq_eq_eq] at hout
  exact ⟨congrArg (List.map Event.trade) hout, hfin⟩

end OrderBook
end MatchingEngine
