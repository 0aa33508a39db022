import MatchingEngine.OrderBook.Ladder

/-!
# A sweep

When one bid stands above all others and the rest of the book does not cross,
matching is a sweep: the bid meets the asks in queue order, each with what the
asks before have left of its quantity, until it is filled or the next ask is too
dear.  `reached` lists the asks it meets, from the book before the match.

The quantities are machine integers of either sign, and `reached` computes with
them as the loop does.
-/

namespace MatchingEngine

variable {P : Type} [LinearOrder P]

/-- Something better than everything goes to the front. -/
theorem insertAfter_of_forall {K α : Type*} {r : K → K → Prop} [DecidableRel r] {key : α → K}
    {x : α} {l : List α} (h : ∀ y ∈ l, r (key x) (key y)) : insertAfter r key x l = x :: l := by
  have hfront : l.filter (fun y => !decide (r (key x) (key y))) = [] :=
    List.filter_eq_nil_iff.mpr fun y hy => by simpa using h y hy
  have hback : l.filter (fun y => decide (r (key x) (key y))) = l :=
    List.filter_eq_self.mpr fun y hy => by simpa using h y hy
  rw [insertAfter, hfront, hback, List.nil_append]

/-- The asks that a bid with limit `p` meets with the quantity `q` left. -/
def reached (p : P) : Int32 → List (P × Node P) → List (P × Node P)
  | _, [] => []
  | q, ask :: asks =>
    if ask.1 ≤ p then
      ask :: if ask.2.order.quantity < q then reached p (q - ask.2.order.quantity) asks else []
    else []

theorem reached_subset (p : P) (asks : List (P × Node P)) (q : Int32) :
    ∀ a ∈ reached p q asks, a ∈ asks := by
  induction asks generalizing q with
  | nil => exact fun a ha => ha
  | cons ask asks ih =>
    intro a ha
    rw [reached] at ha
    split at ha
    · rcases List.mem_cons.mp ha with rfl | ha
      · exact List.mem_cons_self
      · split at ha
        · exact List.mem_cons_of_mem _ (ih _ a ha)
        · exact absurd ha List.not_mem_nil
    · exact absurd ha List.not_mem_nil

theorem reached_of_lt {p : P} {asks : List (P × Node P)} (h : ∀ a ∈ asks, p < a.1) (q : Int32) :
    reached p q asks = [] := by
  cases asks with
  | nil => rfl
  | cons ask asks => rw [reached, if_neg (not_le.mpr (h ask List.mem_cons_self))]

namespace Ladder

open OrderBook (fillHead)

/-- What a trade is about, but for the quantity. -/
def deal (t : Trade P) : UInt64 × UInt64 × P := (t.buyer, t.seller, t.price)

omit [LinearOrder P] in
theorem deal_tradeOf_fill (o a : Order P) (q : Int32) :
    deal (tradeOf (o.fill q) a) = deal (tradeOf o a) := by
  rw [deal, deal, tradeOf, tradeOf, Order.fill]

/-- No bid of the list reaches an ask. -/
def Apart (bids asks : List (P × Node P)) : Prop := ∀ e ∈ bids, ∀ a ∈ asks, e.1 < a.1

theorem Apart.fillHead {bids asks : List (P × Node P)} {a : P × Node P}
    (h : Apart bids (a :: asks)) (q : Int32) : Apart bids (OrderBook.fillHead a q asks) := by
  intro e he x hx
  obtain ⟨x₀, hx₀, hk, -⟩ := within_fillHead a q asks x hx
  rw [← hk]
  exact h e he x₀ hx₀

theorem trades_of_apart {bids asks : List (P × Node P)} (h : Apart bids asks) :
    (⟨bids, asks⟩ : Ladder P).trades = [] :=
  Loop.outputs_of_none (step_eq_none_of_lt (L := ⟨bids, asks⟩) h) _

theorem sub_ne_zero_of_lt {x y : Int32} (h : y < x) : x - y ≠ 0 := by
  intro h0
  have heq : x = y := by rw [Int32.sub_eq_iff_eq_add.mp h0, Int32.zero_add]
  rw [heq] at h
  exact absurd h Int32.lt_irrefl

/-- **The sweep.**  A bid above the others meets the asks of `reached`, in that
order, each at the price of the earlier of the two. -/
theorem deals_sweep {p : P} {n : Node P} {bids asks : List (P × Node P)}
    (h : Apart bids asks) :
    (⟨(p, n) :: bids, asks⟩ : Ladder P).trades.map deal =
      (reached p n.order.quantity asks).map fun a => deal (tradeOf n.order a.2.order) := by
  refine loop_induction (C := fun L ts _ =>
    (∀ bids asks, L = ⟨bids, asks⟩ → Apart bids asks → ts = []) ∧
    ∀ p n bids asks, L = ⟨(p, n) :: bids, asks⟩ → Apart bids asks → ts.map deal =
      (reached p n.order.quantity asks).map fun a => deal (tradeOf n.order a.2.order))
    ?_ ?_ _ |>.2 p n bids asks rfl h
  · rintro L hstop
    refine ⟨fun _ _ _ _ => rfl, ?_⟩
    rintro p n bids asks rfl h
    cases asks with
    | nil => rfl
    | cons a asks =>
      have hlt : ¬ a.1 ≤ p := by
        intro hle
        rw [step_cons_cons hle] at hstop
        exact absurd hstop (by simp)
      rw [reached, if_neg hlt]
      rfl
  · rintro L t L' ts F hstep ⟨ihapart, ihsweep⟩
    refine ⟨?_, ?_⟩
    · rintro bids asks rfl h
      rw [step_eq_none_of_lt (L := ⟨bids, asks⟩) h] at hstep
      exact absurd hstep (by simp)
    · rintro p n bids asks rfl h
      obtain ⟨bid, bids', a, asks', hL, hle, ht, rfl⟩ := step_eq_some hstep
      obtain ⟨hbids, hasks⟩ := Ladder.mk.inj hL
      obtain ⟨rfl, rfl⟩ := List.cons.inj hbids
      subst hasks
      have hq : t.quantity = stdMin n.order.quantity a.2.order.quantity := by rw [ht]; rfl
      rw [reached, if_pos hle, List.map_cons, List.map_cons]
      congr 1
      · rw [ht]
      · split
        · -- the ask is filled, and the bid goes on with the rest
          rename_i hlt
          have hta : t.quantity = a.2.order.quantity := by rw [hq, stdMin, if_pos hlt]
          have hbid : fillHead (p, n) t.quantity bids =
              (p, { n with order := n.order.fill t.quantity }) :: bids := by
            rw [hta]
            exact if_neg (sub_ne_zero_of_lt hlt)
          have hask : fillHead a t.quantity asks' = asks' := OrderBook.fillHead_filled asks' hta
          have hrec := ihsweep p _ bids asks' (by rw [hbid, hask])
            fun e he x hx => h e he x (List.mem_cons_of_mem _ hx)
          have hqty : (n.order.fill t.quantity).quantity =
              n.order.quantity - a.2.order.quantity := by rw [Order.fill, hta]
          rw [hrec]
          simp only [hqty, deal_tradeOf_fill]
        · -- the bid is filled, and the book does not cross any more
          rename_i hlt
          have htn : t.quantity = n.order.quantity := by rw [hq, stdMin, if_neg hlt]
          have hbid : fillHead (p, n) t.quantity bids = bids := OrderBook.fillHead_filled bids htn
          rw [ihapart bids _ (by rw [hbid]) (h.fillHead _)]
          rfl

end Ladder
end MatchingEngine
