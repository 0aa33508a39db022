import MatchingEngine.OrderBook.Operations

/-!
# The matching loop terminates

The quantities are no measure for the loop of `matchOrders`: against a negative
quantity the other side's quantity grows.  The measure is the number of orders.
Whatever two machine integers meet, taking the smaller of them from both leaves zero
of one, so every iteration removes an order; and since an iteration needs an order
on each side, the number of orders less one still decreases.

The step function stops in two situations, and only one of them is the loop
condition of the source: the other is a front that is not there.  Without empty
levels it does not arise (`front_exists`), so where the step stops the loop
condition is false (`matchStep_eq_none_iff_not`).
-/

namespace MatchingEngine

variable {P : Type} [LinearOrder P]

namespace OrderBook

/-- The condition of the loop of `matchOrders`: neither side is empty, and the best
bid is not below the best ask. -/
def LoopCondition (b : OrderBook P) : Prop :=
  ∃ bidPrice bidQueue askPrice askQueue, b.bids.begin? = some (bidPrice, bidQueue) ∧
    b.asks.begin? = some (askPrice, askQueue) ∧ ¬ bidPrice < askPrice

/-- The first queue of a side without empty levels has a front. -/
theorem front_exists {b : OrderBook P} {s : Side} (hne : (b.levels s).NonemptyLevels) {k : P}
    {queue : List (Node P)} (h : (b.levels s).begin? = some (k, queue)) : queue ≠ [] := by
  obtain ⟨rest, hrest⟩ := OrderedMap.begin?_eq_some.mp h
  exact hne (k, queue) (by rw [hrest]; exact List.mem_cons_self)

/-- **Where the step stops, the loop condition is false.** -/
theorem matchStep_eq_none_iff_not {b : OrderBook P} (hne : ∀ s, (b.levels s).NonemptyLevels) :
    b.matchStep = none ↔ ¬ b.LoopCondition := by
  constructor
  · rintro hnone ⟨bidPrice, bidQueue, askPrice, askQueue, hbid, hask, hcross⟩
    obtain ⟨firstBid, bidRest, rfl⟩ := List.exists_cons_of_ne_nil (front_exists (hne .buy) hbid)
    obtain ⟨firstAsk, askRest, rfl⟩ := List.exists_cons_of_ne_nil (front_exists (hne .sell) hask)
    rw [matchStep, hbid, hask] at hnone
    simp only [if_neg hcross] at hnone
    exact absurd hnone (by simp)
  · intro hcond
    cases hstep : b.matchStep with
    | none => rfl
    | some r =>
      refine absurd ?_ hcond
      rw [matchStep] at hstep
      split at hstep
      · rename_i bidPrice firstBid bidRest askPrice firstAsk askRest hbid hask
        split at hstep
        · exact absurd hstep (by simp)
        · rename_i hcross
          exact ⟨bidPrice, _, askPrice, _, hbid, hask, hcross⟩
      · exact absurd hstep (by simp)

/-- **Every iteration removes an order**: the nodes that are left stood in the book,
in the same order, and they are fewer. -/
theorem matchStep_removes {b b' : OrderBook P} {t : Trade P} (h : b.matchStep = some (t, b')) :
    b'.restingCount < b.restingCount ∧
      ∀ s, ((b'.resting s).map fun e => e.2.addr).Sublist
        ((b.resting s).map fun e => e.2.addr) := by
  refine ⟨restingCount_matchStep h, fun s => ?_⟩
  obtain ⟨bid, bids, ask, asks, hbuy, hsell, -, -, hbuy', hsell', -⟩ := matchStep_eq_some h
  cases s with
  | buy =>
    rw [hbuy, hbuy']
    exact addrs_fillHead_sublist bid t.quantity bids
  | sell =>
    rw [hsell, hsell']
    exact addrs_fillHead_sublist ask t.quantity asks

/-- The orders less one are a measure as well, since an iteration takes an order on
each side. -/
theorem pred_restingCount_matchStep {b b' : OrderBook P} {t : Trade P}
    (h : b.matchStep = some (t, b')) : b'.restingCount - 1 < b.restingCount - 1 := by
  have hlt := restingCount_matchStep h
  obtain ⟨bid, bids, ask, asks, hbuy, hsell, -⟩ := matchStep_eq_some h
  have htwo : 2 ≤ b.restingCount := by
    rw [restingCount, hbuy, hsell, List.length_cons, List.length_cons]
    omega
  omega

/-- No level becomes empty. -/
theorem nonemptyLevels_final {b : OrderBook P} (hne : ∀ s, (b.levels s).NonemptyLevels) (n : ℕ)
    (s : Side) : ((Loop.final matchStep n b).levels s).NonemptyLevels := by
  refine Loop.final_invariant (I := fun b : OrderBook P => ∀ s, (b.levels s).NonemptyLevels)
    (fun b t b' hb h => ?_) n b hne s
  obtain ⟨-, -, -, -, -, -, -, -, -, -, -, -, -, -, -, hkeep⟩ := matchStep_eq_some h
  exact hkeep hb

/-- **`matchOrders` terminates** on every book without empty levels, whatever the
index says and whatever the quantities are.  However long the loop is run, every
iteration removes an order, no front of an empty queue is taken, and the trades are
fewer than the orders; after that many iterations, and in the book `matchOrders`
returns, the loop condition is false. -/
theorem matchOrders_terminates (b : OrderBook P) (hne : ∀ s, (b.levels s).NonemptyLevels) :
    (∀ n, ∀ x ∈ Loop.trace matchStep n b, x.2.2.restingCount < x.1.restingCount ∧
      ∀ s, ((x.2.2.resting s).map fun e => e.2.addr).Sublist
        ((x.1.resting s).map fun e => e.2.addr)) ∧
    (∀ n bidPrice bidQueue askPrice askQueue,
      (Loop.final matchStep n b).bids.begin? = some (bidPrice, bidQueue) →
      (Loop.final matchStep n b).asks.begin? = some (askPrice, askQueue) →
      ¬ bidPrice < askPrice → bidQueue ≠ [] ∧ askQueue ≠ []) ∧
    (∀ n, (Loop.outputs matchStep n b).length ≤
      (b.resting .buy).length + (b.resting .sell).length - 1) ∧
    ¬ (Loop.final matchStep ((b.resting .buy).length + (b.resting .sell).length - 1)
      b).LoopCondition ∧
    ¬ b.matchOrders.1.LoopCondition ∧
    (trades b.matchOrders.2).length ≤
      (b.resting .buy).length + (b.resting .sell).length - 1 := by
  have hμ : ∀ (b : OrderBook P) t b', b.matchStep = some (t, b') →
      b'.restingCount - 1 < b.restingCount - 1 := fun _ _ _ h => pred_restingCount_matchStep h
  have hcount : ∀ n, (Loop.outputs matchStep n b).length ≤ b.restingCount - 1 := by
    intro n
    rw [Loop.outputs, List.length_map]
    exact Loop.length_trace_le (fun b => b.restingCount - 1) hμ n b
  refine ⟨fun n x hx => ?_, fun n bidPrice bidQueue askPrice askQueue hbid hask _ => ?_, hcount,
    ?_, ?_, ?_⟩
  · have hstep : x.1.matchStep = some x.2 :=
      (Loop.trace_invariant (I := fun _ => True) (fun _ _ _ _ _ => trivial) n b trivial x hx).2
    exact matchStep_removes hstep
  · exact ⟨front_exists (nonemptyLevels_final hne n .buy) hbid,
      front_exists (nonemptyLevels_final hne n .sell) hask⟩
  · exact (matchStep_eq_none_iff_not (nonemptyLevels_final hne _)).mp
      (Loop.step_final_eq_none (fun b => b.restingCount - 1) hμ _ b (le_refl _))
  · exact (matchStep_eq_none_iff_not (nonemptyLevels_final hne _)).mp b.matchStep_matchOrders
  · rw [OrderBook.matchOrders, trades_map_trade]
    exact hcount _

/-- Bids of the smallest quantity of the machine and of one meet an ask of zero: the
ask grows past the largest quantity and wraps around, and the second bid does after
it.  The two trades are the most three orders allow. -/
theorem matchOrders_terminates_extreme :
    let b : OrderBook ℤ :=
      (((empty.addOrder ⟨1, .buy, 10, -2147483648, 1⟩).1.addOrder ⟨2, .buy, 9, 1, 2⟩).1.addOrder
        ⟨3, .sell, 9, 0, 3⟩).1
    ¬ b.matchOrders.1.LoopCondition ∧ (trades b.matchOrders.2).length ≤ 2 ∧
      (trades b.matchOrders.2).map Trade.quantity = [-2147483648, -2147483648] := by
  intro b
  have hne : ∀ s, (b.levels s).NonemptyLevels :=
    (((linked_empty.addOrder _).addOrder _).addOrder _).nonempty
  have hterm := matchOrders_terminates b hne
  exact ⟨hterm.2.2.2.2.1, hterm.2.2.2.2.2, by decide⟩

end OrderBook
end MatchingEngine
