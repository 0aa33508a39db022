import MatchingEngine.Client.Session
import MatchingEngine.Engine.Entries

/-!
# Meaningful quantities

Neither `processLine` nor the books look at the sign of a quantity.  A `BUY` of
zero rests like any other order until something crosses it, and a `BUY` of a
negative quantity gives the seller it meets more than he had.

`quantities_meaningful_iff` is the exact law: in a run of lines the quantities at
rest and in trades stay meaningful if and only if every quantity that a line sets
is positive.
-/

namespace MatchingEngine

variable {P : Type} [Zero P] [LinearOrder P]

/-- A trade between the heads of a book: of a positive quantity, at most what each
of them has, so that neither has more afterwards. -/
def FairFill (b : OrderBook P) (t : Trade P) : Prop :=
  ∃ bid bids ask asks, b.resting .buy = bid :: bids ∧ b.resting .sell = ask :: asks ∧
    t.buyer = bid.2.order.orderId ∧ t.seller = ask.2.order.orderId ∧ 0 < t.quantity ∧
    t.quantity ≤ bid.2.order.quantity ∧ t.quantity ≤ ask.2.order.quantity ∧
    (bid.2.order.fill t.quantity).quantity ≤ bid.2.order.quantity ∧
    (ask.2.order.fill t.quantity).quantity ≤ ask.2.order.quantity

/-- After the command all quantities at rest are positive, and all its trades were
fair. -/
structure Meaningful (ex : Exchange P) (cmd : Command P) : Prop where
  resting : ∀ s side, ∀ e ∈ ((dispatch ex cmd).1.book s).resting side, 0 < e.2.order.quantity
  trades : ∀ x ∈ iterations ex cmd, FairFill x.1 x.2.1

omit [Zero P] in
/-- An iteration whose trade has a positive quantity is fair. -/
theorem fairFill_iff {b b' : OrderBook P} {t : Trade P} (h : b.matchStep = some (t, b')) :
    FairFill b t ↔ 0 < t.quantity := by
  obtain ⟨bid, bids, ask, asks, hbuy, hsell, -, ht, -⟩ := OrderBook.matchStep_eq_some h
  obtain ⟨hleb, hlea⟩ := tradeOf_le bid.2.order ask.2.order
  rw [← ht] at hleb hlea
  have hfill : ∀ o : Order P, 0 < t.quantity → t.quantity ≤ o.quantity →
      (o.fill t.quantity).quantity ≤ o.quantity := by
    intro o hpos hle
    have hsub := toInt_sub_fill hpos hle
    have hpos' := int32_pos.mp hpos
    show o.quantity - t.quantity ≤ o.quantity
    rw [Int32.le_iff_toInt_le]
    omega
  constructor
  · rintro ⟨-, -, -, -, -, -, -, -, hpos, -⟩
    exact hpos
  · intro hpos
    exact ⟨bid, bids, ask, asks, hbuy, hsell, by rw [ht]; rfl, by rw [ht]; rfl, hpos, hleb, hlea,
      hfill _ hpos hleb, hfill _ hpos hlea⟩

omit [Zero P] in
theorem Meaningful.trades_pos {ex : Exchange P} {cmd : Command P} (h : Meaningful ex cmd)
    (hl : ex.Linked) (hu : ex.Uncrossed) :
    ∀ t ∈ MatchingEngine.trades (dispatch ex cmd).2, 0 < t.quantity := by
  rw [← iterations_trades hl hu]
  intro t ht
  obtain ⟨x, hx, rfl⟩ := List.mem_map.mp ht
  obtain ⟨-, -, -, -, -, -, -, -, hpos, -⟩ := h.trades x hx
  exact hpos

omit [Zero P] in
/-- **One command**: from positive quantities, everything stays meaningful exactly
when the quantity it sets is positive. -/
theorem meaningful_iff {ex : Exchange P} (hl : ex.Linked) (hu : ex.Uncrossed)
    (hp : ex.Positive) (cmd : Command P) :
    Meaningful ex cmd ↔ (Sets ex cmd → 0 < cmd.quantity) := by
  rw [← positive_dispatch_iff hl hu hp]
  constructor
  · exact fun h => ⟨h.trades_pos hl hu, h.resting⟩
  · rintro ⟨htrades, hrest⟩
    rw [← iterations_trades hl hu] at htrades
    refine ⟨hrest, fun x hx => ?_⟩
    have hstep : x.1.matchStep = some x.2 :=
      (Loop.trace_invariant (I := fun _ => True) (fun _ _ _ _ _ => trivial) _ _ trivial x hx).2
    exact (fairFill_iff hstep).mpr (htrades _ (List.mem_map_of_mem hx))

/-- The quantity a request sets is positive: that of a `BUY` or `SELL`, and that of
a `MODIFY` which names an order resting in the book of its symbol. -/
def Request.SetsPositive (ex : Exchange P) : Request P → Prop
  | .order _ _ quantity _ => 0 < quantity
  | .modify orderId symbol quantity _ =>
    ex.orderSymbolMap.lookup orderId = some (SymbolField.copy symbol).read →
      (ex.book (SymbolField.copy symbol).read).orderMap.lookup orderId ≠ none → 0 < quantity
  | _ => True

theorem setsPositive_iff (ex : Exchange P) (l : Line) (n : UInt64) (r : Request P) :
    r.SetsPositive ex ↔ (Sets ex (r.command l n) → 0 < (r.command l n).quantity) := by
  have hno : ∀ cmd : Command P, cmd.type ≠ .new → cmd.type ≠ .modify →
      (True ↔ (Sets ex cmd → 0 < cmd.quantity)) := by
    refine fun cmd h h' => ⟨fun _ hs => ?_, fun _ => trivial⟩
    rcases hs with hs | ⟨hs, -⟩
    · exact absurd hs h
    · exact absurd hs h'
  cases r with
  | order side symbol quantity price => exact ⟨fun h _ => h, fun h => h (Or.inl rfl)⟩
  | cancel orderId =>
    exact hno _ (show CommandType.cancel ≠ .new by simp) (show CommandType.cancel ≠ .modify by simp)
  | book symbol =>
    exact hno _ (show CommandType.book ≠ .new by simp) (show CommandType.book ≠ .modify by simp)
  | stats =>
    exact hno _ (show CommandType.stats ≠ .new by simp) (show CommandType.stats ≠ .modify by simp)
  | modify orderId symbol quantity price =>
    constructor
    · rintro h (hs | ⟨-, hs⟩)
      · exact absurd hs (show CommandType.modify ≠ .new by simp)
      · rw [Rejected, not_or, not_not] at hs
        exact h hs.1 hs.2
    · intro h hroute hentry
      refine h (Or.inr ⟨rfl, ?_⟩)
      rintro (hs | hs)
      · exact hs hroute
      · exact hentry hs

/-- Along lines that set positive quantities all quantities at rest are positive. -/
theorem positive_exchangeAfter {toDouble : ℚ → Option P} (lines : List Line)
    (h : ∀ k l r, k ++ [l] <+: lines → readRequest toDouble l.text = .ok r →
      r.SetsPositive (exchangeAfter toDouble k)) : (exchangeAfter toDouble lines).Positive := by
  induction lines using List.reverseRecOn with
  | nil => exact Exchange.positive_empty
  | append_singleton lines l ih =>
    have hp := ih fun k l' r hpre => h k l' r (hpre.trans (List.prefix_append _ _))
    cases hpush : pushedAfter toDouble lines l with
    | none => rwa [exchangeAfter_rejected hpush]
    | some cmd =>
      obtain ⟨r, hr, rfl⟩ := pushedAfter_iff.mp hpush
      have hset := (setsPositive_iff _ l (nextIdAfter toDouble lines) r).mp
        (h lines l r (List.prefix_refl _) hr)
      rw [exchangeAfter_pushed hpush]
      exact ((positive_dispatch_iff (linked_exchangeAfter _ _)
        (uncrossed_exchangeAfter _ _) hp _).mpr hset).2

/-- **Quantities stay meaningful exactly as long as lines set positive ones.**  In a
run of lines, every command leaves positive quantities at rest and makes fair trades
only, if and only if no line sets a quantity that is zero or negative. -/
theorem quantities_meaningful_iff (toDouble : ℚ → Option P) (lines : List Line) :
    (∀ k l cmd, k ++ [l] <+: lines → pushedAfter toDouble k l = some cmd →
      Meaningful (exchangeAfter toDouble k) cmd) ↔
    ∀ k l r, k ++ [l] <+: lines → readRequest toDouble l.text = .ok r →
      r.SetsPositive (exchangeAfter toDouble k) := by
  -- both sides say something of a line after lines that were all right
  have hline : ∀ k l r, (exchangeAfter toDouble k).Positive →
      readRequest toDouble l.text = .ok r →
      (r.SetsPositive (exchangeAfter toDouble k) ↔
        Meaningful (exchangeAfter toDouble k) (r.command l (nextIdAfter toDouble k))) := by
    intro k l r hp hr
    rw [setsPositive_iff _ l (nextIdAfter toDouble k), meaningful_iff (linked_exchangeAfter _ _)
      (uncrossed_exchangeAfter _ _) hp]
  constructor
  · intro h
    have hpos : ∀ k, k <+: lines → (exchangeAfter toDouble k).Positive := by
      intro k
      induction k using List.reverseRecOn with
      | nil => exact fun _ => Exchange.positive_empty
      | append_singleton k l ih =>
        intro hpre
        cases hpush : pushedAfter toDouble k l with
        | none =>
          rw [exchangeAfter_rejected hpush]
          exact ih ((List.prefix_append _ _).trans hpre)
        | some cmd =>
          rw [exchangeAfter_pushed hpush]
          exact (h k l cmd hpre hpush).resting
    intro k l r hpre hr
    have hpush : pushedAfter toDouble k l = some (r.command l (nextIdAfter toDouble k)) :=
      pushedAfter_iff.mpr ⟨r, hr, rfl⟩
    exact (hline k l r (hpos k ((List.prefix_append _ _).trans hpre)) hr).mpr
      (h k l _ hpre hpush)
  · intro h k l cmd hpre hpush
    obtain ⟨r, hr, rfl⟩ := pushedAfter_iff.mp hpush
    have hp := positive_exchangeAfter k fun k' l' r' hpre' =>
      h k' l' r' (hpre'.trans ((List.prefix_append _ _).trans hpre))
    exact (hline k l r hp hr).mp (h k l r hpre hr)

/-- A `BUY` of a negative quantity: its trade gives the resting seller more. -/
theorem quantities_meaningful_negative :
    ¬ ∀ lines : List Line, ∀ k l cmd, k ++ [l] <+: lines →
      pushedAfter (some : ℚ → Option ℚ) k l = some cmd →
      Meaningful (exchangeAfter (some : ℚ → Option ℚ) k) cmd := by
  intro h
  let sell : Line := ⟨"SELL AAPL 10 5".toList, 1, 1, 1⟩
  let buy : Line := ⟨"BUY AAPL -5 5".toList, 2, 2, 2⟩
  have hpush : pushedAfter (some : ℚ → Option ℚ) [sell] buy =
      some (.newOrder 2 .buy "AAPL".toList (-5) 5 2 2 2) := by decide +kernel
  have hmean := h [sell, buy] [sell] buy _ (List.prefix_refl _) hpush
  have hpos := hmean.trades_pos (linked_exchangeAfter _ _) (uncrossed_exchangeAfter _ _)
  exact absurd hpos (by decide +kernel)

end MatchingEngine
