import MatchingEngine.OrderBook.Ladder

/-!
# The arithmetic of a fill

`matchOrders` computes with 32-bit integers: `std::min`, a subtraction, a
comparison with zero.  On positive quantities nothing wraps, and a fill is
subtraction of natural numbers; this file says so once, for `stdMin`, for an order
(`units`) and for the list a fill leaves (`fillHead`).
-/

namespace MatchingEngine

variable {P : Type}

theorem toInt_stdMin (x y : Int32) : (stdMin x y).toInt = min x.toInt y.toInt := by
  rw [stdMin]
  split
  · rename_i h
    have hlt := Int32.lt_iff_toInt_lt.mp h
    omega
  · rename_i h
    have hle : ¬ y.toInt < x.toInt := fun hlt => h (Int32.lt_iff_toInt_lt.mpr hlt)
    omega

theorem stdMin_le_left (x y : Int32) : stdMin x y ≤ x := by
  rw [Int32.le_iff_toInt_le, toInt_stdMin]
  exact min_le_left _ _

theorem stdMin_le_right (x y : Int32) : stdMin x y ≤ y := by
  rw [Int32.le_iff_toInt_le, toInt_stdMin]
  exact min_le_right _ _

/-- The smaller of two quantities is positive exactly when both are. -/
theorem stdMin_pos {x y : Int32} : 0 < stdMin x y ↔ 0 < x ∧ 0 < y := by
  rw [Int32.lt_iff_toInt_lt, Int32.lt_iff_toInt_lt, Int32.lt_iff_toInt_lt, toInt_stdMin]
  exact lt_min_iff

/-- A trade is positive exactly when both orders are. -/
theorem tradeOf_pos {bid ask : Order P} :
    0 < (tradeOf bid ask).quantity ↔ 0 < bid.quantity ∧ 0 < ask.quantity := stdMin_pos

/-- A trade is within both orders. -/
theorem tradeOf_le (bid ask : Order P) :
    (tradeOf bid ask).quantity ≤ bid.quantity ∧ (tradeOf bid ask).quantity ≤ ask.quantity :=
  ⟨stdMin_le_left _ _, stdMin_le_right _ _⟩

theorem int32_pos {x : Int32} : 0 < x ↔ 0 < x.toInt := Int32.lt_iff_toInt_lt

/-- What a positive fill takes off a quantity it does not exceed. -/
theorem toInt_sub_fill {x q : Int32} (hq : 0 < q) (hle : q ≤ x) :
    (x - q).toInt = x.toInt - q.toInt := by
  refine Int32.toInt_sub_of_le x q ?_ hle
  have hpos := int32_pos.mp hq
  rw [Int32.le_iff_toInt_le]
  show (0 : ℤ) ≤ q.toInt
  omega

/-- The number of units an order stands for. -/
def Order.units (o : Order P) : ℕ := o.quantity.toInt.toNat

/-- Every order of the list has a positive quantity. -/
def PositiveQty (l : List (P × Node P)) : Prop := ∀ e ∈ l, 0 < e.2.order.quantity

instance (l : List (P × Node P)) : Decidable (PositiveQty l) :=
  inferInstanceAs (Decidable (∀ e ∈ l, 0 < e.2.order.quantity))

theorem PositiveQty.tail {e : P × Node P} {l : List (P × Node P)} (h : PositiveQty (e :: l)) :
    PositiveQty l :=
  fun x hx => h x (List.mem_cons_of_mem _ hx)

theorem PositiveQty.head {e : P × Node P} {l : List (P × Node P)} (h : PositiveQty (e :: l)) :
    0 < e.2.order.quantity :=
  h e List.mem_cons_self

theorem Order.units_pos {o : Order P} (h : 0 < o.quantity) : 0 < o.units := by
  have hpos := int32_pos.mp h
  rw [Order.units]
  omega

theorem units_fill {o : Order P} {q : Int32} (hq : 0 < q) (hle : q ≤ o.quantity) :
    (o.fill q).units = o.units - q.toInt.toNat := by
  have hsub := toInt_sub_fill hq hle
  have hpos := int32_pos.mp hq
  have hle' := Int32.le_iff_toInt_le.mp hle
  rw [Order.units, Order.units, Order.fill, hsub]
  omega

/-- A fill of all units, and only such a fill, leaves zero. -/
theorem sub_eq_zero_iff {o : Order P} {q : Int32} (hq : 0 < q) (hle : q ≤ o.quantity) :
    o.quantity - q = 0 ↔ q.toInt.toNat = o.units := by
  have hsub := toInt_sub_fill hq hle
  have hpos := int32_pos.mp hq
  have hle' := Int32.le_iff_toInt_le.mp hle
  rw [← Int32.toInt_inj, hsub, Order.units]
  show o.quantity.toInt - q.toInt = 0 ↔ _
  omega

/-- A fill within the head's quantity leaves positive quantities. -/
theorem PositiveQty.fillHead {e : P × Node P} {l : List (P × Node P)} {q : Int32}
    (h : PositiveQty (e :: l)) (hq : 0 < q) (hle : q ≤ e.2.order.quantity) :
    PositiveQty (OrderBook.fillHead e q l) := by
  rw [OrderBook.fillHead]
  split
  · exact h.tail
  · rename_i hne
    intro x hx
    rcases List.mem_cons.mp hx with rfl | hx
    · have hsub := toInt_sub_fill hq hle
      have hle' := Int32.le_iff_toInt_le.mp hle
      have hne' : (e.2.order.quantity - q).toInt ≠ 0 := fun h0 => hne (Int32.toInt_inj.mp h0)
      show 0 < e.2.order.quantity - q
      rw [int32_pos]
      omega
    · exact h.tail x hx

variable [LinearOrder P]

/-- The trade of one matching step on positive quantities: a positive quantity,
within both heads. -/
theorem Ladder.step_quantity {L L' : Ladder P} {t : Trade P} (h : L.step = some (t, L'))
    (hb : PositiveQty L.bids) (ha : PositiveQty L.asks) :
    0 < t.quantity ∧ PositiveQty L'.bids ∧ PositiveQty L'.asks := by
  obtain ⟨bid, bids, ask, asks, rfl, -, ht, rfl⟩ := Ladder.step_eq_some h
  have hpos : 0 < t.quantity := by
    rw [ht]
    exact tradeOf_pos.mpr ⟨hb.head, ha.head⟩
  obtain ⟨hleb, hlea⟩ := tradeOf_le bid.2.order ask.2.order
  rw [← ht] at hleb hlea
  exact ⟨hpos, hb.fillHead hpos hleb, ha.fillHead hpos hlea⟩

end MatchingEngine
