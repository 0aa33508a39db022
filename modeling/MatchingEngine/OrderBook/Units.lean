import MatchingEngine.Exchange.Invariant
import MatchingEngine.OrderBook.Quantity
import Mathlib.Algebra.Ring.Nat
import Mathlib.Data.List.Chain
import Mathlib.Data.Int.Order.Basic

/-!
# Unit by unit

What price-time matching of two queues means, without a loop: list each side unit
by unit, in priority order, and put the two lists side by side.  The units that
trade are those at the positions where the bid's price reaches the ask's
(`crossing` counts them), unit with unit.

`matchOrders_units` says that the loop over heads, partial fills and levels is
this: its trades, read unit by unit, are the pairs side by side, its remaining
orders are what is left when the first units are dropped (`dropUnits`), and no
two consecutive trades could have been one.
-/

namespace MatchingEngine

variable {P : Type}

/-! ## Blocks of units -/

/-- The units of a list of orders: the price of the level and the owner, repeated
quantity times. -/
def unitsOf (l : List (P × Node P)) : List (P × UInt64) :=
  l.flatMap fun e => List.replicate e.2.order.units (e.1, e.2.order.orderId)

/-- The orders without their first `n` units. -/
def dropUnits : ℕ → List (P × Node P) → List (P × Node P)
  | _, [] => []
  | n, e :: l =>
    if e.2.order.units ≤ n then dropUnits (n - e.2.order.units) l
    else (e.1, { e.2 with order := e.2.order.fill (Int32.ofNat n) }) :: l

@[simp] theorem unitsOf_nil : unitsOf ([] : List (P × Node P)) = [] := rfl

theorem unitsOf_cons (e : P × Node P) (l : List (P × Node P)) :
    unitsOf (e :: l) =
      List.replicate e.2.order.units (e.1, e.2.order.orderId) ++ unitsOf l := by
  rw [unitsOf, List.flatMap_cons, ← unitsOf]

theorem mem_unitsOf {l : List (P × Node P)} {u : P × UInt64} (h : u ∈ unitsOf l) :
    ∃ e ∈ l, u = (e.1, e.2.order.orderId) := by
  obtain ⟨e, he, hu⟩ := List.mem_flatMap.mp h
  exact ⟨e, he, List.eq_of_mem_replicate hu⟩

theorem ofNat_toNat {q : Int32} (h : 0 < q) : Int32.ofNat q.toInt.toNat = q := by
  have hpos := int32_pos.mp h
  rw [← Int32.ofInt_eq_ofNat, Int.toNat_of_nonneg (by omega), Int32.ofInt_toInt]

theorem fill_zero (o : Order P) : o.fill (Int32.ofNat 0) = o := by
  rw [Order.fill, show Int32.ofNat 0 = 0 from rfl, Int32.sub_zero]

/-- The units left after a fill given as a number. -/
theorem units_fill_ofNat {o : Order P} {n : ℕ} (hn : n < o.units) :
    (o.fill (Int32.ofNat n)).units = o.units - n := by
  rcases Nat.eq_zero_or_pos n with rfl | hpos
  · rw [fill_zero, Nat.sub_zero]
  · have hlt := Int32.toInt_lt o.quantity
    have hunits : o.units = o.quantity.toInt.toNat := rfl
    have hn' : (Int32.ofNat n).toInt = n := Int32.toInt_ofNat_of_lt (by omega)
    have hq : 0 < Int32.ofNat n := by
      rw [int32_pos, hn']
      exact_mod_cast hpos
    have hle : Int32.ofNat n ≤ o.quantity := by
      rw [Int32.le_iff_toInt_le, hn']
      omega
    rw [units_fill hq hle, hn', Int.toNat_natCast]

theorem dropUnits_zero {l : List (P × Node P)} (h : PositiveQty l) : dropUnits 0 l = l := by
  cases l with
  | nil => rfl
  | cons e l =>
    have hpos := Order.units_pos h.head
    rw [dropUnits, if_neg (by omega), fill_zero]

/-- A fill of the head takes its first units. -/
theorem unitsOf_fillHead {e : P × Node P} {l : List (P × Node P)} {q : Int32} (hq : 0 < q)
    (hle : q ≤ e.2.order.quantity) :
    unitsOf (e :: l) = List.replicate q.toInt.toNat (e.1, e.2.order.orderId) ++
      unitsOf (OrderBook.fillHead e q l) := by
  have hzero := sub_eq_zero_iff hq hle
  rw [OrderBook.fillHead, unitsOf_cons]
  split
  · rename_i h
    rw [hzero.mp h]
  · have hunits := units_fill hq hle
    have hle' : q.toInt.toNat ≤ e.2.order.units := by
      have := Int32.le_iff_toInt_le.mp hle
      rw [Order.units]
      omega
    rw [unitsOf_cons, hunits, ← List.append_assoc]
    show _ = List.replicate _ _ ++ List.replicate _ (e.1, e.2.order.orderId) ++ unitsOf l
    rw [List.replicate_append_replicate, Nat.add_sub_cancel' hle']

/-- Dropping the units of a fill and then more is dropping them all. -/
theorem dropUnits_fillHead {e : P × Node P} {l : List (P × Node P)} {q : Int32} (hq : 0 < q)
    (hle : q ≤ e.2.order.quantity) (n : ℕ) :
    dropUnits (q.toInt.toNat + n) (e :: l) = dropUnits n (OrderBook.fillHead e q l) := by
  have hzero := sub_eq_zero_iff hq hle
  have hunits := units_fill hq hle
  have hle' : q.toInt.toNat ≤ e.2.order.units := by
    have := Int32.le_iff_toInt_le.mp hle
    rw [Order.units]
    omega
  rw [OrderBook.fillHead, dropUnits]
  by_cases h : e.2.order.quantity - q = 0
  · have heq := hzero.mp h
    rw [if_pos h, if_pos (by omega)]
    congr 1
    omega
  · rw [if_neg h, dropUnits, hunits]
    by_cases hn : e.2.order.units ≤ q.toInt.toNat + n
    · rw [if_pos hn, if_pos (by omega)]
      congr 1
      omega
    · have hfill : e.2.order.fill (Int32.ofNat (q.toInt.toNat + n)) =
          (e.2.order.fill q).fill (Int32.ofNat n) := by
        rw [Order.fill, Order.fill, Order.fill, Int32.ofNat_add, ofNat_toNat hq]
        rw [← Int32.sub_sub]
      rw [if_neg hn, if_neg (by omega), hfill]

theorem unitsOf_dropUnits (l : List (P × Node P)) (n : ℕ) :
    unitsOf (dropUnits n l) = (unitsOf l).drop n := by
  induction l generalizing n with
  | nil => rw [dropUnits, unitsOf_nil, List.drop_nil]
  | cons e l ih =>
    rw [dropUnits, unitsOf_cons, List.drop_append, List.drop_replicate, List.length_replicate]
    split
    · rename_i hn
      rw [ih, Nat.sub_eq_zero_of_le hn, List.replicate_zero, List.nil_append]
    · rename_i hn
      have hunits := units_fill_ofNat (not_le.mp hn)
      rw [unitsOf_cons, Nat.sub_eq_zero_of_le (le_of_lt (not_le.mp hn)), List.drop_zero, ← hunits]
      rfl

/-! ## Positions that cross -/

/-- The number of units of a trade. -/
def Trade.units (t : Trade P) : ℕ := t.quantity.toInt.toNat

/-- The trades unit by unit: who buys and who sells. -/
def tradedUnits (ts : List (Trade P)) : List (UInt64 × UInt64) :=
  ts.flatMap fun t => List.replicate t.units (t.buyer, t.seller)

/-- The owners of the units, side by side. -/
def pairsOf (B A : List (P × UInt64)) : List (UInt64 × UInt64) :=
  (B.zip A).map fun p => (p.1.2, p.2.2)

theorem pairsOf_replicate_append (u v : P × UInt64) (n : ℕ) (B A : List (P × UInt64)) :
    pairsOf (List.replicate n u ++ B) (List.replicate n v ++ A) =
      List.replicate n (u.2, v.2) ++ pairsOf B A := by
  rw [pairsOf, List.zip_append (by rw [List.length_replicate, List.length_replicate]),
    List.zip_replicate, min_self, List.map_append, List.map_replicate, pairsOf]

theorem take_replicate_append {α : Type*} (x : α) (l : List α) (n m : ℕ) :
    (List.replicate n x ++ l).take (n + m) = List.replicate n x ++ l.take m := by
  rw [List.take_append, List.length_replicate, Nat.add_sub_cancel_left, List.take_replicate,
    min_eq_right (Nat.le_add_right n m)]

/-- No identifier occurs twice. -/
def IdsNodup (l : List (P × Node P)) : Prop := (l.map fun e => e.2.order.orderId).Nodup

theorem IdsNodup.fillHead {e : P × Node P} {l : List (P × Node P)} (h : IdsNodup (e :: l))
    (q : Int32) : IdsNodup (OrderBook.fillHead e q l) := by
  rw [OrderBook.fillHead]
  split
  · exact (List.nodup_cons.mp h).2
  · exact h

/-- After a fill of its head the list has another head, or still the same one. -/
theorem head_fillHead {e x : P × Node P} {l : List (P × Node P)} {q : Int32}
    (h : IdsNodup (e :: l)) (hx : x ∈ (OrderBook.fillHead e q l).head?)
    (hid : x.2.order.orderId = e.2.order.orderId) : e.2.order.quantity - q ≠ 0 := by
  intro hzero
  rw [OrderBook.fillHead, if_pos hzero] at hx
  have hmem : x.2.order.orderId ∈ l.map fun e => e.2.order.orderId :=
    List.mem_map_of_mem (List.mem_of_mem_head? hx)
  rw [hid] at hmem
  exact (List.nodup_cons.mp h).1 hmem

variable [LinearOrder P]

/-- The number of positions at which the price of the bid's unit reaches that of
the ask's. -/
def crossing (B A : List (P × UInt64)) : ℕ := (B.zip A).countP fun p => decide (p.2.1 ≤ p.1.1)

theorem crossing_replicate_append {u v : P × UInt64} (h : v.1 ≤ u.1) (n : ℕ)
    (B A : List (P × UInt64)) :
    crossing (List.replicate n u ++ B) (List.replicate n v ++ A) = n + crossing B A := by
  rw [crossing, List.zip_append (by rw [List.length_replicate, List.length_replicate]),
    List.countP_append, List.zip_replicate, min_self, List.countP_replicate,
    if_pos (by simpa using h), crossing]

theorem crossing_eq_zero {B A : List (P × UInt64)} (h : ∀ u ∈ B, ∀ v ∈ A, u.1 < v.1) :
    crossing B A = 0 := by
  rw [crossing, List.countP_eq_zero]
  rintro ⟨u, v⟩ hp
  obtain ⟨hu, hv⟩ := List.of_mem_zip hp
  simpa using h u hu v hv

namespace Ladder

/-- The number of units that trade. -/
def volume (L : Ladder P) : ℕ := crossing (unitsOf L.bids) (unitsOf L.asks)

/-- What the loop is proved to do: from `L` it makes the trades `ts` and ends in
`F`. -/
structure UnitMatch (L : Ladder P) (ts : List (Trade P)) (F : Ladder P) : Prop where
  volume : (ts.map Trade.units).sum = L.volume
  pairs : tradedUnits ts = (pairsOf (unitsOf L.bids) (unitsOf L.asks)).take L.volume
  bids : F.bids = dropUnits L.volume L.bids
  asks : F.asks = dropUnits L.volume L.asks
  /-- The first trade is between the heads. -/
  heads : ∀ t ∈ ts.head?, ∃ bid ∈ L.bids.head?, ∃ ask ∈ L.asks.head?,
    t.buyer = bid.2.order.orderId ∧ t.seller = ask.2.order.orderId
  changes : ts.IsChain fun t t' => (t.buyer, t.seller) ≠ (t'.buyer, t'.seller)

/-- What the loop needs to know of a ladder. -/
structure Sound (L : Ladder P) : Prop where
  ordered : L.Ordered
  bids_pos : PositiveQty L.bids
  asks_pos : PositiveQty L.asks
  bids_ids : IdsNodup L.bids
  asks_ids : IdsNodup L.asks

theorem Sound.step {L L' : Ladder P} {t : Trade P} (hL : L.Sound) (h : L.step = some (t, L')) :
    L'.Sound := by
  obtain ⟨-, hb, ha⟩ := step_quantity h hL.bids_pos hL.asks_pos
  have hord := hL.ordered.step h
  have hbi := hL.bids_ids
  have hai := hL.asks_ids
  obtain ⟨bid, bids, ask, asks, rfl, -, -, rfl⟩ := step_eq_some h
  exact ⟨hord, hb, ha, hbi.fillHead _, hai.fillHead _⟩

/-- A loop that stops has no units left that cross. -/
theorem UnitMatch.stop {L : Ladder P} (hL : L.Sound) (h : L.step = none) : UnitMatch L [] L := by
  have hlt : ∀ e ∈ L.bids, ∀ e' ∈ L.asks, e.1 < e'.1 := lt_of_step_eq_none hL.ordered h
  have hzero : L.volume = 0 := by
    refine crossing_eq_zero fun u hu v hv => ?_
    obtain ⟨e, he, rfl⟩ := mem_unitsOf hu
    obtain ⟨e', he', rfl⟩ := mem_unitsOf hv
    exact hlt e he e' he'
  refine ⟨?_, ?_, ?_, ?_, fun t ht => absurd ht (by simp), List.isChain_nil⟩
  · rw [hzero, List.map_nil, List.sum_nil]
  · rw [hzero, List.take_zero, tradedUnits, List.flatMap_nil]
  · rw [hzero, dropUnits_zero hL.bids_pos]
  · rw [hzero, dropUnits_zero hL.asks_pos]

/-- One iteration in front of a loop. -/
theorem UnitMatch.cons {L L' F : Ladder P} {t : Trade P} {ts : List (Trade P)} (hL : L.Sound)
    (h : L.step = some (t, L')) (hts : UnitMatch L' ts F) : UnitMatch L (t :: ts) F := by
  have hbp := hL.bids_pos
  have hap := hL.asks_pos
  have hbi := hL.bids_ids
  have hai := hL.asks_ids
  obtain ⟨bid, bids, ask, asks, rfl, hle, ht, rfl⟩ := step_eq_some h
  have hq : t.quantity = stdMin bid.2.order.quantity ask.2.order.quantity := by rw [ht]; rfl
  have hpos : 0 < t.quantity := by
    rw [ht]
    exact tradeOf_pos.mpr ⟨hbp.head, hap.head⟩
  obtain ⟨hleb, hlea⟩ := tradeOf_le bid.2.order ask.2.order
  rw [← ht] at hleb hlea
  have hbuyer : t.buyer = bid.2.order.orderId := by rw [ht]; rfl
  have hseller : t.seller = ask.2.order.orderId := by rw [ht]; rfl
  have hunits : t.quantity.toInt.toNat = t.units := rfl
  have hB := unitsOf_fillHead (l := bids) hpos hleb
  have hA := unitsOf_fillHead (l := asks) hpos hlea
  rw [hunits] at hB hA
  -- the units of the fill cross, and what is left is the ladder after the fill
  have hvol : (⟨bid :: bids, ask :: asks⟩ : Ladder P).volume = t.units +
      (⟨OrderBook.fillHead bid t.quantity bids, OrderBook.fillHead ask t.quantity asks⟩ :
        Ladder P).volume := by
    rw [Ladder.volume, Ladder.volume, hB, hA]
    exact crossing_replicate_append hle _ _ _
  refine ⟨?_, ?_, ?_, ?_, fun u hu => ?_, ?_⟩
  · rw [List.map_cons, List.sum_cons, hts.volume, hvol]
  · rw [hvol, hB, hA, pairsOf_replicate_append, take_replicate_append, tradedUnits,
      List.flatMap_cons, ← tradedUnits, hts.pairs, hbuyer, hseller]
  · rw [hts.bids, hvol, ← hunits]
    exact (dropUnits_fillHead hpos hleb _).symm
  · rw [hts.asks, hvol, ← hunits]
    exact (dropUnits_fillHead hpos hlea _).symm
  · have hut : t = u := Option.some_inj.mp hu
    subst hut
    exact ⟨bid, rfl, ask, rfl, hbuyer, hseller⟩
  · rw [List.isChain_cons]
    refine ⟨fun u hu hpair => ?_, hts.changes⟩
    -- one of the two heads is gone, and identifiers do not repeat
    obtain ⟨x, hx, y, hy, hxid, hyid⟩ := hts.heads u hu
    obtain ⟨hpb, hps⟩ := Prod.mk.inj hpair
    have hbid := head_fillHead hbi hx (by rw [← hxid, ← hpb, hbuyer])
    have hask := head_fillHead hai hy (by rw [← hyid, ← hps, hseller])
    rw [hq] at hbid hask
    rcases OrderBook.sub_stdMin_eq_zero bid.2.order.quantity ask.2.order.quantity with h0 | h0
    · exact hbid h0
    · exact hask h0

/-- On positive quantities every trade is of a positive quantity. -/
theorem trades_pos {L : Ladder P} (hL : L.Sound) : ∀ t ∈ L.trades, 0 < t.quantity :=
  loop_induction (C := fun L ts _ => L.Sound → ∀ t ∈ ts, 0 < t.quantity)
    (fun _ _ _ t ht => absurd ht List.not_mem_nil)
    (fun _ _ _ _ _ h ih hL t ht => by
      rcases List.mem_cons.mp ht with rfl | ht
      · exact (step_quantity h hL.bids_pos hL.asks_pos).1
      · exact ih (hL.step h) t ht) L hL

/-- **The matching loop is unit-by-unit matching.** -/
theorem unitMatch {L : Ladder P} (hL : L.Sound) : UnitMatch L L.trades L.final :=
  loop_induction (C := fun L ts F => L.Sound → UnitMatch L ts F)
    (fun _ h hL => UnitMatch.stop hL h)
    (fun _ _ _ _ _ h ih hL => UnitMatch.cons hL h (ih (hL.step h))) L hL

end Ladder

namespace OrderBook

/-- The identifiers of a side of an indexed book are pairwise different. -/
theorem Indexed.idsNodup {b : OrderBook P} (hb : b.Linked) (hi : b.Indexed) (s : Side) :
    IdsNodup (b.resting s) :=
  List.Nodup.map_on (fun _ hx _ hy h => (hi.id_inj hb hx hy h).2) (hb.nodup_resting s)

theorem sound_ladder {b : OrderBook P} (hb : b.Linked) (hi : b.Indexed)
    (hpos : ∀ s, PositiveQty (b.resting s)) : b.ladder.Sound where
  ordered := b.ordered_ladder
  bids_pos := hpos .buy
  asks_pos := hpos .sell
  bids_ids := hi.idsNodup hb .buy
  asks_ids := hi.idsNodup hb .sell

omit [LinearOrder P] in
/-- Adding up quantities in the counter is adding up units. -/
theorem sum_ofInt_quantity {ts : List (Trade P)} (h : ∀ t ∈ ts, 0 < t.quantity) :
    (ts.map fun t => UInt64.ofInt t.quantity.toInt).sum =
      UInt64.ofNat (ts.map Trade.units).sum := by
  induction ts with
  | nil => rfl
  | cons t ts ih =>
    have hpos := int32_pos.mp (h t List.mem_cons_self)
    have hunits : UInt64.ofInt t.quantity.toInt = UInt64.ofNat t.units := by
      have hlt := Int32.toInt_lt t.quantity
      rw [UInt64.ofInt, Int.emod_eq_of_lt (by omega) (by omega), Trade.units]
    rw [List.map_cons, List.sum_cons, List.map_cons, List.sum_cons, UInt64.ofNat_add, hunits,
      ih fun u hu => h u (List.mem_cons_of_mem _ hu)]

/-- Matching by units, from book `b` to book `b'` with the log `ts`. -/
structure MatchedByUnits (b b' : OrderBook P) (ts : List (Trade P)) : Prop where
  /-- As many units are traded as there are positions that cross. -/
  volume : (ts.map Trade.units).sum = b.ladder.volume
  /-- The log, unit by unit, is the first pairs side by side. -/
  pairs : tradedUnits ts =
    (pairsOf (unitsOf (b.resting .buy)) (unitsOf (b.resting .sell))).take b.ladder.volume
  changes : ts.IsChain fun t t' => (t.buyer, t.seller) ≠ (t'.buyer, t'.seller)
  price : ∀ t ∈ ts, ∃ bid ∈ b.resting .buy, ∃ ask ∈ b.resting .sell,
    t.buyer = bid.2.order.orderId ∧ t.seller = ask.2.order.orderId ∧
      ask.2.order.price ≤ t.price ∧ t.price ≤ bid.2.order.price
  /-- What remains is what is left when the first units are dropped. -/
  units : ∀ s, unitsOf (b'.resting s) = (unitsOf (b.resting s)).drop b.ladder.volume
  resting : ∀ s, b'.resting s = dropUnits b.ladder.volume (b.resting s)
  level : ∀ s k queue, (b'.levels s).find? k = some queue ↔ queue ≠ [] ∧
    (queue.map fun n => (k, n)) =
      (dropUnits b.ladder.volume (b.resting s)).filter fun e => decide (e.1 = k)
  /-- The index keeps the entries of what remains and no others. -/
  index : ∀ i, (b'.Rests i → b'.orderMap.lookup i = b.orderMap.lookup i) ∧
    (¬ b'.Rests i → b'.orderMap.lookup i = none)
  totalOrders : b'.stats.totalOrders = b.stats.totalOrders
  totalTrades : b'.stats.totalTrades = b.stats.totalTrades + UInt64.ofNat ts.length
  totalVolume : b'.stats.totalVolume = b.stats.totalVolume + UInt64.ofNat b.ladder.volume
  nextNode : b'.nextNode = b.nextNode

/-- The index after matching. -/
theorem lookup_matchOrders {b : OrderBook P} (hb : b.Linked) (hi : b.Indexed) (i : UInt64) :
    (b.matchOrders.1.Rests i → b.matchOrders.1.orderMap.lookup i = b.orderMap.lookup i) ∧
      (¬ b.matchOrders.1.Rests i → b.matchOrders.1.orderMap.lookup i = none) := by
  have hb' := hb.matchOrders
  have hi' := hi.matchOrders hb
  have hwithin : ∀ s, Ladder.Within (b.matchOrders.1.resting s) (b.resting s) := by
    have h := (Ladder.trades_between b.ladder).1
    rw [← (ladder_matchOrders hb).2] at h
    intro s
    cases s with
    | buy => exact h.1
    | sell => exact h.2
  constructor
  · rintro ⟨s, e, he, rfl⟩
    obtain ⟨e₀, he₀, hk, ha, ho⟩ := hwithin s e he
    have hid : e₀.2.order.orderId = e.2.order.orderId := by rw [ho]
    rw [hi' s e he, ← hid, hi s e₀ he₀, hk, ha]
  · intro h
    rw [rests_iff hb' hi'] at h
    exact Option.eq_none_iff_forall_ne_some.mpr fun loc hloc => h ⟨loc, hloc⟩

/-- **`matchOrders` is unit-by-unit price-time matching**, on every book whose
representation invariant holds and whose quantities are positive, however deeply
it is crossed. -/
theorem matchOrders_units {b : OrderBook P} (hb : b.Linked) (hi : b.Indexed)
    (hpos : ∀ s, PositiveQty (b.resting s)) :
    MatchedByUnits b b.matchOrders.1 (trades b.matchOrders.2) := by
  have hsound := sound_ladder hb hi hpos
  have hmatch := Ladder.unitMatch hsound
  obtain ⟨hlog, hfinal⟩ := ladder_matchOrders hb
  have hts : trades b.matchOrders.2 = b.ladder.trades := by rw [hlog, trades_map_trade]
  have hrest : ∀ s, b.matchOrders.1.resting s = dropUnits b.ladder.volume (b.resting s) := by
    intro s
    have h1 := hmatch.bids
    have h2 := hmatch.asks
    rw [← hfinal] at h1 h2
    cases s with
    | buy => exact h1
    | sell => exact h2
  have htpos : ∀ t ∈ b.ladder.trades, 0 < t.quantity := Ladder.trades_pos hsound
  obtain ⟨hord, htrd, hvol, hnext⟩ := b.stats_matchOrders
  rw [hts] at htrd hvol
  rw [hts]
  refine ⟨hmatch.volume, hmatch.pairs, hmatch.changes, fun t ht => ?_, fun s => ?_, hrest,
    fun s k queue => ?_, lookup_matchOrders hb hi, hord, htrd, ?_, hnext⟩
  · obtain ⟨bid, hbid, ask, hask, hle, hbuyer, hseller, hprice⟩ := (Ladder.trades_between _).2 t ht
    have hkb := (hb.keyed .buy bid hbid).2
    have hka := (hb.keyed .sell ask hask).2
    rw [← hkb, ← hka] at hle
    refine ⟨bid, hbid, ask, hask, hbuyer, hseller, ?_⟩
    rw [hprice]
    split
    · exact ⟨hle, le_refl _⟩
    · exact ⟨le_refl _, hle⟩
  · rw [hrest, unitsOf_dropUnits]
  · rw [← hrest]
    exact LevelMap.find?_iff_flat (hb.matchOrders.nonempty s)
  · rw [hvol, sum_ofInt_quantity htpos, hmatch.volume]

/-- Two bids and two asks, crossed at two levels, with a simultaneous
exhaustion. -/
theorem matchOrders_units_crossed :
    let h : List (Exchange.Op ℤ) :=
      [.addOrder ['A'] ⟨1, .buy, 12, 3, 1⟩, .addOrder ['A'] ⟨2, .buy, 11, 4, 2⟩,
        .addOrder ['A'] ⟨3, .sell, 10, 5, 3⟩, .addOrder ['A'] ⟨4, .sell, 11, 2, 4⟩]
    let b := (Exchange.api.run h).book ['A']
    MatchedByUnits b b.matchOrders.1 (trades b.matchOrders.2) ∧ b.ladder.volume = 7 :=
  ⟨matchOrders_units (Exchange.linked_run _ _) ((Exchange.wf_run _ (by decide)).routed.indexed _)
    (fun s => by cases s <;> decide), by decide⟩

end OrderBook
end MatchingEngine
