import MatchingEngine.Lib.Wrapping
import MatchingEngine.OrderBook.Quantity
import MatchingEngine.OrderBook.Queues
import Mathlib.Algebra.Order.BigOperators.Group.List

/-!
# The displayed depth

`ExactDepth` says what a side's part of `printBook` should show, without a word about
how it is computed: the best five levels or all there are, best first, and for each the
exact quantity and number of the orders that stand there.

The loop gets the levels and the numbers right by the order of the map, and the
quantity when the accumulator holds it (`exactDepth_iff`).  The accumulator is an `int`,
as the quantity of a single order is.  The partial sums of positive quantities only
grow, so it is the exact sum that decides (`toInt_total_iff`).
-/

namespace MatchingEngine

variable {P : Type}

/-! ## Adding up in an `int` -/

/-- The exact quantity of a queue. -/
def exactQty (queue : List (Node P)) : ℤ := (queue.map fun n => n.order.quantity.toInt).sum

theorem exactQty_nonneg {queue : List (Node P)} (h : ∀ n ∈ queue, 0 < n.order.quantity) :
    0 ≤ exactQty queue := by
  refine List.sum_nonneg fun x hx => ?_
  obtain ⟨n, hn, rfl⟩ := List.mem_map.mp hx
  exact (int32_pos.mp (h n hn)).le

/-- **The total of positive quantities is exact** when an `int` can hold it. -/
theorem toInt_total_iff {queue : List (Node P)} (h : ∀ n ∈ queue, 0 < n.order.quantity) :
    (queue.foldl (fun totalQty n => totalQty + n.order.quantity) (0 : Int32)).toInt =
      exactQty queue ↔ exactQty queue ≤ 2147483647 := by
  have hnonneg := exactQty_nonneg h
  constructor
  · intro heq
    have hlt := Int32.toInt_lt
      (queue.foldl (fun totalQty n => totalQty + n.order.quantity) (0 : Int32))
    omega
  · intro hle
    refine wraps_int32.toInt_foldl_eq (fun n : Node P => n.order.quantity) queue ?_ (by omega)
      (by omega)
    rw [show (0 : Int32).toInt = 0 from rfl, Int.zero_add]
    rfl

variable [LinearOrder P]

namespace OrderBook

/-! ## What a side should show -/

/-- The lines shown for a side are its exact depth. -/
structure ExactDepth (b : OrderBook P) (s : Side) (shown : List (DepthLine P)) : Prop where
  length : shown.length = min 5 (b.levels s).entries.length
  worsening : shown.Pairwise fun x y => before s x.price y.price
  /-- Orders that are not shown stand at a worse price than all that are. -/
  best : ∀ x ∈ shown, ∀ k, b.queue s k ≠ [] → (∀ y ∈ shown, y.price ≠ k) → before s x.price k
  /-- The order count is the number of orders at the price, and there are some. -/
  orders : ∀ x ∈ shown, b.queue s x.price ≠ [] ∧ x.orders = (b.queue s x.price).length
  total : ∀ x ∈ shown, x.totalQty.toInt = exactQty (b.queue s x.price)

/-- The book is displayed exactly. -/
def ExactBook (b : OrderBook P) (symbol : Str) : Prop :=
  ∃ bids asks, b.printBook symbol = [.book symbol bids asks] ∧
    b.ExactDepth .buy bids ∧ b.ExactDepth .sell asks

theorem queue_of_mem_entries {b : OrderBook P} {s : Side} {e : P × List (Node P)}
    (he : e ∈ (b.levels s).entries) : b.queue s e.1 = e.2 :=
  LevelMap.queue_of_find? (OrderedMap.find?_eq_some.mpr he)

theorem length_depth {s : Side} (m : LevelMap (before (P := P) s) (Node P)) :
    (depth m).length = min 5 m.entries.length := by
  rw [depth, List.length_map, List.length_take]

theorem worsening_depth {s : Side} (m : LevelMap (before (P := P) s) (Node P)) :
    (depth m).Pairwise fun x y => before s x.price y.price := by
  rw [depth, List.pairwise_map]
  exact m.sorted.sublist (List.take_sublist 5 m.entries)

/-- A level that is not among the first five is worse than each of them. -/
theorem best_depth {b : OrderBook P} {s : Side} {x : DepthLine P}
    (hx : x ∈ depth (b.levels s)) {k : P} (hk : b.queue s k ≠ [])
    (hnot : ∀ y ∈ depth (b.levels s), y.price ≠ k) : before s x.price k := by
  obtain ⟨e, he, rfl⟩ := List.mem_map.mp hx
  have hmem : (k, b.queue s k) ∈ (b.levels s).entries :=
    OrderedMap.find?_eq_some.mp (LevelMap.find?_eq_some_of_queue hk)
  have hsorted := (b.levels s).sorted
  rw [← List.take_append_drop 5 (b.levels s).entries] at hmem hsorted
  rcases List.mem_append.mp hmem with hshown | hrest
  · exact absurd rfl (hnot _ (List.mem_map_of_mem hshown))
  · exact (List.pairwise_append.mp hsorted).2.2 e he _ hrest

/-- **The depth of a side is exact** exactly when its totals are. -/
theorem exactDepth_iff_totals {b : OrderBook P} {s : Side} (hne : (b.levels s).NonemptyLevels) :
    b.ExactDepth s (depth (b.levels s)) ↔ ∀ e ∈ (b.levels s).entries.take 5,
      (e.2.foldl (fun totalQty n => totalQty + n.order.quantity) (0 : Int32)).toInt =
        exactQty e.2 := by
  have hqueue : ∀ e ∈ (b.levels s).entries.take 5, b.queue s e.1 = e.2 := fun e he =>
    queue_of_mem_entries (List.mem_of_mem_take he)
  constructor
  · intro h e he
    have htotal := h.total _ (List.mem_map_of_mem he)
    rwa [hqueue e he] at htotal
  · intro h
    refine ⟨length_depth _, worsening_depth _, fun x hx k hk hnot => best_depth hx hk hnot,
      fun x hx => ?_, fun x hx => ?_⟩
    · obtain ⟨e, he, rfl⟩ := List.mem_map.mp hx
      simp only [hqueue e he, and_true]
      exact hne e (List.mem_of_mem_take he)
    · obtain ⟨e, he, rfl⟩ := List.mem_map.mp hx
      simp only [hqueue e he]
      exact h e he

/-- **The depth of a side of positive quantities is exact** exactly when an `int` can
hold the quantity of each of the levels shown. -/
theorem exactDepth_iff {b : OrderBook P} {s : Side} (hne : (b.levels s).NonemptyLevels)
    (hpos : PositiveQty (b.resting s)) :
    b.ExactDepth s (depth (b.levels s)) ↔
      ∀ e ∈ (b.levels s).entries.take 5, exactQty e.2 ≤ 2147483647 := by
  rw [exactDepth_iff_totals hne]
  refine forall₂_congr fun e he => toInt_total_iff fun n hn => ?_
  exact hpos (e.1, n) (LevelMap.mem_flat.mpr ⟨e.2, List.mem_of_mem_take he, hn⟩)

theorem exactBook_iff {b : OrderBook P} (hne : ∀ s, (b.levels s).NonemptyLevels)
    (hpos : ∀ s, PositiveQty (b.resting s)) (symbol : Str) :
    b.ExactBook symbol ↔
      ∀ s, ∀ e ∈ (b.levels s).entries.take 5, exactQty e.2 ≤ 2147483647 := by
  constructor
  · rintro ⟨bids, asks, hprint, hbids, hasks⟩ s
    rw [← exactDepth_iff (hne s) (hpos s)]
    simp only [printBook, List.cons.injEq, Event.book.injEq, true_and, and_true] at hprint
    obtain ⟨rfl, rfl⟩ := hprint
    cases s with
    | buy => exact hbids
    | sell => exact hasks
  · intro h
    exact ⟨depth b.bids, depth b.asks, rfl, (exactDepth_iff (hne .buy) (hpos .buy)).mpr (h .buy),
      (exactDepth_iff (hne .sell) (hpos .sell)).mpr (h .sell)⟩

end OrderBook
end MatchingEngine
