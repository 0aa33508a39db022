import MatchingEngine.OrderBook.Queues

/-!
# Orders without levels and without an index

What the books are for, said with one list: the orders that rest, each with its symbol,
in the order in which they took their place.  `queue` is what stands at a price, `best`
is the first order that no other of its side beats, and a cancel or a fill goes through
the whole list.  This is the plain form of what the nested maps, the index and the
iterators of `OrderBook` are there to speed up.

A change of the list is an `amend`: every order is kept, rewritten or taken out by a
function of the order alone.  `queue_amend` says what it does to the queues, and
`Distinct.amend` that identifiers stay different.  `best_eq_some_iff` finds the best order
by its place in the list, and `length_matchStep` counts the trades.
-/

namespace MatchingEngine

variable {P : Type}

/-- The order of the prices of a side, a price standing beside itself. -/
def notAfter [LT P] (side : Side) (p q : P) : Prop := ¬ before side q p

instance [LinearOrder P] (side : Side) : DecidableRel (notAfter (P := P) side) := fun p q =>
  inferInstanceAs (Decidable (¬ before side q p))

instance [LinearOrder P] (side : Side) : Std.Total (notAfter (P := P) side) where
  total p q := by
    rw [notAfter, notAfter, ← not_and_or]
    exact fun h => asymm h.1 h.2

instance [LinearOrder P] (side : Side) : IsTrans P (notAfter side) where
  trans p q r hpq hqr hrp := by
    rcases trichotomous_of (before side) p q with h | h | h
    · exact hqr (trans_of (before side) hrp h)
    · exact hqr (h ▸ hrp)
    · exact hpq h

instance [LinearOrder P] (side : Side) : Std.Antisymm (notAfter (P := P) side) where
  antisymm p q hpq hqp := by
    rcases trichotomous_of (before side) p q with h | h | h
    · exact absurd h hqp
    · exact h
    · exact absurd h hpq

/-- The orders of all symbols, those with the older places first. -/
abbrev PlainOrders (P : Type) := List (Str × Order P)

namespace PlainOrders

/-! ## The operations -/

/-- The order is one of a symbol and a side. -/
def On (s : Str) (side : Side) (e : Str × Order P) : Prop := e.1 = s ∧ e.2.side = side

instance (s : Str) (side : Side) : DecidablePred (On (P := P) s side) := fun e =>
  inferInstanceAs (Decidable (e.1 = s ∧ e.2.side = side))

/-- The identifiers, in the order of the list. -/
def ids (orders : PlainOrders P) : List UInt64 := orders.map fun e => e.2.orderId

/-- No two orders carry one identifier. -/
def Distinct (orders : PlainOrders P) : Prop := orders.ids.Nodup

/-- The order with an identifier. -/
def lookup (orders : PlainOrders P) (i : UInt64) : Option (Str × Order P) :=
  orders.find? fun e => decide (e.2.orderId = i)

/-- Go through the list: every order becomes what `g` makes of it, or goes. -/
def amend (orders : PlainOrders P) (g : Order P → Option (Order P)) : PlainOrders P :=
  orders.filterMap fun e => (g e.2).map fun o => (e.1, o)

/-- Everything but an identifier. -/
def without (i : UInt64) (o : Order P) : Option (Order P) :=
  if o.orderId = i then none else some o

/-- Another quantity for an identifier. -/
def withQuantity (i : UInt64) (q : Int32) (o : Order P) : Option (Order P) :=
  some (if o.orderId = i then { o with quantity := q } else o)

/-- A fill of an identifier, which goes when nothing is left of it. -/
def filled (i : UInt64) (q : Int32) (o : Order P) : Option (Order P) :=
  if o.orderId = i then if o.quantity - q = 0 then none else some (o.fill q) else some o

/-- Take out the order with an identifier. -/
def remove (orders : PlainOrders P) (i : UInt64) : PlainOrders P := orders.amend (without i)

/-- Give the order with an identifier another quantity. -/
def setQuantity (orders : PlainOrders P) (i : UInt64) (q : Int32) : PlainOrders P :=
  orders.amend (withQuantity i q)

/-- Fill the order with an identifier. -/
def fill (orders : PlainOrders P) (i : UInt64) (q : Int32) : PlainOrders P :=
  orders.amend (filled i q)

/-! ## Identifiers -/

theorem mem_ids {orders : PlainOrders P} {i : UInt64} :
    i ∈ orders.ids ↔ ∃ e ∈ orders, e.2.orderId = i := List.mem_map

/-- An identifier names one order. -/
theorem Distinct.inj {orders : PlainOrders P} (hd : orders.Distinct) {e e' : Str × Order P}
    (he : e ∈ orders) (he' : e' ∈ orders) (h : e.2.orderId = e'.2.orderId) : e = e' :=
  List.inj_on_of_nodup_map hd he he' h

theorem Distinct.lookup_eq_some {orders : PlainOrders P} (hd : orders.Distinct) {i : UInt64}
    {e : Str × Order P} : orders.lookup i = some e ↔ e ∈ orders ∧ e.2.orderId = i := by
  constructor
  · intro h
    rw [lookup] at h
    exact ⟨List.mem_of_find?_eq_some h, by simpa using List.find?_some h⟩
  · rintro ⟨he, hi⟩
    cases h : orders.lookup i with
    | none =>
      rw [lookup, List.find?_eq_none] at h
      exact absurd (decide_eq_true hi) (h e he)
    | some e' =>
      rw [lookup] at h
      have he' : e' ∈ orders := List.mem_of_find?_eq_some h
      have hi' : e'.2.orderId = i := by simpa using List.find?_some h
      rw [hd.inj he' he (hi'.trans hi.symm)]

theorem lookup_eq_none {orders : PlainOrders P} {i : UInt64} :
    orders.lookup i = none ↔ i ∉ orders.ids := by
  rw [lookup, List.find?_eq_none, mem_ids]
  constructor
  · rintro h ⟨e, he, hi⟩
    exact h e he (decide_eq_true hi)
  · intro h e he hi
    exact h ⟨e, he, of_decide_eq_true hi⟩

theorem distinct_append_singleton {orders : PlainOrders P} {e : Str × Order P}
    (hd : orders.Distinct) (hnew : e.2.orderId ∉ orders.ids) :
    Distinct (orders ++ [e]) := by
  rw [Distinct, ids, List.map_append, List.map_singleton, List.nodup_append]
  refine ⟨hd, List.nodup_singleton _, fun i hi j hj hij => ?_⟩
  rw [List.mem_singleton.mp hj] at hij
  exact hnew (hij ▸ hi)

/-- Going through the list brings no identifier. -/
theorem ids_amend_sublist {g : Order P → Option (Order P)}
    (hg : ∀ o o', g o = some o' → o'.orderId = o.orderId) (orders : PlainOrders P) :
    (orders.amend g).ids.Sublist orders.ids := by
  induction orders with
  | nil => exact List.Sublist.refl _
  | cons e orders ih =>
    rw [amend, List.filterMap_cons]
    cases ho : g e.2 with
    | none => exact ih.cons _
    | some o =>
      rw [Option.map_some, ids, ids, List.map_cons, List.map_cons, hg e.2 o ho]
      exact ih.cons_cons _

theorem Distinct.amend {g : Order P → Option (Order P)}
    (hg : ∀ o o', g o = some o' → o'.orderId = o.orderId) {orders : PlainOrders P}
    (hd : orders.Distinct) : (orders.amend g).Distinct :=
  hd.sublist (ids_amend_sublist hg orders)

theorem amend_cons (e : Str × Order P) (orders : PlainOrders P) (g : Order P → Option (Order P)) :
    amend (e :: orders) g = ((g e.2).map fun o => (e.1, o)).toList ++ orders.amend g := by
  rw [amend, List.filterMap_cons]
  cases g e.2 <;> rfl

/-- A change that leaves every order as it is. -/
theorem amend_eq_self {g : Order P → Option (Order P)} {orders : PlainOrders P}
    (h : ∀ e ∈ orders, g e.2 = some e.2) : orders.amend g = orders := by
  have hsome : ∀ e ∈ orders, ((g e.2).map fun o => (e.1, o)) = some e := by
    intro e he
    rw [h e he, Option.map_some]
  rw [amend, List.filterMap_congr hsome, List.filterMap_some]

/-- An amendment keeps what the order is: its identifier, its side and its price. -/
def Keeps (g : Order P → Option (Order P)) : Prop :=
  ∀ o o', g o = some o' → o'.orderId = o.orderId ∧ o'.side = o.side ∧ o'.price = o.price

theorem keeps_without (i : UInt64) : Keeps (without (P := P) i) := by
  intro o o' h
  rw [without] at h
  split at h
  · exact absurd h (by simp)
  · cases h
    exact ⟨rfl, rfl, rfl⟩

theorem keeps_withQuantity (i : UInt64) (q : Int32) : Keeps (withQuantity (P := P) i q) := by
  intro o o' h
  rw [withQuantity] at h
  cases h
  split <;> exact ⟨rfl, rfl, rfl⟩

theorem keeps_filled (i : UInt64) (q : Int32) : Keeps (filled (P := P) i q) := by
  intro o o' h
  rw [filled] at h
  split at h
  · split at h
    · exact absurd h (by simp)
    · cases h
      exact ⟨rfl, rfl, rfl⟩
  · cases h
    exact ⟨rfl, rfl, rfl⟩

theorem not_mem_ids_remove (orders : PlainOrders P) (i : UInt64) : i ∉ (orders.remove i).ids := by
  rw [mem_ids]
  rintro ⟨e, he, hi⟩
  obtain ⟨e₀, -, hmap⟩ := List.mem_filterMap.mp he
  obtain ⟨o, ho, rfl⟩ := Option.map_eq_some_iff.mp hmap
  have hkeep := (keeps_without i e₀.2 o ho).1
  rw [without, if_pos (hkeep.symm.trans hi)] at ho
  exact absurd ho (by simp)

/-! ## Queues, the best order and the display -/

variable [LinearOrder P]

/-- What stands at a price, the older places first. -/
def queue (orders : PlainOrders P) (s : Str) (side : Side) (k : P) : List (Order P) :=
  (orders.filter fun e => decide (On s side e ∧ e.2.price = k)).map Prod.snd

/-- The order beats no order of its side that is in the list. -/
def Unbeaten (orders : PlainOrders P) (s : Str) (side : Side) (e : Str × Order P) : Prop :=
  On s side e ∧ ∀ e' ∈ orders, On s side e' → ¬ before side e'.2.price e.2.price

instance (orders : PlainOrders P) (s : Str) (side : Side) :
    DecidablePred (orders.Unbeaten s side) := fun e =>
  inferInstanceAs (Decidable (On s side e ∧
    ∀ e' ∈ orders, On s side e' → ¬ before side e'.2.price e.2.price))

/-- The best order of a side: the first one that no order of the side beats. -/
def best (orders : PlainOrders P) (s : Str) (side : Side) : Option (Order P) :=
  (orders.find? fun e => decide (orders.Unbeaten s side e)).map Prod.snd

/-- One trade between the two best orders of a symbol, when they cross. -/
def matchStep (s : Str) (orders : PlainOrders P) : Option (Trade P × PlainOrders P) :=
  match orders.best s .buy, orders.best s .sell with
  | some bid, some ask =>
    if bid.price < ask.price then none
    else
      let t := tradeOf bid ask
      some (t, (orders.fill bid.orderId t.quantity).fill ask.orderId t.quantity)
  | _, _ => none

/-- Trades as long as the two best orders of a symbol cross: what is left, and the
trades. -/
def matchOrders (s : Str) (orders : PlainOrders P) : PlainOrders P × List (Trade P) :=
  (Loop.final (matchStep s) orders.length orders, Loop.outputs (matchStep s) orders.length orders)

/-- The prices of a side, best first. -/
def prices (orders : PlainOrders P) (s : Str) (side : Side) : List P :=
  ((orders.filter fun e => decide (On s side e)).map fun e => e.2.price).dedup.insertionSort
    (notAfter side)

/-- What is displayed of a side. -/
def depth (orders : PlainOrders P) (s : Str) (side : Side) : List (DepthLine P) :=
  ((orders.prices s side).take 5).map fun k =>
    ⟨k, (orders.queue s side k).foldl (fun totalQty o => totalQty + o.quantity) 0,
      (orders.queue s side k).length⟩

/-! ## The best orders and the loop -/

/-- A list that holds an order of a side holds one that no order of the side beats. -/
theorem exists_unbeaten (s : Str) (side : Side) (orders : PlainOrders P)
    (h : ∃ e ∈ orders, On s side e) : ∃ e ∈ orders, orders.Unbeaten s side e := by
  induction orders with
  | nil =>
    obtain ⟨e, he, -⟩ := h
    exact absurd he List.not_mem_nil
  | cons e orders ih =>
    by_cases hrest : ∃ e' ∈ orders, On s side e'
    case neg =>
      obtain ⟨e', he', hon⟩ := h
      rcases List.mem_cons.mp he' with rfl | he'
      · refine ⟨e', List.mem_cons_self, hon, fun e₂ he₂ hon₂ => ?_⟩
        rcases List.mem_cons.mp he₂ with rfl | he₂
        · exact irrefl _
        · exact absurd ⟨e₂, he₂, hon₂⟩ hrest
      · exact absurd ⟨e', he', hon⟩ hrest
    obtain ⟨e', he', hon, hbest⟩ := ih hrest
    by_cases hbeat : On s side e ∧ before side e.2.price e'.2.price
    · refine ⟨e, List.mem_cons_self, hbeat.1, fun e₂ he₂ hon₂ hlt => ?_⟩
      rcases List.mem_cons.mp he₂ with rfl | he₂
      · exact irrefl _ hlt
      · exact hbest e₂ he₂ hon₂ (trans_of (before side) hlt hbeat.2)
    · refine ⟨e', List.mem_cons_of_mem _ he', hon, fun e₂ he₂ hon₂ hlt => ?_⟩
      rcases List.mem_cons.mp he₂ with rfl | he₂
      · exact hbeat ⟨hon₂, hlt⟩
      · exact hbest e₂ he₂ hon₂ hlt

theorem best_eq_none_iff {orders : PlainOrders P} {s : Str} {side : Side} :
    orders.best s side = none ↔ ∀ e ∈ orders, ¬ On s side e := by
  rw [best, Option.map_eq_none_iff, List.find?_eq_none]
  constructor
  · intro h e he hon
    obtain ⟨e', he', hun⟩ := exists_unbeaten s side orders ⟨e, he, hon⟩
    exact h e' he' (decide_eq_true hun)
  · intro h e he hun
    exact h e he (of_decide_eq_true hun).1

/-- **The best order, from its place.**  The orders of the side in front of it are worse,
and those behind it are no better. -/
theorem best_eq_some_iff {orders : PlainOrders P} {s : Str} {side : Side} {o : Order P} :
    orders.best s side = some o ↔ ∃ l r, orders = l ++ (s, o) :: r ∧ o.side = side ∧
      (∀ e ∈ l, On s side e → before side o.price e.2.price) ∧
      ∀ e ∈ r, On s side e → ¬ before side e.2.price o.price := by
  rw [best, Option.map_eq_some_iff]
  constructor
  · rintro ⟨⟨s', o'⟩, hfind, rfl⟩
    obtain ⟨hun, l, r, rfl, hl⟩ := List.find?_eq_some_iff_append.mp hfind
    obtain ⟨⟨rfl, hside⟩, hbest⟩ := of_decide_eq_true hun
    refine ⟨l, r, rfl, hside, fun e he hon => ?_, fun e he => ?_⟩
    · have hmem : e ∈ l ++ (s', o') :: r := List.mem_append_left _ he
      rcases trichotomous_of (before side) o'.price e.2.price with hlt | heq | hlt
      · exact hlt
      · -- an order in front of it at its price would have been found first
        have hun' : Unbeaten (l ++ (s', o') :: r) s' side e :=
          ⟨hon, fun e₂ he₂ hon₂ => heq ▸ hbest e₂ he₂ hon₂⟩
        have hnot := hl e he
        rw [decide_eq_true hun'] at hnot
        exact absurd hnot (by simp)
      · exact absurd hlt (hbest e hmem hon)
    · exact hbest e (List.mem_append_right _ (List.mem_cons_of_mem _ he))
  · rintro ⟨l, r, rfl, hside, hl, hr⟩
    have hmem : (s, o) ∈ l ++ (s, o) :: r := List.mem_append_right _ List.mem_cons_self
    refine ⟨(s, o), List.find?_eq_some_iff_append.mpr ⟨decide_eq_true ⟨⟨rfl, hside⟩, ?_⟩, l, r, rfl,
      fun e he => ?_⟩, rfl⟩
    · intro e he hon
      rcases List.mem_append.mp he with he | he
      · exact asymm (hl e he hon)
      · rcases List.mem_cons.mp he with rfl | he
        · exact irrefl _
        · exact hr e he hon
    · rw [Bool.not_eq_true', decide_eq_false_iff_not]
      rintro ⟨hon, hbest⟩
      exact hbest (s, o) hmem ⟨rfl, hside⟩ (hl e he hon)

theorem matchStep_eq_some {s : Str} {orders orders' : PlainOrders P} {t : Trade P}
    (h : orders.matchStep s = some (t, orders')) :
    ∃ bid ask, orders.best s .buy = some bid ∧ orders.best s .sell = some ask ∧
      ¬ bid.price < ask.price ∧ t = tradeOf bid ask ∧
      orders' = (orders.fill bid.orderId t.quantity).fill ask.orderId t.quantity := by
  rw [matchStep] at h
  cases hbid : orders.best s .buy with
  | none =>
    rw [hbid] at h
    exact absurd h (by simp)
  | some bid =>
    cases hask : orders.best s .sell with
    | none =>
      rw [hbid, hask] at h
      exact absurd h (by simp)
    | some ask =>
      rw [hbid, hask] at h
      simp only [Option.ite_none_left_eq_some, Option.some_inj, Prod.mk.injEq] at h
      obtain ⟨hcross, rfl, rfl⟩ := h
      exact ⟨bid, ask, rfl, rfl, hcross, rfl, rfl⟩

/-- The best order is in the list, and nothing of its side beats it. -/
theorem best_spec {orders : PlainOrders P} {s : Str} {side : Side} {o : Order P}
    (h : orders.best s side = some o) : orders.Unbeaten s side (s, o) ∧ (s, o) ∈ orders := by
  rw [best, Option.map_eq_some_iff] at h
  obtain ⟨⟨s', o'⟩, hfind, rfl⟩ := h
  have hun : orders.Unbeaten s side (s', o') := by simpa using List.find?_some hfind
  obtain rfl : s' = s := hun.1.1
  exact ⟨hun, List.mem_of_find?_eq_some hfind⟩

/-- The loop stops when no bid of the symbol reaches an ask. -/
theorem matchStep_eq_none_iff {s : Str} {orders : PlainOrders P} :
    orders.matchStep s = none ↔ ∀ e ∈ orders, On s .buy e → ∀ e' ∈ orders, On s .sell e' →
      e.2.price < e'.2.price := by
  rw [matchStep]
  cases hbid : orders.best s .buy with
  | none => exact iff_of_true rfl fun e he hon => absurd hon (best_eq_none_iff.mp hbid e he)
  | some bid =>
    cases hask : orders.best s .sell with
    | none =>
      exact iff_of_true rfl fun _ _ _ e' he' hon' => absurd hon' (best_eq_none_iff.mp hask e' he')
    | some ask =>
      obtain ⟨⟨hb, hbest⟩, hbmem⟩ := best_spec hbid
      obtain ⟨⟨ha, hbest'⟩, hamem⟩ := best_spec hask
      simp only [ite_eq_left_iff, reduceCtorEq, imp_false, not_not]
      constructor
      · intro hlt e he hon e' he' hon'
        exact (not_lt.mp (hbest e he hon)).trans_lt (hlt.trans_le (not_lt.mp (hbest' e' he' hon')))
      · exact fun h => h _ hbmem hb _ hamem ha

omit [LinearOrder P] in
theorem length_amend_le (orders : PlainOrders P) (g : Order P → Option (Order P)) :
    (orders.amend g).length ≤ orders.length :=
  List.length_filterMap_le _ _

omit [LinearOrder P] in
/-- A fill of everything takes an order out. -/
theorem length_fill_lt {orders : PlainOrders P} {s : Str} {o : Order P} {q : Int32}
    (h : (s, o) ∈ orders) (hq : o.quantity - q = 0) :
    (orders.fill o.orderId q).length < orders.length := by
  refine List.length_filterMap_lt_length_iff_exists.mpr ⟨(s, o), h, ?_⟩
  rw [filled, if_pos rfl, if_pos hq, Option.map_none]

omit [LinearOrder P] in
/-- A fill keeps what carries another identifier. -/
theorem mem_fill_of_ne {orders : PlainOrders P} {s : Str} {o : Order P} {i : UInt64} {q : Int32}
    (h : (s, o) ∈ orders) (hi : o.orderId ≠ i) : (s, o) ∈ orders.fill i q := by
  refine List.mem_filterMap.mpr ⟨(s, o), h, ?_⟩
  rw [filled, if_neg hi, Option.map_some]

/-- Every trade takes an order out of the list. -/
theorem length_matchStep {s : Str} {orders orders' : PlainOrders P} {t : Trade P}
    (h : orders.matchStep s = some (t, orders')) : orders'.length < orders.length := by
  obtain ⟨bid, ask, hbid, hask, -, rfl, rfl⟩ := matchStep_eq_some h
  obtain ⟨-, hbmem⟩ := best_spec hbid
  obtain ⟨-, hamem⟩ := best_spec hask
  -- nothing is left of the bid, or nothing of the ask
  rcases OrderBook.sub_stdMin_eq_zero bid.quantity ask.quantity with hq | hq
  · exact (length_amend_le _ _).trans_lt (length_fill_lt hbmem hq)
  · by_cases hid : ask.orderId = bid.orderId
    · rw [← hid]
      exact (length_amend_le _ _).trans_lt (length_fill_lt hamem hq)
    · exact (length_fill_lt (mem_fill_of_ne hamem hid) hq).trans_le (length_amend_le _ _)

/-- The loop may be run with any bound that is large enough. -/
theorem matchOrders_of_le (s : Str) {orders : PlainOrders P} {n : ℕ} (hn : orders.length ≤ n) :
    orders.matchOrders s =
      (Loop.final (matchStep s) n orders, Loop.outputs (matchStep s) n orders) := by
  have hstop := Loop.step_final_eq_none List.length
    (fun _ _ _ (h : matchStep s _ = some _) => length_matchStep h) _ orders le_rfl
  obtain ⟨hfinal, hout⟩ := Loop.final_of_le hn hstop
  rw [hfinal, hout]
  rfl

/-! ## What the operations do to the queues -/

theorem mem_queue {orders : PlainOrders P} {s : Str} {side : Side} {k : P} {o : Order P} :
    o ∈ orders.queue s side k ↔ (s, o) ∈ orders ∧ o.side = side ∧ o.price = k := by
  rw [queue, List.mem_map]
  constructor
  · rintro ⟨⟨s', o'⟩, he, rfl⟩
    obtain ⟨hmem, hon⟩ := List.mem_filter.mp he
    obtain ⟨⟨rfl, hside⟩, hk⟩ := of_decide_eq_true hon
    exact ⟨hmem, hside, hk⟩
  · rintro ⟨hmem, hside, hk⟩
    exact ⟨(s, o), List.mem_filter.mpr ⟨hmem, decide_eq_true ⟨⟨rfl, hside⟩, hk⟩⟩, rfl⟩

theorem queue_append (orders orders' : PlainOrders P) (s : Str) (side : Side) (k : P) :
    queue (orders ++ orders') s side k = orders.queue s side k ++ orders'.queue s side k := by
  rw [queue, List.filter_append, List.map_append, queue, queue]

theorem queue_singleton (s' : Str) (o : Order P) (s : Str) (side : Side) (k : P) :
    queue [(s', o)] s side k = if On s side (s', o) ∧ o.price = k then [o] else [] := by
  rw [queue, List.filter_singleton]
  by_cases h : On s side (s', o) ∧ o.price = k
  · rw [if_pos h, decide_eq_true h]
    rfl
  · rw [if_neg h, decide_eq_false h]
    rfl

/-- **Going through the list goes through each queue**, when no order changes its side
or its price. -/
theorem queue_amend {g : Order P → Option (Order P)} (hg : Keeps g) (orders : PlainOrders P)
    (s : Str) (side : Side) (k : P) :
    queue (orders.amend g) s side k = (orders.queue s side k).filterMap g := by
  induction orders with
  | nil => rfl
  | cons e orders ih =>
    obtain ⟨s', o⟩ := e
    rw [← List.singleton_append, queue_append, List.filterMap_append, amend,
      List.filterMap_append, queue_append, ← amend, ← amend, ih]
    congr 1
    rw [queue_singleton, amend, List.filterMap_cons, List.filterMap_nil]
    cases ho : g o with
    | none =>
      simp only [Option.map_none]
      split
      · rw [List.filterMap_cons, ho, List.filterMap_nil]
        rfl
      · rfl
    | some o' =>
      obtain ⟨-, hside, hprice⟩ := hg o o' ho
      have hon : On s side (s', o') ∧ o'.price = k ↔ On s side (s', o) ∧ o.price = k := by
        rw [On, On, hside, hprice]
      simp only [Option.map_some]
      rw [queue_singleton]
      by_cases hc : On s side (s', o) ∧ o.price = k
      · rw [if_pos (hon.mpr hc), if_pos hc, List.filterMap_cons, ho, List.filterMap_nil]
      · rw [if_neg fun h => hc (hon.mp h), if_neg hc, List.filterMap_nil]

theorem queue_remove (orders : PlainOrders P) (i : UInt64) (s : Str) (side : Side) (k : P) :
    (orders.remove i).queue s side k =
      (orders.queue s side k).filter fun o => decide (o.orderId ≠ i) := by
  have hg : without (P := P) i = Option.guard fun o => decide (o.orderId ≠ i) := by
    funext o
    by_cases ho : o.orderId = i <;> simp [without, Option.guard, ho]
  rw [remove, queue_amend (keeps_without i), hg, List.filterMap_eq_filter]

theorem queue_setQuantity (orders : PlainOrders P) (i : UInt64) (q : Int32) (s : Str)
    (side : Side) (k : P) :
    (orders.setQuantity i q).queue s side k = (orders.queue s side k).map fun o =>
      if o.orderId = i then { o with quantity := q } else o := by
  rw [setQuantity, queue_amend (keeps_withQuantity i q)]
  exact congrFun List.filterMap_eq_map _

theorem queue_fill (orders : PlainOrders P) (i : UInt64) (q : Int32) (s : Str) (side : Side)
    (k : P) :
    (orders.fill i q).queue s side k = (orders.queue s side k).filterMap (filled i q) := by
  rw [fill, queue_amend (keeps_filled i q)]

omit [LinearOrder P] in
/-- A queue that does not name an identifier does not notice its fill. -/
theorem filterMap_filled_of_ne {i : UInt64} {q : Int32} {l : List (Order P)}
    (h : ∀ o ∈ l, o.orderId ≠ i) : l.filterMap (filled i q) = l := by
  have hsome : ∀ o ∈ l, filled i q o = some o := fun o ho => by rw [filled, if_neg (h o ho)]
  rw [List.filterMap_congr hsome]
  exact List.filterMap_some

end PlainOrders
end MatchingEngine
