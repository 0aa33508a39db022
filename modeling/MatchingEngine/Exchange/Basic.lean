import MatchingEngine.Lib.Machine
import MatchingEngine.OrderBook.Operations

/-!
# The exchange

The class `Exchange` of `exchange.h`: one book for each symbol, made by
`operator[]` when it is first asked for, and the map `orderSymbolMap` that routes
a cancel or a modify to the book of its order.

The two `unordered_map`s are finite maps: nothing depends on their iteration
order but the order of the lines of a report, so `printStats` is a set of rows.

`api` is the machine a user of the class drives, one call at a time.
-/

namespace MatchingEngine

variable {P : Type}

/-- `class Exchange`. -/
structure Exchange (P : Type) [LinearOrder P] where
  books : Finmap fun _ : Str => OrderBook P
  orderSymbolMap : Finmap fun _ : UInt64 => Str

variable [LinearOrder P]

namespace Exchange

/-- The exchange before the first order. -/
def empty : Exchange P := ⟨∅, ∅⟩

/-- `books[symbol]`: the book of a symbol, empty when there is none yet. -/
def book (ex : Exchange P) (symbol : Str) : OrderBook P :=
  (ex.books.lookup symbol).getD OrderBook.empty

/-- `addOrder`. -/
def addOrder (ex : Exchange P) (symbol : Str) (o : Order P) : Exchange P × List (Event P) :=
  let r := (ex.book symbol).addOrder o
  (⟨ex.books.insert symbol r.1, ex.orderSymbolMap.insert o.orderId symbol⟩, r.2)

/-- `cancelOrder`. -/
def cancelOrder (ex : Exchange P) (orderId : UInt64) : Exchange P × List (Event P) :=
  match ex.orderSymbolMap.lookup orderId with
  | none => (ex, [.cancelNotFoundInAnyBook orderId])
  | some symbol =>
    let r := (ex.book symbol).cancelOrder orderId
    (⟨ex.books.insert symbol r.1, ex.orderSymbolMap.erase orderId⟩, r.2)

/-- `modifyOrder`. -/
def modifyOrder (ex : Exchange P) (orderId : UInt64) (symbol : Str) (newQty : Int32)
    (newPrice : P) (timestamp : ℤ) : Exchange P × List (Event P) :=
  match ex.orderSymbolMap.lookup orderId with
  | none => (ex, [.modifyNotFoundInAnyBook orderId])
  | some actual =>
    if actual ≠ symbol then (ex, [.modifyWrongSymbol orderId actual symbol])
    else
      let r := (ex.book symbol).modifyOrder orderId newQty newPrice timestamp
      ({ ex with books := ex.books.insert symbol r.1 }, r.2)

/-- `matchOrders`. -/
def matchOrders (ex : Exchange P) (symbol : Str) : Exchange P × List (Event P) :=
  match ex.books.lookup symbol with
  | none => (ex, [])
  | some b =>
    let r := b.matchOrders
    ({ ex with books := ex.books.insert symbol r.1 }, r.2)

/-- `printBook`. -/
def printBook (ex : Exchange P) (symbol : Str) : List (Event P) :=
  match ex.books.lookup symbol with
  | none => [.bookNotFound symbol]
  | some b => b.printBook symbol

/-- `printStats`. -/
def printStats (ex : Exchange P) : List (Event P) :=
  [.stats (ex.books.keys.image fun symbol => (symbol, (ex.book symbol).stats))]

/-- A call of the class. -/
inductive Op (P : Type) where
  | addOrder (symbol : Str) (o : Order P)
  | cancelOrder (orderId : UInt64)
  | modifyOrder (orderId : UInt64) (symbol : Str) (newQty : Int32) (newPrice : P)
      (timestamp : ℤ)
  | matchOrders (symbol : Str)

/-- Perform a call. -/
def apply (ex : Exchange P) : Op P → Exchange P × List (Event P)
  | .addOrder symbol o => ex.addOrder symbol o
  | .cancelOrder i => ex.cancelOrder i
  | .modifyOrder i symbol q p ts => ex.modifyOrder i symbol q p ts
  | .matchOrders symbol => ex.matchOrders symbol

/-- The exchange as a machine that reads calls. -/
def api : Machine (Exchange P) (Op P) (Event P) := ⟨empty, apply⟩

/-! ## Books -/

@[simp] theorem book_empty (symbol : Str) : (empty : Exchange P).book symbol = OrderBook.empty := by
  rw [book, empty, Finmap.lookup_empty, Option.getD_none]

theorem book_of_lookup {ex : Exchange P} {symbol : Str} {b : OrderBook P}
    (h : ex.books.lookup symbol = some b) : ex.book symbol = b := by
  rw [book, h, Option.getD_some]

/-- Storing a book changes the book of that symbol and no other. -/
theorem book_insert (ex : Exchange P) (symbol : Str) (b : OrderBook P)
    (m : Finmap fun _ : UInt64 => Str) (s : Str) :
    (⟨ex.books.insert symbol b, m⟩ : Exchange P).book s =
      if s = symbol then b else ex.book s := by
  rw [book]
  split
  · rename_i h
    rw [h, Finmap.lookup_insert, Option.getD_some]
  · rename_i h
    rw [Finmap.lookup_insert_of_ne _ h, book]

/-- Storing a book where it is stored already. -/
theorem insert_of_lookup {ex : Exchange P} {symbol : Str} {b : OrderBook P}
    (h : ex.books.lookup symbol = some b) : ex.books.insert symbol b = ex.books := by
  refine Finmap.ext_lookup fun s => ?_
  by_cases hs : s = symbol
  · rw [hs, Finmap.lookup_insert, h]
  · rw [Finmap.lookup_insert_of_ne _ hs]

theorem book_addOrder (ex : Exchange P) (symbol : Str) (o : Order P) (s : Str) :
    (ex.addOrder symbol o).1.book s =
      if s = symbol then ((ex.book symbol).addOrder o).1 else ex.book s :=
  book_insert ex symbol _ _ s

@[simp] theorem orderSymbolMap_addOrder (ex : Exchange P) (symbol : Str) (o : Order P) :
    (ex.addOrder symbol o).1.orderSymbolMap = ex.orderSymbolMap.insert o.orderId symbol := rfl

/-- **The outcomes of `cancelOrder`**: the identifier is not routed, or the cancel
goes to the book it is routed to and the route is dropped. -/
theorem cancelOrder_cases (ex : Exchange P) (i : UInt64) :
    (ex.orderSymbolMap.lookup i = none ∧ ex.cancelOrder i = (ex, [.cancelNotFoundInAnyBook i])) ∨
      ∃ symbol, ex.orderSymbolMap.lookup i = some symbol ∧
        (∀ s, (ex.cancelOrder i).1.book s =
          if s = symbol then ((ex.book symbol).cancelOrder i).1 else ex.book s) ∧
        (ex.cancelOrder i).1.orderSymbolMap = ex.orderSymbolMap.erase i ∧
        (ex.cancelOrder i).2 = ((ex.book symbol).cancelOrder i).2 := by
  cases h : ex.orderSymbolMap.lookup i with
  | none => exact Or.inl ⟨rfl, by rw [cancelOrder, h]⟩
  | some symbol =>
    refine Or.inr ⟨symbol, rfl, fun s => ?_, ?_, ?_⟩
    · rw [cancelOrder, h]
      exact book_insert ex symbol _ _ s
    · rw [cancelOrder, h]
    · rw [cancelOrder, h]

/-- **The outcomes of `modifyOrder`**: the identifier is not routed to the symbol
of the request and nothing happens, or the request goes to that symbol's book. -/
theorem modifyOrder_cases (ex : Exchange P) (i : UInt64) (symbol : Str) (q : Int32) (p : P)
    (ts : ℤ) :
    (ex.orderSymbolMap.lookup i ≠ some symbol ∧
      ∃ e, e.trade? = none ∧ ex.modifyOrder i symbol q p ts = (ex, [e]) ∧
        (e = .modifyNotFoundInAnyBook i ∨ ∃ actual, e = .modifyWrongSymbol i actual symbol)) ∨
    (ex.orderSymbolMap.lookup i = some symbol ∧
      (∀ s, (ex.modifyOrder i symbol q p ts).1.book s =
        if s = symbol then ((ex.book symbol).modifyOrder i q p ts).1 else ex.book s) ∧
      (ex.modifyOrder i symbol q p ts).1.orderSymbolMap = ex.orderSymbolMap ∧
      (ex.modifyOrder i symbol q p ts).2 = ((ex.book symbol).modifyOrder i q p ts).2) := by
  cases h : ex.orderSymbolMap.lookup i with
  | none =>
    refine Or.inl ⟨by simp, .modifyNotFoundInAnyBook i, rfl, ?_, Or.inl rfl⟩
    rw [modifyOrder, h]
  | some actual =>
    by_cases hs : actual = symbol
    · subst hs
      refine Or.inr ⟨rfl, fun s => ?_, ?_, ?_⟩
      · rw [modifyOrder, h]
        simp only [ne_eq, not_true_eq_false, if_false]
        exact book_insert ex actual _ _ s
      · rw [modifyOrder, h]
        simp only [ne_eq, not_true_eq_false, if_false]
      · rw [modifyOrder, h]
        simp only [ne_eq, not_true_eq_false, if_false]
    · refine Or.inl ⟨fun hc => hs (Option.some_inj.mp hc), .modifyWrongSymbol i actual symbol, rfl,
        ?_, Or.inr ⟨actual, rfl⟩⟩
      rw [modifyOrder, h]
      simp only [ne_eq, hs, not_false_eq_true, if_true]

/-- A cancel reaches the book its identifier is routed to, and no other. -/
theorem book_cancelOrder (ex : Exchange P) (i : UInt64) (s : Str) :
    (ex.cancelOrder i).1.book s =
      if ex.orderSymbolMap.lookup i = some s then ((ex.book s).cancelOrder i).1
      else ex.book s := by
  rcases cancelOrder_cases ex i with ⟨hnone, h⟩ | ⟨symbol, hroute, hbook, -, -⟩
  · rw [h, hnone, if_neg (by simp)]
  · rw [hbook, hroute]
    by_cases hs : s = symbol
    · rw [if_pos hs, if_pos (by rw [hs]), hs]
    · rw [if_neg hs, if_neg fun h => hs (Option.some_inj.mp h).symm]

/-- A cancel drops the route of its identifier. -/
theorem lookup_cancelOrder (ex : Exchange P) (i j : UInt64) :
    (ex.cancelOrder i).1.orderSymbolMap.lookup j =
      if j = i then none else ex.orderSymbolMap.lookup j := by
  rcases cancelOrder_cases ex i with ⟨hnone, h⟩ | ⟨symbol, -, -, hmap, -⟩
  · rw [h]
    split
    · rename_i hj
      rw [hj, hnone]
    · rfl
  · rw [hmap]
    split
    · rename_i hj
      rw [hj, Finmap.lookup_erase]
    · rename_i hj
      rw [Finmap.lookup_erase_ne hj]

/-- A modify reaches the book of its symbol when its identifier is routed there. -/
theorem book_modifyOrder (ex : Exchange P) (i : UInt64) (symbol : Str) (q : Int32) (p : P)
    (ts : ℤ) (s : Str) :
    (ex.modifyOrder i symbol q p ts).1.book s =
      if s = symbol ∧ ex.orderSymbolMap.lookup i = some symbol then
        ((ex.book symbol).modifyOrder i q p ts).1
      else ex.book s := by
  rcases modifyOrder_cases ex i symbol q p ts with ⟨hroute, e, -, h, -⟩ | ⟨hroute, hbook, -, -⟩
  · rw [h, if_neg fun hc => hroute hc.2]
  · rw [hbook]
    by_cases hs : s = symbol
    · rw [if_pos hs, if_pos ⟨hs, hroute⟩]
    · rw [if_neg hs, if_neg fun hc => hs hc.1]

@[simp] theorem orderSymbolMap_modifyOrder (ex : Exchange P) (i : UInt64) (symbol : Str)
    (q : Int32) (p : P) (ts : ℤ) :
    (ex.modifyOrder i symbol q p ts).1.orderSymbolMap = ex.orderSymbolMap := by
  rcases modifyOrder_cases ex i symbol q p ts with ⟨-, e, -, h, -⟩ | ⟨-, -, hmap, -⟩
  · rw [h]
  · exact hmap

theorem matchOrders_empty : (OrderBook.empty : OrderBook P).matchOrders = (OrderBook.empty, []) :=
  OrderBook.matchOrders_of_uncrossed OrderBook.linked_empty fun e he => by
    rw [OrderBook.resting_empty] at he
    exact absurd he List.not_mem_nil

/-- `matchOrders` matches the book of its symbol, which may be empty, and no
other. -/
theorem book_matchOrders (ex : Exchange P) (symbol s : Str) :
    (ex.matchOrders symbol).1.book s =
      if s = symbol then (ex.book symbol).matchOrders.1 else ex.book s := by
  rw [matchOrders]
  cases h : ex.books.lookup symbol with
  | none =>
    have hb : ex.book symbol = OrderBook.empty := by rw [book, h, Option.getD_none]
    by_cases hs : s = symbol
    · rw [if_pos hs, hb, matchOrders_empty, hs]
      exact hb
    · rw [if_neg hs]
  | some b =>
    rw [book_of_lookup h]
    exact book_insert ex symbol _ _ s

@[simp] theorem orderSymbolMap_matchOrders (ex : Exchange P) (symbol : Str) :
    (ex.matchOrders symbol).1.orderSymbolMap = ex.orderSymbolMap := by
  rw [matchOrders]
  cases h : ex.books.lookup symbol <;> rfl

theorem events_matchOrders (ex : Exchange P) (symbol : Str) :
    (ex.matchOrders symbol).2 = (ex.book symbol).matchOrders.2 := by
  rw [matchOrders]
  cases h : ex.books.lookup symbol with
  | none =>
    have hb : ex.book symbol = OrderBook.empty := by rw [book, h, Option.getD_none]
    rw [hb, matchOrders_empty]
  | some b => rw [book_of_lookup h]

/-! ## The symbols that have a book -/

theorem mem_books_addOrder (ex : Exchange P) (symbol : Str) (o : Order P) (s : Str) :
    s ∈ (ex.addOrder symbol o).1.books ↔ s = symbol ∨ s ∈ ex.books :=
  Finmap.mem_insert

theorem mem_books_cancelOrder (ex : Exchange P) (i : UInt64) (s : Str) :
    s ∈ (ex.cancelOrder i).1.books ↔ ex.orderSymbolMap.lookup i = some s ∨ s ∈ ex.books := by
  rw [cancelOrder]
  cases hroute : ex.orderSymbolMap.lookup i with
  | none => simp
  | some symbol =>
    simp only [Finmap.mem_insert, Option.some_inj]
    exact or_congr_left eq_comm

theorem mem_books_modifyOrder (ex : Exchange P) (i : UInt64) (symbol : Str) (q : Int32) (p : P)
    (ts : ℤ) (s : Str) :
    s ∈ (ex.modifyOrder i symbol q p ts).1.books ↔
      (s = symbol ∧ ex.orderSymbolMap.lookup i = some symbol) ∨ s ∈ ex.books := by
  rw [modifyOrder]
  cases hroute : ex.orderSymbolMap.lookup i with
  | none => simp
  | some actual =>
    by_cases hs : actual = symbol
    · simp [hs, Finmap.mem_insert]
    · simp [hs]

theorem mem_books_matchOrders (ex : Exchange P) (symbol s : Str) :
    s ∈ (ex.matchOrders symbol).1.books ↔ s ∈ ex.books := by
  rw [matchOrders]
  cases hb : ex.books.lookup symbol with
  | none => exact Iff.rfl
  | some b =>
    simp only [Finmap.mem_insert]
    refine or_iff_right_of_imp ?_
    rintro rfl
    exact Finmap.mem_iff.mpr ⟨b, hb⟩

end Exchange
end MatchingEngine
