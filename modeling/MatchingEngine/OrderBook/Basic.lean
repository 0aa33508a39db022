import MatchingEngine.Lib.LevelMap
import MatchingEngine.Lib.Loop
import MatchingEngine.Order
import Mathlib.Data.Finmap

/-!
# The order book

The class `OrderBook` of `orderbook.h`, function by function.

A price level is a `std::list<Order>`, and the index `orderMap` stores iterators
into these lists.  An iterator is the address of a list node: here a node carries
its address, an iterator is an address, and the book hands out addresses from a
counter, so that an erased node's address never comes back.  Dereferencing an
iterator looks for the node in the level its location names; when it is not there
the source has no defined behaviour, and the operation says so with the event
`undefinedBehaviour`.

What the source prints is what an operation emits: one `Event` for each line.
-/

namespace MatchingEngine

variable {P : Type}

/-- The order of the levels of a side, best first: `std::greater<double>` for
the bids, the default comparator for the asks. -/
def before [LT P] : Side → P → P → Prop
  | .buy => fun p q => p > q
  | .sell => fun p q => p < q

instance [LinearOrder P] (s : Side) : IsStrictTotalOrder P (before s) := by
  cases s
  · exact inferInstanceAs (IsStrictTotalOrder P (· > ·))
  · exact inferInstanceAs (IsStrictTotalOrder P (· < ·))

instance [LinearOrder P] (s : Side) : DecidableRel (before (P := P) s) := fun p q =>
  match s with
  | .buy => inferInstanceAs (Decidable (p > q))
  | .sell => inferInstanceAs (Decidable (p < q))

/-- The other side of the book. -/
def Side.opposite : Side → Side
  | .buy => .sell
  | .sell => .buy

/-- A node of a `std::list<Order>`. -/
structure Node (P : Type) where
  addr : ℕ
  order : Order P
  deriving DecidableEq

/-- `struct OrderLocation`: the side, the level and the list iterator. -/
structure OrderLocation (P : Type) where
  side : Side
  price : P
  it : ℕ
  deriving DecidableEq

/-- `struct SymbolStats`. -/
structure SymbolStats where
  totalOrders : UInt64 := 0
  totalTrades : UInt64 := 0
  totalVolume : UInt64 := 0
  deriving DecidableEq

/-- One price line of `printBook`. -/
structure DepthLine (P : Type) where
  price : P
  totalQty : Int32
  orders : ℕ
  deriving DecidableEq

/-- One `[TRADE]` line. -/
structure Trade (P : Type) where
  price : P
  quantity : Int32
  buyer : UInt64
  seller : UInt64
  deriving DecidableEq

/-- The lines the book and the exchange print. -/
inductive Event (P : Type) where
  | new (orderId : UInt64) (side : Side) (quantity : Int32) (price : P)
  | cancel (orderId : UInt64) (side : Side) (quantity : Int32) (price : P)
  | cancelNotFound (orderId : UInt64)
  | cancelNotFoundInAnyBook (orderId : UInt64)
  | modifyInPlace (orderId : UInt64) (oldQty newQty : Int32)
  | modifyReinsert (orderId : UInt64) (oldQty : Int32) (oldPrice : P) (newQty : Int32)
      (newPrice : P)
  | modifyNotFound (orderId : UInt64)
  | modifyNotFoundInAnyBook (orderId : UInt64)
  | modifyWrongSymbol (orderId : UInt64) (actual given : Str)
  | trade (t : Trade P)
  | book (symbol : Str) (bids asks : List (DepthLine P))
  | bookNotFound (symbol : Str)
  | stats (rows : Finset (Str × SymbolStats))
  | undefinedBehaviour
  deriving DecidableEq

/-- The trade an event reports, if it reports one. -/
def Event.trade? : Event P → Option (Trade P)
  | .trade t => some t
  | _ => none

/-- The trades among the events, in order. -/
def trades (l : List (Event P)) : List (Trade P) := l.filterMap Event.trade?

theorem trades_append (l l' : List (Event P)) : trades (l ++ l') = trades l ++ trades l' :=
  List.filterMap_append

/-- `std::min` on `int`. -/
def stdMin (a b : Int32) : Int32 := if b < a then b else a

/-- The trade between two orders that meet: the smaller quantity, at the price of
the one with the earlier timestamp. -/
def tradeOf (firstBid firstAsk : Order P) : Trade P where
  price := if firstBid.timestamp ≤ firstAsk.timestamp then firstBid.price else firstAsk.price
  quantity := stdMin firstBid.quantity firstAsk.quantity
  buyer := firstBid.orderId
  seller := firstAsk.orderId

/-- `quantity -= tradeQty`. -/
def Order.fill (o : Order P) (tradeQty : Int32) : Order P :=
  { o with quantity := o.quantity - tradeQty }

/-- `class OrderBook`. -/
structure OrderBook (P : Type) [LinearOrder P] where
  bids : LevelMap (before (P := P) .buy) (Node P)
  asks : LevelMap (before (P := P) .sell) (Node P)
  orderMap : Finmap fun _ : UInt64 => OrderLocation P
  stats : SymbolStats
  /-- The address of the next list node. -/
  nextNode : ℕ

variable [LinearOrder P]

namespace OrderBook

/-- The book `operator[]` creates. -/
def empty : OrderBook P := ⟨OrderedMap.empty, OrderedMap.empty, ∅, {}, 0⟩

/-- The levels of a side. -/
def levels (b : OrderBook P) : (s : Side) → LevelMap (before (P := P) s) (Node P)
  | .buy => b.bids
  | .sell => b.asks

/-- The book with other levels on one side. -/
def setLevels (b : OrderBook P) : (s : Side) → LevelMap (before (P := P) s) (Node P) → OrderBook P
  | .buy, m => { b with bids := m }
  | .sell, m => { b with asks := m }

/-! ## Removing and inserting -/

/-- Both branches of `removeByLocation`: erase the node from its level, and the
level when it becomes empty. -/
def eraseNode {s : Side} (m : LevelMap (before (P := P) s) (Node P)) (price : P) (it : ℕ) :
    LevelMap (before (P := P) s) (Node P) :=
  match m.find? price with
  | some queue => m.setLevel price (queue.filter fun n => n.addr ≠ it)
  | none => m

/-- `removeByLocation`. -/
def removeByLocation (b : OrderBook P) (loc : OrderLocation P) : OrderBook P :=
  match loc.side with
  | .buy => { b with bids := eraseNode b.bids loc.price loc.it }
  | .sell => { b with asks := eraseNode b.asks loc.price loc.it }

/-- `insertOrder`: append to the level of the order's price and register the new
node. -/
def insertOrder (b : OrderBook P) (o : Order P) : OrderBook P :=
  let it := b.nextNode
  let b' := match o.side with
    | .buy => { b with bids := b.bids.pushBack o.price ⟨it, o⟩ }
    | .sell => { b with asks := b.asks.pushBack o.price ⟨it, o⟩ }
  { b' with orderMap := b'.orderMap.insert o.orderId ⟨o.side, o.price, it⟩, nextNode := it + 1 }

/-- `addOrder`. -/
def addOrder (b : OrderBook P) (o : Order P) : OrderBook P × List (Event P) :=
  let b' := b.insertOrder o
  ({ b' with stats := { b'.stats with totalOrders := b'.stats.totalOrders + 1 } },
    [.new o.orderId o.side o.quantity o.price])

/-- `*loc.it`, read through the level the location names. -/
def deref (b : OrderBook P) (loc : OrderLocation P) : Option (Order P) :=
  (((b.levels loc.side).find? loc.price).bind fun queue =>
    queue.find? fun n => n.addr = loc.it).map Node.order

/-- `loc.it->quantity = q`. -/
def setQuantity (b : OrderBook P) (loc : OrderLocation P) (q : Int32) : OrderBook P :=
  match (b.levels loc.side).find? loc.price with
  | some queue =>
    b.setLevels loc.side ((b.levels loc.side).setLevel loc.price (queue.map fun n =>
      if n.addr = loc.it then { n with order := { n.order with quantity := q } } else n))
  | none => b

/-! ## Cancelling and modifying -/

/-- `cancelOrder`. -/
def cancelOrder (b : OrderBook P) (orderId : UInt64) : OrderBook P × List (Event P) :=
  match b.orderMap.lookup orderId with
  | none => (b, [.cancelNotFound orderId])
  | some loc =>
    match b.deref loc with
    | none => (b, [.undefinedBehaviour])
    | some o =>
      let b' := b.removeByLocation loc
      ({ b' with orderMap := b'.orderMap.erase orderId },
        [.cancel orderId loc.side o.quantity loc.price])

/-- `modifyOrder`.  The same price and a smaller quantity update the order where
it stands; anything else removes it and inserts it again with the new
timestamp. -/
def modifyOrder (b : OrderBook P) (orderId : UInt64) (newQty : Int32) (newPrice : P)
    (timestamp : ℤ) : OrderBook P × List (Event P) :=
  match b.orderMap.lookup orderId with
  | none => (b, [.modifyNotFound orderId])
  | some loc =>
    match b.deref loc with
    | none => (b, [.undefinedBehaviour])
    | some existing =>
      if newPrice = existing.price ∧ newQty < existing.quantity then
        (b.setQuantity loc newQty, [.modifyInPlace orderId existing.quantity newQty])
      else
        let b' := b.removeByLocation loc
        let b'' := { b' with orderMap := b'.orderMap.erase orderId }
        (b''.insertOrder ⟨orderId, existing.side, newPrice, newQty, timestamp⟩,
          [.modifyReinsert orderId existing.quantity existing.price newQty newPrice])

/-! ## Matching -/

/-- What a fill leaves of a queue: its front with the rest of its quantity, or
nothing of its front when that is zero. -/
def fillFront (n : Node P) (queue : List (Node P)) (tradeQty : Int32) : List (Node P) :=
  if n.order.quantity - tradeQty = 0 then queue
  else { n with order := n.order.fill tradeQty } :: queue

/-- `orderMap.erase` of an order that has been filled. -/
def eraseFilled (m : Finmap fun _ : UInt64 => OrderLocation P) (o : Order P) (tradeQty : Int32) :
    Finmap fun _ : UInt64 => OrderLocation P :=
  if o.quantity - tradeQty = 0 then m.erase o.orderId else m

/-- One evaluation of the loop condition of `matchOrders` and, when it holds, one
execution of the body.  `front()` of an empty queue has no defined behaviour;
`matchStep_isSome_iff` shows where it cannot be reached. -/
def matchStep (b : OrderBook P) : Option (Trade P × OrderBook P) :=
  match b.bids.begin?, b.asks.begin? with
  | some (bidPrice, firstBid :: bidRest), some (askPrice, firstAsk :: askRest) =>
    if bidPrice < askPrice then none
    else
      let t := tradeOf firstBid.order firstAsk.order
      some (t,
        { bids := b.bids.setLevel bidPrice (fillFront firstBid bidRest t.quantity)
          asks := b.asks.setLevel askPrice (fillFront firstAsk askRest t.quantity)
          orderMap := eraseFilled (eraseFilled b.orderMap firstBid.order t.quantity)
            firstAsk.order t.quantity
          stats := { b.stats with
            totalTrades := b.stats.totalTrades + 1
            totalVolume := b.stats.totalVolume + UInt64.ofInt t.quantity.toInt }
          nextNode := b.nextNode })
  | _, _ => none

/-- The orders of a side, best first, each with the price of its level. -/
def resting (b : OrderBook P) (s : Side) : List (P × Node P) := (b.levels s).flat

/-- The number of orders in the book. -/
def restingCount (b : OrderBook P) : ℕ :=
  (b.resting .buy).length + (b.resting .sell).length

/-- `matchOrders`.  Every iteration removes an order, so the number of orders
bounds the loop (`matchStep_matchOrders`). -/
def matchOrders (b : OrderBook P) : OrderBook P × List (Event P) :=
  (Loop.final matchStep b.restingCount b, (Loop.outputs matchStep b.restingCount b).map .trade)

/-! ## Display -/

/-- One loop of `printBook`: the first five levels of a side, the quantities of
each added up in an `int`. -/
def depth {s : Side} (m : LevelMap (before (P := P) s) (Node P)) : List (DepthLine P) :=
  (m.entries.take 5).map fun e =>
    ⟨e.1, e.2.foldl (fun totalQty n => totalQty + n.order.quantity) 0, e.2.length⟩

/-- `printBook`. -/
def printBook (b : OrderBook P) (symbol : Str) : List (Event P) :=
  [.book symbol (depth b.bids) (depth b.asks)]

end OrderBook
end MatchingEngine
