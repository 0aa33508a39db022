import Mathlib.Order.Defs.LinearOrder
import Mathlib.Data.Int.Notation

/-!
# Orders and commands

The records of `order.h`.

Prices are `double`s, and the engine does nothing with a price but copy it and
compare it, so a price is an element of an arbitrary linear order `P`: the finite
doubles ordered by value, with `+0` and `-0` one element.  Order identifiers are
64-bit machine integers and quantities are 32-bit ones, with the wrap-around of
the machine.  Timestamps are only compared and copied, and the integers hold them
all.
-/

namespace MatchingEngine

/-- `enum Side`. -/
inductive Side where
  | buy
  | sell
  deriving DecidableEq

/-- `struct Order`: one order of the book. -/
structure Order (P : Type) where
  orderId : UInt64
  side : Side
  price : P
  quantity : Int32
  timestamp : ℤ
  deriving DecidableEq

/-- `enum CommandType`: what a command asks for. -/
inductive CommandType where
  | new
  | cancel
  | modify
  | stats
  | book
  deriving DecidableEq

/-- A `std::string`. -/
abbrev Str := List Char

/-- The terminator of a C string. -/
def nul : Char := Char.ofNat 0

/-- `char symbol[16]`. -/
abbrev SymbolField := Vector Char 16

/-- The characters of a C string: everything before the first terminator. -/
def cStr (s : Str) : Str := s.takeWhile fun c => c != nul

/-- `std::strncpy(symbol, s.c_str(), 15)` into a 16-byte field, followed by
`symbol[15] = 0`: at most fifteen characters are copied, the rest is padded. -/
def SymbolField.copy (s : Str) : SymbolField :=
  Vector.ofFn fun i => if i.val < 15 then (cStr s).getD i.val nul else nul

/-- `std::string(cmd.symbol)`. -/
def SymbolField.read (f : SymbolField) : Str := cStr f.toList

/-- The field of a zero-initialised command. -/
def SymbolField.zero : SymbolField := Vector.replicate 16 nul

/-- `struct Command`: the unit of work that crosses the queue.  The five clock
readings at the end are those of the latency measurement. -/
structure Command (P : Type) where
  type : CommandType
  orderId : UInt64
  side : Side
  price : P
  quantity : Int32
  timestamp : ℤ
  symbol : SymbolField
  tsNetworkRecv : ℤ
  tsQueuePush : ℤ
  tsQueuePop : ℤ
  tsProcessStart : ℤ
  tsMatchComplete : ℤ
  deriving DecidableEq

/-- `Command cmd{}`: every field is zero. -/
def Command.zero {P : Type} [Zero P] : Command P where
  type := .new
  orderId := 0
  side := .buy
  price := 0
  quantity := 0
  timestamp := 0
  symbol := SymbolField.zero
  tsNetworkRecv := 0
  tsQueuePush := 0
  tsQueuePop := 0
  tsProcessStart := 0
  tsMatchComplete := 0

/-! ## The commands of the network thread -/

section Build

variable {P : Type} [Zero P]

/-- The command of a `BUY` or `SELL` line: the fields `processLine` sets over
zeros. -/
def Command.newOrder (orderId : UInt64) (side : Side) (symbol : Str) (quantity : Int32) (price : P)
    (timestamp recvTimestamp pushTimestamp : ℤ) : Command P :=
  { (Command.zero : Command P) with
    type := .new
    orderId := orderId
    side := side
    price := price
    quantity := quantity
    timestamp := timestamp
    symbol := SymbolField.copy symbol
    tsNetworkRecv := recvTimestamp
    tsQueuePush := pushTimestamp }

/-- The command of a `CANCEL` line. -/
def Command.cancelOrder (orderId : UInt64) (timestamp recvTimestamp pushTimestamp : ℤ) :
    Command P :=
  { (Command.zero : Command P) with
    type := .cancel
    orderId := orderId
    timestamp := timestamp
    tsNetworkRecv := recvTimestamp
    tsQueuePush := pushTimestamp }

/-- The command of a `MODIFY` line. -/
def Command.modifyOrder (orderId : UInt64) (symbol : Str) (quantity : Int32) (price : P)
    (timestamp recvTimestamp pushTimestamp : ℤ) : Command P :=
  { (Command.zero : Command P) with
    type := .modify
    orderId := orderId
    quantity := quantity
    price := price
    timestamp := timestamp
    symbol := SymbolField.copy symbol
    tsNetworkRecv := recvTimestamp
    tsQueuePush := pushTimestamp }

/-- The command of a `BOOK` line. -/
def Command.bookOf (symbol : Str) (recvTimestamp pushTimestamp : ℤ) : Command P :=
  { (Command.zero : Command P) with
    type := .book
    symbol := SymbolField.copy symbol
    tsNetworkRecv := recvTimestamp
    tsQueuePush := pushTimestamp }

/-- The command of a `STATS` line, and the one `main` pushes at the end. -/
def Command.statsReport (recvTimestamp pushTimestamp : ℤ) : Command P :=
  { (Command.zero : Command P) with
    type := .stats
    tsNetworkRecv := recvTimestamp
    tsQueuePush := pushTimestamp }

end Build

/-- The symbol a command carries, as the matching thread reads it. -/
def Command.symbolStr {P : Type} (c : Command P) : Str := c.symbol.read

end MatchingEngine
