import MatchingEngine.Lib.Extraction
import MatchingEngine.Order

/-!
# Client lines

`processLine` of `server.cpp`: the text of a line is read from a string stream
(`readRequest`), the order identifier is assigned, and a zero-initialised `Command`
is filled in, which the function pushes until the queue takes it.

A line that is not understood pushes nothing and leaves the next identifier alone
(`processLine_rejected`).
-/

namespace MatchingEngine

open IStream

variable {P : Type}

/-- What a line asks for, as it is read from the stream. -/
inductive Request (P : Type) where
  | order (side : Side) (symbol : Str) (quantity : Int32) (price : P)
  | cancel (orderId : UInt64)
  | modify (orderId : UInt64) (symbol : Str) (quantity : Int32) (price : P)
  | book (symbol : Str)
  | stats
  deriving DecidableEq

/-- Why a line is not understood; the line itself is printed. -/
inductive LineError where
  | malformedOrder
  | malformedCancel
  | malformedModify
  | malformedBook
  | unknownCommand
  deriving DecidableEq

/-- What `processLine` prints in front of a line it does not understand. -/
def LineError.text : LineError → String
  | .malformedOrder => "[Thread 1] Malformed order: "
  | .malformedCancel => "[Thread 1] Malformed CANCEL: "
  | .malformedModify => "[Thread 1] Malformed MODIFY: "
  | .malformedBook => "[Thread 1] Malformed BOOK: "
  | .unknownCommand => "[Thread 1] Unknown command: "

/-- A line of the log of the network thread. -/
inductive Notice where
  | error (e : LineError) (line : Str)
  | pushingNew (orderId : UInt64) (symbol : Str)
  | pushingCancel (orderId : UInt64)
  | pushingModify (orderId : UInt64) (symbol : Str)
  | pushingBook (symbol : Str)
  | pushingStats
  deriving DecidableEq

/-- The text of a notice. -/
def Notice.text : Notice → Str
  | .error e line => e.text.toList ++ line
  | .pushingNew i symbol =>
    "[Thread 1] Pushing NEW Order ID=".toList ++ (toString i.toNat).toList ++ " ".toList ++
      symbol ++ " to queue...".toList
  | .pushingCancel i =>
    "[Thread 1] Pushing CANCEL Order ID=".toList ++ (toString i.toNat).toList ++
      " to queue...".toList
  | .pushingModify i symbol =>
    "[Thread 1] Pushing MODIFY Order ID=".toList ++ (toString i.toNat).toList ++ " ".toList ++
      symbol ++ " to queue...".toList
  | .pushingBook symbol =>
    "[Thread 1] Pushing BOOK ".toList ++ symbol ++ " to queue...".toList
  | .pushingStats => "[Thread 1] Pushing STATS to queue...".toList

/-! ## Reading -/

section Read

variable (toDouble : ℚ → Option P)

/-- `ss >> symbol >> quantity >> price`. -/
def readOrder (ss : Str) : Option (Str × Int32 × P) := do
  let (symbol, ss) ← readString ss
  let (quantity, ss) ← readInt32 ss
  let (price, _) ← readDouble toDouble ss
  some (symbol, quantity, price)

/-- `ss >> orderId >> symbol >> quantity >> price`. -/
def readModify (ss : Str) : Option (UInt64 × Str × Int32 × P) := do
  let (orderId, ss) ← readUInt64 ss
  let r ← readOrder toDouble ss
  some (orderId, r)

/-- The `if` cascade of `processLine`: the first word selects what is read next. -/
def readRequest (line : Str) : Except LineError (Request P) :=
  let (cmdStr, ss) := (readString line).getD ([], [])
  if cmdStr = "BUY".toList ∨ cmdStr = "SELL".toList then
    match readOrder toDouble ss with
    | none => .error .malformedOrder
    | some (symbol, quantity, price) =>
      .ok (.order (if cmdStr = "BUY".toList then .buy else .sell) symbol quantity price)
  else if cmdStr = "CANCEL".toList then
    match readUInt64 ss with
    | none => .error .malformedCancel
    | some (orderId, _) => .ok (.cancel orderId)
  else if cmdStr = "MODIFY".toList then
    match readModify toDouble ss with
    | none => .error .malformedModify
    | some (orderId, symbol, quantity, price) => .ok (.modify orderId symbol quantity price)
  else if cmdStr = "BOOK".toList then
    match readString ss with
    | none => .error .malformedBook
    | some (symbol, _) => .ok (.book symbol)
  else if cmdStr = "STATS".toList then .ok .stats
  else .error .unknownCommand

end Read

/-! ## Processing -/

/-- A line with the readings of the clocks while it is handled: when it was
received, `getCurrentTimestamp()`, and just before the push. -/
structure Line where
  text : Str
  recvTimestamp : ℤ
  now : ℤ
  pushTimestamp : ℤ
  deriving DecidableEq

/-- `nextOrderId++` in the branch of `BUY` and `SELL`. -/
def Request.nextId (nextOrderId : UInt64) : Request P → UInt64
  | .order .. => nextOrderId + 1
  | _ => nextOrderId

/-- What is printed before the push. -/
def Request.notice (nextOrderId : UInt64) : Request P → Notice
  | .order _ symbol _ _ => .pushingNew nextOrderId symbol
  | .cancel orderId => .pushingCancel orderId
  | .modify orderId symbol _ _ => .pushingModify orderId symbol
  | .book symbol => .pushingBook symbol
  | .stats => .pushingStats

variable [Zero P]

/-- The command a request is pushed as, when the next identifier is
`nextOrderId`. -/
def Request.command (l : Line) (nextOrderId : UInt64) : Request P → Command P
  | .order side symbol quantity price =>
    .newOrder nextOrderId side symbol quantity price l.now l.recvTimestamp l.pushTimestamp
  | .cancel orderId => .cancelOrder orderId l.now l.recvTimestamp l.pushTimestamp
  | .modify orderId symbol quantity price =>
    .modifyOrder orderId symbol quantity price l.now l.recvTimestamp l.pushTimestamp
  | .book symbol => .bookOf symbol l.recvTimestamp l.pushTimestamp
  | .stats => .statsReport l.recvTimestamp l.pushTimestamp

/-- What a call of `processLine` does: the command it pushes, the next identifier
it leaves, what it prints. -/
structure Processed (P : Type) where
  pushed : Option (Command P)
  nextOrderId : UInt64
  notice : Option Notice
  deriving DecidableEq

/-- `processLine`. -/
def processLine (toDouble : ℚ → Option P) (l : Line) (nextOrderId : UInt64) : Processed P :=
  if l.text = [] then ⟨none, nextOrderId, none⟩
  else
    match readRequest toDouble l.text with
    | .error e => ⟨none, nextOrderId, some (.error e l.text)⟩
    | .ok r => ⟨some (r.command l nextOrderId), r.nextId nextOrderId, some (r.notice nextOrderId)⟩

variable {toDouble : ℚ → Option P} {l : Line} {n : UInt64}

omit [Zero P] in
/-- The empty line, which `processLine` returns from at once, would not be
understood either. -/
theorem readRequest_nil : readRequest toDouble [] = .error .unknownCommand := rfl

/-- **What is pushed is what was read.** -/
theorem processLine_pushed_iff {cmd : Command P} :
    (processLine toDouble l n).pushed = some cmd ↔
      ∃ r, readRequest toDouble l.text = .ok r ∧ cmd = r.command l n := by
  unfold processLine
  split
  · rename_i hnil
    rw [hnil, readRequest_nil]
    simp
  · cases hr : readRequest toDouble l.text with
    | error e => simp
    | ok r =>
      simp only [Option.some.injEq, Except.ok.injEq, exists_eq_left']
      exact eq_comm

/-- **A line that is not understood** pushes nothing and assigns no identifier. -/
theorem processLine_rejected {e : LineError} (h : readRequest toDouble l.text = .error e) :
    (processLine toDouble l n).pushed = none ∧ (processLine toDouble l n).nextOrderId = n := by
  unfold processLine
  split
  · exact ⟨rfl, rfl⟩
  · rw [h]
    exact ⟨rfl, rfl⟩

theorem processLine_accepted {r : Request P} (h : readRequest toDouble l.text = .ok r) :
    (processLine toDouble l n).pushed = some (r.command l n) ∧
      (processLine toDouble l n).nextOrderId = r.nextId n := by
  unfold processLine
  split
  · rename_i hnil
    rw [hnil, readRequest_nil] at h
    exact absurd h (by simp)
  · rw [h]
    exact ⟨rfl, rfl⟩

/-- A `BUY` line. -/
example : processLine some ⟨"BUY AAPL 10 2.5x".toList, 1, 2, 3⟩ 7 =
    (⟨some (.newOrder 7 .buy "AAPL".toList 10 (5 / 2 : ℚ) 2 1 3), 8,
      some (.pushingNew 7 "AAPL".toList)⟩ : Processed ℚ) := by
  decide +kernel

end MatchingEngine
