import MatchingEngine.Queue.QueueType
import MatchingEngine.Server.Pipeline
import Mathlib.Data.Rat.Defs
import Mathlib.Algebra.Order.Ring.Rat

/-!
# The benchmark

`makeCommand` and the template `runBenchmark` of `benchmark.cpp`: a thread that pushes
synthetic orders as fast as the queue takes them, and a thread that enters and matches
them.  The prices are the `double`s of the source, all of them halves.  What is measured of
the wall clock is left out; the latency tracker is kept.

The template is a machine that reads a schedule, `runBenchmark Q`, for every queue `Q`.
-/

namespace MatchingEngine
namespace Benchmark

/-! ## The orders -/

/-- `BENCH_SYMBOLS`. -/
def benchSymbols : List Str :=
  [['A', 'A', 'P', 'L'], ['T', 'S', 'L', 'A'], ['I', 'N', 'F', 'Y'], ['G', 'O', 'O', 'G'],
    ['M', 'S', 'F', 'T']]

/-- `NUM_SYMBOLS`. -/
def numSymbols : UInt64 := 5

/-- The side and the price of the order `id`: every hundredth crosses the book. -/
def sideAndPrice (id : UInt64) : Side × ℚ :=
  if id % 100 = 0 ∧ id > 0 then
    if id % 200 = 0 then (.buy, 219 / 2) else (.sell, 100)
  else if id % 2 = 0 then (.buy, 100 + (id % 10).toNat * (1 / 2))
  else (.sell, 105 + (id % 10).toNat * (1 / 2))

/-- `makeCommand`. -/
def makeCommand (id : UInt64) : Command ℚ :=
  { (Command.zero : Command ℚ) with
    type := .new
    orderId := id
    symbol := SymbolField.copy (benchSymbols.getD (id % numSymbols).toNat [])
    side := (sideAndPrice id).1
    price := (sideAndPrice id).2
    quantity := 1 + Int32.ofNat (id % 100).toNat
    timestamp := 0 }

/-- `commands`. -/
def makeCommands (numOrders : ℕ) : List (Command ℚ) :=
  (List.range numOrders).map fun i => makeCommand (UInt64.ofNat (i + 1))

/-! ## The two threads -/

/-- Where the main thread stands: it stamps the command it is about to push, pushes it,
and joins when none is left. -/
inductive Producer where
  | recv (i : ℕ)
  | call (i : ℕ) (recv : ℤ)
  | push (i : ℕ)

/-- Where the consumer stands. -/
inductive Consumer where
  | test
  | pop
  | popped (cmd : Command ℚ)
  | processStart (cmd : Command ℚ)
  | process (cmd : Command ℚ)
  | matchComplete (cmd : Command ℚ)
  | returned

/-- Who takes the next step. -/
inductive Turn where
  | producer
  | consumer

/-- A step, after some time. -/
structure Action where
  elapsed : ℕ
  turn : Turn

/-- What has happened: a call of the queue has returned, a command has been entered and
matched, or it has been recorded. -/
inductive Happened where
  | queue (r : Returned (Command ℚ))
  | entered (cmd : Command ℚ)
  | recorded (s : Stamps)

end Benchmark

/-- What the two threads of `runBenchmark` share and own. -/
structure Benchmark (Q : QueueType (Command ℚ)) where
  clock : ℤ
  queue : Q.State
  producer : Benchmark.Producer
  consumer : Benchmark.Consumer
  processed : ℕ
  exchange : Exchange ℚ
  tracker : LatencyTracker

namespace Benchmark

variable {Q : QueueType (Command ℚ)}

/-- A step of the main thread. -/
def producerStep (commands : List (Command ℚ)) (s : Benchmark Q) : Benchmark Q × List Happened :=
  match s.producer with
  | .recv i => if i < commands.length then ({ s with producer := .call i s.clock }, []) else (s, [])
  | .call i recv =>
    match commands[i]? with
    | none => (s, [])
    | some cmd =>
      ({ s with
          queue := Q.call s.queue { cmd with tsNetworkRecv := recv, tsQueuePush := s.clock }
          producer := .push i }, [])
  | .push i =>
    -- `while (!queue.push(commands[i]))`
    let r := Q.producer s.queue
    match r.2 with
    | [.push _ true] => ({ s with queue := r.1, producer := .recv (i + 1) }, r.2.map .queue)
    | _ => ({ s with queue := r.1 }, r.2.map .queue)

/-- `exchange.addOrder(symbol, o); exchange.matchOrders(symbol);` -/
def enter (exchange : Exchange ℚ) (cmd : Command ℚ) : Exchange ℚ :=
  ((exchange.addOrder cmd.symbolStr cmd.order).1.matchOrders cmd.symbolStr).1

/-- A step of the consumer. -/
def consumerStep (numOrders : ℕ) (s : Benchmark Q) : Benchmark Q × List Happened :=
  match s.consumer with
  | .test => ({ s with consumer := if s.processed < numOrders then .pop else .returned }, [])
  | .pop =>
    let r := Q.consumer s.queue
    match r.2 with
    | [.pop none] => ({ s with queue := r.1, consumer := .test }, r.2.map .queue)
    | [.pop (some cmd)] => ({ s with queue := r.1, consumer := .popped cmd }, r.2.map .queue)
    | _ => ({ s with queue := r.1 }, r.2.map .queue)
  | .popped cmd => ({ s with consumer := .processStart { cmd with tsQueuePop := s.clock } }, [])
  | .processStart cmd =>
    ({ s with consumer := .process { cmd with tsProcessStart := s.clock } }, [])
  | .process cmd =>
    ({ s with exchange := enter s.exchange cmd, consumer := .matchComplete cmd }, [.entered cmd])
  | .matchComplete cmd =>
    let cmd := { cmd with tsMatchComplete := s.clock }
    ({ s with
        tracker := s.tracker.record (Pipeline.stamps cmd)
        processed := s.processed + 1
        consumer := .test }, [.recorded (Pipeline.stamps cmd)])
  | .returned => (s, [])

/-- Some time, then a step. -/
def step (commands : List (Command ℚ)) (s : Benchmark Q) (a : Action) :
    Benchmark Q × List Happened :=
  let s := { s with clock := s.clock + a.elapsed }
  match a.turn with
  | .producer => producerStep commands s
  | .consumer => consumerStep commands.length s

/-- `runBenchmark<QueueType>` as a machine that reads a schedule. -/
def runBenchmark (Q : QueueType (Command ℚ)) (numOrders : ℕ) (tracker : LatencyTracker)
    (boot : ℤ) : Machine (Benchmark Q) Action Happened where
  init :=
    { clock := boot
      queue := Q.init
      producer := .recv 0
      consumer := .test
      processed := 0
      exchange := Exchange.empty
      tracker := tracker.reset }
  step := step (makeCommands numOrders)

end Benchmark
end MatchingEngine
