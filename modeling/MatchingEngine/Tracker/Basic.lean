import MatchingEngine.Lib.Machine
import MatchingEngine.Lib.OrderStatistics

/-!
# The latency tracker

The class `LatencyTracker` of `latency_tracker.h`, function by function.

Samples and aggregates are 64-bit machine integers, with the wrap-around of the machine.
A `std::vector` is a list, and since `percentile` sorts the vector it is given in place,
it returns the vector along with the value, as does every function that calls it.  The
product `p * samples.size()` is taken exactly.

`tracker` is the machine the owner of a tracker drives, one call at a time; what a call
reports is what it emits.
-/

namespace MatchingEngine

/-- The order of `int64_t`. -/
instance instLinearOrderInt64 : LinearOrder Int64 where
  le_refl := Int64.le_refl
  le_trans _ _ _ := Int64.le_trans
  le_antisymm _ _ := Int64.le_antisymm
  le_total := Int64.le_total
  lt_iff_le_not_ge a b := by
    rw [Int64.not_le]
    exact ⟨fun h => ⟨Int64.le_of_lt h, h⟩, fun h => h.2⟩
  toDecidableLE := inferInstance
  toDecidableEq := inferInstance
  toDecidableLT := inferInstance

/-- The clock readings of a `Command`, in nanoseconds of one steady clock. -/
structure Stamps where
  tsNetworkRecv : Int64
  tsQueuePush : Int64
  tsQueuePop : Int64
  tsProcessStart : Int64
  tsMatchComplete : Int64
  deriving DecidableEq

namespace Stamps

def netLat (cmd : Stamps) : Int64 := cmd.tsQueuePush - cmd.tsNetworkRecv

def qLat (cmd : Stamps) : Int64 := cmd.tsQueuePop - cmd.tsQueuePush

def matchLat (cmd : Stamps) : Int64 := cmd.tsMatchComplete - cmd.tsProcessStart

def e2eLat (cmd : Stamps) : Int64 := cmd.tsMatchComplete - cmd.tsNetworkRecv

end Stamps

/-- The profiling lines of `printStats`: each shows a hundred times a category over the
total, computed in `double`. -/
structure Breakdown where
  timeNetwork : Int64
  timeQueue : Int64
  timeOrderbook : Int64
  totalTime : Int64
  deriving DecidableEq

/-- The numbers `printStats` prints. -/
structure Stats where
  ordersProcessed : Int64
  average : Int64
  min : Int64
  max : Int64
  p50 : Int64
  p95 : Int64
  p99 : Int64
  p50Net : Int64
  p99Net : Int64
  p50Queue : Int64
  p99Queue : Int64
  p50Match : Int64
  p99Match : Int64
  /-- Printed only when some time has been spent. -/
  breakdown : Option Breakdown
  deriving DecidableEq

/-- What a call of the tracker reports. -/
inductive Report where
  | noOrders
  | stats (s : Stats)
  | value (v : Int64)
  deriving DecidableEq

/-- `class LatencyTracker`. -/
structure LatencyTracker where
  e2eSamples : List Int64 := []
  queueSamples : List Int64 := []
  matchSamples : List Int64 := []
  networkSamples : List Int64 := []
  totalCount : Int64 := 0
  minE2E : Int64 := Int64.maxValue
  maxE2E : Int64 := 0
  sumE2E : Int64 := 0
  timeNetwork : Int64 := 0
  timeQueue : Int64 := 0
  timeOrderbook : Int64 := 0
  deriving DecidableEq

namespace LatencyTracker

/-! ## Percentiles -/

/-- `static_cast<size_t>(std::ceil(p * n)) - 1`: from zero, subtracting one gives the
largest `size_t`. -/
def rankIndex (p : ℚ) (n : ℕ) : ℕ := if ⌈p * n⌉₊ = 0 then 2 ^ 64 - 1 else ⌈p * n⌉₊ - 1

/-- `percentile`: the value, and the vector as the call leaves it. -/
def percentile (samples : List Int64) (p : ℚ) : Int64 × List Int64 :=
  if samples.isEmpty then (0, samples)
  else
    let sorted := samples.insertionSort (· ≤ ·)
    let idx := rankIndex p sorted.length
    let idx := if sorted.length ≤ idx then sorted.length - 1 else idx
    (sorted.getD idx 0, sorted)

/-! ## Recording and reporting -/

/-- `record`. -/
def record (t : LatencyTracker) (cmd : Stamps) : LatencyTracker where
  e2eSamples := t.e2eSamples ++ [cmd.e2eLat]
  queueSamples := t.queueSamples ++ [cmd.qLat]
  matchSamples := t.matchSamples ++ [cmd.matchLat]
  networkSamples := t.networkSamples ++ [cmd.netLat]
  totalCount := t.totalCount + 1
  sumE2E := t.sumE2E + cmd.e2eLat
  minE2E := if cmd.e2eLat < t.minE2E then cmd.e2eLat else t.minE2E
  maxE2E := if cmd.e2eLat > t.maxE2E then cmd.e2eLat else t.maxE2E
  timeNetwork := t.timeNetwork + cmd.netLat
  timeQueue := t.timeQueue + cmd.qLat
  timeOrderbook := t.timeOrderbook + cmd.matchLat

/-- `reset`. -/
def reset (_ : LatencyTracker) : LatencyTracker where
  e2eSamples := []
  queueSamples := []
  matchSamples := []
  networkSamples := []
  totalCount := 0
  minE2E := Int64.maxValue
  maxE2E := 0
  sumE2E := 0
  timeNetwork := 0
  timeQueue := 0
  timeOrderbook := 0

/-- The profiling breakdown of `printStats`. -/
def breakdown (t : LatencyTracker) : Option Breakdown :=
  let totalTime := t.timeNetwork + t.timeQueue + t.timeOrderbook
  if totalTime > 0 then some ⟨t.timeNetwork, t.timeQueue, t.timeOrderbook, totalTime⟩ else none

/-- `printStats`.  The end-to-end samples are sorted three times, the others twice. -/
def printStats (t : LatencyTracker) : LatencyTracker × Report :=
  if t.totalCount = 0 then (t, .noOrders)
  else
    let p50E2E := percentile t.e2eSamples (1 / 2)
    let p95E2E := percentile p50E2E.2 (19 / 20)
    let p99E2E := percentile p95E2E.2 (99 / 100)
    let p50Queue := percentile t.queueSamples (1 / 2)
    let p99Queue := percentile p50Queue.2 (99 / 100)
    let p50Match := percentile t.matchSamples (1 / 2)
    let p99Match := percentile p50Match.2 (99 / 100)
    let p50Net := percentile t.networkSamples (1 / 2)
    let p99Net := percentile p50Net.2 (99 / 100)
    ({ t with
        e2eSamples := p99E2E.2
        queueSamples := p99Queue.2
        matchSamples := p99Match.2
        networkSamples := p99Net.2 },
      .stats
        { ordersProcessed := t.totalCount
          average := t.sumE2E / t.totalCount
          min := t.minE2E
          max := t.maxE2E
          p50 := p50E2E.1
          p95 := p95E2E.1
          p99 := p99E2E.1
          p50Net := p50Net.1
          p99Net := p99Net.1
          p50Queue := p50Queue.1
          p99Queue := p99Queue.1
          p50Match := p50Match.1
          p99Match := p99Match.1
          breakdown := t.breakdown })

/-! ## Accessors -/

def getCount (t : LatencyTracker) : Int64 := t.totalCount

def getAvgE2E (t : LatencyTracker) : Int64 :=
  if t.totalCount > 0 then t.sumE2E / t.totalCount else 0

def getMinE2E (t : LatencyTracker) : Int64 := t.minE2E

def getMaxE2E (t : LatencyTracker) : Int64 := t.maxE2E

/-- A percentile of the end-to-end samples. -/
def getPercentileE2E (p : ℚ) (t : LatencyTracker) : LatencyTracker × Int64 :=
  ({ t with e2eSamples := (percentile t.e2eSamples p).2 }, (percentile t.e2eSamples p).1)

def getP50E2E : LatencyTracker → LatencyTracker × Int64 := getPercentileE2E (1 / 2)

def getP95E2E : LatencyTracker → LatencyTracker × Int64 := getPercentileE2E (19 / 20)

def getP99E2E : LatencyTracker → LatencyTracker × Int64 := getPercentileE2E (99 / 100)

/-! ## Calls -/

/-- A call of the class. -/
inductive Call where
  | record (cmd : Stamps)
  | reset
  | printStats
  | getCount
  | getAvgE2E
  | getMinE2E
  | getMaxE2E
  | getP50E2E
  | getP95E2E
  | getP99E2E
  deriving DecidableEq

/-- The calls that are there to read, some of which sort the samples. -/
def Call.reads : Call → Bool
  | .record _ => false
  | .reset => false
  | _ => true

/-- Perform a call. -/
def call (t : LatencyTracker) : Call → LatencyTracker × List Report
  | .record cmd => (t.record cmd, [])
  | .reset => (t.reset, [])
  | .printStats => (t.printStats.1, [t.printStats.2])
  | .getCount => (t, [.value t.getCount])
  | .getAvgE2E => (t, [.value t.getAvgE2E])
  | .getMinE2E => (t, [.value t.getMinE2E])
  | .getMaxE2E => (t, [.value t.getMaxE2E])
  | .getP50E2E => (t.getP50E2E.1, [.value t.getP50E2E.2])
  | .getP95E2E => (t.getP95E2E.1, [.value t.getP95E2E.2])
  | .getP99E2E => (t.getP99E2E.1, [.value t.getP99E2E.2])

/-- The tracker as a machine that reads calls. -/
def tracker : Machine LatencyTracker Call Report := ⟨{}, call⟩

/-- The same machine, with a mark on every call that it does not look at. -/
def markedTracker : Machine LatencyTracker (Call × Bool) Report :=
  ⟨{}, fun t c => t.call c.1⟩

end LatencyTracker
end MatchingEngine
