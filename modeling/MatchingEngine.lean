import MatchingEngine.Lib.Loop
import MatchingEngine.Lib.Machine
import MatchingEngine.Lib.Fairness
import MatchingEngine.Lib.OrderedMap
import MatchingEngine.Lib.LevelMap
import MatchingEngine.Lib.Ring
import MatchingEngine.Lib.Wrapping
import MatchingEngine.Lib.OrderStatistics
import MatchingEngine.Lib.Extraction
import MatchingEngine.Lib.Words
import MatchingEngine.Lib.Numeral
import MatchingEngine.Lib.Segments
import MatchingEngine.Order
import MatchingEngine.OrderBook.Basic
import MatchingEngine.OrderBook.Resting
import MatchingEngine.OrderBook.Linked
import MatchingEngine.OrderBook.Operations
import MatchingEngine.OrderBook.Termination
import MatchingEngine.OrderBook.Queues
import MatchingEngine.OrderBook.Depth
import MatchingEngine.OrderBook.Ladder
import MatchingEngine.OrderBook.Quantity
import MatchingEngine.OrderBook.Sweep
import MatchingEngine.OrderBook.Mirror
import MatchingEngine.Exchange.Basic
import MatchingEngine.Exchange.Invariant
import MatchingEngine.Exchange.Routing
import MatchingEngine.Exchange.Modify
import MatchingEngine.OrderBook.Units
import MatchingEngine.OrderBook.Accounts
import MatchingEngine.OrderBook.Plain
import MatchingEngine.OrderBook.Refinement
import MatchingEngine.Exchange.Plain
import MatchingEngine.Engine.Dispatch
import MatchingEngine.Engine.Crossing
import MatchingEngine.Engine.TradePrice
import MatchingEngine.Engine.Entries
import MatchingEngine.Engine.Ledger
import MatchingEngine.Engine.Independence
import MatchingEngine.Engine.Finished
import MatchingEngine.Engine.Priority
import MatchingEngine.Engine.Mirror
import MatchingEngine.Engine.Plain
import MatchingEngine.Engine.Silent
import MatchingEngine.Engine.Relabelling
import MatchingEngine.Engine.Population
import MatchingEngine.Client.Line
import MatchingEngine.Client.Grammar
import MatchingEngine.Client.Session
import MatchingEngine.Client.Quantities
import MatchingEngine.Client.Depth
import MatchingEngine.Client.Symbols
import MatchingEngine.Client.RoundTrip
import MatchingEngine.Queue.SPSCQueue
import MatchingEngine.Queue.Fifo
import MatchingEngine.Queue.Linearization
import MatchingEngine.Queue.MutexQueue
import MatchingEngine.Server.Shutdown
import MatchingEngine.Server.Wedge
import MatchingEngine.Server.Framing
import MatchingEngine.Tracker.Basic
import MatchingEngine.Tracker.Percentile
import MatchingEngine.Tracker.Reports
import MatchingEngine.Tracker.Consistency
import MatchingEngine.Queue.QueueType
import MatchingEngine.Queue.Progress
import MatchingEngine.Server.Pipeline
import MatchingEngine.Server.Feeds
import MatchingEngine.Server.Arrivals
import MatchingEngine.Server.Serial
import MatchingEngine.Server.Stamps
import MatchingEngine.Server.Progress
import MatchingEngine.Server.Safety
import MatchingEngine.Benchmark.Basic
import MatchingEngine.Benchmark.Work
import MatchingEngine.Benchmark.Progress
import MatchingEngine.Benchmark.Starvation
import MatchingEngine.Lib.WeakMemory
import MatchingEngine.Queue.DataRaces
import MatchingEngine.Queue.Sequential
import MatchingEngine.Queue.SequentialConsistency
import MatchingEngine.Benchmark.DataRaces
