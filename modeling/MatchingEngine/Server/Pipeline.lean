import MatchingEngine.Client.Session
import MatchingEngine.Engine.Plain
import MatchingEngine.Queue.Fifo
import MatchingEngine.Server.Framing
import MatchingEngine.Server.Shutdown
import MatchingEngine.Tracker.Basic

/-!
# The whole server

`main` and `matchingEngineThread` of `server.cpp` from the bytes of the clients to the
lines the exchange prints, one step of one thread at a time: the event loop frames the
bytes, `processLine` makes commands of the lines, the two threads go through `push` and
`pop` load by load and store by store, and the matching thread stamps, dispatches and
records what it pops.  The steady clock is part of the state, and time passes before
every step.

`pipeline` is the machine that reads a schedule.  A schedule says who takes the next
step, and what the outside world contributes: the events of an `epoll_wait`, the bytes
of every `read`, a signal.

A step emits what has happened in it.  The projections of the log (`events`, `processed`,
`calls`, `dispatched`, `printed`, `reported`) are the histories of the components.
-/

namespace MatchingEngine

variable {P : Type}

namespace Pipeline

/-! ## What arrives -/

/-- An event of `epoll_wait`, with the time that passes before every `read`. -/
inductive Arrival where
  | accept (conn fd : ℕ) (nonBlocking added : Bool)
  | ready (conn fd : ℕ) (reads : List (Str × ℕ)) (ending : Framer.Ending)

/-- The readings of the clock after the reads of an event. -/
def clocked : ℤ → List (Str × ℕ) → List (Str × ℤ)
  | _, [] => []
  | clock, (bytes, elapsed) :: reads => (bytes, clock + elapsed) :: clocked (clock + elapsed) reads

/-- The time the reads of an event take. -/
def Arrival.duration : Arrival → ℕ
  | .accept .. => 0
  | .ready _ _ reads _ => (reads.map Prod.snd).sum

/-- The event, when it is handled at some time. -/
def Arrival.event (clock : ℤ) : Arrival → Framer.EpollEvent
  | .accept conn fd nonBlocking added => .accept conn fd nonBlocking added
  | .ready conn fd reads ending => .ready conn fd (clocked clock reads) ending

/-! ## The two threads -/

/-- Where `main` stands: in its loop, over the events of an `epoll_wait`, over the lines
of a buffer, in the retry loop around `push`, and in the shutdown sequence. -/
inductive Main where
  | test
  | wait
  | events (rest : List Arrival)
  | lines (calls : List Framer.Call) (rest : List Arrival)
  | push (calls : List Framer.Call) (rest : List Arrival)
  | shutdown
  | finalCall (recvTimestamp : ℤ)
  | finalPush
  | storeRunning
  | join
  | returned

/-- Where `matchingEngineThread` stands. -/
inductive Matching (P : Type) where
  | test
  | pop
  | popped (cmd : Command P)
  | processStart (cmd : Command P)
  | dispatch (cmd : Command P)
  | matchComplete (cmd : Command P)
  | returned

/-- Who takes the next step.  `arrive` ends an `epoll_wait` with events, `epollError` with
an error.  `main` brings along what the system clock shows. -/
inductive Turn where
  | signal
  | main (systemClock : ℤ)
  | arrive (batch : List Arrival)
  | epollError
  | matching

/-- A step, after some time. -/
structure Action where
  elapsed : ℕ
  turn : Turn

/-- What has happened: an event has been handled; `processLine` has been called; a call
of the queue has returned; a command has been dispatched; the exchange has printed a
line; a call of the tracker has been made and has reported something. -/
inductive Happened (P : Type) where
  | event (e : Framer.EpollEvent)
  | processed (l : Line)
  | notice (n : Notice)
  | queue (r : Returned (Command P))
  | dispatched (cmd : Command P)
  | printed (e : Event P)
  | tracked (c : LatencyTracker.Call)
  | reported (r : Report)

/-- The clock readings a command carries to the tracker. -/
def stamps (cmd : Command P) : Stamps where
  tsNetworkRecv := Int64.ofInt cmd.tsNetworkRecv
  tsQueuePush := Int64.ofInt cmd.tsQueuePush
  tsQueuePop := Int64.ofInt cmd.tsQueuePop
  tsProcessStart := Int64.ofInt cmd.tsProcessStart
  tsMatchComplete := Int64.ofInt cmd.tsMatchComplete

end Pipeline

/-- The shared state, and what each of the two threads owns. -/
structure Pipeline (P : Type) [LinearOrder P] where
  clock : ℤ
  running : Bool
  /-- The ring, and where the two threads stand in `push` and in `pop`. -/
  spscQueue : SPSCQueue.Threads (Command P)
  main : Pipeline.Main
  clientBuffers : Framer.Buffers
  nextOrderId : UInt64
  matching : Pipeline.Matching P
  exchange : Exchange P
  tracker : LatencyTracker

variable [Zero P] [LinearOrder P]

namespace Pipeline

/-! ## The steps -/

/-- A step inside a call of the queue. -/
def queueStep (s : Pipeline P) (t : SPSCQueue.Turn (Command P)) :
    Pipeline P × List (Happened P) :=
  ({ s with spscQueue := (SPSCQueue.turn 1024 s.spscQueue t).1 },
    (SPSCQueue.turn 1024 s.spscQueue t).2.map .queue)

/-- `processLine` up to the push. -/
def lineStep (toDouble : ℚ → Option P) (s : Pipeline P) (l : Line) (calls : List Framer.Call)
    (rest : List Arrival) : Pipeline P × List (Happened P) :=
  let p := processLine toDouble l s.nextOrderId
  let s := { s with nextOrderId := p.nextOrderId }
  match p.pushed with
  | none => ({ s with main := .lines calls rest }, .processed l :: p.notice.toList.map .notice)
  | some cmd =>
    ({ s with
        spscQueue := (SPSCQueue.turn 1024 s.spscQueue (.call cmd)).1
        main := .push calls rest }, .processed l :: p.notice.toList.map .notice)

/-- A step of `main`. -/
def mainStep (toDouble : ℚ → Option P) (memory : Command P) (systemClock : ℤ) (s : Pipeline P) :
    Pipeline P × List (Happened P) :=
  match s.main with
  | .test => ({ s with main := if s.running then .wait else .shutdown }, [])
  | .wait => (s, [])
  | .events [] => ({ s with main := .test }, [])
  | .events (a :: rest) =>
    let r := Framer.step s.clientBuffers (a.event s.clock)
    ({ s with
        clock := s.clock + a.duration
        clientBuffers := r.1
        main := .lines r.2 rest }, [.event (a.event s.clock)])
  | .lines [] rest => ({ s with main := .events rest }, [])
  | .lines (c :: calls) rest =>
    lineStep toDouble s ⟨c.line, c.recvTimestamp, systemClock, s.clock⟩ calls rest
  | .push calls rest =>
    -- `while (!spscQueue.push(cmd))`
    match s.spscQueue.producer with
    | .idle => ({ s with main := .lines calls rest }, [])
    | _ => queueStep s .producer
  | .shutdown => ({ s with main := .finalCall s.clock }, [])
  | .finalCall recvTimestamp =>
    ({ s with
        spscQueue := (SPSCQueue.turn 1024 s.spscQueue
          (.call (shutdownCmd memory recvTimestamp s.clock))).1
        main := .finalPush }, [])
  | .finalPush =>
    match s.spscQueue.producer with
    | .idle => ({ s with main := .storeRunning }, [])
    | .failed _ =>
      ({ s with
          spscQueue := (SPSCQueue.turn 1024 s.spscQueue .giveUp).1
          main := .storeRunning }, [])
    | _ => queueStep s .producer
  | .storeRunning => ({ s with running := false, main := .join }, [])
  | .join =>
    match s.matching with
    | .returned => ({ s with main := .returned }, [])
    | _ => (s, [])
  | .returned => (s, [])

/-- What the return of a `pop` means for `matchingEngineThread`. -/
def afterPop : List (Returned (Command P)) → Matching P
  | [.pop none] => .test
  | [.pop (some cmd)] => .popped cmd
  | _ => .pop

/-- A step of `matchingEngineThread`. -/
def matchingStep (s : Pipeline P) : Pipeline P × List (Happened P) :=
  match s.matching with
  | .test => ({ s with matching := if s.running then .pop else .returned }, [])
  | .pop =>
    let r := queueStep s .consumer
    ({ r.1 with matching := afterPop (SPSCQueue.turn 1024 s.spscQueue .consumer).2 }, r.2)
  | .popped cmd =>
    let cmd := { cmd with tsQueuePop := s.clock }
    if cmd.type = .stats then
      ({ s with tracker := s.tracker.printStats.1, matching := .test },
        [.dispatched cmd, .tracked .printStats, .reported s.tracker.printStats.2] ++
          s.exchange.printStats.map .printed)
    else ({ s with matching := .processStart cmd }, [])
  | .processStart cmd =>
    ({ s with matching := .dispatch { cmd with tsProcessStart := s.clock } }, [])
  | .dispatch cmd =>
    let r := MatchingEngine.dispatch s.exchange cmd
    ({ s with
        exchange := r.1
        matching := if cmd.type = .book then .test else .matchComplete cmd },
      .dispatched cmd :: r.2.map .printed)
  | .matchComplete cmd =>
    let cmd := { cmd with tsMatchComplete := s.clock }
    ({ s with tracker := s.tracker.record (stamps cmd), matching := .test },
      [.tracked (.record (stamps cmd))])
  | .returned => (s, [])

/-- A step of somebody. -/
def turnStep (toDouble : ℚ → Option P) (memory : Command P) (s : Pipeline P) :
    Turn → Pipeline P × List (Happened P)
  | .signal => ({ s with running := false }, [])
  | .main systemClock => mainStep toDouble memory systemClock s
  | .arrive batch =>
    match s.main with
    | .wait => ({ s with main := .events batch }, [])
    | _ => (s, [])
  | .epollError =>
    match s.main with
    | .wait => ({ s with main := .shutdown }, [])
    | _ => (s, [])
  | .matching => matchingStep s

/-- Some time, then a step. -/
def step (toDouble : ℚ → Option P) (memory : Command P) (s : Pipeline P) (a : Action) :
    Pipeline P × List (Happened P) :=
  turnStep toDouble memory { s with clock := s.clock + a.elapsed } a.turn

end Pipeline

/-- The server as a machine that reads a schedule.  It starts at the time `boot`; what is
in the array of the ring and in the memory of the last command is arbitrary. -/
def pipeline (toDouble : ℚ → Option P) (memory : Command P) (buffer : ℕ → Command P) (boot : ℤ) :
    Machine (Pipeline P) Pipeline.Action (Pipeline.Happened P) where
  init :=
    { clock := boot
      running := true
      spscQueue := ⟨SPSCQueue.new buffer, .idle, .loadHead⟩
      main := .test
      clientBuffers := ∅
      nextOrderId := 1
      matching := .test
      exchange := Exchange.empty
      tracker := {} }
  step := Pipeline.step toDouble memory

end MatchingEngine
