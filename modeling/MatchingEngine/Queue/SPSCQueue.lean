import MatchingEngine.Lib.Machine
import MatchingEngine.Lib.Ring

/-!
# The single-producer single-consumer queue

The class `SPSCQueue` of `spsc_queue.h`, twice: `push` and `pop` as whole calls,
and the same two functions taken apart into their loads, tests and stores, one
step of one thread at a time (`threads`).  The machine `threads` reads a schedule,
and its schedules are all the interleavings of a producer and a consumer.

The class `MutexQueue` of `mutex_queue.h` is an unbounded queue under a lock: its
calls are single steps.

The array of a `SPSCQueue` is a function on all numbers, of which the class uses
those below `Capacity`.
-/

namespace MatchingEngine

variable {T : Type}

/-- `class SPSCQueue`: the array, the read index and the write index. -/
structure SPSCQueue (T : Type) where
  buffer : ℕ → T
  head : ℕ
  tail : ℕ

namespace SPSCQueue

/-- A queue as it is constructed, over whatever the array holds. -/
def new (buffer : ℕ → T) : SPSCQueue T := ⟨buffer, 0, 0⟩

/-! ## Whole calls -/

/-- `push`. -/
def push (Capacity : ℕ) (q : SPSCQueue T) (item : T) : SPSCQueue T × Bool :=
  let currentTail := q.tail
  let currentHead := q.head
  if (currentTail + 1) % Capacity = currentHead then (q, false)
  else
    ({ q with
        buffer := Function.update q.buffer currentTail item
        tail := (currentTail + 1) % Capacity }, true)

/-- `pop`: the item, or nothing where the source returns `false`. -/
def pop (Capacity : ℕ) (q : SPSCQueue T) : SPSCQueue T × Option T :=
  let currentHead := q.head
  let currentTail := q.tail
  if currentHead = currentTail then (q, none)
  else ({ q with head := (currentHead + 1) % Capacity }, some (q.buffer currentHead))

end SPSCQueue

/-- `class MutexQueue`. -/
structure MutexQueue (T : Type) where
  queue : List T

namespace MutexQueue

/-- A queue as it is constructed. -/
def new : MutexQueue T := ⟨[]⟩

/-- `push`. -/
def push (q : MutexQueue T) (item : T) : MutexQueue T × Bool := (⟨q.queue ++ [item]⟩, true)

/-- `pop`. -/
def pop (q : MutexQueue T) : MutexQueue T × Option T :=
  match q.queue with
  | [] => (q, none)
  | item :: rest => (⟨rest⟩, some item)

end MutexQueue

/-- A call of a queue. -/
inductive Call (T : Type) where
  | push (item : T)
  | pop

/-- What a call returns. -/
inductive Returned (T : Type) where
  | push (item : T) (ok : Bool)
  | pop (item : Option T)
  deriving DecidableEq

/-- Perform a call. -/
def SPSCQueue.call (Capacity : ℕ) (q : SPSCQueue T) : Call T → SPSCQueue T × List (Returned T)
  | .push item => ((q.push Capacity item).1, [.push item (q.push Capacity item).2])
  | .pop => ((q.pop Capacity).1, [.pop (q.pop Capacity).2])

/-- The ring as a machine that reads whole calls. -/
def SPSCQueue.calls (Capacity : ℕ) (buffer : ℕ → T) :
    Machine (SPSCQueue T) (Call T) (Returned T) :=
  ⟨SPSCQueue.new buffer, SPSCQueue.call Capacity⟩

/-- Perform a call. -/
def MutexQueue.call (q : MutexQueue T) : Call T → MutexQueue T × List (Returned T)
  | .push item => ((q.push item).1, [.push item (q.push item).2])
  | .pop => (q.pop.1, [.pop q.pop.2])

/-- The locked queue as a machine that reads whole calls. -/
def MutexQueue.calls : Machine (MutexQueue T) (Call T) (Returned T) :=
  ⟨MutexQueue.new, MutexQueue.call⟩

/-! ## One step of one thread -/

namespace SPSCQueue

/-- Where the producer stands in `push`.  After a call that returned `false` it
still holds the item. -/
inductive Producer (T : Type) where
  | idle
  | loadTail (item : T)
  | loadHead (item : T) (currentTail : ℕ)
  | test (item : T) (currentTail currentHead : ℕ)
  | write (item : T) (currentTail : ℕ)
  | store (item : T) (currentTail : ℕ)
  | failed (item : T)

/-- Where the consumer stands in `pop`.  It calls again and again. -/
inductive Consumer (T : Type) where
  | loadHead
  | loadTail (currentHead : ℕ)
  | test (currentHead currentTail : ℕ)
  | read (currentHead : ℕ)
  | store (currentHead : ℕ) (item : T)

/-- The queue and its two threads. -/
structure Threads (T : Type) where
  queue : SPSCQueue T
  producer : Producer T
  consumer : Consumer T

/-- Who takes the next step.  `call` starts a push; after a push that failed the
producer's next step tries again, and `giveUp` drops the item instead. -/
inductive Turn (T : Type) where
  | call (item : T)
  | producer
  | giveUp
  | consumer

/-- A step of `push`. -/
def producerStep (Capacity : ℕ) (s : Threads T) : Threads T × List (Returned T) :=
  match s.producer with
  | .idle => (s, [])
  | .loadTail item => ({ s with producer := .loadHead item s.queue.tail }, [])
  | .loadHead item currentTail =>
    ({ s with producer := .test item currentTail s.queue.head }, [])
  | .test item currentTail currentHead =>
    if (currentTail + 1) % Capacity = currentHead then
      ({ s with producer := .failed item }, [.push item false])
    else ({ s with producer := .write item currentTail }, [])
  | .write item currentTail =>
    ({ s with
        queue := { s.queue with buffer := Function.update s.queue.buffer currentTail item }
        producer := .store item currentTail }, [])
  | .store item currentTail =>
    ({ s with
        queue := { s.queue with tail := (currentTail + 1) % Capacity }
        producer := .idle }, [.push item true])
  | .failed item => ({ s with producer := .loadTail item }, [])

/-- A step of `pop`. -/
def consumerStep (Capacity : ℕ) (s : Threads T) : Threads T × List (Returned T) :=
  match s.consumer with
  | .loadHead => ({ s with consumer := .loadTail s.queue.head }, [])
  | .loadTail currentHead => ({ s with consumer := .test currentHead s.queue.tail }, [])
  | .test currentHead currentTail =>
    if currentHead = currentTail then ({ s with consumer := .loadHead }, [.pop none])
    else ({ s with consumer := .read currentHead }, [])
  | .read currentHead =>
    ({ s with consumer := .store currentHead (s.queue.buffer currentHead) }, [])
  | .store currentHead item =>
    ({ s with
        queue := { s.queue with head := (currentHead + 1) % Capacity }
        consumer := .loadHead }, [.pop (some item)])

/-- One step of the two threads. -/
def turn (Capacity : ℕ) (s : Threads T) : Turn T → Threads T × List (Returned T)
  | .call item =>
    match s.producer with
    | .idle => ({ s with producer := .loadTail item }, [])
    | _ => (s, [])
  | .producer => producerStep Capacity s
  | .giveUp =>
    match s.producer with
    | .failed _ => ({ s with producer := .idle }, [])
    | _ => (s, [])
  | .consumer => consumerStep Capacity s

/-- The two threads as a machine that reads a schedule. -/
def threads (Capacity : ℕ) (buffer : ℕ → T) : Machine (Threads T) (Turn T) (Returned T) :=
  ⟨⟨new buffer, .idle, .loadHead⟩, turn Capacity⟩

end SPSCQueue

/-! ## Histories -/

/-- The items whose push has returned `true`. -/
def pushed (log : List (Returned T)) : List T :=
  log.filterMap fun r => match r with
    | .push item true => some item
    | _ => none

/-- The items that pops have returned. -/
def popped (log : List (Returned T)) : List T :=
  log.filterMap fun r => match r with
    | .pop item => item
    | _ => none

/-- What the pops have returned, call by call. -/
def popResults (log : List (Returned T)) : List (Option T) :=
  log.filterMap fun r => match r with
    | .pop item => some item
    | _ => none

theorem pushed_append (log log' : List (Returned T)) :
    pushed (log ++ log') = pushed log ++ pushed log' :=
  List.filterMap_append

theorem popped_append (log log' : List (Returned T)) :
    popped (log ++ log') = popped log ++ popped log' :=
  List.filterMap_append

theorem popResults_append (log log' : List (Returned T)) :
    popResults (log ++ log') = popResults log ++ popResults log' :=
  List.filterMap_append

end MatchingEngine
