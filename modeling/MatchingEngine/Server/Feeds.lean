import MatchingEngine.Server.Pipeline
import MatchingEngine.Queue.QueueType

/-!
# What the server has done

The histories of the components of `pipeline` are projections of its log, and an
invariant says how they hang together.

* `Feeds`: the lines processed are those the framer has found, and what has been pushed
  is what `processLine` makes of them, but for the command in the producer's hands and
  the last `STATS`.
* `SPSCQueue.Inv`: what has been popped is the first part of what has been pushed.
* `Drains`: what has been popped has been dispatched in that order, but for the command
  the matching thread is working on.

Each thread touches one of the two ends (`mainStep_frame`, `matchingStep_frame`).  Here
`main` keeps up its end (`Feeds.mainStep`).
-/

namespace MatchingEngine

variable {P : Type}

namespace Pipeline

open SPSCQueue (turn)

/-! ## Histories -/

/-- The events that have been handled. -/
def events (log : List (Happened P)) : List Framer.EpollEvent :=
  log.filterMap fun h => match h with
    | .event e => some e
    | _ => none

/-- The lines that have been processed. -/
def processed (log : List (Happened P)) : List Line :=
  log.filterMap fun h => match h with
    | .processed l => some l
    | _ => none

/-- The calls of the queue that have returned. -/
def calls (log : List (Happened P)) : List (Returned (Command P)) :=
  log.filterMap fun h => match h with
    | .queue r => some r
    | _ => none

/-- The commands that have been dispatched. -/
def dispatched (log : List (Happened P)) : List (Command P) :=
  log.filterMap fun h => match h with
    | .dispatched cmd => some cmd
    | _ => none

/-- The lines the exchange has printed. -/
def printed (log : List (Happened P)) : List (Event P) :=
  log.filterMap fun h => match h with
    | .printed e => some e
    | _ => none

/-- The calls of the tracker. -/
def tracked (log : List (Happened P)) : List LatencyTracker.Call :=
  log.filterMap fun h => match h with
    | .tracked c => some c
    | _ => none

/-- What the tracker has reported. -/
def reported (log : List (Happened P)) : List Report :=
  log.filterMap fun h => match h with
    | .reported r => some r
    | _ => none

section Append

variable (log log' : List (Happened P))

theorem events_append : events (log ++ log') = events log ++ events log' := List.filterMap_append

theorem processed_append : processed (log ++ log') = processed log ++ processed log' :=
  List.filterMap_append

theorem calls_append : calls (log ++ log') = calls log ++ calls log' := List.filterMap_append

theorem dispatched_append : dispatched (log ++ log') = dispatched log ++ dispatched log' :=
  List.filterMap_append

theorem printed_append : printed (log ++ log') = printed log ++ printed log' :=
  List.filterMap_append

theorem tracked_append : tracked (log ++ log') = tracked log ++ tracked log' :=
  List.filterMap_append

theorem reported_append : reported (log ++ log') = reported log ++ reported log' :=
  List.filterMap_append

end Append

/-- What the queue returns belongs to its history, and to no other. -/
theorem calls_map_queue (l : List (Returned (Command P))) :
    calls (l.map Happened.queue) = l := by
  rw [calls, List.filterMap_map]
  exact List.filterMap_some

theorem printed_map_printed (l : List (Event P)) : printed (l.map Happened.printed) = l := by
  rw [printed, List.filterMap_map]
  exact List.filterMap_some

/-- A history that a list of outputs says nothing of. -/
theorem filterMap_map_none {α β : Type*} {f : Happened P → Option β} {g : α → Happened P}
    (h : ∀ a, f (g a) = none) (l : List α) : (l.map g).filterMap f = [] := by
  rw [List.filterMap_map, List.filterMap_eq_nil_iff]
  exact fun a _ => h a

/-! ## What the threads work on -/

/-- The calls of `processLine` that are still to be made for the buffer at hand. -/
def Main.calls : Main → List Framer.Call
  | .lines calls _ => calls
  | .push calls _ => calls
  | _ => []

/-- `main` is inside a call of `push`. -/
def Main.Pushing : Main → Prop
  | .push .. => True
  | .finalPush => True
  | _ => False

/-- `main` has made its last command. -/
def Main.Closing : Main → Prop
  | .finalPush => True
  | .storeRunning => True
  | .join => True
  | .returned => True
  | _ => False

/-- What `main` has pushed, or tried to, besides the commands of the lines. -/
def Main.Last (m : Main) (last : List (Command P)) : Prop :=
  (last = [] ∧ m ≠ .finalPush) ∨ (m.Closing ∧ ∃ cmd : Command P, last = [cmd] ∧ cmd.type = .stats)

/-- The command that has been popped and not been dispatched. -/
def Matching.inHand : Matching P → List (Command P)
  | .popped cmd => [cmd]
  | .processStart cmd => [cmd]
  | .dispatch cmd => [cmd]
  | _ => []

/-- The command without the clock readings of the matching thread. -/
def untimed (cmd : Command P) : Command P :=
  { cmd with tsQueuePop := 0, tsProcessStart := 0, tsMatchComplete := 0 }

/-- The call of `processLine` behind a line. -/
def callOf (l : Line) : Framer.Call := ⟨l.text, l.recvTimestamp⟩

variable [Zero P] [LinearOrder P] {toDouble : ℚ → Option P} {memory : Command P}

/-! ## The invariant -/

/-- What `main` has done: the lines are those of the framer, and what it has pushed is
what `processLine` has made of them, but for the command in its hands and the last
`STATS`. -/
structure Feeds (toDouble : ℚ → Option P) (log : List (Happened P)) (s : Pipeline P) : Prop where
  buffers : s.clientBuffers = framer.run (events log)
  framed : framer.log (events log) = (processed log).map callOf ++ s.main.calls
  nextOrderId : s.nextOrderId = nextIdAfter toDouble (processed log)
  idle : ¬ s.main.Pushing → s.spscQueue.producer = .idle
  offered : ∃ last, pushed (calls log) ++ s.spscQueue.producer.holding =
    commandsOf toDouble (processed log) ++ last ∧ s.main.Last last

/-- What the matching thread has done: it has dispatched what it has popped, and the
exchange and the tracker are where their histories lead. -/
structure Drains (log : List (Happened P)) (s : Pipeline P) : Prop where
  order : (popped (calls log)).map untimed = (dispatched log ++ s.matching.inHand).map untimed
  exchange : s.exchange = engine.run (dispatched log)
  printed : printed log = engine.log (dispatched log)
  tracker : s.tracker = LatencyTracker.tracker.run (tracked log)
  reported : reported log = LatencyTracker.tracker.log (tracked log)

/-- What holds at every moment. -/
structure Inv (toDouble : ℚ → Option P) (log : List (Happened P)) (s : Pipeline P) : Prop where
  feeds : Feeds toDouble log s
  ring : SPSCQueue.Inv 1024 (calls log) s.spscQueue
  drains : Drains log s

/-! ## Each thread keeps to its end -/

/-- What happens at the end of the matching thread is not the doing of `main`. -/
structure Frame (s s' : Pipeline P) (out : List (Happened P)) : Prop where
  matching : s'.matching = s.matching
  consumer : s'.spscQueue.consumer = s.spscQueue.consumer
  running : s.running = false → s'.running = false
  exchange : s'.exchange = s.exchange
  tracker : s'.tracker = s.tracker
  popped : popped (calls out) = []
  dispatched : dispatched out = []
  printed : Pipeline.printed out = []
  tracked : tracked out = []
  reported : reported out = []

omit [Zero P] in
/-- A step of `main` leaves what the matching thread has done. -/
theorem Drains.frame {log out : List (Happened P)} {s s' : Pipeline P} (h : Drains log s)
    (hf : Frame s s' out) : Drains (log ++ out) s' where
  order := by
    rw [calls_append, popped_append, hf.popped, dispatched_append, hf.dispatched, hf.matching,
      List.append_nil, List.append_nil]
    exact h.order
  exchange := by
    rw [dispatched_append, hf.dispatched, List.append_nil, hf.exchange]
    exact h.exchange
  printed := by
    rw [printed_append, hf.printed, dispatched_append, hf.dispatched, List.append_nil,
      List.append_nil]
    exact h.printed
  tracker := by
    rw [tracked_append, hf.tracked, List.append_nil, hf.tracker]
    exact h.tracker
  reported := by
    rw [reported_append, hf.reported, tracked_append, hf.tracked, List.append_nil,
      List.append_nil]
    exact h.reported

omit [Zero P] in
/-- A step that emits nothing. -/
theorem frame_silent {s s' : Pipeline P} (hmatching : s'.matching = s.matching)
    (hconsumer : s'.spscQueue.consumer = s.spscQueue.consumer)
    (hrunning : s.running = false → s'.running = false) (hexchange : s'.exchange = s.exchange)
    (htracker : s'.tracker = s.tracker) : Frame s s' [] :=
  ⟨hmatching, hconsumer, hrunning, hexchange, htracker, rfl, rfl, rfl, rfl, rfl⟩

omit [Zero P] in
/-- A step inside a push is seen in the history of the queue only. -/
theorem frame_producer (s : Pipeline P) :
    Frame s (queueStep s .producer).1 (queueStep s .producer).2 where
  matching := rfl
  consumer := SPSCQueue.turn_consumer 1024 s.spscQueue (fun heq => nomatch heq)
  running := id
  exchange := rfl
  tracker := rfl
  popped := by
    rw [queueStep, calls_map_queue]
    exact (SPSCQueue.producerStep_spec 1024 s.spscQueue).2.1
  dispatched := filterMap_map_none (fun _ => rfl) _
  printed := filterMap_map_none (fun _ => rfl) _
  tracked := filterMap_map_none (fun _ => rfl) _
  reported := filterMap_map_none (fun _ => rfl) _

/-- **A step of `main`** leaves the end of the matching thread. -/
theorem mainStep_frame (systemClock : ℤ) (s : Pipeline P) :
    Frame s (mainStep toDouble memory systemClock s).1
      (mainStep toDouble memory systemClock s).2 := by
  have hcall : ∀ cmd, (turn 1024 s.spscQueue (.call cmd)).1.consumer = s.spscQueue.consumer :=
    fun cmd => SPSCQueue.turn_consumer 1024 s.spscQueue (fun heq => nomatch heq)
  rw [mainStep]
  cases s.main with
  | events rest =>
    cases rest with
    | nil => exact frame_silent rfl rfl id rfl rfl
    | cons a rest => exact ⟨rfl, rfl, id, rfl, rfl, rfl, rfl, rfl, rfl, rfl⟩
  | lines calls rest =>
    cases calls with
    | nil => exact frame_silent rfl rfl id rfl rfl
    | cons c calls =>
      simp only [lineStep]
      cases processLine toDouble ⟨c.line, c.recvTimestamp, systemClock, s.clock⟩ s.nextOrderId with
      | mk pushed nextOrderId notice =>
        cases pushed with
        | none => cases notice <;> exact ⟨rfl, rfl, id, rfl, rfl, rfl, rfl, rfl, rfl, rfl⟩
        | some cmd =>
          cases notice <;> exact ⟨rfl, hcall cmd, id, rfl, rfl, rfl, rfl, rfl, rfl, rfl⟩
  | push calls rest =>
    simp only
    split
    · exact frame_silent rfl rfl id rfl rfl
    · exact frame_producer s
  | finalCall recvTimestamp => exact frame_silent rfl (hcall _) id rfl rfl
  | finalPush =>
    simp only
    split
    · exact frame_silent rfl rfl id rfl rfl
    · exact frame_silent rfl (SPSCQueue.turn_consumer 1024 s.spscQueue (fun heq => nomatch heq)) id
        rfl rfl
    · exact frame_producer s
  | storeRunning => exact frame_silent rfl rfl (fun _ => rfl) rfl rfl
  | join =>
    simp only
    split <;> exact frame_silent rfl rfl id rfl rfl
  | _ => exact frame_silent rfl rfl id rfl rfl

/-- What happens at the end of `main` is not the doing of the matching thread. -/
structure MainFrame (s s' : Pipeline P) (out : List (Happened P)) : Prop where
  main : s'.main = s.main
  clientBuffers : s'.clientBuffers = s.clientBuffers
  nextOrderId : s'.nextOrderId = s.nextOrderId
  producer : s'.spscQueue.producer = s.spscQueue.producer
  events : events out = []
  processed : processed out = []
  pushed : pushed (calls out) = []

/-- A step of the matching thread leaves what `main` has done. -/
theorem Feeds.frame {log out : List (Happened P)} {s s' : Pipeline P} (h : Feeds toDouble log s)
    (hf : MainFrame s s' out) : Feeds toDouble (log ++ out) s' where
  buffers := by
    rw [events_append, hf.events, List.append_nil, hf.clientBuffers]
    exact h.buffers
  framed := by
    rw [events_append, hf.events, processed_append, hf.processed, List.append_nil,
      List.append_nil, hf.main]
    exact h.framed
  nextOrderId := by
    rw [processed_append, hf.processed, List.append_nil, hf.nextOrderId]
    exact h.nextOrderId
  idle := by
    rw [hf.main, hf.producer]
    exact h.idle
  offered := by
    rw [calls_append, pushed_append, hf.pushed, processed_append, hf.processed, List.append_nil,
      List.append_nil, hf.main, hf.producer]
    exact h.offered

omit [Zero P] in
/-- **A step of the matching thread** leaves the end of `main`. -/
theorem matchingStep_frame (s : Pipeline P) :
    MainFrame s (matchingStep s).1 (matchingStep s).2 := by
  have hprint : ∀ l : List (Event P), Pipeline.events (l.map Happened.printed) = [] ∧
      Pipeline.processed (l.map Happened.printed) = [] ∧
      MatchingEngine.pushed (calls (l.map Happened.printed)) = [] := by
    intro l
    refine ⟨filterMap_map_none (fun _ => rfl) l, filterMap_map_none (fun _ => rfl) l, ?_⟩
    rw [calls, filterMap_map_none (fun _ => rfl) l]
    rfl
  rw [matchingStep]
  cases s.matching with
  | pop =>
    obtain ⟨hproducer, hout⟩ := SPSCQueue.consumerStep_spec 1024 s.spscQueue
    refine ⟨rfl, rfl, rfl, hproducer, filterMap_map_none (fun _ => rfl) _,
      filterMap_map_none (fun _ => rfl) _, ?_⟩
    simp only [queueStep, calls_map_queue, turn]
    rcases hout with hout | ⟨item, hout, -⟩ <;> rw [hout] <;> rfl
  | popped cmd =>
    simp only
    split
    · obtain ⟨h₁, h₂, h₃⟩ := hprint s.exchange.printStats
      exact ⟨rfl, rfl, rfl, rfl, h₁, h₂, h₃⟩
    · exact ⟨rfl, rfl, rfl, rfl, rfl, rfl, rfl⟩
  | dispatch cmd =>
    obtain ⟨h₁, h₂, h₃⟩ := hprint (MatchingEngine.dispatch s.exchange cmd).2
    exact ⟨rfl, rfl, rfl, rfl, h₁, h₂, h₃⟩
  | _ => exact ⟨rfl, rfl, rfl, rfl, rfl, rfl, rfl⟩

/-! ## The end of `main` -/

/-- Going from one place to another, outside of a push, with the same calls to make. -/
theorem Feeds.moves {log : List (Happened P)} {s : Pipeline P} (h : Feeds toDouble log s)
    {s' : Pipeline P} (hbuffers : s'.clientBuffers = s.clientBuffers)
    (hid : s'.nextOrderId = s.nextOrderId) (hqueue : s'.spscQueue = s.spscQueue)
    (hcalls : s'.main.calls = s.main.calls) (hidle : s.spscQueue.producer = .idle)
    (hlast : ∀ last : List (Command P), s.main.Last last → s'.main.Last last) :
    Feeds toDouble (log ++ []) s' := by
  rw [List.append_nil]
  obtain ⟨last, hoffered, hl⟩ := h.offered
  exact ⟨hbuffers.trans h.buffers, by rw [hcalls]; exact h.framed, hid.trans h.nextOrderId,
    fun _ => by rw [hqueue]; exact hidle, last, by rw [hqueue]; exact hoffered, hlast last hl⟩

omit [Zero P] in
/-- What a step inside a push emits. -/
theorem queueStep_log (s : Pipeline P) (t : SPSCQueue.Turn (Command P)) :
    events (queueStep s t).2 = [] ∧ processed (queueStep s t).2 = [] ∧
      calls (queueStep s t).2 = (turn 1024 s.spscQueue t).2 :=
  ⟨filterMap_map_none (fun _ => rfl) _, filterMap_map_none (fun _ => rfl) _, calls_map_queue _⟩

/-- A step inside a push keeps the command in hand, or has pushed it. -/
theorem Feeds.producerStep {log : List (Happened P)} {s : Pipeline P} (h : Feeds toDouble log s)
    (hpush : s.main.Pushing) :
    Feeds toDouble (log ++ (queueStep s .producer).2) (queueStep s .producer).1 := by
  obtain ⟨hevents, hprocessed, hcalls⟩ := queueStep_log s .producer
  have hspec := (SPSCQueue.producerStep_spec 1024 s.spscQueue).2.2
  refine ⟨?_, ?_, ?_, fun hnot => absurd hpush hnot, ?_⟩
  · rw [events_append, hevents, List.append_nil]
    exact h.buffers
  · rw [events_append, hevents, processed_append, hprocessed, List.append_nil, List.append_nil]
    exact h.framed
  · rw [processed_append, hprocessed, List.append_nil]
    exact h.nextOrderId
  · rw [calls_append, pushed_append, hcalls, processed_append, hprocessed, List.append_nil,
      List.append_assoc]
    obtain ⟨last, hoffered, hlast⟩ := h.offered
    exact ⟨last, (congrArg _ hspec).trans hoffered, hlast⟩

/-- **Handling an event** brings the calls the framer makes of it. -/
theorem Feeds.event {log : List (Happened P)} {s : Pipeline P} (h : Feeds toDouble log s)
    (hpc : s.main.calls = []) (hidle : s.spscQueue.producer = .idle)
    (hlast : ∀ last : List (Command P), s.main.Last last → last = []) (e : Framer.EpollEvent)
    (clock : ℤ) (rest : List Arrival) :
    Feeds toDouble (log ++ [.event e])
      { s with
        clock := clock
        clientBuffers := (Framer.step s.clientBuffers e).1
        main := .lines (Framer.step s.clientBuffers e).2 rest } := by
  have hevents : events (log ++ [.event e]) = events log ++ [e] := events_append _ _
  have hprocessed : processed (log ++ [.event e]) = processed log := by
    rw [processed_append]
    exact List.append_nil _
  have hcalls : calls (log ++ [.event e]) = calls log := by
    rw [calls_append]
    exact List.append_nil _
  refine ⟨?_, ?_, ?_, fun _ => hidle, ?_⟩
  · rw [hevents, Machine.run_concat, ← h.buffers]
    rfl
  · rw [hevents, hprocessed, Machine.log_concat, h.framed, hpc, List.append_nil, ← h.buffers]
    rfl
  · rw [hprocessed]
    exact h.nextOrderId
  · rw [hcalls, hprocessed]
    obtain ⟨last, hoffered, hl⟩ := h.offered
    obtain rfl := hlast last hl
    exact ⟨[], hoffered, Or.inl ⟨rfl, fun heq => nomatch heq⟩⟩

omit [Zero P] [LinearOrder P] in
/-- Before the last command is made there is none. -/
theorem Main.Last.eq_nil {m : Main} {last : List (Command P)} (h : m.Last last)
    (hopen : ¬ m.Closing) : last = [] := by
  rcases h with ⟨hnil, -⟩ | ⟨hclosing, -⟩
  · exact hnil
  · exact absurd hclosing hopen

/-- **A call of `processLine`** leaves the command of the line in hand. -/
theorem Feeds.line {log : List (Happened P)} {s : Pipeline P} (h : Feeds toDouble log s)
    {l : Line} {todo : List Framer.Call} {rest : List Arrival}
    (hpc : s.main = .lines (callOf l :: todo) rest) :
    Feeds toDouble (log ++ (lineStep toDouble s l todo rest).2)
      (lineStep toDouble s l todo rest).1 := by
  have hidle : s.spscQueue.producer = .idle := h.idle (by rw [hpc]; exact id)
  have hframed : framer.log (events log) = (processed log ++ [l]).map callOf ++ todo := by
    rw [h.framed, hpc, List.map_append, List.append_assoc]
    rfl
  have hid : (processLine toDouble l s.nextOrderId).nextOrderId =
      nextIdAfter toDouble (processed log ++ [l]) := by
    rw [nextIdAfter, Machine.run_concat, h.nextOrderId]
    rfl
  have hoffered : pushed (calls log) = commandsOf toDouble (processed log) := by
    obtain ⟨last, hoffered, hl⟩ := h.offered
    rw [hidle, hl.eq_nil (by rw [hpc]; exact id)] at hoffered
    simpa only [SPSCQueue.Producer.holding_idle, List.append_nil] using hoffered
  have hcommands := commandsOf_concat toDouble (processed log) l
  rw [pushedAfter, ← h.nextOrderId] at hcommands
  -- what is emitted, whether or not there is a notice
  have hlog : ∀ notice : Option Notice,
      events (log ++ (.processed l :: notice.toList.map .notice)) = events log ∧
      processed (log ++ (.processed l :: notice.toList.map .notice)) = processed log ++ [l] ∧
      calls (log ++ (.processed l :: notice.toList.map .notice)) = calls log := by
    intro notice
    rw [events_append, processed_append, calls_append]
    cases notice <;> exact ⟨List.append_nil _, rfl, List.append_nil _⟩
  obtain ⟨hevents, hprocessed, hcalls⟩ := hlog (processLine toDouble l s.nextOrderId).notice
  rw [lineStep]
  cases hpushed : (processLine toDouble l s.nextOrderId).pushed with
  | none =>
    rw [hpushed, Option.toList_none, List.append_nil] at hcommands
    refine ⟨?_, ?_, ?_, fun _ => hidle, [], ?_, Or.inl ⟨rfl, fun heq => nomatch heq⟩⟩
    · simp only [hevents]
      exact h.buffers
    · simp only [hevents, hprocessed]
      exact hframed
    · simp only [hprocessed]
      exact hid
    · simp only [hcalls, hprocessed, hcommands, hoffered, hidle]
      rfl
  | some cmd =>
    rw [hpushed, Option.toList_some] at hcommands
    refine ⟨?_, ?_, ?_, fun hnot => absurd trivial hnot, [], ?_,
      Or.inl ⟨rfl, fun heq => nomatch heq⟩⟩
    · simp only [hevents]
      exact h.buffers
    · simp only [hevents, hprocessed]
      exact hframed
    · simp only [hprocessed]
      exact hid
    · simp only [hcalls, hprocessed, hcommands, hoffered, turn, hidle, List.append_nil]
      rfl

/-- **The last call of `push`** has the shutdown command in hand. -/
theorem Feeds.finalCall {log : List (Happened P)} {s : Pipeline P} (h : Feeds toDouble log s)
    {recvTimestamp : ℤ} (hpc : s.main = .finalCall recvTimestamp) {cmd : Command P}
    (hstats : cmd.type = .stats) :
    Feeds toDouble (log ++ [])
      { s with
        spscQueue := (turn 1024 s.spscQueue (.call cmd)).1
        main := .finalPush } := by
  have hidle : s.spscQueue.producer = .idle := h.idle (by rw [hpc]; exact id)
  obtain ⟨last, hoffered, hl⟩ := h.offered
  rw [hidle, hl.eq_nil (by rw [hpc]; exact id)] at hoffered
  rw [List.append_nil]
  refine ⟨h.buffers, ?_, h.nextOrderId, fun hnot => absurd trivial hnot, [cmd], ?_,
    Or.inr ⟨trivial, cmd, rfl, hstats⟩⟩
  · rw [h.framed, hpc]
    rfl
  · rw [SPSCQueue.Producer.holding_idle, List.append_nil, List.append_nil] at hoffered
    rw [hoffered]
    simp only [turn, hidle]
    rfl

/-- **The last push** is not tried again. -/
theorem Feeds.giveUp {log : List (Happened P)} {s : Pipeline P} (h : Feeds toDouble log s)
    (hpc : s.main = .finalPush) {cmd : Command P} (hfailed : s.spscQueue.producer = .failed cmd) :
    Feeds toDouble (log ++ [])
      { s with
        spscQueue := (turn 1024 s.spscQueue .giveUp).1
        main := .storeRunning } := by
  obtain ⟨last, hoffered, hl⟩ := h.offered
  rw [hfailed] at hoffered
  rw [List.append_nil]
  refine ⟨h.buffers, ?_, h.nextOrderId, fun _ => by simp only [turn, hfailed], [], ?_,
    Or.inl ⟨rfl, fun heq => nomatch heq⟩⟩
  · rw [h.framed, hpc]
    rfl
  · rcases hl with ⟨-, hne⟩ | ⟨-, last, rfl, -⟩
    · exact absurd hpc hne
    · -- the command given up is the last one
      obtain ⟨hpushed, -⟩ := List.append_inj' hoffered rfl
      simp only [turn, hfailed, hpushed]
      rfl

omit [Zero P] [LinearOrder P] in
/-- Going on before the last command is made. -/
theorem Main.Last.of_open {m m' : Main} {last : List (Command P)} (h : m.Last last)
    (hopen : ¬ m.Closing) (hne : m' ≠ .finalPush) : m'.Last last :=
  Or.inl ⟨h.eq_nil hopen, hne⟩

omit [Zero P] [LinearOrder P] in
/-- Going on after the last push. -/
theorem Main.Last.of_closing {m m' : Main} {last : List (Command P)} (h : m.Last last)
    (hclosing : m'.Closing) (hne : m' ≠ .finalPush) : m'.Last last := by
  rcases h with ⟨hnil, -⟩ | ⟨-, hlast⟩
  · exact Or.inl ⟨hnil, hne⟩
  · exact Or.inr ⟨hclosing, hlast⟩

/-- **A step of `main`** keeps the account of what it has done. -/
theorem Feeds.mainStep {log : List (Happened P)} {s : Pipeline P} (h : Feeds toDouble log s)
    (systemClock : ℤ) :
    Feeds toDouble (log ++ (mainStep toDouble memory systemClock s).2)
      (mainStep toDouble memory systemClock s).1 := by
  have hidle := h.idle
  rw [Pipeline.mainStep]
  cases hpc : s.main with
  | test =>
    rw [hpc] at hidle
    have hmove := fun m (hcalls : m.calls = []) (hne : m ≠ .finalPush) =>
      (h.moves rfl rfl rfl (by rw [hcalls, hpc]; rfl) (hidle id)
        (fun last hl => hl.of_open (by rw [hpc]; exact id) hne) :
          Feeds toDouble (log ++ []) { s with main := m })
    simp only
    split
    · exact hmove .wait rfl (fun heq => nomatch heq)
    · exact hmove .shutdown rfl (fun heq => nomatch heq)
  | wait =>
    rw [List.append_nil]
    exact h
  | events batch =>
    rw [hpc] at hidle
    cases batch with
    | nil =>
      exact h.moves rfl rfl rfl (by rw [hpc]; rfl) (hidle id)
        fun last hl => hl.of_open (by rw [hpc]; exact id) (fun heq => nomatch heq)
    | cons a rest =>
      exact h.event (by rw [hpc]; rfl) (hidle id)
        (fun last hl => hl.eq_nil (by rw [hpc]; exact id)) _ _ _
  | lines todo rest =>
    rw [hpc] at hidle
    cases todo with
    | nil =>
      exact h.moves rfl rfl rfl (by rw [hpc]; rfl) (hidle id)
        fun last hl => hl.of_open (by rw [hpc]; exact id) (fun heq => nomatch heq)
    | cons c todo => exact h.line hpc
  | push todo rest =>
    simp only
    split
    · rename_i hproducer
      exact h.moves rfl rfl rfl (by rw [hpc]; rfl) hproducer
        fun last hl => hl.of_open (by rw [hpc]; exact id) (fun heq => nomatch heq)
    · exact h.producerStep (by rw [hpc]; trivial)
  | shutdown =>
    rw [hpc] at hidle
    exact h.moves rfl rfl rfl (by rw [hpc]; rfl) (hidle id)
      fun last hl => hl.of_open (by rw [hpc]; exact id) (fun heq => nomatch heq)
  | finalCall recvTimestamp => exact h.finalCall hpc rfl
  | finalPush =>
    simp only
    split
    · rename_i hproducer
      exact h.moves rfl rfl rfl (by rw [hpc]; rfl) hproducer
        fun last hl => hl.of_closing trivial (fun heq => nomatch heq)
    · rename_i cmd hproducer
      exact h.giveUp hpc hproducer
    · exact h.producerStep (by rw [hpc]; trivial)
  | storeRunning =>
    rw [hpc] at hidle
    exact h.moves rfl rfl rfl (by rw [hpc]; rfl) (hidle id)
      fun last hl => hl.of_closing trivial (fun heq => nomatch heq)
  | join =>
    rw [hpc] at hidle
    simp only
    split
    · exact h.moves rfl rfl rfl (by rw [hpc]; rfl) (hidle id)
        fun last hl => hl.of_closing trivial (fun heq => nomatch heq)
    · rw [List.append_nil]
      exact h
  | returned =>
    rw [List.append_nil]
    exact h

end Pipeline
end MatchingEngine
