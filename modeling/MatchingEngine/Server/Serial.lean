import MatchingEngine.Client.Symbols
import MatchingEngine.Server.Feeds

/-!
# The server is sequential

Whatever the schedule, the exchange of the server sees the commands of the framed lines
one after the other, as if there were one thread and no queue.

* `Inv.turnStep`: a step of somebody preserves the invariant.
* `pipeline_serial`: what a schedule comes to.
* `pipeline_refines_plain`: what the server prints is what a list of orders prints.
-/

namespace MatchingEngine

variable {P : Type}

namespace Pipeline

open SPSCQueue (turn)

variable [Zero P] [LinearOrder P] {toDouble : ℚ → Option P} {memory : Command P}

/-! ## The ring in between -/

/-- A step touches the ring at most once. -/
def Turns (s s' : Pipeline P) (out : List (Happened P)) : Prop :=
  (s'.spscQueue = s.spscQueue ∧ calls out = []) ∨
    ∃ t, (s'.spscQueue, calls out) = turn 1024 s.spscQueue t

omit [Zero P] in
/-- A step inside a call is a turn. -/
theorem turns_queue (s : Pipeline P) {s' : Pipeline P} (t : SPSCQueue.Turn (Command P))
    (h : s'.spscQueue = (turn 1024 s.spscQueue t).1) : Turns s s' (queueStep s t).2 :=
  Or.inr ⟨t, Prod.ext h (queueStep_log s t).2.2⟩

omit [Zero P] in
/-- Making a call, or giving it up, is a turn that nothing returns from. -/
theorem turns_silent (s : Pipeline P) {s' : Pipeline P} {out : List (Happened P)}
    {t : SPSCQueue.Turn (Command P)} (ht : t = .giveUp ∨ ∃ cmd, t = .call cmd)
    (h : s'.spscQueue = (turn 1024 s.spscQueue t).1) (hout : calls out = []) : Turns s s' out := by
  refine Or.inr ⟨t, Prod.ext h (hout.trans ?_)⟩
  rcases ht with rfl | ⟨cmd, rfl⟩ <;> rw [SPSCQueue.turn] <;> split <;> rfl

theorem mainStep_turns (systemClock : ℤ) (s : Pipeline P) :
    Turns s (mainStep toDouble memory systemClock s).1
      (mainStep toDouble memory systemClock s).2 := by
  rw [mainStep]
  cases s.main with
  | events rest => cases rest <;> exact Or.inl ⟨rfl, rfl⟩
  | lines todo rest =>
    cases todo with
    | nil => exact Or.inl ⟨rfl, rfl⟩
    | cons c todo =>
      simp only [lineStep]
      cases processLine toDouble ⟨c.line, c.recvTimestamp, systemClock, s.clock⟩ s.nextOrderId with
      | mk pushed nextOrderId notice =>
        cases pushed with
        | none => cases notice <;> exact Or.inl ⟨rfl, rfl⟩
        | some cmd => cases notice <;> exact turns_silent s (Or.inr ⟨cmd, rfl⟩) rfl rfl
  | push todo rest =>
    simp only
    split
    · exact Or.inl ⟨rfl, rfl⟩
    · exact turns_queue s .producer rfl
  | finalCall recvTimestamp => exact turns_silent s (Or.inr ⟨_, rfl⟩) rfl rfl
  | finalPush =>
    simp only
    split
    · exact Or.inl ⟨rfl, rfl⟩
    · exact turns_silent s (Or.inl rfl) rfl rfl
    · exact turns_queue s .producer rfl
  | join =>
    simp only
    split <;> exact Or.inl ⟨rfl, rfl⟩
  | _ => exact Or.inl ⟨rfl, rfl⟩

omit [Zero P] in
theorem matchingStep_turns (s : Pipeline P) :
    Turns s (matchingStep s).1 (matchingStep s).2 := by
  have hprint : ∀ l : List (Event P), calls (l.map Happened.printed) = [] :=
    fun l => filterMap_map_none (fun _ => rfl) l
  rw [matchingStep]
  cases s.matching with
  | pop => exact turns_queue s .consumer rfl
  | popped cmd =>
    simp only
    split
    · exact Or.inl ⟨rfl, hprint _⟩
    · exact Or.inl ⟨rfl, rfl⟩
  | dispatch cmd => exact Or.inl ⟨rfl, hprint _⟩
  | _ => exact Or.inl ⟨rfl, rfl⟩

omit [Zero P] in
/-- The queue stays a queue. -/
theorem Turns.ring {log out : List (Happened P)} {s s' : Pipeline P} (ht : Turns s s' out)
    (h : SPSCQueue.Inv 1024 (calls log) s.spscQueue) :
    SPSCQueue.Inv 1024 (calls (log ++ out)) s'.spscQueue := by
  rw [calls_append]
  rcases ht with ⟨hq, hout⟩ | ⟨t, heq⟩
  · rw [hq, hout, List.append_nil]
    exact h
  · obtain ⟨hq, hout⟩ := Prod.mk.inj heq
    rw [hq, hout]
    exact h.turn t

/-! ## The end of the matching thread -/

omit [Zero P] in
/-- Going from one place to another with the same command in hand. -/
theorem Drains.moves {log : List (Happened P)} {s s' : Pipeline P} (h : Drains log s)
    (hexchange : s'.exchange = s.exchange) (htracker : s'.tracker = s.tracker)
    (hhand : s'.matching.inHand.map untimed = s.matching.inHand.map untimed) :
    Drains (log ++ []) s' := by
  rw [List.append_nil]
  refine ⟨?_, hexchange.trans h.exchange, h.printed, htracker.trans h.tracker, h.reported⟩
  rw [h.order, List.map_append, List.map_append, hhand]

omit [Zero P] in
/-- **A step of `pop`** may bring a command into hand. -/
theorem Drains.pop {log : List (Happened P)} {s : Pipeline P} (h : Drains log s)
    (hpc : s.matching = .pop) :
    Drains (log ++ (queueStep s .consumer).2)
      { (queueStep s .consumer).1 with
        matching := afterPop (turn 1024 s.spscQueue .consumer).2 } := by
  have hcalls := (queueStep_log s .consumer).2.2
  have hother : dispatched (queueStep s .consumer).2 = [] ∧
      Pipeline.printed (queueStep s .consumer).2 = [] ∧
      tracked (queueStep s .consumer).2 = [] ∧ Pipeline.reported (queueStep s .consumer).2 = [] :=
    ⟨filterMap_map_none (fun _ => rfl) _, filterMap_map_none (fun _ => rfl) _,
      filterMap_map_none (fun _ => rfl) _, filterMap_map_none (fun _ => rfl) _⟩
  obtain ⟨hdispatched, hprinted, htracked, hreported⟩ := hother
  have hnone : s.matching.inHand = [] := by
    rw [hpc]
    rfl
  have horder := h.order
  rw [hnone, List.append_nil] at horder
  have hhand : popped (turn 1024 s.spscQueue .consumer).2 =
      (afterPop (turn 1024 s.spscQueue .consumer).2).inHand := by
    rcases (SPSCQueue.consumerStep_spec 1024 s.spscQueue).2 with hout | ⟨item, hout, -⟩
    · rw [turn, hout]
      rfl
    · rw [turn, hout]
      cases item <;> rfl
  refine ⟨?_, ?_, ?_, ?_, ?_⟩
  · rw [calls_append, popped_append, hcalls, hhand, dispatched_append, hdispatched,
      List.append_nil, List.map_append, List.map_append, horder]
  · rw [dispatched_append, hdispatched, List.append_nil]
    exact h.exchange
  · rw [printed_append, hprinted, dispatched_append, hdispatched, List.append_nil,
      List.append_nil]
    exact h.printed
  · rw [tracked_append, htracked, List.append_nil]
    exact h.tracker
  · rw [reported_append, hreported, tracked_append, htracked, List.append_nil, List.append_nil]
    exact h.reported

omit [Zero P] in
/-- **Dispatching** the command in hand, with the calls of the tracker that go with it. -/
theorem Drains.dispatch {log out : List (Happened P)} {s s' : Pipeline P} (h : Drains log s)
    (cmd : Command P) {cmd' : Command P} (hhand : s.matching.inHand = [cmd'])
    (huntimed : untimed cmd = untimed cmd') (hhand' : s'.matching.inHand = [])
    (hpopped : popped (calls out) = []) (hdispatched : dispatched out = [cmd])
    (hexchange : s'.exchange = (MatchingEngine.dispatch s.exchange cmd).1)
    (hprinted : Pipeline.printed out = (MatchingEngine.dispatch s.exchange cmd).2)
    (htracker : s'.tracker = LatencyTracker.tracker.runFrom s.tracker (tracked out))
    (hreported : Pipeline.reported out =
      LatencyTracker.tracker.logFrom s.tracker (tracked out)) :
    Drains (log ++ out) s' := by
  refine ⟨?_, ?_, ?_, ?_, ?_⟩
  · rw [calls_append, popped_append, hpopped, List.append_nil, dispatched_append, hdispatched,
      hhand', List.append_nil, h.order, hhand, List.map_append, List.map_append]
    exact congrArg _ (congrArg (fun c => [c]) huntimed.symm)
  · rw [dispatched_append, hdispatched, Machine.run_concat, ← h.exchange]
    exact hexchange
  · rw [printed_append, hprinted, dispatched_append, hdispatched, Machine.log_concat,
      ← h.exchange, h.printed]
    rfl
  · rw [tracked_append, Machine.run_append, ← h.tracker]
    exact htracker
  · rw [reported_append, tracked_append, Machine.log_append, ← h.tracker, h.reported, hreported]

omit [Zero P] [LinearOrder P] in
/-- What the exchange prints is seen in its own history only. -/
theorem printed_log (l : List (Event P)) :
    calls (l.map Happened.printed) = [] ∧ dispatched (l.map Happened.printed) = [] ∧
      printed (l.map Happened.printed) = l ∧ tracked (l.map Happened.printed) = [] ∧
      reported (l.map Happened.printed) = [] :=
  ⟨filterMap_map_none (fun _ => rfl) l, filterMap_map_none (fun _ => rfl) l,
    printed_map_printed l, filterMap_map_none (fun _ => rfl) l,
    filterMap_map_none (fun _ => rfl) l⟩

omit [Zero P] in
/-- **A step of the matching thread** keeps the account of what it has done. -/
theorem Drains.matchingStep {log : List (Happened P)} {s : Pipeline P} (h : Drains log s) :
    Drains (log ++ (matchingStep s).2) (matchingStep s).1 := by
  rw [Pipeline.matchingStep]
  cases hpc : s.matching with
  | test =>
    refine h.moves rfl rfl ?_
    simp only
    split <;> rw [hpc] <;> rfl
  | pop => exact h.pop hpc
  | popped cmd =>
    have hhand : s.matching.inHand = [cmd] := by
      rw [hpc]
      rfl
    simp only
    split
    · rename_i hstats
      have hdispatch : MatchingEngine.dispatch s.exchange { cmd with tsQueuePop := s.clock } =
          (s.exchange, s.exchange.printStats) := by
        rw [MatchingEngine.dispatch, hstats]
      obtain ⟨hcalls, hdispatched, hprinted, htracked, hreported⟩ :=
        printed_log s.exchange.printStats
      refine h.dispatch { cmd with tsQueuePop := s.clock } hhand rfl rfl ?_ ?_
        (by rw [hdispatch]) ?_ ?_ ?_
      · rw [calls_append, hcalls]
        rfl
      · rw [dispatched_append, hdispatched]
        rfl
      · rw [printed_append, hprinted, hdispatch]
        rfl
      · rw [tracked_append, htracked]
        rfl
      · rw [reported_append, hreported, tracked_append, htracked]
        rfl
    · exact h.moves rfl rfl (by rw [hhand]; rfl)
  | processStart cmd => exact h.moves rfl rfl (by rw [hpc]; rfl)
  | dispatch cmd =>
    have hhand : s.matching.inHand = [cmd] := by
      rw [hpc]
      rfl
    obtain ⟨hcalls, hdispatched, hprinted, htracked, hreported⟩ :=
      printed_log (MatchingEngine.dispatch s.exchange cmd).2
    refine h.dispatch cmd hhand rfl ?_ ?_ ?_ rfl ?_ ?_ ?_
    · simp only
      split <;> rfl
    · exact congrArg MatchingEngine.popped hcalls
    · exact congrArg (cmd :: ·) hdispatched
    · exact hprinted
    · exact congrArg (LatencyTracker.tracker.runFrom s.tracker) htracked.symm
    · exact hreported.trans (congrArg (LatencyTracker.tracker.logFrom s.tracker) htracked.symm)
  | matchComplete cmd =>
    have hhand : s.matching.inHand = [] := by
      rw [hpc]
      rfl
    refine ⟨?_, ?_, ?_, ?_, ?_⟩
    · rw [calls_append, popped_append, dispatched_append]
      have horder := h.order
      rw [hhand] at horder
      exact (congrArg _ (List.append_nil _)).trans (horder.trans
        (congrArg (fun l => (l ++ []).map untimed) (List.append_nil _).symm))
    · rw [dispatched_append]
      exact h.exchange.trans (congrArg engine.run (List.append_nil _).symm)
    · rw [printed_append, dispatched_append]
      exact (List.append_nil _).trans
        (h.printed.trans (congrArg engine.log (List.append_nil _).symm))
    · rw [tracked_append, Machine.run_append, ← h.tracker]
      rfl
    · rw [reported_append, tracked_append, Machine.log_append, h.reported]
      rfl
  | returned =>
    rw [List.append_nil]
    exact h

/-! ## Every schedule -/

/-- The invariant does not look at the clock. -/
theorem Inv.elapse {log : List (Happened P)} {s : Pipeline P} (h : Inv toDouble log s)
    (clock : ℤ) : Inv toDouble log { s with clock := clock } :=
  ⟨⟨h.feeds.buffers, h.feeds.framed, h.feeds.nextOrderId, h.feeds.idle, h.feeds.offered⟩, h.ring,
    ⟨h.drains.order, h.drains.exchange, h.drains.printed, h.drains.tracker, h.drains.reported⟩⟩

/-- The end of an `epoll_wait`. -/
theorem Inv.wakes {log : List (Happened P)} {s : Pipeline P} (h : Inv toDouble log s)
    (hpc : s.main = .wait) {m : Main} (hcalls : m.calls = []) (hne : m ≠ .finalPush) :
    Inv toDouble (log ++ []) { s with main := m } := by
  have hidle : s.spscQueue.producer = .idle := h.feeds.idle (by rw [hpc]; exact id)
  refine ⟨h.feeds.moves rfl rfl rfl (by rw [hcalls, hpc]; rfl) hidle
    fun last hl => hl.of_open (by rw [hpc]; exact id) hne, ?_, h.drains.moves rfl rfl rfl⟩
  rw [List.append_nil]
  exact h.ring

/-- **A step of somebody** preserves the invariant. -/
theorem Inv.turnStep {log : List (Happened P)} {s : Pipeline P} (h : Inv toDouble log s)
    (t : Turn) :
    Inv toDouble (log ++ (turnStep toDouble memory s t).2) (turnStep toDouble memory s t).1 := by
  cases t with
  | signal =>
    rw [Pipeline.turnStep, List.append_nil]
    exact ⟨⟨h.feeds.buffers, h.feeds.framed, h.feeds.nextOrderId, h.feeds.idle, h.feeds.offered⟩,
      h.ring, ⟨h.drains.order, h.drains.exchange, h.drains.printed, h.drains.tracker,
        h.drains.reported⟩⟩
  | main systemClock =>
    exact ⟨h.feeds.mainStep systemClock, (mainStep_turns systemClock s).ring h.ring,
      h.drains.frame (mainStep_frame systemClock s)⟩
  | arrive batch =>
    rw [Pipeline.turnStep]
    split
    · rename_i hpc
      exact h.wakes hpc rfl (fun heq => nomatch heq)
    · rw [List.append_nil]
      exact h
  | epollError =>
    rw [Pipeline.turnStep]
    split
    · rename_i hpc
      exact h.wakes hpc rfl (fun heq => nomatch heq)
    · rw [List.append_nil]
      exact h
  | matching =>
    exact ⟨h.feeds.frame (matchingStep_frame s), (matchingStep_turns s).ring h.ring,
      h.drains.matchingStep⟩

theorem inv_init (buffer : ℕ → Command P) (boot : ℤ) :
    Inv toDouble [] (pipeline toDouble memory buffer boot).init where
  feeds := ⟨rfl, rfl, rfl, fun _ => rfl, [], rfl, Or.inl ⟨rfl, fun heq => nomatch heq⟩⟩
  ring := SPSCQueue.inv_init (by decide) buffer
  drains := ⟨rfl, rfl, rfl, rfl, rfl⟩

/-- The invariant holds after every schedule. -/
theorem inv_run (buffer : ℕ → Command P) (boot : ℤ) (acts : List Action) :
    Inv toDouble ((pipeline toDouble memory buffer boot).log acts)
      ((pipeline toDouble memory buffer boot).run acts) := by
  induction acts using List.reverseRecOn with
  | nil => exact inv_init buffer boot
  | append_singleton acts a ih =>
    rw [Machine.log_concat, Machine.run_concat]
    exact (ih.elapse _).turnStep a.turn

/-! ## What a schedule comes to -/

omit [Zero P] in
/-- The engine does not look at the clock readings of the matching thread. -/
theorem engine_untimed (cmds : List (Command P)) :
    engine.run (cmds.map untimed) = engine.run cmds ∧
      engine.log (cmds.map untimed) = engine.log cmds := by
  have hstep : ∀ (ex : Exchange P) cmd, engine.step ex (untimed cmd) = engine.step ex cmd :=
    fun _ _ => rfl
  exact ⟨engine.run_map hstep cmds, engine.log_map hstep cmds⟩

/-- Nothing is under way: `main` waits for events, the ring is empty, and the matching
thread has no command in hand. -/
def Quiet (s : Pipeline P) : Prop :=
  s.main = .wait ∧ s.spscQueue.queue.head = s.spscQueue.queue.tail ∧ s.matching.inHand = []

/-- What holds of the commands `cmds` that have been dispatched. -/
structure Serial (toDouble : ℚ → Option P) (log : List (Happened P)) (s : Pipeline P)
    (cmds : List (Command P)) : Prop where
  /-- The lines processed are the first the framer has found. -/
  framed : (processed log).map callOf <+: framer.log (events log)
  /-- The commands are the first of those of the lines, and of a `STATS` that is pushed
  when no line will follow; at most 1025 are missing. -/
  order : ∃ last : List (Command P),
    (last = [] ∨ s.main.Closing ∧ ∃ cmd : Command P, last = [cmd] ∧ cmd.type = .stats) ∧
      cmds <+: commandsOf toDouble (processed log) ++ last ∧
      (commandsOf toDouble (processed log) ++ last).length ≤ cmds.length + 1025
  /-- The exchange has printed, and is, what the engine makes of them. -/
  printed : Pipeline.printed log = engine.log cmds
  exchange : s.exchange = engine.run cmds
  /-- When nothing is under way nothing is missing. -/
  quiet : s.Quiet → (processed log).map callOf = framer.log (events log) ∧
    cmds = commandsOf toDouble (processed log)

omit [Zero P] [LinearOrder P] in
theorem Matching.length_inHand (m : Matching P) : m.inHand.length ≤ 1 := by
  cases m <;> simp [inHand]

theorem length_holding {T : Type} (p : SPSCQueue.Producer T) : p.holding.length ≤ 1 := by
  cases p <;> simp [SPSCQueue.Producer.holding]

omit [Zero P] in
/-- What has been dispatched is the first part of what has been popped. -/
theorem Drains.untimed_take {log : List (Happened P)} {s : Pipeline P} (h : Drains log s) :
    ((popped (calls log)).take (dispatched log).length).map untimed =
      (dispatched log).map untimed := by
  rw [List.map_take, h.order, List.map_append]
  exact List.take_left' (List.length_map _)

theorem Inv.serial {log : List (Happened P)} {s : Pipeline P} (h : Inv toDouble log s) :
    Serial toDouble log s ((popped (calls log)).take (dispatched log).length) := by
  obtain ⟨feeds, ring, drains⟩ := h
  obtain ⟨last, hoffered, hlast⟩ := feeds.offered
  have hlength : (popped (calls log)).length =
      (dispatched log).length + s.matching.inHand.length := by
    simpa only [List.length_map, List.length_append] using congrArg List.length drains.order
  have hsame := engine_untimed (dispatched log)
  rw [← drains.untimed_take, (engine_untimed _).1, (engine_untimed _).2] at hsame
  have hpushed : pushed (calls log) <+: commandsOf toDouble (processed log) ++ last :=
    hoffered ▸ List.prefix_append _ _
  refine ⟨⟨s.main.calls, feeds.framed.symm⟩, ⟨last, ?_, ?_, ?_⟩, ?_, ?_, ?_⟩
  · exact hlast.imp And.left id
  · exact (List.take_prefix _ _).trans (ring.fifo.trans hpushed)
  · have hpending := ring.safe.pending
    have hhand := s.matching.length_inHand
    have hholding := length_holding s.spscQueue.producer
    have htotal := congrArg List.length hoffered
    rw [List.length_append] at htotal
    rw [List.length_take]
    omega
  · rw [drains.printed, hsame.2]
  · rw [drains.exchange, hsame.1]
  · rintro ⟨hmain, hempty, hhand⟩
    have hidle : s.spscQueue.producer = .idle := feeds.idle (by rw [hmain]; exact id)
    have hnil : last = [] := hlast.eq_nil (by rw [hmain]; exact id)
    have hframed : framer.log (events log) = (processed log).map callOf ++ [] := by
      rw [feeds.framed, hmain]
      rfl
    -- all that has been pushed has been popped, and all that has been popped dispatched
    have hall : popped (calls log) = pushed (calls log) :=
      ring.fifo.eq_of_length (ring.rep.empty_iff.mp hempty)
    rw [hidle, SPSCQueue.Producer.holding_idle, hnil, List.append_nil, List.append_nil] at hoffered
    rw [hhand, List.length_nil, Nat.add_zero] at hlength
    rw [hframed, List.append_nil, ← hlength, List.take_length, hall, hoffered]
    exact ⟨rfl, rfl⟩

/-- **The server is sequential.**  After every schedule of the two threads, the kernel, the
clients and the signals, the exchange is what one engine makes of the commands of the
framed lines, in the order of the lines, and it has printed the same.  What the ring, the
threads and the clock do decides only how many of them have been dispatched: all but
1025 at least, and all of them when nothing is under way. -/
theorem pipeline_serial (toDouble : ℚ → Option P) (memory : Command P) (buffer : ℕ → Command P)
    (boot : ℤ) (acts : List Action) :
    ∃ cmds, Serial toDouble ((pipeline toDouble memory buffer boot).log acts)
      ((pipeline toDouble memory buffer boot).run acts) cmds :=
  ⟨_, (inv_run buffer boot acts).serial⟩

/-- The commands that have been dispatched assign no identifier twice. -/
theorem Serial.freshNew {log : List (Happened P)} {s : Pipeline P} {cmds : List (Command P)}
    (h : Serial toDouble log s cmds) (hlen : (processed log).length < 2 ^ 64) : FreshNew cmds := by
  obtain ⟨last, hlast, ⟨rest, hrest⟩, -⟩ := h.order
  have hnone : newIds last = [] := by
    rcases hlast with rfl | ⟨-, cmd, rfl, hstats⟩
    · rfl
    · rw [newIds, List.filterMap_cons, Command.newId, hstats, List.filterMap_nil]
  have hall : FreshNew (cmds ++ rest) := by
    rw [hrest, FreshNew, newIds_append, hnone, List.append_nil]
    exact freshNew_commandsOf hlen
  exact hereditary_freshNew.of_append hall

/-- **What the server prints is what a list of orders prints.**  After every schedule in
which fewer than `2 ^ 64` lines have been processed, the exchange has printed what the
plain engine prints for the commands that have been dispatched, and the queues of its
books are those of the list. -/
theorem pipeline_refines_plain (toDouble : ℚ → Option P) (memory : Command P)
    (buffer : ℕ → Command P) (boot : ℤ) (acts : List Action)
    (hlen : (processed ((pipeline toDouble memory buffer boot).log acts)).length < 2 ^ 64) :
    ∃ cmds, Serial toDouble ((pipeline toDouble memory buffer boot).log acts)
        ((pipeline toDouble memory buffer boot).run acts) cmds ∧
      printed ((pipeline toDouble memory buffer boot).log acts) = plainEngine.log cmds ∧
      ∀ symbol side k,
        ((((pipeline toDouble memory buffer boot).run acts).exchange.book symbol).queue side k).map
          Node.order = (plainEngine.run cmds).orders.queue symbol side k := by
  have hinv : Inv toDouble ((pipeline toDouble memory buffer boot).log acts)
      ((pipeline toDouble memory buffer boot).run acts) := inv_run buffer boot acts
  have hserial := hinv.serial
  obtain ⟨hlog, hrefines⟩ := refines_engine (hserial.freshNew hlen)
  refine ⟨_, hserial, hserial.printed.trans hlog, fun symbol side k => ?_⟩
  rw [hserial.exchange]
  exact hrefines.groups symbol side k

/-- Two threads in turn, over lines that come in two reads. -/
theorem pipeline_refines_plain_turns :
    let memory : Command ℚ := .statsReport 0 0
    let batch : List Arrival := [.accept 0 5 true true,
      .ready 0 5 [("BUY A 5 10\nSELL A".toList, 3), (" 2 9\nHI\nBOOK A\n".toList, 1)] .wouldBlock]
    let acts : List Action := [⟨1, .main 0⟩, ⟨1, .arrive batch⟩] ++
      (List.replicate 40 [⟨1, .main 7⟩, ⟨2, .matching⟩]).flatten
    let log := (pipeline some memory (fun _ => memory) 0).log acts
    (∃ cmds, Serial some log ((pipeline some memory (fun _ => memory) 0).run acts) cmds ∧
      printed log = plainEngine.log cmds) ∧
    (processed log).map Line.text = ["BUY A 5 10".toList, "SELL A 2 9".toList, "HI".toList,
      "BOOK A".toList] ∧
    (printed log).drop 2 = [.trade ⟨10, 2, 1, 2⟩, .book ['A'] [⟨10, 3, 1⟩] []] := by
  intro memory batch acts log
  obtain ⟨cmds, hserial, hprinted, -⟩ :=
    pipeline_refines_plain some memory (fun _ => memory) 0 acts (by decide +kernel)
  exact ⟨⟨cmds, hserial, hprinted⟩, by decide +kernel, by decide +kernel⟩

end Pipeline
end MatchingEngine
