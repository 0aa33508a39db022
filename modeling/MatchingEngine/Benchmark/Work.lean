import MatchingEngine.Benchmark.Basic
import MatchingEngine.Tracker.Reports

/-!
# What a benchmark does

With any queue and in every interleaving the benchmark does the work of one engine that
reads the orders in turn, so two queues are compared on the same work.

* `Inv.step`: what one step of one of the threads preserves.
* `runBenchmark_work`: what has been done after a schedule.
-/

namespace MatchingEngine
namespace Benchmark

variable {Q : QueueType (Command ℚ)}

/-! ## Histories -/

/-- The calls of the queue that have returned. -/
def calls (log : List Happened) : List (Returned (Command ℚ)) :=
  log.filterMap fun h => match h with
    | .queue r => some r
    | _ => none

/-- The commands that have been entered and matched. -/
def entered (log : List Happened) : List (Command ℚ) :=
  log.filterMap fun h => match h with
    | .entered cmd => some cmd
    | _ => none

/-- The clock readings that have been recorded. -/
def recorded (log : List Happened) : List Stamps :=
  log.filterMap fun h => match h with
    | .recorded s => some s
    | _ => none

theorem calls_append (log log' : List Happened) : calls (log ++ log') = calls log ++ calls log' :=
  List.filterMap_append

theorem entered_append (log log' : List Happened) :
    entered (log ++ log') = entered log ++ entered log' :=
  List.filterMap_append

theorem recorded_append (log log' : List Happened) :
    recorded (log ++ log') = recorded log ++ recorded log' :=
  List.filterMap_append

theorem calls_queue (l : List (Returned (Command ℚ))) : calls (l.map .queue) = l := by
  rw [calls, List.filterMap_map]
  exact List.filterMap_some

theorem entered_queue (l : List (Returned (Command ℚ))) : entered (l.map .queue) = [] := by
  rw [entered, List.filterMap_map]
  exact List.filterMap_eq_nil_iff.mpr fun _ _ => rfl

theorem recorded_queue (l : List (Returned (Command ℚ))) : recorded (l.map .queue) = [] := by
  rw [recorded, List.filterMap_map]
  exact List.filterMap_eq_nil_iff.mpr fun _ _ => rfl

/-- The command without its clock readings. -/
def unstamped (cmd : Command ℚ) : Command ℚ :=
  { cmd with
    tsNetworkRecv := 0
    tsQueuePush := 0
    tsQueuePop := 0
    tsProcessStart := 0
    tsMatchComplete := 0 }

/-- How many commands have been pushed. -/
def Producer.index : Producer → ℕ
  | .recv i => i
  | .call i _ => i
  | .push i => i

/-- The command that has been popped and not been entered. -/
def Consumer.inHand : Consumer → List (Command ℚ)
  | .popped cmd => [cmd]
  | .processStart cmd => [cmd]
  | .process cmd => [cmd]
  | _ => []

/-- The command that has been entered and not been recorded. -/
def Consumer.unrecorded : Consumer → List (Command ℚ)
  | .matchComplete cmd => [cmd]
  | _ => []

/-! ## The invariant -/

/-- What the queue knows of the main thread. -/
def Offers (commands : List (Command ℚ)) (log : List (Returned (Command ℚ))) (q : Q.State) :
    Producer → Prop
  | .recv _ => Q.Holds log q none
  | .call _ _ => Q.Holds log q none
  | .push i => ∃ item cmd, Q.Holds log q (some item) ∧ commands[i]? = some cmd ∧
      unstamped item = unstamped cmd

/-- What holds at every moment. -/
structure Inv (commands : List (Command ℚ)) (log : List Happened) (s : Benchmark Q) : Prop where
  offers : Offers commands (calls log) s.queue s.producer
  fed : (pushed (calls log)).map unstamped = (commands.take s.producer.index).map unstamped
  drained : (popped (calls log)).map unstamped = (entered log ++ s.consumer.inHand).map unstamped
  exchange : s.exchange = (entered log).foldl enter Exchange.empty
  tracker : LatencyTracker.Tracks (recorded log) s.tracker
  processed : s.processed = (recorded log).length
  counted : (entered log).length = s.processed + s.consumer.unrecorded.length
  returned : s.consumer = .returned → commands.length ≤ s.processed

variable {commands : List (Command ℚ)} {log : List Happened} {s : Benchmark Q}

theorem inv_init (Q : QueueType (Command ℚ)) (numOrders : ℕ) (tracker : LatencyTracker)
    (boot : ℤ) : Inv commands [] (runBenchmark Q numOrders tracker boot).init where
  offers := Q.holds_init
  fed := by
    simp only [runBenchmark, Producer.index, List.take_zero]
    rfl
  drained := rfl
  exchange := rfl
  tracker := LatencyTracker.tracks_nil
  processed := rfl
  counted := rfl
  returned h := nomatch h

/-- Whatever the main thread does, the queue knows where it stands. -/
theorem Offers.holds {calls : List (Returned (Command ℚ))} {q : Q.State} {p : Producer}
    (h : Offers commands calls q p) : ∃ item, Q.Holds calls q item := by
  cases p with
  | recv i => exact ⟨none, h⟩
  | call i recv => exact ⟨none, h⟩
  | push i =>
    obtain ⟨item, -, hholds, -⟩ := h
    exact ⟨some item, hholds⟩

/-- A step of the consumer is nothing to the main thread. -/
theorem Offers.consumer {calls : List (Returned (Command ℚ))} {q : Q.State} {p : Producer}
    (h : Offers commands calls q p) :
    Offers commands (calls ++ (Q.consumer q).2) (Q.consumer q).1 p := by
  cases p with
  | recv i => exact (Q.holds_consumer h).2
  | call i recv => exact (Q.holds_consumer h).2
  | push i =>
    obtain ⟨item, cmd, hholds, hcmd⟩ := h
    exact ⟨item, cmd, (Q.holds_consumer hholds).2, hcmd⟩

/-- What a step of `pop` returns. -/
theorem Offers.consumer_out {calls : List (Returned (Command ℚ))} {q : Q.State} {p : Producer}
    (h : Offers commands calls q p) :
    (Q.consumer q).2 = [] ∨ ∃ r, (Q.consumer q).2 = [.pop r] := by
  obtain ⟨item, hholds⟩ := h.holds
  exact (Q.holds_consumer hholds).1

/-- What has been popped is the first part of the commands. -/
theorem Inv.popped_prefix (h : Inv commands log s) :
    (popped (calls log)).map unstamped <+: commands.map unstamped := by
  obtain ⟨item, hholds⟩ := h.offers.holds
  refine ((Q.fifo hholds).map unstamped).trans ?_
  rw [h.fed]
  exact (List.take_prefix _ _).map unstamped

/-- A step that has nothing to do with the queue and enters nothing. -/
theorem Inv.silent (h : Inv commands log s) {s' : Benchmark Q} (hqueue : s'.queue = s.queue)
    (hproducer : s'.producer = s.producer) (hexchange : s'.exchange = s.exchange)
    (htracker : s'.tracker = s.tracker) (hprocessed : s'.processed = s.processed)
    (hhand : s'.consumer.inHand.map unstamped = s.consumer.inHand.map unstamped)
    (hunrecorded : s'.consumer.unrecorded.length = s.consumer.unrecorded.length)
    (hreturned : s'.consumer = .returned → commands.length ≤ s.processed) :
    Inv commands (log ++ []) s' := by
  rw [List.append_nil]
  refine ⟨?_, ?_, ?_, ?_, ?_, ?_, ?_, ?_⟩
  · rw [hqueue, hproducer]
    exact h.offers
  · rw [hproducer]
    exact h.fed
  · rw [h.drained, List.map_append, List.map_append, hhand]
  · rw [hexchange, h.exchange]
  · rw [htracker]
    exact h.tracker
  · rw [hprocessed, h.processed]
  · rw [hprocessed, hunrecorded, h.counted]
  · rw [hprocessed]
    exact hreturned

/-- The main thread goes on, and touches the queue at its end only. -/
theorem Inv.ofProducer (h : Inv commands log s) {q : Q.State} (p : Producer)
    (out : List (Returned (Command ℚ))) (hout : popped out = [])
    (hoffers : Offers commands (calls log ++ out) q p)
    (hfed : (pushed (calls log ++ out)).map unstamped =
      (commands.take p.index).map unstamped) :
    Inv commands (log ++ out.map .queue) { s with queue := q, producer := p } := by
  refine ⟨?_, ?_, ?_, ?_, ?_, ?_, ?_, h.returned⟩
  · rw [calls_append, calls_queue]
    exact hoffers
  · rw [calls_append, calls_queue]
    exact hfed
  · rw [calls_append, calls_queue, popped_append, hout, List.append_nil, entered_append,
      entered_queue, List.append_nil]
    exact h.drained
  · rw [entered_append, entered_queue, List.append_nil]
    exact h.exchange
  · rw [recorded_append, recorded_queue, List.append_nil]
    exact h.tracker
  · rw [recorded_append, recorded_queue, List.append_nil]
    exact h.processed
  · rw [entered_append, entered_queue, List.append_nil]
    exact h.counted

/-- **A step of the main thread.** -/
theorem Inv.producerStep (h : Inv commands log s) :
    Inv commands (log ++ (producerStep commands s).2) (producerStep commands s).1 := by
  have hoffers := h.offers
  have hfed := h.fed
  rw [Benchmark.producerStep]
  cases hp : s.producer with
  | recv i =>
    rw [hp] at hoffers hfed
    simp only
    split
    · refine h.ofProducer _ [] rfl ?_ ?_
      · rw [List.append_nil]
        exact hoffers
      · rw [List.append_nil]
        exact hfed
    · rw [List.append_nil]
      exact h
  | call i recv =>
    rw [hp] at hoffers hfed
    simp only
    cases hcmd : commands[i]? with
    | none =>
      rw [List.append_nil]
      exact h
    | some cmd =>
      refine h.ofProducer _ [] rfl ?_ ?_
      · rw [List.append_nil]
        exact ⟨_, cmd, Q.holds_call _ hoffers, hcmd, rfl⟩
      · rw [List.append_nil]
        exact hfed
  | push i =>
    rw [hp] at hoffers hfed
    obtain ⟨item, cmd, hholds, hcmd, hitem⟩ := hoffers
    rcases Q.holds_producer hholds with ⟨hout, hholds'⟩ | ⟨hout, hholds'⟩
    · -- the push is still under way, or is tried again
      have hnone : popped (Q.producer s.queue).2 = [] ∧ pushed (Q.producer s.queue).2 = [] := by
        rcases hout with hout | hout <;> rw [hout] <;> exact ⟨rfl, rfl⟩
      have hinv := h.ofProducer (.push i) _ hnone.1 ⟨item, cmd, hholds', hcmd, hitem⟩ (by
        rw [pushed_append, hnone.2, List.append_nil]
        exact hfed)
      rcases hout with hout | hout <;> simp only [hout] at hinv ⊢ <;> exact hinv
    · have hinv := h.ofProducer (.recv (i + 1)) (Q.producer s.queue).2
        (by rw [hout]; rfl) hholds' (by
          rw [pushed_append, hout, List.map_append, hfed, Producer.index, Producer.index,
            List.take_add_one, hcmd, List.map_append, Option.toList_some, List.map_singleton,
            ← hitem]
          rfl)
      simp only [hout] at hinv ⊢
      exact hinv

/-- The consumer calls `pop` and goes on to `c`. -/
theorem Inv.ofPop (h : Inv commands log s) {c : Consumer}
    (hhand : s.consumer.inHand = []) (hunrecorded : s.consumer.unrecorded = [])
    (hhand' : c.inHand = popped (Q.consumer s.queue).2) (hunrecorded' : c.unrecorded = [])
    (hreturned : c ≠ .returned) (hfed : pushed (Q.consumer s.queue).2 = []) :
    Inv commands (log ++ (Q.consumer s.queue).2.map .queue)
      { s with queue := (Q.consumer s.queue).1, consumer := c } := by
  refine ⟨?_, ?_, ?_, ?_, ?_, ?_, ?_, fun hc => absurd hc hreturned⟩
  · rw [calls_append, calls_queue]
    exact h.offers.consumer
  · rw [calls_append, calls_queue, pushed_append, hfed, List.append_nil]
    exact h.fed
  · rw [calls_append, calls_queue, popped_append, entered_append, entered_queue, List.append_nil,
      List.map_append, h.drained, hhand, List.append_nil, hhand', List.map_append]
  · rw [entered_append, entered_queue, List.append_nil]
    exact h.exchange
  · rw [recorded_append, recorded_queue, List.append_nil]
    exact h.tracker
  · rw [recorded_append, recorded_queue, List.append_nil]
    exact h.processed
  · rw [entered_append, entered_queue, List.append_nil, hunrecorded', h.counted, hunrecorded]

/-- **A step of the consumer.** -/
theorem Inv.consumerStep (h : Inv commands log s) :
    Inv commands (log ++ (consumerStep commands.length s).2)
      (consumerStep commands.length s).1 := by
  rw [Benchmark.consumerStep]
  cases hc : s.consumer with
  | test =>
    refine h.silent rfl rfl rfl rfl rfl ?_ ?_ fun hreturned => ?_
    · rw [hc]
      simp only
      split <;> rfl
    · rw [hc]
      simp only
      split <;> rfl
    · simp only at hreturned
      split at hreturned
      · exact nomatch hreturned
      · rename_i hlt
        exact Nat.le_of_not_lt hlt
  | pop =>
    have hhand : s.consumer.inHand = [] := by rw [hc]; rfl
    have hunrecorded : s.consumer.unrecorded = [] := by rw [hc]; rfl
    rcases h.offers.consumer_out with hout | ⟨r, hout⟩
    · have hinv := h.ofPop (c := .pop) hhand hunrecorded (by rw [hout]; rfl) rfl (by simp)
        (by rw [hout]; rfl)
      simp only [hout] at hinv ⊢
      exact hinv
    · cases r with
      | none =>
        have hinv := h.ofPop (c := .test) hhand hunrecorded (by rw [hout]; rfl) rfl (by simp)
          (by rw [hout]; rfl)
        simp only [hout] at hinv ⊢
        exact hinv
      | some cmd =>
        have hinv := h.ofPop (c := .popped cmd) hhand hunrecorded (by rw [hout]; rfl) rfl (by simp)
          (by rw [hout]; rfl)
        simp only [hout] at hinv ⊢
        exact hinv
  | popped cmd =>
    refine h.silent rfl rfl rfl rfl rfl ?_ ?_ (fun hreturned => nomatch hreturned)
    · rw [hc]
      rfl
    · rw [hc]
      rfl
  | processStart cmd =>
    refine h.silent rfl rfl rfl rfl rfl ?_ ?_ (fun hreturned => nomatch hreturned)
    · rw [hc]
      rfl
    · rw [hc]
      rfl
  | process cmd =>
    have hdrained := h.drained
    have hcounted := h.counted
    rw [hc] at hdrained hcounted
    refine ⟨?_, ?_, ?_, ?_, ?_, ?_, ?_, fun hreturned => nomatch hreturned⟩
    · rw [calls_append]
      simpa [calls] using h.offers
    · rw [calls_append]
      simpa [calls] using h.fed
    · rw [calls_append, entered_append]
      simpa [calls, Benchmark.entered, Consumer.inHand] using hdrained
    · rw [entered_append, List.foldl_append, ← h.exchange]
      rfl
    · rw [recorded_append]
      simpa [recorded] using h.tracker
    · rw [recorded_append]
      simpa [recorded] using h.processed
    · rw [entered_append, List.length_append, hcounted]
      rfl
  | matchComplete cmd =>
    have hdrained := h.drained
    have hcounted := h.counted
    rw [hc] at hdrained hcounted
    refine ⟨?_, ?_, ?_, ?_, ?_, ?_, ?_, fun hreturned => nomatch hreturned⟩
    · rw [calls_append]
      simpa [calls] using h.offers
    · rw [calls_append]
      simpa [calls] using h.fed
    · rw [calls_append, entered_append]
      simpa [calls, Benchmark.entered, Consumer.inHand] using hdrained
    · rw [entered_append]
      simpa [Benchmark.entered] using h.exchange
    · rw [recorded_append]
      exact h.tracker.record _
    · rw [recorded_append, List.length_append, ← h.processed]
      rfl
    · rw [entered_append]
      simpa [Benchmark.entered, Consumer.unrecorded] using hcounted
  | returned =>
    rw [List.append_nil]
    exact h

/-- **A step of somebody** preserves the invariant. -/
theorem Inv.step (h : Inv commands log s) (a : Action) :
    Inv commands (log ++ (step commands s a).2) (step commands s a).1 := by
  have helapse : Inv commands log { s with clock := s.clock + a.elapsed } :=
    ⟨h.offers, h.fed, h.drained, h.exchange, h.tracker, h.processed, h.counted, h.returned⟩
  rw [Benchmark.step]
  cases a.turn with
  | producer => exact helapse.producerStep
  | consumer => exact helapse.consumerStep

/-- The invariant holds after every schedule. -/
theorem inv_run (Q : QueueType (Command ℚ)) (numOrders : ℕ) (tracker : LatencyTracker) (boot : ℤ)
    (acts : List Action) :
    Inv (makeCommands numOrders) ((runBenchmark Q numOrders tracker boot).log acts)
      ((runBenchmark Q numOrders tracker boot).run acts) := by
  induction acts using List.reverseRecOn with
  | nil => exact inv_init Q numOrders tracker boot
  | append_singleton acts a ih =>
    rw [Machine.log_concat, Machine.run_concat]
    exact ih.step a

/-! ## What a benchmark does -/

theorem enter_unstamped (ex : Exchange ℚ) (cmd : Command ℚ) :
    enter ex (unstamped cmd) = enter ex cmd := rfl

theorem makeCommands_unstamped (numOrders : ℕ) :
    (makeCommands numOrders).map unstamped = makeCommands numOrders := by
  rw [makeCommands, List.map_map]
  exact List.map_congr_left fun _ _ => rfl

/-- Entering orders is dispatching `NEW` commands. -/
theorem foldl_enter {cmds : List (Command ℚ)} (h : ∀ cmd ∈ cmds, cmd.type = .new) :
    cmds.foldl enter Exchange.empty = engine.run cmds := by
  induction cmds using List.reverseRecOn with
  | nil => rfl
  | append_singleton cmds cmd ih =>
    rw [List.foldl_append, ih fun c hc => h c (List.mem_append_left _ hc), engine_run_concat,
      dispatch, h cmd (List.mem_append_right _ (List.mem_singleton_self _))]
    rfl

theorem length_makeCommands (numOrders : ℕ) : (makeCommands numOrders).length = numOrders := by
  rw [makeCommands, List.length_map, List.length_range]

/-- What has been entered is the first part of the orders, and the exchange what an engine
makes of it. -/
theorem Inv.serial {numOrders : ℕ} (h : Inv (makeCommands numOrders) log s) :
    (entered log).length ≤ numOrders ∧
      s.exchange = engine.run ((makeCommands numOrders).take (entered log).length) := by
  have hprefix : (entered log).map unstamped <+: makeCommands numOrders := by
    have hpopped := h.popped_prefix
    rw [h.drained, makeCommands_unstamped, List.map_append] at hpopped
    exact (List.prefix_append _ _).trans hpopped
  have hlen := hprefix.length_le
  have htake := List.prefix_iff_eq_take.mp hprefix
  rw [List.length_map] at hlen htake
  rw [length_makeCommands] at hlen
  have hnew : ∀ cmd ∈ (makeCommands numOrders).take (entered log).length, cmd.type = .new := by
    intro cmd hcmd
    obtain ⟨i, -, rfl⟩ := List.mem_map.mp (List.mem_of_mem_take hcmd)
    rfl
  refine ⟨hlen, ?_⟩
  rw [h.exchange, ← foldl_enter hnew, ← htake, List.foldl_map]
  simp only [enter_unstamped]

/-- What the consumer counts is what has been entered, up to the order it has in hand. -/
theorem Inv.work {numOrders : ℕ} (h : Inv (makeCommands numOrders) log s) :
    s.tracker.e2eSamples.length = s.processed ∧
      (∃ k ≤ numOrders, s.processed ≤ k ∧ k ≤ s.processed + 1 ∧
        s.exchange = engine.run ((makeCommands numOrders).take k)) ∧
      (s.consumer = .returned → s.processed = numOrders ∧
        s.exchange = engine.run (makeCommands numOrders)) := by
  obtain ⟨hlen, hexchange⟩ := h.serial
  have hcounted := h.counted
  have hunrecorded : s.consumer.unrecorded.length ≤ 1 := by
    cases s.consumer <;> simp [Consumer.unrecorded]
  have hsamples := h.tracker.e2eSamples.length_eq
  rw [List.length_map, ← h.processed] at hsamples
  refine ⟨hsamples, ⟨_, hlen, by omega, by omega, hexchange⟩, fun hreturned => ?_⟩
  have hall := h.returned hreturned
  rw [length_makeCommands] at hall
  have hk : (Benchmark.entered log).length = numOrders := by omega
  refine ⟨by omega, ?_⟩
  rw [hexchange, hk, List.take_of_length_le (length_makeCommands numOrders).le]

/-- **The work of a benchmark** is that of one engine.  With any queue, after every
schedule of the two threads, the exchange is what an engine makes of the first of the
synthetic orders, all that have been processed and at most one more, and the tracker holds
one sample for each order processed.  When the consumer returns it has processed all of
them, once each and in order. -/
theorem runBenchmark_work (Q : QueueType (Command ℚ)) (numOrders : ℕ) (tracker : LatencyTracker)
    (boot : ℤ) (acts : List Action) :
    let s := (runBenchmark Q numOrders tracker boot).run acts
    s.tracker.e2eSamples.length = s.processed ∧
      (∃ k ≤ numOrders, s.processed ≤ k ∧ k ≤ s.processed + 1 ∧
        s.exchange = engine.run ((makeCommands numOrders).take k)) ∧
      (s.consumer = .returned → s.processed = numOrders ∧
        s.exchange = engine.run (makeCommands numOrders)) :=
  (inv_run Q numOrders tracker boot acts).work

instance (c : Consumer) : Decidable (c = .returned) :=
  match c with
  | .returned => isTrue rfl
  | .test => isFalse nofun
  | .pop => isFalse nofun
  | .popped _ => isFalse nofun
  | .processStart _ => isFalse nofun
  | .process _ => isFalse nofun
  | .matchComplete _ => isFalse nofun

/-- The two queues, with the threads in turn. -/
theorem runBenchmark_work_queues :
    let buffer : ℕ → Command ℚ := fun _ => Command.zero
    let spsc := runBenchmark (spscQueue 1024 (by decide) buffer) 2 {} 0
    let mutex := runBenchmark mutexQueue 2 {} 0
    let acts : List Action := (List.replicate 40 [⟨1, .producer⟩, ⟨2, .consumer⟩]).flatten
    (spsc.run acts).exchange = (mutex.run acts).exchange ∧
      (spsc.run acts).tracker.e2eSamples.length = 2 := by
  intro buffer spsc mutex acts
  have hspsc := runBenchmark_work (spscQueue 1024 (by decide) buffer) 2 {} 0 acts
  have hmutex := runBenchmark_work (mutexQueue (T := Command ℚ)) 2 {} 0 acts
  have hreturned : (spsc.run acts).consumer = .returned := by decide +kernel
  have hreturned' : (mutex.run acts).consumer = .returned := by decide +kernel
  refine ⟨(hspsc.2.2 hreturned).2.trans (hmutex.2.2 hreturned').2.symm, ?_⟩
  rw [hspsc.1, (hspsc.2.2 hreturned).1]

end Benchmark
end MatchingEngine
