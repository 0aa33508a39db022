import MatchingEngine.Benchmark.Progress

/-!
# The benchmark over the locked queue can starve

`std::mutex` does not say who gets it next.  A consumer that finds the queue empty calls
`pop` again at once, and a main thread that is only ever scheduled while the consumer holds
the mutex never gets its first order in.  Both threads go on taking turns for ever, and
nothing is processed: what `runBenchmark_finishes` asks of a schedule cannot be left out.
-/

namespace MatchingEngine
namespace Benchmark

open MutexQueue (Threads Thread)

/-- The turns of a consumer that finds nothing, with one of the main thread while the
consumer holds the mutex. -/
def starvingTurn (k : ℕ) : Turn := if k % 6 = 3 then .producer else .consumer

theorem of_starvingTurn {k : ℕ} (h : starvingTurn k = .producer) : k % 6 = 3 := by
  by_contra hk
  rw [starvingTurn, if_neg hk] at h
  cases h

/-- Where the consumer stands, in its loop and in `pop`, and who holds the mutex. -/
def starvingPhase : ℕ → Consumer × Thread (Command ℚ) × Option ℕ
  | 0 => (.test, .idle, none)
  | 1 => (.pop, .idle, none)
  | 2 => (.pop, .lock .pop, none)
  | 3 => (.pop, .enter .pop, some 1)
  | 4 => (.pop, .enter .pop, some 1)
  | _ => (.pop, .unlock (.pop none), some 1)

/-- The main thread waits for the mutex, and nothing has been pushed. -/
structure Starving (k : ℕ) (s : Benchmark (mutexQueue (T := Command ℚ))) : Prop where
  producer : ∃ i, s.producer = .push i
  waiting : ∃ item, Threads.threads s.queue 0 = .lock (.push item)
  empty : (Threads.queue s.queue).queue = []
  processed : s.processed = 0
  consumer : s.consumer = (starvingPhase k).1
  popping : Threads.threads s.queue 1 = (starvingPhase k).2.1
  owner : Threads.owner s.queue = (starvingPhase k).2.2

/-! ## One turn -/

section Queue

variable {q : Threads (Command ℚ)}

theorem consumer_idle (h : q.threads 1 = .idle) :
    MutexQueue.consumer q = (q.goto 1 (.lock .pop), []) := by
  simp only [MutexQueue.consumer, MutexQueue.turn, h]

theorem consumer_lock (h : q.threads 1 = .lock .pop) (howner : q.owner = none) :
    MutexQueue.consumer q = ({ q with owner := some 1 }.goto 1 (.enter .pop), []) := by
  simp only [MutexQueue.consumer, MutexQueue.turn, MutexQueue.threadStep, h, howner, List.map_nil]

theorem consumer_enter (h : q.threads 1 = .enter .pop) (hempty : q.queue.queue = []) :
    MutexQueue.consumer q = (q.goto 1 (.unlock (.pop none)), []) := by
  simp only [MutexQueue.consumer, MutexQueue.turn, MutexQueue.threadStep, h, hempty,
    List.isEmpty_nil, if_true, List.map_nil]

theorem consumer_unlock (h : q.threads 1 = .unlock (.pop none)) :
    MutexQueue.consumer q = ({ q with owner := none }.goto 1 .idle, [.pop none]) := by
  simp only [MutexQueue.consumer, MutexQueue.turn, MutexQueue.threadStep, h, List.map_cons,
    List.map_nil]

end Queue

variable {commands : List (Command ℚ)} {s : Benchmark (mutexQueue (T := Command ℚ))}

/-- The consumer goes on in its loop, and thread 1 in `pop`. -/
theorem Starving.goto {k : ℕ} (h : Starving k s) (m : ℕ) (clock : ℤ) :
    Starving m { s with
      clock := clock
      queue := (⟨Threads.queue s.queue, (starvingPhase m).2.2, Threads.threads s.queue⟩ :
        Threads _).goto 1 (starvingPhase m).2.1
      consumer := (starvingPhase m).1 } := by
  obtain ⟨item, hwaiting⟩ := h.waiting
  refine ⟨h.producer, ⟨item, ?_⟩, h.empty, h.processed, rfl, ?_, rfl⟩
  · exact (Threads.goto_of_ne (by decide) _ _).trans hwaiting
  · exact Threads.goto_self _ _ _

/-- The main thread finds the mutex taken. -/
theorem Starving.blocked (h : Starving 3 s) : Threads.waits s.queue 0 = true := by
  obtain ⟨item, hwaiting⟩ := h.waiting
  simp only [Threads.waits, hwaiting, h.owner, starvingPhase]

/-- A step of `pop` that has not returned. -/
theorem Starving.pop {k m : ℕ} (h : Starving k s) (hk : (starvingPhase k).1 = .pop)
    (hm : (starvingPhase m).1 = .pop)
    (hstep : MutexQueue.consumer s.queue = ((⟨Threads.queue s.queue, (starvingPhase m).2.2,
      Threads.threads s.queue⟩ : Threads _).goto 1 (starvingPhase m).2.1, [])) :
    Starving m (Benchmark.step commands s ⟨1, .consumer⟩).1 := by
  have hstep' : (mutexQueue (T := Command ℚ)).consumer s.queue = _ := hstep
  have hgoto := h.goto m (s.clock + (1 : ℕ))
  rw [hm] at hgoto
  simp only [Benchmark.step, Benchmark.consumerStep, h.consumer, hk, hstep']
  exact hgoto

/-- A turn leads to the next. -/
theorem Starving.step {k : ℕ} (h : Starving (k % 6) s) (hcommands : 0 < commands.length) :
    Starving ((k + 1) % 6) (Benchmark.step commands s ⟨1, starvingTurn k⟩).1 := by
  have hk : k % 6 < 6 := Nat.mod_lt _ (by decide)
  obtain hm | hm | hm | hm | hm | hm : k % 6 = 0 ∨ k % 6 = 1 ∨ k % 6 = 2 ∨ k % 6 = 3 ∨ k % 6 = 4 ∨
    k % 6 = 5 := by omega
  · rw [starvingTurn, hm, if_neg (by decide), show (k + 1) % 6 = 1 by omega]
    rw [hm] at h
    have hlt : s.processed < commands.length := h.processed ▸ hcommands
    simp only [Benchmark.step, Benchmark.consumerStep, h.consumer, starvingPhase]
    exact ⟨h.producer, h.waiting, h.empty, h.processed, if_pos hlt, h.popping, h.owner⟩
  · rw [starvingTurn, hm, if_neg (by decide), show (k + 1) % 6 = 2 by omega]
    rw [hm] at h
    exact h.pop rfl rfl (h.owner ▸ consumer_idle h.popping)
  · rw [starvingTurn, hm, if_neg (by decide), show (k + 1) % 6 = 3 by omega]
    rw [hm] at h
    exact h.pop rfl rfl (consumer_lock h.popping h.owner)
  · rw [starvingTurn, hm, if_pos rfl, show (k + 1) % 6 = 4 by omega]
    rw [hm] at h
    have hwaits : waits (L := liveMutexQueue) s .producer = true := by
      obtain ⟨i, hp⟩ := h.producer
      exact (waits_push (L := liveMutexQueue) hp).trans h.blocked
    have hstep := step_of_waits commands hwaits 1
    have hsame : (Benchmark.step commands s ⟨1, .producer⟩).1 = _ := congrArg Prod.fst hstep
    rw [hsame]
    exact ⟨h.producer, h.waiting, h.empty, h.processed, h.consumer, h.popping, h.owner⟩
  · rw [starvingTurn, hm, if_neg (by decide), show (k + 1) % 6 = 5 by omega]
    rw [hm] at h
    exact h.pop rfl rfl (h.owner ▸ consumer_enter h.popping h.empty)
  · rw [starvingTurn, hm, if_neg (by decide), show (k + 1) % 6 = 0 by omega]
    rw [hm] at h
    have hstep : (mutexQueue (T := Command ℚ)).consumer s.queue = _ := consumer_unlock h.popping
    have hgoto := h.goto 0 (s.clock + (1 : ℕ))
    simp only [Benchmark.step, Benchmark.consumerStep, h.consumer, starvingPhase, hstep]
    exact hgoto

/-! ## The schedule -/

/-- The main thread calls `push`, and the starving turns begin. -/
def starvingActs (k : ℕ) : Action := ⟨1, if k < 2 then .producer else starvingTurn (k - 2)⟩

theorem starvingActs_add (k : ℕ) : starvingActs (2 + k) = ⟨1, starvingTurn k⟩ := by
  rw [starvingActs, if_neg (by omega), Nat.add_sub_cancel_left]

/-- The main thread has called `push`. -/
theorem starving_init {numOrders : ℕ} (h : 0 < numOrders) (tracker : LatencyTracker) (boot : ℤ) :
    Starving 0 ((runBenchmark mutexQueue numOrders tracker boot).run
      ((List.range 2).map starvingActs)) := by
  have hcommands : 0 < (makeCommands numOrders).length := by rwa [length_makeCommands]
  show Starving 0 (Benchmark.step (makeCommands numOrders) (Benchmark.step
    (makeCommands numOrders) (runBenchmark mutexQueue numOrders tracker boot).init
    ⟨1, .producer⟩).1 ⟨1, .producer⟩).1
  simp only [Benchmark.step, producerStep, runBenchmark, if_pos hcommands,
    List.getElem?_eq_getElem hcommands]
  exact ⟨⟨0, rfl⟩, ⟨_, rfl⟩, rfl, rfl, rfl, rfl, rfl⟩

theorem starving_run {numOrders : ℕ} (h : 0 < numOrders) (tracker : LatencyTracker) (boot : ℤ)
    (k : ℕ) :
    Starving (k % 6) ((runBenchmark mutexQueue numOrders tracker boot).run
      ((List.range (2 + k)).map starvingActs)) := by
  induction k with
  | zero => exact starving_init h tracker boot
  | succ k ih =>
    rw [← Nat.add_assoc, upTo_succ, Machine.run_concat, starvingActs_add]
    exact ih.step (by rwa [length_makeCommands])

/-- **The locked queue may starve the main thread.**  With orders to process there is a
schedule in which both threads take turns for ever, the queue stays empty, the main thread
finds the mutex taken whenever it has a turn, and no order is ever processed. -/
theorem runBenchmark_starves (numOrders : ℕ) (h : 0 < numOrders) (tracker : LatencyTracker)
    (boot : ℤ) :
    ∃ acts : ℕ → Action, (Fairness.Fair fun k => some (acts k).turn) ∧
      ∀ k, 2 ≤ k →
        let s := (runBenchmark mutexQueue numOrders tracker boot).run ((List.range k).map acts)
        s.processed = 0 ∧ s.consumer ≠ .returned ∧ (∃ i, s.producer = .push i) ∧
          (Threads.queue s.queue).queue = [] ∧
          ((acts k).turn = .producer → Threads.waits s.queue 0 = true) := by
  refine ⟨starvingActs, ?_, fun k hk => ?_⟩
  · rintro (_ | _) k
    · refine ⟨2 + (6 * k + 3), by omega, ?_⟩
      simp only
      rw [starvingActs_add, starvingTurn, if_pos (by omega)]
    · refine ⟨2 + 6 * k, by omega, ?_⟩
      simp only
      rw [starvingActs_add, starvingTurn, if_neg (by omega)]
  · obtain ⟨d, rfl⟩ := Nat.exists_eq_add_of_le hk
    have hstarving := starving_run h tracker boot d
    refine ⟨hstarving.processed, ?_, hstarving.producer, hstarving.empty, fun hturn => ?_⟩
    · rw [hstarving.consumer]
      generalize d % 6 = m
      match m with
      | 0 | 1 | 2 | 3 | 4 | _ + 5 => exact fun heq => nomatch heq
    · -- the main thread has its turns in the phase in which the consumer holds the mutex
      rw [starvingActs_add] at hturn
      rw [of_starvingTurn hturn] at hstarving
      exact hstarving.blocked

/-- A thousand orders, as in the source. -/
theorem runBenchmark_starves_thousand :
    ∃ acts : ℕ → Action, (Fairness.Fair fun k => some (acts k).turn) ∧
      ∀ k, 2 ≤ k →
        let s := (runBenchmark mutexQueue 1000 {} 0).run ((List.range k).map acts)
        s.processed = 0 ∧ (Threads.queue s.queue).queue = [] := by
  obtain ⟨acts, hfair, hacts⟩ := runBenchmark_starves 1000 (by decide) {} 0
  exact ⟨acts, hfair, fun k hk => ⟨(hacts k hk).1, (hacts k hk).2.2.2.1⟩⟩

end Benchmark
end MatchingEngine
