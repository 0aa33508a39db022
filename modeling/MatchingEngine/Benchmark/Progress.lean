import MatchingEngine.Benchmark.Work
import MatchingEngine.Lib.Fairness
import MatchingEngine.Queue.Progress

/-!
# The benchmark finishes

The consumer counts what it has processed and returns when it has processed all, so a lost
order would make it wait for ever.  None is lost: two threads that both go on taking steps
bring the benchmark to its end, with any queue whose calls come to an end.  A step at which
a thread waits for a lock is none.

* `handover`: what is left to be done, and who does it.
* `runBenchmark_finishes`: a fair schedule ends with all orders processed.
-/

namespace MatchingEngine
namespace Benchmark

/-! ## Where the threads can stand -/

/-- The main thread is not past the last command. -/
def Producer.InRange (n : ℕ) : Producer → Prop
  | .recv i => i ≤ n
  | .call i _ => i < n
  | .push i => i < n

/-- The consumer has a command that it has not recorded. -/
def Consumer.carries : Consumer → Bool
  | .popped _ => true
  | .processStart _ => true
  | .process _ => true
  | .matchComplete _ => true
  | _ => false

variable {L : LiveQueueType (Command ℚ)}

/-- The invariant, with where the threads stand: the consumer pops only as long as it has
not processed all. -/
structure Live (commands : List (Command ℚ)) (log : List Happened)
    (s : Benchmark L.toQueueType) : Prop where
  inv : Inv commands log s
  producer : s.producer.InRange commands.length
  consumer : s.consumer = .pop → s.processed < commands.length

variable {commands : List (Command ℚ)} {log : List Happened} {s : Benchmark L.toQueueType}

/-- The main thread leaves the consumer where it is. -/
theorem producerStep_frame (commands : List (Command ℚ)) (s : Benchmark L.toQueueType) :
    (producerStep commands s).1.consumer = s.consumer ∧
      (producerStep commands s).1.processed = s.processed := by
  rw [producerStep]
  cases s.producer with
  | recv i =>
    simp only
    split <;> exact ⟨rfl, rfl⟩
  | call i recv =>
    simp only
    split <;> exact ⟨rfl, rfl⟩
  | push i =>
    simp only
    split <;> exact ⟨rfl, rfl⟩

/-- The consumer leaves the main thread where it is. -/
theorem consumerStep_frame (n : ℕ) (s : Benchmark L.toQueueType) :
    (consumerStep n s).1.producer = s.producer := by
  rw [consumerStep]
  cases s.consumer with
  | pop =>
    simp only
    split <;> rfl
  | _ => rfl

theorem Live.producerStep (h : Live commands log s) :
    Live commands (log ++ (producerStep commands s).2) (producerStep commands s).1 := by
  refine ⟨h.inv.producerStep, ?_, ?_⟩
  · have hrange := h.producer
    rw [Benchmark.producerStep]
    cases hp : s.producer with
    | recv i =>
      simp only
      split
      · assumption
      · exact h.producer
    | call i recv =>
      rw [hp] at hrange
      simp only
      split
      · exact h.producer
      · exact hrange
    | push i =>
      rw [hp] at hrange
      simp only
      split <;> exact hrange
  · have hframe := producerStep_frame commands s
    rw [hframe.1, hframe.2]
    exact h.consumer

theorem Live.consumerStep (h : Live commands log s) :
    Live commands (log ++ (consumerStep commands.length s).2)
      (consumerStep commands.length s).1 := by
  refine ⟨h.inv.consumerStep, ?_, ?_⟩
  · rw [consumerStep_frame]
    exact h.producer
  · have hpop := h.consumer
    rw [Benchmark.consumerStep]
    cases hc : s.consumer with
    | test =>
      simp only
      split
      · exact fun _ => by assumption
      · exact fun hreturned => by cases hreturned
    | pop =>
      simp only
      split
      · exact fun hreturned => by cases hreturned
      · exact fun hreturned => by cases hreturned
      · exact fun _ => hpop hc
    | returned => exact hpop
    | _ => exact fun hreturned => by cases hreturned

theorem Live.elapse (h : Live commands log s) (clock : ℤ) :
    Live commands log { s with clock := clock } :=
  ⟨⟨h.inv.offers, h.inv.fed, h.inv.drained, h.inv.exchange, h.inv.tracker, h.inv.processed,
    h.inv.counted, h.inv.returned⟩, h.producer, h.consumer⟩

/-! ## What is left to be done -/

/-- The steps that are left of the loop of the main thread. -/
def Producer.left (n : ℕ) : Producer → ℕ
  | .recv i => 3 * (n - i)
  | .call i _ => 3 * (n - 1 - i) + 2
  | .push i => 3 * (n - 1 - i) + 1

/-- The steps that are left of the loop of the consumer, up to the end of its next call of
`pop`. -/
def Consumer.left (popWork : ℕ) : Consumer → ℕ
  | .returned => 0
  | .pop => popWork
  | .test => popWork + 1
  | .matchComplete _ => popWork + 2
  | .process _ => popWork + 3
  | .processStart _ => popWork + 4
  | .popped _ => popWork + 5

/-- The commands in the queue. -/
def count (log : List Happened) : ℕ :=
  (pushed (calls log)).length - (popped (calls log)).length

/-- The consumer has something to do, or everything has been pushed and it can return. -/
def busy (n : ℕ) (x : List Happened × Benchmark L.toQueueType) : Bool :=
  decide (0 < count x.1) || x.2.consumer.carries || decide (n ≤ x.2.producer.index)

/-- The main thread hands the commands to the consumer.  What follows a pop counts less than
the command it has taken. -/
def handover (n : ℕ) : Fairness.Handover (List Happened × Benchmark L.toQueueType) Turn ℕ where
  producer := .producer
  consumer := .consumer
  left x := x.2.producer.left n
  busy := busy n
  drain x := (L.bound + 6) * count x.1 + x.2.consumer.left (L.popWork x.2.queue)
  free x := L.pushWork x.2.queue

/-- A step of a thread, or of nobody, brings the rest to its end, or waits. -/
abbrev Descends (n : ℕ) (t : Option Turn) (x y : List Happened × Benchmark L.toQueueType) :
    Prop :=
  Fairness.Descends (handover n).rank (handover n).helpful t x y

/-- The main thread is done with a part of a command. -/
theorem descends_of_left {n : ℕ} {t : Option Turn}
    {x y : List Happened × Benchmark L.toQueueType}
    (h : y.2.producer.left n < x.2.producer.left n) : Descends n t x y :=
  Fairness.Handover.descends_of_left t h

/-- The thread can only wait. -/
def waits (s : Benchmark L.toQueueType) : Turn → Bool
  | .producer =>
    match s.producer with
    | .push _ => L.producerWaits s.queue
    | _ => false
  | .consumer =>
    match s.consumer with
    | .pop => L.consumerWaits s.queue
    | _ => false

theorem waits_push {i : ℕ} (hp : s.producer = .push i) :
    waits s .producer = L.producerWaits s.queue := by
  rw [waits, hp]

theorem waits_pop (hpc : s.consumer = .pop) : waits s .consumer = L.consumerWaits s.queue := by
  rw [waits, hpc]

/-- Who takes a step at a turn. -/
def takes (s : Benchmark L.toQueueType) (t : Turn) : Option Turn :=
  if waits s t then none else some t

/-! ## The steps of the main thread -/

/-- What has been pushed. -/
theorem Live.length_pushed (h : Live commands log s) :
    (pushed (calls log)).length = s.producer.index := by
  have hfed := congrArg List.length h.inv.fed
  have hrange := h.producer
  rw [List.length_map, List.length_map, List.length_take] at hfed
  cases hp : s.producer <;> rw [hp] at hfed hrange <;>
    simp only [Producer.index, Producer.InRange] at hfed hrange ⊢ <;> omega

/-- What has been popped has been entered, or is in the hands of the consumer. -/
theorem Live.length_popped (h : Live commands log s) :
    (popped (calls log)).length = (entered log).length + s.consumer.inHand.length := by
  have hdrained := congrArg List.length h.inv.drained
  rwa [List.length_map, List.length_map, List.length_append] at hdrained

theorem Live.length_popped_le (h : Live commands log s) :
    (popped (calls log)).length ≤ (pushed (calls log)).length := by
  obtain ⟨item, hholds⟩ := h.inv.offers.holds
  exact (L.fifo hholds).length_le

/-- A step inside a push that is not the last: the consumer has to do what it had, and when
that is nothing the push is brought on. -/
theorem push_descends (n : ℕ) {out : List (Returned (Command ℚ))} (hpushed : pushed out = [])
    (hpopped : popped out = [])
    (hfree : count log = 0 → L.pushWork (L.producer s.queue).1 < L.pushWork s.queue) :
    Descends n (some .producer) (log, s)
      (log ++ out.map .queue, { s with queue := (L.producer s.queue).1 }) := by
  have hcount : count (log ++ out.map .queue) = count log := by
    rw [count, count, calls_append, calls_queue, pushed_append, popped_append, hpushed, hpopped,
      List.append_nil, List.append_nil]
  refine Fairness.Handover.descends_producer (H := handover n) (fun heq => nomatch heq) rfl ?_ ?_ ?_
  · simp only [handover, busy, hcount]
  · simp only [handover, hcount, L.popWork_producer]
  · intro hbusy
    simp only [handover, busy, Bool.or_eq_false_iff, decide_eq_false_iff_not] at hbusy
    exact hfree (by omega)

/-- **A step of the main thread** that does not wait brings it on, or it has to wait for
the consumer. -/
theorem Live.producer_descends (h : Live commands log s) (hwaits : waits s .producer = false) :
    Descends commands.length (some .producer) (log, s)
      (log ++ (Benchmark.producerStep commands s).2, (Benchmark.producerStep commands s).1) := by
  have hrange := h.producer
  have hoffers := h.inv.offers
  rw [Benchmark.producerStep]
  cases hp : s.producer with
  | recv i =>
    simp only
    split
    · rename_i hi
      refine descends_of_left ?_
      simp only [hp, Producer.left]
      omega
    · -- everything has been pushed, and the consumer returns
      rename_i hi
      have hbusy : busy commands.length (log, s) = true := by
        simp only [busy, hp, Producer.index, decide_eq_true (Nat.le_of_not_lt hi), Bool.or_true]
      rw [List.append_nil]
      exact Fairness.Handover.descends_producer (H := handover _) (fun heq => by cases heq) rfl
        rfl rfl fun hidle => absurd (hbusy.symm.trans hidle) (by decide)
  | call i recv =>
    rw [hp] at hrange
    have hi : i < commands.length := hrange
    simp only [List.getElem?_eq_getElem hi]
    refine descends_of_left ?_
    simp only [hp, Producer.left]
    omega
  | push i =>
    rw [hp] at hrange hoffers
    have hi : i < commands.length := hrange
    have hfree : L.producerWaits s.queue = false := by rwa [waits_push hp] at hwaits
    obtain ⟨item, cmd, hholds, -, -⟩ := hoffers
    rcases L.holds_producer hholds with ⟨hout, -⟩ | ⟨hout, -⟩
    · have hnone : pushed (L.producer s.queue).2 = [] ∧ popped (L.producer s.queue).2 = [] := by
        rcases hout with hout | hout <;> rw [hout] <;> exact ⟨rfl, rfl⟩
      have hless : count log = 0 → L.pushWork (L.producer s.queue).1 < L.pushWork s.queue := by
        intro hzero
        rw [count] at hzero
        rcases L.producer_works hholds hfree (by omega) with hok | hlt
        · rcases hout with hout | hout <;> rw [hout] at hok <;> cases hok
        · exact hlt
      have hpush := push_descends commands.length hnone.1 hnone.2 hless
      rw [hp] at hpush
      rcases hout with hout | hout <;> simp only [hout] at hpush ⊢ <;> exact hpush
    · refine descends_of_left ?_
      simp only [hout, hp, Producer.left]
      omega

/-! ## The steps of the consumer -/

theorem count_of_quiet {out : List Happened} (h : calls out = []) :
    count (log ++ out) = count log := by
  rw [count, count, calls_append, h, List.append_nil]

/-- What a step of `pop` leaves in the queue. -/
theorem count_pop {out : List (Returned (Command ℚ))} (hout : pushed out = []) :
    count (log ++ out.map .queue) = count log - (popped out).length := by
  rw [count, count, calls_append, calls_queue, pushed_append, popped_append, hout, List.append_nil,
    List.length_append, Nat.sub_sub]

/-- **A step of `pop`** from a queue with commands brings it on. -/
theorem Live.pop_works (h : Live commands log s) (hpc : s.consumer = .pop)
    (hfree : L.consumerWaits s.queue = false) (hcount : 0 < count log) :
    (L.bound + 6) * count (log ++ (Benchmark.consumerStep commands.length s).2) +
        (Benchmark.consumerStep commands.length s).1.consumer.left
          (L.popWork (Benchmark.consumerStep commands.length s).1.queue) <
      (L.bound + 6) * count log + L.popWork s.queue := by
  obtain ⟨item, hholds⟩ := h.inv.offers.holds
  have hbound := L.popWork_le (L.consumer s.queue).1
  have hitems : (popped (calls log)).length < (pushed (calls log)).length := by
    rw [count] at hcount
    omega
  rw [Benchmark.consumerStep]
  rcases L.consumer_works hholds hfree hitems with ⟨hout, hlt⟩ | ⟨hout, hlt⟩ | ⟨cmd, hout⟩
  · simp only [hpc, hout]
    rw [count_pop rfl]
    exact Nat.add_lt_add_left hlt _
  · simp only [hpc, hout]
    rw [count_pop rfl]
    exact Nat.add_lt_add_left hlt _
  · simp only [hpc, hout]
    rw [count_pop rfl, show (popped [Returned.pop (some cmd)]).length = 1 from rfl]
    obtain ⟨d, hd⟩ := Nat.exists_eq_add_of_lt hcount
    rw [Nat.zero_add] at hd
    rw [hd, Nat.add_sub_cancel, Nat.mul_succ, Consumer.left]
    omega

/-- The consumer, when it has something to do, brings it on. -/
theorem Live.consumer_work (h : Live commands log s) (hwaits : waits s .consumer = false)
    (hbusy : busy commands.length (log, s) = true) (hgoal : s.consumer ≠ .returned) :
    (L.bound + 6) * count (log ++ (Benchmark.consumerStep commands.length s).2) +
        (Benchmark.consumerStep commands.length s).1.consumer.left
          (L.popWork (Benchmark.consumerStep commands.length s).1.queue) <
      (L.bound + 6) * count log + s.consumer.left (L.popWork s.queue) := by
  cases hpc : s.consumer with
  | pop =>
    have hfree : L.consumerWaits s.queue = false := by rwa [waits_pop hpc] at hwaits
    refine h.pop_works hpc hfree (Nat.pos_of_ne_zero fun hzero => ?_)
    -- everything has been pushed and popped, so the consumer would not have called `pop`
    have hall : commands.length ≤ s.producer.index := by
      simpa [busy, hzero, hpc, Consumer.carries] using hbusy
    have hpopped := h.length_popped
    have hpushed := h.length_pushed
    have hcounted := h.inv.counted
    have hlt := h.consumer hpc
    rw [count] at hzero
    rw [hpc] at hpopped hcounted
    simp only [Consumer.inHand, Consumer.unrecorded, List.length_nil] at hpopped hcounted
    omega
  | test =>
    rw [Benchmark.consumerStep]
    simp only [hpc]
    rw [count_of_quiet rfl]
    split <;> simp only [Consumer.left] <;> omega
  | returned => exact absurd hpc hgoal
  | _ =>
    rw [Benchmark.consumerStep]
    simp only [hpc]
    rw [count_of_quiet rfl]
    simp only [Consumer.left]
    omega

/-- The consumer, when it has nothing to do, finds nothing. -/
theorem Live.consumer_idle (h : Live commands log s)
    (hbusy : busy commands.length (log, s) = false) :
    count (log ++ (Benchmark.consumerStep commands.length s).2) = 0 ∧
      (Benchmark.consumerStep commands.length s).1.consumer.carries = false := by
  simp only [busy, Bool.or_eq_false_iff, decide_eq_false_iff_not, Nat.not_lt, Nat.le_zero] at hbusy
  obtain ⟨⟨hcount, hcarries⟩, -⟩ := hbusy
  have hle := h.consumerStep.length_popped_le
  rw [Benchmark.consumerStep] at hle ⊢
  cases hpc : s.consumer with
  | test =>
    simp only
    rw [count_of_quiet rfl]
    split <;> exact ⟨hcount, rfl⟩
  | pop =>
    rw [hpc] at hle
    rcases h.inv.offers.consumer_out with hout | ⟨r, hout⟩
    · simp only [hout]
      exact ⟨by rw [count_pop rfl, hcount]; rfl, rfl⟩
    · cases r with
      | none =>
        simp only [hout]
        exact ⟨by rw [count_pop rfl, hcount]; rfl, rfl⟩
      | some cmd =>
        -- everything that has been pushed has been popped
        simp only [hout] at hle
        rw [calls_append, calls_queue, popped_append, pushed_append, List.length_append,
          List.length_append, show (popped [Returned.pop (some cmd)]).length = 1 from rfl,
          show (pushed [Returned.pop (some cmd)]).length = 0 from rfl] at hle
        rw [count] at hcount
        omega
  | returned =>
    rw [List.append_nil]
    exact ⟨hcount, hcarries⟩
  | _ =>
    rw [hpc] at hcarries
    cases hcarries

/-- The consumer has no part in a push. -/
theorem pushWork_consumerStep (n : ℕ) (s : Benchmark L.toQueueType) :
    L.pushWork (consumerStep n s).1.queue = L.pushWork s.queue := by
  rw [Benchmark.consumerStep]
  cases s.consumer with
  | pop =>
    simp only
    split <;> exact L.pushWork_consumer s.queue
  | _ => rfl

/-- **A step of the consumer** that does not wait: when it has something to do it brings it
on, and otherwise it leaves everything to the main thread. -/
theorem Live.consumer_descends (h : Live commands log s) (hwaits : waits s .consumer = false)
    (hgoal : s.consumer ≠ .returned) :
    Descends commands.length (some .consumer) (log, s)
      (log ++ (Benchmark.consumerStep commands.length s).2,
        (Benchmark.consumerStep commands.length s).1) := by
  have hproducer := consumerStep_frame commands.length s
  refine Fairness.Handover.descends_consumer (H := handover _) (fun heq => nomatch heq) ?_ ?_
    (fun hbusy => h.consumer_work hwaits hbusy hgoal) fun hbusy => ?_
  · simp only [handover, hproducer]
  · simp only [handover, pushWork_consumerStep]
  · obtain ⟨hcount, hcarries⟩ := h.consumer_idle hbusy
    simp only [handover, busy, Bool.or_eq_false_iff, decide_eq_false_iff_not] at hbusy
    simp only [handover, busy, hcount, hcarries, hproducer, decide_eq_false hbusy.2,
      lt_self_iff_false, decide_false, Bool.or_false]

/-! ## Fair schedules -/

/-- A thread that waits stays where it is. -/
theorem step_of_waits (commands : List (Command ℚ)) {t : Turn} (hwaits : waits s t = true)
    (elapsed : ℕ) :
    Benchmark.step commands s ⟨elapsed, t⟩ = ({ s with clock := s.clock + elapsed }, []) := by
  cases t with
  | producer =>
    rw [waits] at hwaits
    cases hp : s.producer with
    | push i =>
      rw [hp] at hwaits
      simp only [Benchmark.step, Benchmark.producerStep, hp, L.producer_waits hwaits]
      rfl
    | _ =>
      rw [hp] at hwaits
      cases hwaits
  | consumer =>
    rw [waits] at hwaits
    cases hpc : s.consumer with
    | pop =>
      rw [hpc] at hwaits
      simp only [Benchmark.step, Benchmark.consumerStep, hpc, L.consumer_waits hwaits]
      rfl
    | _ =>
      rw [hpc] at hwaits
      cases hwaits

/-- **A step of one of the threads**, some time later. -/
theorem Live.step (h : Live commands log s) (a : Action) :
    Live commands (log ++ (Benchmark.step commands s a).2) (Benchmark.step commands s a).1 ∧
      (s.consumer ≠ .returned → Descends commands.length (takes s a.turn) (log, s)
        (log ++ (Benchmark.step commands s a).2, (Benchmark.step commands s a).1)) := by
  obtain ⟨elapsed, turn⟩ := a
  have hlater := h.elapse (s.clock + elapsed)
  cases hwaits : waits s turn with
  | true =>
    rw [step_of_waits commands hwaits, List.append_nil, takes, if_pos hwaits]
    exact ⟨hlater, fun _ => Fairness.Handover.descends_none (H := handover _) (log, s)⟩
  | false =>
    rw [takes, hwaits]
    cases turn with
    | producer =>
      exact ⟨hlater.producerStep, fun _ => hlater.producer_descends hwaits⟩
    | consumer =>
      exact ⟨hlater.consumerStep, fun hgoal => hlater.consumer_descends hwaits hgoal⟩

/-- A consumer that has returned has returned. -/
theorem returned_step (commands : List (Command ℚ)) (h : s.consumer = .returned) (a : Action) :
    (Benchmark.step commands s a).1.consumer = .returned := by
  obtain ⟨elapsed, turn⟩ := a
  cases turn with
  | producer => exact (producerStep_frame commands _).1.trans h
  | consumer =>
    simp only [Benchmark.step, Benchmark.consumerStep, h]

/-- The schedule up to a point. -/
theorem upTo_succ (acts : ℕ → Action) (k : ℕ) :
    (List.range (k + 1)).map acts = (List.range k).map acts ++ [acts k] := by
  rw [List.range_succ, List.map_append, List.map_singleton]

/-- The threads stand where they can. -/
theorem live_upTo (L : LiveQueueType (Command ℚ)) (numOrders : ℕ) (tracker : LatencyTracker)
    (boot : ℤ) (acts : ℕ → Action) (k : ℕ) :
    Live (makeCommands numOrders)
      ((runBenchmark L.toQueueType numOrders tracker boot).log ((List.range k).map acts))
      ((runBenchmark L.toQueueType numOrders tracker boot).run ((List.range k).map acts)) := by
  induction k with
  | zero => exact ⟨inv_init L.toQueueType numOrders tracker boot, Nat.zero_le _,
      fun heq => nomatch heq⟩
  | succ k ih =>
    rw [upTo_succ, Machine.log_concat, Machine.run_concat]
    exact (ih.step (acts k)).1

/-- When the consumer has returned the main thread has nothing left to push. -/
theorem Live.producer_eq (h : Live commands log s) (hreturned : s.consumer = .returned) :
    s.producer = .recv commands.length := by
  have hall := h.inv.returned hreturned
  have hpushed := h.length_pushed
  have hpopped := h.length_popped
  have hle := h.length_popped_le
  have hcounted := h.inv.counted
  have hrange := h.producer
  cases hp : s.producer <;> rw [hp] at hpushed hrange <;>
    simp only [Producer.index, Producer.InRange] at hpushed hrange
  · congr 1
    omega
  · omega
  · omega

/-- **The benchmark finishes.**  With any queue whose calls come to an end, two threads that
both go on taking steps, in any order, come to the end: all orders have been pushed, popped
and processed once, the exchange is what an engine makes of them in turn, and the tracker
holds a sample for each.  A step of a thread that waits for a lock does not count. -/
theorem runBenchmark_finishes (L : LiveQueueType (Command ℚ)) (numOrders : ℕ)
    (tracker : LatencyTracker) (boot : ℤ) (acts : ℕ → Action)
    (hfair : Fairness.Fair fun k =>
      takes ((runBenchmark L.toQueueType numOrders tracker boot).run ((List.range k).map acts))
        (acts k).turn) :
    ∃ k, ∀ j, k ≤ j →
      let s := (runBenchmark L.toQueueType numOrders tracker boot).run ((List.range j).map acts)
      s.consumer = .returned ∧ s.producer = .recv numOrders ∧ s.processed = numOrders ∧
        s.tracker.e2eSamples.length = numOrders ∧
        s.exchange = engine.run (makeCommands numOrders) := by
  have hlive := live_upTo L numOrders tracker boot acts
  obtain ⟨k, -, hk⟩ := Fairness.eventually (handover (makeCommands numOrders).length).rank
    (handover (makeCommands numOrders).length).helpful (fun x => x.2.consumer = .returned)
    (x := fun k =>
      ((runBenchmark L.toQueueType numOrders tracker boot).log ((List.range k).map acts),
        (runBenchmark L.toQueueType numOrders tracker boot).run ((List.range k).map acts))) hfair
    (fun k hgoal => by
      simp only [upTo_succ, Machine.log_concat, Machine.run_concat]
      exact ((hlive k).step (acts k)).2 hgoal) 0
  refine ⟨k, fun j hj => ?_⟩
  have hreturned : ((runBenchmark L.toQueueType numOrders tracker boot).run
      ((List.range j).map acts)).consumer = .returned := by
    induction j, hj using Nat.le_induction with
    | base => exact hk
    | succ j _ ih =>
      rw [upTo_succ, Machine.run_concat]
      exact returned_step _ ih (acts j)
  obtain ⟨hsamples, -, hdone⟩ := (hlive j).inv.work
  have hproducer := (hlive j).producer_eq hreturned
  rw [length_makeCommands] at hproducer
  obtain ⟨hprocessed, hexchange⟩ := hdone hreturned
  exact ⟨hreturned, hproducer, hprocessed, hsamples.trans hprocessed, hexchange⟩

/-- At a ring nobody waits. -/
theorem takes_spsc {Capacity : ℕ} {hCapacity : 2 ≤ Capacity} {buffer : ℕ → Command ℚ}
    (s : Benchmark (liveSpscQueue Capacity hCapacity buffer).toQueueType) (t : Turn) :
    takes s t = some t := by
  have hwaits : waits s t = false := by
    cases t with
    | producer =>
      rw [waits]
      split <;> rfl
    | consumer =>
      rw [waits]
      split <;> rfl
  rw [takes, hwaits]
  rfl

/-- The ring of the source, with the threads in turn. -/
theorem runBenchmark_finishes_alternating :
    let queue := liveSpscQueue 1024 (by decide) fun _ => (Command.zero : Command ℚ)
    let acts : ℕ → Action := fun k => ⟨1, if k % 2 = 0 then .producer else .consumer⟩
    ∃ k, ∀ j, k ≤ j →
      ((runBenchmark queue.toQueueType 1000 {} 0).run ((List.range j).map acts)).exchange =
        engine.run (makeCommands 1000) := by
  intro queue acts
  have hfair : Fairness.Fair fun k => takes ((runBenchmark queue.toQueueType 1000 {} 0).run
      ((List.range k).map acts)) (acts k).turn := by
    simp only [queue, takes_spsc, acts]
    exact Fairness.fair_alternating (fun t => by cases t <;> simp) fun k => rfl
  obtain ⟨k, hk⟩ := runBenchmark_finishes queue 1000 {} 0 acts hfair
  exact ⟨k, fun j hj => (hk j hj).2.2.2.2⟩

end Benchmark
end MatchingEngine
