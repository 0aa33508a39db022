import MatchingEngine.Lib.Fairness
import MatchingEngine.Queue.Progress
import MatchingEngine.Server.Arrivals
import MatchingEngine.Server.Serial
import Mathlib.Data.Prod.Lex

/-!
# The server makes progress

While `running` is set nobody is stuck.  Two threads that both go on taking steps, in
whatever order, bring every line that has arrived into the exchange, and come to rest:
`main` may find the ring full and try again, the matching thread may find it empty and
try again, but one of them always helps.

* `Posted`: where the threads can stand.
* `handover`: what is left to be done, and who does it.
* `pipeline_settles`: a fair schedule comes to rest with nothing left.
-/

namespace MatchingEngine

variable {P : Type}

namespace Pipeline

open SPSCQueue (turn)

/-! ## What is left to be done -/

/-- `main` is in its loop. -/
def Main.Looping : Main → Prop
  | .test => True
  | .wait => True
  | .events _ => True
  | .lines .. => True
  | .push .. => True
  | _ => False

/-- The events that are left. -/
def Main.batchWork : Main → ℕ
  | .test => 1
  | .events rest => 2 * rest.length + 2
  | .lines _ rest => 2 * rest.length + 3
  | .push _ rest => 2 * rest.length + 3
  | _ => 0

/-- The lines that are left of an event. -/
def Main.lineWork (idle : Bool) : Main → ℕ
  | .lines todo _ => 3 * todo.length
  | .push todo _ => 3 * todo.length + if idle then 1 else 2
  | _ => 0

/-- The producer is not in a call. -/
def isIdle {T : Type} (p : SPSCQueue.Producer T) : Bool := p.item.isNone

/-- The steps that are left of the loop of the matching thread.  What follows a pop counts
less than the item it has taken. -/
def Matching.work (consumer : SPSCQueue.Consumer (Command P)) : Matching P → ℕ
  | .test => 10
  | .pop => consumer.work
  | .popped _ => 15
  | .processStart _ => 14
  | .dispatch _ => 13
  | .matchComplete _ => 12
  | .returned => 0

/-- The commands in the ring. -/
def count (log : List (Happened P)) : ℕ :=
  (pushed (calls log)).length - (popped (calls log)).length

/-- The two threads. -/
inductive Thread where
  | main
  | matching

/-- The thread that takes a turn. -/
def Turn.thread : Turn → Option Thread
  | .main _ => some .main
  | .matching => some .matching
  | _ => none

variable [LinearOrder P]

/-- The matching thread has something to do. -/
def busy (log : List (Happened P)) (s : Pipeline P) : Bool :=
  decide (0 < count log) || !s.matching.inHand.isEmpty

/-- What is left of a line. -/
def lineWork (s : Pipeline P) : ℕ := s.main.lineWork (isIdle s.spscQueue.producer)

/-- `main` hands its commands to the matching thread. -/
def handover : Fairness.Handover (List (Happened P) × Pipeline P) Thread (ℕ ×ₗ ℕ) where
  producer := .main
  consumer := .matching
  left x := toLex (x.2.main.batchWork, lineWork x.2)
  busy x := busy x.1 x.2
  drain x := 16 * count x.1 + x.2.matching.work x.2.spscQueue.consumer
  free x := x.2.spscQueue.producer.work 1024

/-- A step of a thread brings the rest to its end, or waits for the other one. -/
abbrev Descends (t : Thread) (x y : List (Happened P) × Pipeline P) : Prop :=
  Fairness.Descends handover.rank handover.helpful (some t) x y

section Left

variable {t : Thread} {x y : List (Happened P) × Pipeline P}

/-- An event is done with. -/
theorem descends_of_batch (h : y.2.main.batchWork < x.2.main.batchWork) : Descends t x y :=
  Fairness.Handover.descends_of_left _ (Prod.Lex.toLex_lt_toLex.mpr (Or.inl h))

/-- A line is done with. -/
theorem descends_of_line (hbatch : y.2.main.batchWork = x.2.main.batchWork)
    (h : lineWork y.2 < lineWork x.2) : Descends t x y :=
  Fairness.Handover.descends_of_left _ (Prod.Lex.toLex_lt_toLex.mpr (Or.inr ⟨hbatch, h⟩))

end Left

/-! ## Where the threads can stand -/

/-- Between two calls of `pop` its steps are at the first; and the matching thread only
returns when `running` is cleared. -/
structure Posted (s : Pipeline P) : Prop where
  consumer : s.matching ≠ .pop → s.spscQueue.consumer = .loadHead
  returned : s.matching = .returned → s.running = false

variable [Zero P] {toDouble : ℚ → Option P} {memory : Command P}

/-- A step of `main`. -/
theorem Posted.mainStep {s : Pipeline P} (h : Posted s) (systemClock : ℤ) :
    Posted (mainStep toDouble memory systemClock s).1 := by
  have hf : Frame s (Pipeline.mainStep toDouble memory systemClock s).1
      (Pipeline.mainStep toDouble memory systemClock s).2 := mainStep_frame systemClock s
  refine ⟨fun hne => ?_, fun hret => ?_⟩
  · rw [hf.matching] at hne
    exact hf.consumer.trans (h.consumer hne)
  · rw [hf.matching] at hret
    exact hf.running (h.returned hret)

omit [Zero P] in
/-- A step of the matching thread. -/
theorem Posted.matchingStep {s : Pipeline P} (h : Posted s) : Posted (matchingStep s).1 := by
  have hconsumer := h.consumer
  rw [Pipeline.matchingStep]
  cases hpc : s.matching with
  | test =>
    rw [hpc] at hconsumer
    refine ⟨fun _ => hconsumer (fun heq => by cases heq), fun hret => ?_⟩
    by_contra hrunning
    simp only [Bool.not_eq_false] at hrunning
    simp only [hrunning] at hret
    cases hret
  | pop =>
    have hcases := (SPSCQueue.consumerStep_spec 1024 s.spscQueue).2
    refine ⟨fun hne => ?_, fun hret => ?_⟩
    · rcases hcases with hout | ⟨item, -, hloaded⟩
      · simp only [turn, hout] at hne
        exact absurd rfl hne
      · exact hloaded
    · rcases hcases with hout | ⟨item, hout, -⟩
      · simp only [turn, hout] at hret
        cases hret
      · simp only [turn, hout] at hret
        cases item <;> cases hret
  | popped cmd =>
    rw [hpc] at hconsumer
    simp only
    split <;> exact ⟨fun _ => hconsumer (fun heq => by cases heq), fun hret => by cases hret⟩
  | dispatch cmd =>
    rw [hpc] at hconsumer
    simp only
    split <;> exact ⟨fun _ => hconsumer (fun heq => by cases heq), fun hret => by cases hret⟩
  | returned => exact h
  | _ =>
    rw [hpc] at hconsumer
    exact ⟨fun _ => hconsumer (fun heq => by cases heq), fun hret => by cases hret⟩

/-- The threads stand where they can after every schedule. -/
theorem posted_run (buffer : ℕ → Command P) (boot : ℤ) (acts : List Action) :
    Posted ((pipeline toDouble memory buffer boot).run acts) := by
  refine Machine.run_invariant _ ⟨fun _ => rfl, fun hret => nomatch hret⟩ (fun s a h => ?_) acts
  have hclock : Posted { s with clock := s.clock + a.elapsed } := ⟨h.consumer, h.returned⟩
  show Posted (turnStep toDouble memory { s with clock := s.clock + a.elapsed } a.turn).1
  cases a.turn with
  | signal => exact ⟨h.consumer, fun _ => rfl⟩
  | main systemClock => exact hclock.mainStep systemClock
  | arrive batch =>
    rw [turnStep]
    split <;> exact ⟨h.consumer, h.returned⟩
  | epollError =>
    rw [turnStep]
    split <;> exact ⟨h.consumer, h.returned⟩
  | matching => exact hclock.matchingStep

/-! ## The steps of `main` -/

/-- `main` is in its loop, and `running` is set. -/
structure Live (toDouble : ℚ → Option P) (log : List (Happened P)) (s : Pipeline P) : Prop where
  inv : Inv toDouble log s
  posted : Posted s
  running : s.running = true
  looping : s.main.Looping

section Main

variable {log : List (Happened P)} {s : Pipeline P}

/-- A step of the loop stays in the loop. -/
theorem mainStep_loops (systemClock : ℤ) (hrunning : s.running = true)
    (hlooping : s.main.Looping) :
    (mainStep toDouble memory systemClock s).1.running = true ∧
      (mainStep toDouble memory systemClock s).1.main.Looping := by
  rw [mainStep]
  cases hpc : s.main with
  | test =>
    simp only [hrunning, if_pos]
    exact ⟨trivial, trivial⟩
  | wait => exact ⟨hrunning, hlooping⟩
  | events batch => cases batch <;> exact ⟨hrunning, trivial⟩
  | lines todo rest =>
    cases todo with
    | nil => exact ⟨hrunning, trivial⟩
    | cons c todo =>
      simp only [lineStep]
      split <;> exact ⟨hrunning, trivial⟩
  | push todo rest =>
    simp only
    split
    · exact ⟨hrunning, trivial⟩
    · exact ⟨hrunning, hlooping⟩
  | _ =>
    rw [hpc] at hlooping
    exact hlooping.elim

theorem Live.mainStep (h : Live toDouble log s) (systemClock : ℤ) :
    Live toDouble (log ++ (mainStep toDouble memory systemClock s).2)
      (mainStep toDouble memory systemClock s).1 :=
  ⟨h.inv.turnStep (.main systemClock), h.posted.mainStep systemClock,
    (mainStep_loops systemClock h.running h.looping).1,
    (mainStep_loops systemClock h.running h.looping).2⟩

omit [Zero P] in
/-- The ring is empty when no command is in it. -/
theorem head_eq_tail (hring : SPSCQueue.Inv 1024 (calls log) s.spscQueue) (h : count log = 0) :
    s.spscQueue.queue.head = s.spscQueue.queue.tail := by
  have hle := hring.rep.le
  rw [count] at h
  exact hring.rep.empty_iff.mpr (by omega)

omit [Zero P] in
/-- As long as `main` waits and something is under way, the matching thread is busy. -/
theorem busy_of_not_quiet (hring : SPSCQueue.Inv 1024 (calls log) s.spscQueue)
    (hwait : s.main = .wait) (h : ¬ s.Quiet) : busy log s = true := by
  by_contra hbusy
  simp only [busy, Bool.or_eq_true, decide_eq_true_eq, Bool.not_eq_true', not_or, Nat.not_lt,
    Nat.le_zero, Bool.not_eq_false, List.isEmpty_iff] at hbusy
  exact h ⟨hwait, head_eq_tail hring hbusy.1, hbusy.2⟩

omit [Zero P] in
/-- A step inside a push that is not the last: the matching thread has to do what it had,
and when that is nothing the push is brought on. -/
theorem push_descends {s' : Pipeline P} {out : List (Happened P)}
    (hmatching : s'.matching = s.matching)
    (hconsumer : s'.spscQueue.consumer = s.spscQueue.consumer) (hmain : s'.main = s.main)
    (hpushed : pushed (calls out) = []) (hpopped : popped (calls out) = [])
    (hidle : isIdle s'.spscQueue.producer = isIdle s.spscQueue.producer)
    (hfree : count log = 0 →
      s'.spscQueue.producer.work 1024 < s.spscQueue.producer.work 1024) :
    Descends .main (log, s) (log ++ out, s') := by
  have hcount : count (log ++ out) = count log := by
    rw [count, count, calls_append, pushed_append, popped_append, hpushed, hpopped,
      List.append_nil, List.append_nil]
  refine Fairness.Handover.descends_producer (H := handover) (fun heq => nomatch heq) ?_ ?_ ?_ ?_
  · simp only [handover, lineWork, hmain, hidle]
  · simp only [handover, busy, hcount, hmatching]
  · simp only [handover, hcount, hmatching, hconsumer]
  · intro hbusy
    simp only [handover, busy, Bool.or_eq_false_iff, decide_eq_false_iff_not] at hbusy
    exact hfree (by omega)

omit [Zero P] in
/-- **A step inside a push** ends it, or brings it on, or it has to wait for room. -/
theorem producerStep_descends (hring : SPSCQueue.Inv 1024 (calls log) s.spscQueue)
    {todo : List Framer.Call} {rest : List Arrival} (hpc : s.main = .push todo rest)
    {cmd : Command P} (hitem : s.spscQueue.producer.item = some cmd) :
    Descends .main (log, s)
      (log ++ (queueStep s .producer).2, (queueStep s .producer).1) := by
  have hspec := SPSCQueue.producerStep_spec 1024 s.spscQueue
  have hcalls := (queueStep_log s .producer).2.2
  rcases SPSCQueue.item_producerStep 1024 hitem with ⟨hout, hitem'⟩ | ⟨hout, hitem'⟩
  · refine push_descends rfl hspec.1 rfl ?_ (hcalls ▸ hspec.2.1) ?_ fun hzero => ?_
    · rw [hcalls]
      rcases hout with hout | hout <;> exact (congrArg pushed hout).trans rfl
    · rw [isIdle, isIdle, hitem]
      exact congrArg Option.isNone hitem'
    · rcases hring.producer_work (by decide) (by rw [count] at hzero; omega) hitem with hok | hlt
      · rcases hout with hout | hout <;> exact nomatch hout.symm.trans hok
      · exact hlt
  · -- the push has returned `true`
    have hidle : isIdle s.spscQueue.producer = false := by rw [isIdle, hitem]; rfl
    have hidle' : isIdle (queueStep s .producer).1.spscQueue.producer = true :=
      congrArg Option.isNone hitem'
    have hmain : (queueStep s .producer).1.main = s.main := rfl
    refine descends_of_line (congrArg _ hmain) ?_
    rw [lineWork, lineWork, hidle, hidle', hmain, hpc]
    exact Nat.lt_succ_self _

/-- **A step of `main`** brings it on, or it has to wait for the matching thread. -/
theorem Live.main_descends (h : Live toDouble log s) (hbusy : ¬ s.Quiet) (systemClock : ℤ) :
    Descends .main (log, s)
      (log ++ (Pipeline.mainStep toDouble memory systemClock s).2,
        (Pipeline.mainStep toDouble memory systemClock s).1) := by
  have hlooping := h.looping
  rw [Pipeline.mainStep]
  cases hpc : s.main with
  | test =>
    refine descends_of_batch ?_
    simp only [h.running, if_pos, hpc]
    decide
  | wait =>
    have h' := busy_of_not_quiet h.inv.ring hpc hbusy
    simp only [List.append_nil]
    exact Fairness.Handover.descends_producer (H := handover) (fun heq => by cases heq) rfl rfl rfl
      fun hidle => absurd (h'.symm.trans hidle) (by decide)
  | events batch =>
    cases batch with
    | nil =>
      refine descends_of_batch ?_
      simp only [hpc, Main.batchWork, List.length_nil]
      omega
    | cons a rest =>
      refine descends_of_batch ?_
      simp only [hpc, Main.batchWork, List.length_cons]
      omega
  | lines todo rest =>
    cases todo with
    | nil =>
      refine descends_of_batch ?_
      simp only [hpc, Main.batchWork]
      omega
    | cons c todo =>
      simp only [lineStep]
      split
      · refine descends_of_line ?_ ?_
        · rw [hpc]
          rfl
        · simp only [lineWork, hpc, Main.lineWork, List.length_cons]
          omega
      · refine descends_of_line ?_ ?_
        · rw [hpc]
          rfl
        · simp only [lineWork, hpc, Main.lineWork, List.length_cons]
          split <;> omega
  | push todo rest =>
    simp only
    split
    · rename_i hidle
      refine descends_of_line ?_ ?_
      · rw [hpc]
        rfl
      · simp only [lineWork, hpc, hidle, Main.lineWork, isIdle, SPSCQueue.Producer.item,
          Option.isNone_none, if_pos]
        omega
    · rename_i hidle
      obtain ⟨cmd, hitem⟩ := SPSCQueue.Producer.exists_item hidle
      exact producerStep_descends h.inv.ring hpc hitem
  | _ =>
    rw [hpc] at hlooping
    exact hlooping.elim

end Main

/-! ## The steps of the matching thread -/

section Matching

variable {log : List (Happened P)} {s : Pipeline P}

omit [Zero P] in
/-- **A step of `pop`** from a ring with commands brings it on. -/
theorem pop_work (hring : SPSCQueue.Inv 1024 (calls log) s.spscQueue) (h : 0 < count log) :
    16 * count (log ++ (queueStep s .consumer).2) +
        (afterPop (turn 1024 s.spscQueue .consumer).2).work
          (turn 1024 s.spscQueue .consumer).1.consumer <
      16 * count log + s.spscQueue.consumer.work := by
  have hcount : ∀ out, (turn 1024 s.spscQueue .consumer).2 = out → pushed out = [] →
      count (log ++ (queueStep s .consumer).2) =
        (pushed (calls log)).length - ((popped (calls log)).length + (popped out).length) := by
    rintro out rfl hpushed
    rw [count, calls_append, (queueStep_log s .consumer).2.2, pushed_append, popped_append,
      hpushed, List.append_nil, List.length_append]
  have hspec := (SPSCQueue.consumerStep_spec 1024 s.spscQueue).2
  rw [count] at h
  rcases hring.consumer_work (by omega) with ⟨hout, hlt⟩ | ⟨hout, hlt⟩ | ⟨item, hout⟩
  · rw [hcount [] hout rfl, count, turn, hout]
    exact Nat.add_lt_add_left hlt _
  · rcases hspec with hnil | ⟨-, -, hloaded⟩
    · exact nomatch hnil.symm.trans hout
    · rw [hcount [.pop none] hout rfl, count, turn, hout]
      rw [hloaded] at hlt
      exact Nat.add_lt_add_left hlt _
  · rw [hcount [.pop (some item)] hout rfl, count, turn, hout,
      show (popped [Returned.pop (some item)]).length = 1 from rfl]
    simp only [afterPop, Matching.work]
    omega

omit [Zero P] [LinearOrder P] in
theorem count_of_quiet {out : List (Happened P)} (h : calls out = []) :
    count (log ++ out) = count log := by
  rw [count, count, calls_append, h, List.append_nil]

/-- The matching thread, when it has something to do, brings it on. -/
theorem Live.matching_work (h : Live toDouble log s) (hbusy : busy log s = true) :
    16 * count (log ++ (matchingStep s).2) +
        (matchingStep s).1.matching.work (matchingStep s).1.spscQueue.consumer <
      16 * count log + s.matching.work s.spscQueue.consumer := by
  have hconsumer := h.posted.consumer
  have hprint : ∀ l : List (Event P), calls (l.map Happened.printed) = [] :=
    fun l => (printed_log l).1
  rw [matchingStep]
  cases hpc : s.matching with
  | test =>
    rw [hpc] at hconsumer
    rw [count_of_quiet rfl]
    simp only [h.running, if_true, hconsumer (fun heq => by cases heq), Matching.work,
      SPSCQueue.Consumer.work]
    omega
  | pop =>
    have hcount : 0 < count log := by
      simpa [busy, hpc, Matching.inHand] using hbusy
    exact pop_work h.inv.ring hcount
  | popped cmd =>
    simp only
    split
    · rw [count_of_quiet (by rw [calls_append, hprint]; rfl)]
      simp only [Matching.work]
      omega
    · rw [count_of_quiet rfl]
      simp only [Matching.work]
      omega
  | processStart cmd =>
    rw [count_of_quiet rfl]
    simp only [Matching.work]
    omega
  | dispatch cmd =>
    have hcalls : calls (.dispatched cmd ::
        (MatchingEngine.dispatch s.exchange cmd).2.map Happened.printed) = [] := hprint _
    simp only
    rw [count_of_quiet hcalls]
    split <;> simp only [Matching.work] <;> omega
  | matchComplete cmd =>
    rw [count_of_quiet rfl]
    simp only [Matching.work]
    omega
  | returned =>
    have hrunning := h.posted.returned hpc
    rw [h.running] at hrunning
    cases hrunning

/-- The matching thread, when it has nothing to do, finds nothing. -/
theorem Live.matching_idle (h : Live toDouble log s) (hbusy : busy log s = false) :
    count (log ++ (matchingStep s).2) = 0 ∧ (matchingStep s).1.matching.inHand = [] := by
  simp only [busy, Bool.or_eq_false_iff, decide_eq_false_iff_not, Nat.not_lt, Nat.le_zero,
    Bool.not_eq_false', List.isEmpty_iff] at hbusy
  obtain ⟨hcount, hhand⟩ := hbusy
  have hpushed := (matchingStep_frame s).pushed
  have hring := (matchingStep_turns s).ring h.inv.ring
  refine ⟨?_, ?_⟩
  · rw [count] at hcount ⊢
    rw [calls_append, pushed_append, popped_append, hpushed, List.append_nil, List.length_append]
    omega
  · have hfifo := hring.fifo.length_le
    rw [calls_append, pushed_append, popped_append, hpushed, List.append_nil,
      List.length_append] at hfifo
    rw [count] at hcount
    rw [matchingStep] at hfifo ⊢
    cases hpc : s.matching with
    | test =>
      simp only [h.running, if_true]
      rfl
    | pop =>
      rw [hpc] at hfifo
      simp only [(queueStep_log s .consumer).2.2, turn] at hfifo
      simp only [turn]
      rcases (SPSCQueue.consumerStep_spec 1024 s.spscQueue).2 with hout | ⟨item, hout, -⟩
      · rw [hout]
        rfl
      · rw [hout] at hfifo ⊢
        cases item with
        | none => rfl
        | some cmd =>
          -- everything that has been pushed has been popped
          rw [show (popped [Returned.pop (some cmd)]).length = 1 from rfl] at hfifo
          omega
    | matchComplete cmd => rfl
    | returned =>
      rw [hpc]
      rfl
    | _ =>
      rw [hpc] at hhand
      cases hhand

/-- **A step of the matching thread**: when it has something to do it brings it on, and
otherwise it leaves everything to `main`. -/
theorem Live.matching_descends (h : Live toDouble log s) :
    Descends .matching (log, s) (log ++ (matchingStep s).2, (matchingStep s).1) := by
  have hf := matchingStep_frame s
  refine Fairness.Handover.descends_consumer (H := handover) (fun heq => nomatch heq) ?_ ?_
    h.matching_work fun hbusy => ?_
  · simp only [handover, lineWork, hf.main, hf.producer]
  · simp only [handover, hf.producer]
  · obtain ⟨hcount, hhand⟩ := h.matching_idle hbusy
    simp only [handover, busy, hcount, hhand]
    rfl

end Matching

/-! ## Fair schedules -/

section Schedule

variable {log : List (Happened P)} {s : Pipeline P}

theorem Live.elapse (h : Live toDouble log s) (clock : ℤ) :
    Live toDouble log { s with clock := clock } :=
  ⟨h.inv.elapse clock, ⟨h.posted.consumer, h.posted.returned⟩, h.running, h.looping⟩

omit [Zero P] in
/-- A step of the matching thread leaves `running` set. -/
theorem matchingStep_running (s : Pipeline P) : (matchingStep s).1.running = s.running := by
  rw [matchingStep]
  cases s.matching with
  | popped cmd =>
    simp only
    split <;> rfl
  | _ => rfl

theorem Live.matchingStep (h : Live toDouble log s) :
    Live toDouble (log ++ (matchingStep s).2) (matchingStep s).1 := by
  have hinv : Inv toDouble (log ++ (turnStep toDouble .zero s .matching).2)
      (turnStep toDouble .zero s .matching).1 := h.inv.turnStep .matching
  exact ⟨hinv, h.posted.matchingStep, (matchingStep_running s).trans h.running,
    (matchingStep_frame s).main ▸ h.looping⟩

/-- **A step of one of the threads**, some time later. -/
theorem Live.step (h : Live toDouble log s) {a : Action} {t : Thread}
    (ha : a.turn.thread = some t) :
    Live toDouble (log ++ (Pipeline.step toDouble memory s a).2)
        (Pipeline.step toDouble memory s a).1 ∧
      (¬ s.Quiet → Descends t (log, s)
        (log ++ (Pipeline.step toDouble memory s a).2, (Pipeline.step toDouble memory s a).1)) := by
  obtain ⟨elapsed, turn⟩ := a
  have hlater := h.elapse (s.clock + elapsed)
  cases turn with
  | main systemClock =>
    obtain rfl : Thread.main = t := Option.some_inj.mp ha
    exact ⟨hlater.mainStep systemClock, fun hbusy => hlater.main_descends hbusy systemClock⟩
  | matching =>
    obtain rfl : Thread.matching = t := Option.some_inj.mp ha
    exact ⟨hlater.matchingStep, fun _ => hlater.matching_descends⟩
  | _ => exact nomatch ha

omit [Zero P] in
theorem not_busy_of_quiet (hring : SPSCQueue.Inv 1024 (calls log) s.spscQueue) (h : s.Quiet) :
    busy log s = false := by
  obtain ⟨-, hempty, hhand⟩ := h
  have hall := hring.rep.empty_iff.mp hempty
  rw [busy, hhand, count, hall, Nat.sub_self]
  rfl

/-- What is at rest stays at rest. -/
theorem Live.quiet_step (h : Live toDouble log s) (hquiet : s.Quiet) {a : Action} {t : Thread}
    (ha : a.turn.thread = some t) : (Pipeline.step toDouble memory s a).1.Quiet := by
  obtain ⟨elapsed, turn⟩ := a
  have hlater := h.elapse (s.clock + elapsed)
  have hmain : s.main = .wait := hquiet.1
  cases turn with
  | main systemClock =>
    rw [Pipeline.step, turnStep, Pipeline.mainStep]
    simp only [hmain]
    exact ⟨rfl, hquiet.2⟩
  | matching =>
    obtain ⟨hcount, hhand⟩ := hlater.matching_idle (not_busy_of_quiet h.inv.ring hquiet)
    exact ⟨(matchingStep_frame _).main.trans hmain,
      head_eq_tail hlater.matchingStep.inv.ring hcount, hhand⟩
  | _ => cases ha

variable {buffer : ℕ → Command P} {boot : ℤ} {acts : List Action} {u : ℕ → Action}

/-- The schedule up to a point. -/
theorem upTo_succ (acts : List Action) (u : ℕ → Action) (k : ℕ) :
    acts ++ (List.range (k + 1)).map u = (acts ++ (List.range k).map u) ++ [u k] := by
  rw [List.range_succ, List.map_append, List.map_singleton, List.append_assoc]

/-- The threads stay in their loops. -/
theorem live_upTo
    (hstart : Live toDouble ((pipeline toDouble memory buffer boot).log acts)
      ((pipeline toDouble memory buffer boot).run acts))
    (hturn : ∀ k, ∃ t, (u k).turn.thread = some t) (k : ℕ) :
    Live toDouble ((pipeline toDouble memory buffer boot).log (acts ++ (List.range k).map u))
      ((pipeline toDouble memory buffer boot).run (acts ++ (List.range k).map u)) := by
  induction k with
  | zero =>
    rw [List.range_zero, List.map_nil, List.append_nil]
    exact hstart
  | succ k ih =>
    rw [upTo_succ, Machine.log_concat, Machine.run_concat]
    obtain ⟨t, ht⟩ := hturn k
    exact (ih.step ht).1

omit [Zero P] in
/-- The steps of the two threads bring nothing in. -/
theorem incoming_of_thread (s : Pipeline P) {a : Action} {t : Thread}
    (ha : a.turn.thread = some t) : incoming s a = [] := by
  unfold incoming
  cases hturn : a.turn with
  | arrive batch =>
    rw [hturn] at ha
    cases ha
  | _ => rfl

/-- Nothing arrives while the two threads take the steps. -/
theorem arrivals_upTo (hturn : ∀ k, ∃ t, (u k).turn.thread = some t) (k : ℕ) :
    arrivals toDouble memory buffer boot (acts ++ (List.range k).map u) =
      arrivals toDouble memory buffer boot acts := by
  induction k with
  | zero => rw [List.range_zero, List.map_nil, List.append_nil]
  | succ k ih =>
    obtain ⟨t, ht⟩ := hturn k
    rw [upTo_succ, arrivals_concat, ih, incoming_of_thread _ ht, List.append_nil]

end Schedule

/-- **The server comes to rest.**  From every state in which `running` is set and `main`
is in its loop, two threads that both go on taking steps, in any order, come to rest and
stay there: every event that has arrived has been handled, every line in them has been
processed, every command has been dispatched, and the exchange has printed what the engine
prints. -/
theorem pipeline_settles (toDouble : ℚ → Option P) (memory : Command P) (buffer : ℕ → Command P)
    (boot : ℤ) (acts : List Action)
    (hrunning : ((pipeline toDouble memory buffer boot).run acts).running = true)
    (hlooping : ((pipeline toDouble memory buffer boot).run acts).main.Looping)
    (u : ℕ → Action) (hturn : ∀ k, ∃ t, (u k).turn.thread = some t)
    (hfair : Fairness.Fair fun k => (u k).turn.thread) :
    ∃ k, ∀ j, k ≤ j →
      let log := (pipeline toDouble memory buffer boot).log (acts ++ (List.range j).map u)
      let s := (pipeline toDouble memory buffer boot).run (acts ++ (List.range j).map u)
      s.Quiet ∧
        List.Forall₂ Arrival.HandledAs (arrivals toDouble memory buffer boot acts) (events log) ∧
        (processed log).map callOf = framer.log (events log) ∧
        s.exchange = engine.run (commandsOf toDouble (processed log)) ∧
        printed log = engine.log (commandsOf toDouble (processed log)) := by
  have hlive : ∀ k, Live toDouble
      ((pipeline toDouble memory buffer boot).log (acts ++ (List.range k).map u))
      ((pipeline toDouble memory buffer boot).run (acts ++ (List.range k).map u)) :=
    live_upTo ⟨inv_run buffer boot acts, posted_run buffer boot acts, hrunning, hlooping⟩ hturn
  obtain ⟨k, -, hk⟩ := Fairness.eventually handover.rank handover.helpful
    (fun x => x.2.Quiet) (x := fun k =>
      ((pipeline toDouble memory buffer boot).log (acts ++ (List.range k).map u),
        (pipeline toDouble memory buffer boot).run (acts ++ (List.range k).map u))) hfair
    (fun k hbusy => by
      obtain ⟨t, ht⟩ := hturn k
      simp only [upTo_succ, Machine.log_concat, Machine.run_concat, ht]
      exact ((hlive k).step ht).2 hbusy) 0
  refine ⟨k, fun j hj => ?_⟩
  have hquiet : ((pipeline toDouble memory buffer boot).run
      (acts ++ (List.range j).map u)).Quiet := by
    induction j, hj using Nat.le_induction with
    | base => exact hk
    | succ j _ ih =>
      rw [upTo_succ, Machine.run_concat]
      obtain ⟨t, ht⟩ := hturn j
      exact (hlive j).quiet_step ih ht
  have hserial := (hlive j).inv.serial
  obtain ⟨hframed, hall⟩ := hserial.quiet hquiet
  have hhandled := (handled_run toDouble memory buffer boot
    (acts ++ (List.range j).map u)).of_wait hquiet.1
  rw [arrivals_upTo hturn] at hhandled
  exact ⟨hquiet, hhandled, hframed, hserial.exchange.trans (congrArg _ hall),
    hserial.printed.trans (congrArg _ hall)⟩

/-- Two threads that take turns, when two orders have arrived. -/
theorem pipeline_settles_alternating :
    let memory : Command ℚ := .statsReport 0 0
    let batch : List Arrival := [.accept 0 5 true true,
      .ready 0 5 [("BUY A 5 10\nSELL A 2 9\n".toList, 3)] .wouldBlock]
    let acts : List Action := [⟨1, .main 0⟩, ⟨1, .arrive batch⟩]
    let u : ℕ → Action := fun k => if k % 2 = 0 then ⟨1, .main 7⟩ else ⟨1, .matching⟩
    ∃ k, ∀ j, k ≤ j →
      ((pipeline some memory (fun _ => memory) 0).run (acts ++ (List.range j).map u)).Quiet := by
  intro memory batch acts u
  have hturn : ∀ k, (u k).turn.thread = some (if k % 2 = 0 then .main else .matching) := by
    intro k
    simp only [u]
    split <;> rfl
  have hfair : Fairness.Fair fun k => (u k).turn.thread :=
    Fairness.fair_alternating (fun t => by cases t <;> simp) hturn
  obtain ⟨k, hk⟩ := pipeline_settles some memory (fun _ => memory) 0 acts rfl trivial u
    (fun k => ⟨_, hturn k⟩) hfair
  exact ⟨k, fun j hj => (hk j hj).1⟩

end Pipeline
end MatchingEngine
