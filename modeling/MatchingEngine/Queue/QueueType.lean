import MatchingEngine.Queue.Fifo
import MatchingEngine.Queue.MutexQueue

/-!
# The queues a benchmark can be run with

`runBenchmark` is a template over its queue: one thread pushes, another one pops, and
nothing else is asked of the queue.  `QueueType` is that much of a queue, with what the
template relies on as fields, and `spscQueue` and `mutexQueue` are the two queues it is
instantiated with, each taken apart into the steps of its threads.
-/

namespace MatchingEngine

variable {T : Type}

/-- A queue between a producer and a consumer, one step of one of them at a time.  `Holds
log s item` says that `s` is reached when the calls that have returned are those of `log`
and the producer is pushing `item`. -/
structure QueueType (T : Type) where
  State : Type
  init : State
  /-- The producer enters `push`. -/
  call : State → T → State
  /-- A step of the producer, which tries again when `push` has returned `false`. -/
  producer : State → State × List (Returned T)
  /-- A step of the consumer, which calls `pop` again and again. -/
  consumer : State → State × List (Returned T)
  Holds : List (Returned T) → State → Option T → Prop
  holds_init : Holds [] init none
  holds_call : ∀ {log s} (item), Holds log s none → Holds log (call s item) (some item)
  holds_producer : ∀ {log s item}, Holds log s (some item) →
    ((producer s).2 = [] ∨ (producer s).2 = [.push item false]) ∧
        Holds (log ++ (producer s).2) (producer s).1 (some item) ∨
      (producer s).2 = [.push item true] ∧ Holds (log ++ (producer s).2) (producer s).1 none
  holds_consumer : ∀ {log s item}, Holds log s item →
    ((consumer s).2 = [] ∨ ∃ r, (consumer s).2 = [.pop r]) ∧
      Holds (log ++ (consumer s).2) (consumer s).1 item
  /-- Nothing is lost, duplicated or reordered, or popped before its push has returned. -/
  fifo : ∀ {log s item}, Holds log s item → popped log <+: pushed log

/-! ## The ring -/

namespace SPSCQueue

/-- The item the producer is pushing. -/
def Producer.item : Producer T → Option T
  | .idle => none
  | .loadTail item => some item
  | .loadHead item _ => some item
  | .test item _ _ => some item
  | .write item _ => some item
  | .store item _ => some item
  | .failed item => some item

theorem Producer.exists_item {p : Producer T} (h : p ≠ .idle) : ∃ item, p.item = some item := by
  cases p with
  | idle => exact absurd rfl h
  | _ => exact ⟨_, rfl⟩

/-- The item the producer has in hand, as a list. -/
def Producer.holding (p : Producer T) : List T := p.item.toList

theorem Producer.holding_idle : (Producer.idle : Producer T).holding = [] := rfl

/-- A step of the producer keeps its item, or has pushed it. -/
theorem producerStep_spec (Capacity : ℕ) (s : Threads T) :
    (producerStep Capacity s).1.consumer = s.consumer ∧
      popped (producerStep Capacity s).2 = [] ∧
      pushed (producerStep Capacity s).2 ++ (producerStep Capacity s).1.producer.holding =
        s.producer.holding := by
  rw [producerStep]
  cases hpc : s.producer with
  | idle => exact ⟨rfl, rfl, by rw [hpc]; rfl⟩
  | test item t hd =>
    simp only
    split <;> exact ⟨rfl, rfl, rfl⟩
  | _ => exact ⟨rfl, rfl, rfl⟩

/-- The consumer stays where it is at a turn that is not its own. -/
theorem turn_consumer (Capacity : ℕ) (s : Threads T) {t : Turn T} (ht : t ≠ .consumer) :
    (turn Capacity s t).1.consumer = s.consumer := by
  cases t with
  | call item =>
    rw [turn]
    split <;> rfl
  | producer => exact (producerStep_spec Capacity s).1
  | giveUp =>
    rw [turn]
    split <;> rfl
  | consumer => exact absurd rfl ht

/-- A step of a push under way leaves it under way, or ends it. -/
theorem item_producerStep (Capacity : ℕ) {s : Threads T} {item : T}
    (h : s.producer.item = some item) :
    ((producerStep Capacity s).2 = [] ∨ (producerStep Capacity s).2 = [.push item false]) ∧
        (producerStep Capacity s).1.producer.item = some item ∨
      (producerStep Capacity s).2 = [.push item true] ∧
        (producerStep Capacity s).1.producer.item = none := by
  rw [producerStep]
  cases hpc : s.producer with
  | idle =>
    rw [hpc] at h
    exact absurd h (by simp [Producer.item])
  | test item' t hd =>
    rw [hpc] at h
    cases h
    simp only
    split
    · exact Or.inl ⟨Or.inr rfl, rfl⟩
    · exact Or.inl ⟨Or.inl rfl, rfl⟩
  | store item' t =>
    rw [hpc] at h
    cases h
    exact Or.inr ⟨rfl, rfl⟩
  | _ =>
    rw [hpc] at h
    exact Or.inl ⟨Or.inl rfl, h⟩

/-- A step of the consumer returns nothing; or it ends a call, with an item or without. -/
theorem consumerStep_spec (Capacity : ℕ) (s : Threads T) :
    (consumerStep Capacity s).1.producer = s.producer ∧
      ((consumerStep Capacity s).2 = [] ∨ ∃ item, (consumerStep Capacity s).2 = [.pop item] ∧
        (consumerStep Capacity s).1.consumer = .loadHead) := by
  rw [consumerStep]
  cases s.consumer with
  | test hd t =>
    simp only
    split
    · exact ⟨rfl, Or.inr ⟨none, rfl, rfl⟩⟩
    · exact ⟨rfl, Or.inl rfl⟩
  | store hd item => exact ⟨rfl, Or.inr ⟨some item, rfl, rfl⟩⟩
  | _ => exact ⟨rfl, Or.inl rfl⟩

end SPSCQueue

open SPSCQueue in
/-- `SPSCQueue<T, Capacity>`. -/
def spscQueue (Capacity : ℕ) (hCapacity : 0 < Capacity) (buffer : ℕ → T) : QueueType T where
  State := Threads T
  init := (threads Capacity buffer).init
  call s item := (turn Capacity s (.call item)).1
  producer := producerStep Capacity
  consumer := consumerStep Capacity
  Holds log s item := Inv Capacity log s ∧ s.producer.item = item
  holds_init := ⟨inv_init hCapacity buffer, rfl⟩
  holds_call {log s} item h := by
    obtain ⟨hinv, hitem⟩ := h
    have hcall := hinv.turn (.call item)
    rw [turn] at hcall ⊢
    cases hpc : s.producer with
    | idle =>
      simp only [hpc, List.append_nil] at hcall
      exact ⟨hcall, rfl⟩
    | _ =>
      rw [hpc] at hitem
      exact absurd hitem (by simp [Producer.item])
  holds_producer h := by
    rcases item_producerStep Capacity h.2 with ⟨hout, hitem⟩ | ⟨hout, hitem⟩
    · exact Or.inl ⟨hout, h.1.producerStep, hitem⟩
    · exact Or.inr ⟨hout, h.1.producerStep, hitem⟩
  holds_consumer {log s item} h := by
    obtain ⟨hproducer, hout⟩ := consumerStep_spec Capacity s
    exact ⟨hout.imp_right fun ⟨r, hr, _⟩ => ⟨r, hr⟩, h.1.consumerStep, by rw [hproducer, h.2]⟩
  fifo h := h.1.fifo

/-! ## The locked queue -/

namespace MutexQueue

/-- The item a thread is pushing, up to the return of the call. -/
def Thread.item : Thread T → Option T
  | .lock (.push item) => some item
  | .enter (.push item) => some item
  | .unlock (.push item _) => some item
  | _ => none

/-- What the queue holds already of the push of a thread. -/
def Thread.appended : Thread T → List T
  | .unlock (.push item _) => [item]
  | _ => []

/-- What has left the queue by the pop of a thread. -/
def Thread.removed : Thread T → List T
  | .unlock (.pop item) => item.toList
  | _ => []

/-- A thread that pushes, between calls or in one. -/
def Thread.Pushes : Thread T → Prop
  | .idle => True
  | .lock (.push _) => True
  | .enter (.push _) => True
  | .unlock (.push _ ok) => ok = true
  | _ => False

/-- A thread that pops, between calls or in one. -/
def Thread.Pops : Thread T → Prop
  | .idle => True
  | .lock .pop => True
  | .enter .pop => True
  | .front => True
  | .popFront _ => True
  | .unlock (.pop _) => True
  | _ => False

theorem Thread.Pushes.eq_idle {t : Thread T} (h : t.Pushes) (hitem : t.item = none) :
    t = .idle := by
  cases t with
  | idle => rfl
  | lock c => cases c <;> simp_all [Pushes, Thread.item]
  | enter c => cases c <;> simp_all [Pushes, Thread.item]
  | front => exact h.elim
  | popFront item => exact h.elim
  | unlock r => cases r <;> simp_all [Pushes, Thread.item]

/-- The places of a push under way. -/
theorem Thread.Pushes.cases {t : Thread T} (h : t.Pushes) {item : T}
    (hitem : t.item = some item) :
    t = .lock (.push item) ∨ t = .enter (.push item) ∨ t = .unlock (.push item true) := by
  cases t with
  | idle => exact absurd hitem (by simp [Thread.item])
  | lock c => cases c <;> simp_all [Pushes, Thread.item]
  | enter c => cases c <;> simp_all [Pushes, Thread.item]
  | front => exact h.elim
  | popFront item => exact h.elim
  | unlock r => cases r <;> simp_all [Pushes, Thread.item]

/-- The places of a thread that pops. -/
theorem Thread.Pops.cases {t : Thread T} (h : t.Pops) :
    t = .idle ∨ t = .lock .pop ∨ t = .enter .pop ∨ t = .front ∨ (∃ item, t = .popFront item) ∨
      ∃ r, t = .unlock (.pop r) := by
  cases t with
  | lock c => cases c <;> simp_all [Pops]
  | enter c => cases c <;> simp_all [Pops]
  | unlock r => cases r <;> simp_all [Pops]
  | _ => simp

/-- A thread that has appended its item and not returned is in its critical section. -/
theorem Thread.appended_eq_nil {t : Thread T} (h : ¬ t.Critical) : t.appended = [] := by
  cases t with
  | unlock r => exact absurd trivial h
  | _ => rfl

/-- Thread 0 pushes and thread 1 pops, and the queue holds what is between them.  An item
that has been appended stays in the queue up to the return of its push. -/
structure TwoThreads (log : List (Returned T)) (s : Threads T) (item : Option T) : Prop where
  reached : ∃ steps, threads.run steps = s
  pushes : (s.threads 0).Pushes
  pops : (s.threads 1).Pops
  item : (s.threads 0).item = item
  last : (s.threads 0).appended <:+ s.queue.queue
  between : popped log ++ (s.threads 1).removed ++ s.queue.queue =
    pushed log ++ (s.threads 0).appended

/-- A step of the thread that pushes. -/
def producer (s : Threads T) : Threads T × List (Returned T) :=
  ((turn s (.step 0)).1, (turn s (.step 0)).2.map Prod.snd)

/-- A step of the thread that pops, which calls again as soon as a call has returned. -/
def consumer (s : Threads T) : Threads T × List (Returned T) :=
  match s.threads 1 with
  | .idle => ((turn s (.call 1 .pop)).1, [])
  | _ => ((turn s (.step 1)).1, (turn s (.step 1)).2.map Prod.snd)

section Step

variable {log : List (Returned T)} {s : Threads T} {item : Option T}

theorem TwoThreads.turn_reached (h : TwoThreads log s item) (t : Turn T) :
    ∃ steps, threads.run steps = (turn s t).1 := by
  obtain ⟨steps, rfl⟩ := h.reached
  exact ⟨steps ++ [t], Machine.run_concat _ _ _⟩

theorem TwoThreads.guarded (h : TwoThreads log s item) : Guarded s := by
  obtain ⟨steps, rfl⟩ := h.reached
  exact (effected_threads steps).guarded

/-- While thread 1 is in its critical section thread 0 is not, and has nothing appended. -/
theorem TwoThreads.appended_eq_nil (h : TwoThreads log s item) (hone : (s.threads 1).Critical) :
    (s.threads 0).appended = [] := by
  refine Thread.appended_eq_nil fun hzero => ?_
  have howner := h.guarded.owner 0 hzero
  rw [h.guarded.owner 1 hone] at howner
  exact absurd howner (by decide)

/-- What has been popped has been pushed before. -/
theorem TwoThreads.fifo (h : TwoThreads log s item) : popped log <+: pushed log := by
  obtain ⟨rest, hrest⟩ := h.last
  have hbetween := h.between
  rw [← hrest, ← List.append_assoc] at hbetween
  have hpushed := List.append_cancel_right hbetween
  rw [List.append_assoc] at hpushed
  exact ⟨_, hpushed⟩

/-- The thread that pushes goes on. -/
theorem TwoThreads.goto_zero (h : TwoThreads log s item) {s' : Threads T}
    (hreached : ∃ steps, threads.run steps = s') {q : MutexQueue T} {owner : Option ℕ}
    {t : Thread T} (hs' : s' = (⟨q, owner, s.threads⟩ : Threads T).goto 0 t) (ht : t.Pushes)
    {out : List (Returned T)} (hout : popped out = []) (hlast : t.appended <:+ q.queue)
    (hbetween : popped log ++ (s.threads 1).removed ++ q.queue =
      pushed log ++ (pushed out ++ t.appended)) :
    TwoThreads (log ++ out) s' t.item := by
  have hself : s'.threads 0 = t := by
    rw [hs']
    exact Threads.goto_self _ _ _
  have hother : s'.threads 1 = s.threads 1 := by
    rw [hs']
    exact Threads.goto_of_ne (by decide) _ _
  have hqueue : s'.queue = q := by rw [hs', Threads.goto]
  refine ⟨hreached, ?_, ?_, ?_, ?_, ?_⟩
  · rw [hself]
    exact ht
  · rw [hother]
    exact h.pops
  · rw [hself]
  · rw [hself, hqueue]
    exact hlast
  · rw [hother, hself, hqueue, popped_append, hout, List.append_nil, pushed_append, hbetween,
      List.append_assoc]

/-- The thread that pops goes on. -/
theorem TwoThreads.goto_one (h : TwoThreads log s item) {s' : Threads T}
    (hreached : ∃ steps, threads.run steps = s') {q : MutexQueue T} {owner : Option ℕ}
    {t : Thread T} (hs' : s' = (⟨q, owner, s.threads⟩ : Threads T).goto 1 t) (ht : t.Pops)
    {out : List (Returned T)} (hout : pushed out = [])
    (hlast : (s.threads 0).appended <:+ q.queue)
    (hbetween : popped out ++ t.removed ++ q.queue = (s.threads 1).removed ++ s.queue.queue) :
    TwoThreads (log ++ out) s' item := by
  have hself : s'.threads 1 = t := by
    rw [hs']
    exact Threads.goto_self _ _ _
  have hother : s'.threads 0 = s.threads 0 := by
    rw [hs']
    exact Threads.goto_of_ne (by decide) _ _
  have hqueue : s'.queue = q := by rw [hs', Threads.goto]
  refine ⟨hreached, ?_, ?_, ?_, ?_, ?_⟩
  · rw [hother]
    exact h.pushes
  · rw [hself]
    exact ht
  · rw [hother, h.item]
  · rw [hother, hqueue]
    exact hlast
  · rw [hother, hself, hqueue, pushed_append, hout, List.append_nil, popped_append, ← h.between,
      List.append_assoc, List.append_assoc, List.append_assoc, ← hbetween, List.append_assoc]

/-- A step of the thread that pushes. -/
theorem TwoThreads.producer {item : T} (h : TwoThreads log s (some item)) :
    ((producer s).2 = [] ∨ (producer s).2 = [.push item false]) ∧
        TwoThreads (log ++ (producer s).2) (producer s).1 (some item) ∨
      (producer s).2 = [.push item true] ∧
        TwoThreads (log ++ (producer s).2) (producer s).1 none := by
  have hreached := h.turn_reached (.step 0)
  have hbetween := h.between
  rw [MutexQueue.producer]
  rw [MutexQueue.turn, threadStep] at hreached ⊢
  rcases h.pushes.cases h.item with hpc | hpc | hpc
  · rw [hpc] at hbetween
    simp only [hpc] at hreached ⊢
    cases howner : s.owner with
    | none =>
      simp only [howner] at hreached ⊢
      exact Or.inl ⟨Or.inl rfl, h.goto_zero hreached rfl trivial rfl List.nil_suffix hbetween⟩
    | some j =>
      simp only [List.map_nil, List.append_nil]
      exact Or.inl ⟨Or.inl trivial, h⟩
  · rw [hpc] at hbetween
    simp only [hpc] at hreached ⊢
    refine Or.inl ⟨Or.inl rfl, h.goto_zero hreached rfl rfl rfl (List.suffix_append _ _) ?_⟩
    rw [← List.append_assoc, hbetween]
    exact List.append_assoc _ _ _
  · rw [hpc] at hbetween
    simp only [hpc] at hreached ⊢
    exact Or.inr ⟨rfl, h.goto_zero hreached rfl trivial rfl List.nil_suffix hbetween⟩

/-- A step of the thread that pops. -/
theorem TwoThreads.consumer (h : TwoThreads log s item) :
    ((consumer s).2 = [] ∨ ∃ r, (consumer s).2 = [.pop r]) ∧
      TwoThreads (log ++ (consumer s).2) (consumer s).1 item := by
  have hstep := h.turn_reached (.step 1)
  have hcall := h.turn_reached (.call 1 .pop)
  have hknows := h.guarded.knows 1
  rw [MutexQueue.consumer]
  rw [MutexQueue.turn, threadStep] at hstep
  rw [MutexQueue.turn] at hcall
  rcases h.pops.cases with hpc | hpc | hpc | hpc | ⟨item', hpc⟩ | ⟨r, hpc⟩
  · simp only [hpc, MutexQueue.turn] at hcall ⊢
    exact ⟨Or.inl trivial, h.goto_one hcall rfl trivial rfl h.last (by rw [hpc]; rfl)⟩
  · simp only [hpc, MutexQueue.turn, threadStep] at hstep ⊢
    cases howner : s.owner with
    | none =>
      simp only [howner] at hstep ⊢
      exact ⟨Or.inl rfl, h.goto_one hstep rfl trivial rfl h.last (by rw [hpc]; rfl)⟩
    | some j =>
      simp only [List.map_nil, List.append_nil]
      exact ⟨Or.inl trivial, h⟩
  · simp only [hpc, MutexQueue.turn, threadStep] at hstep ⊢
    by_cases hempty : s.queue.queue.isEmpty
    · rw [if_pos hempty] at hstep ⊢
      exact ⟨Or.inl rfl, h.goto_one hstep rfl trivial rfl h.last (by rw [hpc]; rfl)⟩
    · rw [if_neg hempty] at hstep ⊢
      exact ⟨Or.inl rfl, h.goto_one hstep rfl trivial rfl h.last (by rw [hpc]; rfl)⟩
  · rw [hpc] at hknows
    simp only [hpc, MutexQueue.turn, threadStep] at hstep ⊢
    cases hitems : s.queue.queue with
    | nil => exact absurd hitems hknows
    | cons item' rest =>
      simp only [hitems] at hstep ⊢
      exact ⟨Or.inl rfl, h.goto_one hstep rfl trivial rfl h.last (by rw [hpc]; rfl)⟩
  · -- the item it has read is the front that it takes away
    rw [hpc] at hknows
    obtain ⟨rest, hitems⟩ := List.head?_eq_some_iff.mp hknows
    simp only [hpc, MutexQueue.turn, threadStep] at hstep ⊢
    have hlast : (s.threads 0).appended <:+ s.queue.queue.tail := by
      rw [h.appended_eq_nil (by rw [hpc]; trivial)]
      exact List.nil_suffix
    exact ⟨Or.inl rfl, h.goto_one hstep rfl trivial rfl hlast (by rw [hpc, hitems]; rfl)⟩
  · simp only [hpc, MutexQueue.turn, threadStep] at hstep ⊢
    exact ⟨Or.inr ⟨r, rfl⟩, h.goto_one hstep rfl trivial rfl h.last (by rw [hpc]; cases r <;> rfl)⟩

/-- The start of a push. -/
theorem TwoThreads.call (h : TwoThreads log s none) (item : T) :
    TwoThreads log (turn s (.call 0 (.push item))).1 (some item) := by
  have hreached := h.turn_reached (.call 0 (.push item))
  have hbetween := h.between
  have hpc := h.pushes.eq_idle h.item
  rw [hpc] at hbetween
  rw [MutexQueue.turn] at hreached ⊢
  simp only [hpc] at hreached ⊢
  rw [← List.append_nil log]
  exact h.goto_zero hreached rfl trivial rfl List.nil_suffix hbetween

end Step

end MutexQueue

open MutexQueue in
/-- `MutexQueue<T>`, with two threads. -/
def mutexQueue : QueueType T where
  State := Threads T
  init := threads.init
  call s item := (turn s (.call 0 (.push item))).1
  producer := MutexQueue.producer
  consumer := MutexQueue.consumer
  Holds := TwoThreads
  holds_init := ⟨⟨[], rfl⟩, trivial, trivial, rfl, List.nil_suffix, rfl⟩
  holds_call item h := h.call item
  holds_producer h := h.producer
  holds_consumer h := h.consumer
  fifo h := h.fifo

end MatchingEngine
