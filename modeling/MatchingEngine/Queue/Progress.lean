import MatchingEngine.Queue.QueueType

/-!
# The queues make progress

A push into an empty queue and a pop from one with items come to an end: every step of
theirs is one less to take, unless the thread has to wait for a lock.  A ring makes nobody
wait, but its tests can fail on an index that was read too early, and then the call is
made again.

`LiveQueueType` is a queue with this much progress, and `liveSpscQueue` and
`liveMutexQueue` are the two queues again.
-/

namespace MatchingEngine

variable {T : Type}

/-- A queue whose calls come to an end.  `pushWork` and `popWork` count the steps that are
left of a call. -/
structure LiveQueueType (T : Type) extends QueueType T where
  producerWaits : State → Bool
  consumerWaits : State → Bool
  pushWork : State → ℕ
  popWork : State → ℕ
  bound : ℕ
  popWork_le : ∀ s, popWork s ≤ bound
  popWork_producer : ∀ s, popWork (producer s).1 = popWork s
  pushWork_consumer : ∀ s, pushWork (consumer s).1 = pushWork s
  producer_waits : ∀ {s}, producerWaits s = true → producer s = (s, [])
  consumer_waits : ∀ {s}, consumerWaits s = true → consumer s = (s, [])
  /-- A push into an empty queue. -/
  producer_works : ∀ {log s item}, Holds log s (some item) → producerWaits s = false →
    (pushed log).length ≤ (popped log).length →
    (producer s).2 = [.push item true] ∨ pushWork (producer s).1 < pushWork s
  /-- A pop from a queue with items.  It may have looked too early, and is tried again. -/
  consumer_works : ∀ {log s item}, Holds log s item → consumerWaits s = false →
    (popped log).length < (pushed log).length →
    (consumer s).2 = [] ∧ popWork (consumer s).1 < popWork s ∨
      (consumer s).2 = [.pop none] ∧ popWork (consumer s).1 + 1 < popWork s ∨
      ∃ r, (consumer s).2 = [.pop (some r)]

/-! ## The ring -/

namespace SPSCQueue

/-- The steps that are left of a push into a ring with room.  A test that has read the
head too early fails. -/
def Producer.work (Capacity : ℕ) : Producer T → ℕ
  | .idle => 0
  | .store .. => 1
  | .write .. => 2
  | .test _ currentTail currentHead => if (currentTail + 1) % Capacity = currentHead then 7 else 3
  | .loadHead .. => 4
  | .loadTail _ => 5
  | .failed _ => 6

/-- The steps that are left of a pop from a ring with items.  A test that has read the
tail too early fails. -/
def Consumer.work : Consumer T → ℕ
  | .store .. => 5
  | .read _ => 6
  | .test currentHead currentTail => if currentHead = currentTail then 11 else 7
  | .loadTail _ => 8
  | .loadHead => 9

theorem Consumer.work_le (c : Consumer T) : c.work ≤ 11 := by
  cases c with
  | test hd t =>
    rw [work]
    split <;> omega
  | _ =>
    rw [work]
    omega

variable {Capacity : ℕ} {log : List (Returned T)} {s : Threads T}

/-- A ring of which everything has been popped is not full. -/
theorem Inv.not_full (h : Inv Capacity log s) (hCapacity : 2 ≤ Capacity)
    (hempty : (pushed log).length ≤ (popped log).length) :
    (s.queue.tail + 1) % Capacity ≠ s.queue.head := by
  intro hfull
  have hle := h.rep.le
  have hsize := h.rep.full_iff.mp hfull
  omega

/-- **A step of a push into an empty ring** ends it or brings it on. -/
theorem Inv.producer_work (h : Inv Capacity log s) (hCapacity : 2 ≤ Capacity)
    (hempty : (pushed log).length ≤ (popped log).length) {item : T}
    (hitem : s.producer.item = some item) :
    (SPSCQueue.producerStep Capacity s).2 = [.push item true] ∨
      (SPSCQueue.producerStep Capacity s).1.producer.work Capacity < s.producer.work Capacity := by
  have hp := h.producer
  rw [SPSCQueue.producerStep]
  cases hpc : s.producer with
  | idle =>
    rw [hpc] at hitem
    cases hitem
  | store item' t =>
    rw [hpc] at hitem
    cases hitem
    exact Or.inl rfl
  | loadHead item' t =>
    rw [hpc] at hp
    have ht : t = s.queue.tail := hp
    refine Or.inr ?_
    simp only [Producer.work]
    rw [ht, if_neg (h.not_full hCapacity hempty)]
    omega
  | test item' t hd =>
    refine Or.inr ?_
    simp only
    split
    · rename_i hfull
      rw [Producer.work, Producer.work, if_pos hfull]
      omega
    · rename_i hfull
      rw [Producer.work, Producer.work, if_neg hfull]
      omega
  | _ =>
    refine Or.inr ?_
    rw [Producer.work, Producer.work]
    omega

/-- **A step of a pop from a ring with items** ends it, brings it on, or finds that it has
read the tail too early. -/
theorem Inv.consumer_work (h : Inv Capacity log s)
    (hitems : (popped log).length < (pushed log).length) :
    (SPSCQueue.consumerStep Capacity s).2 = [] ∧
        (SPSCQueue.consumerStep Capacity s).1.consumer.work < s.consumer.work ∨
      (SPSCQueue.consumerStep Capacity s).2 = [.pop none] ∧
        (SPSCQueue.consumerStep Capacity s).1.consumer.work + 1 < s.consumer.work ∨
      ∃ item, (SPSCQueue.consumerStep Capacity s).2 = [.pop (some item)] := by
  have hc := h.consumer
  rw [SPSCQueue.consumerStep]
  cases hpc : s.consumer with
  | loadTail hd =>
    rw [hpc] at hc
    have hhd : hd = s.queue.head := hc
    refine Or.inl ⟨rfl, ?_⟩
    simp only [Consumer.work]
    rw [hhd, if_neg (h.rep.head_ne_tail hitems)]
    omega
  | test hd t =>
    simp only
    split
    · rename_i hempty
      refine Or.inr (Or.inl ⟨rfl, ?_⟩)
      rw [Consumer.work, Consumer.work, if_pos hempty]
      omega
    · rename_i hempty
      refine Or.inl ⟨rfl, ?_⟩
      rw [Consumer.work, Consumer.work, if_neg hempty]
      omega
  | store hd item => exact Or.inr (Or.inr ⟨item, rfl⟩)
  | _ =>
    refine Or.inl ⟨rfl, ?_⟩
    rw [Consumer.work, Consumer.work]
    omega

end SPSCQueue

open SPSCQueue in
/-- `SPSCQueue<T, Capacity>`, with room for an item. -/
def liveSpscQueue (Capacity : ℕ) (hCapacity : 2 ≤ Capacity) (buffer : ℕ → T) :
    LiveQueueType T where
  toQueueType := spscQueue Capacity (by omega) buffer
  producerWaits _ := false
  consumerWaits _ := false
  pushWork s := Producer.work Capacity (Threads.producer s)
  popWork s := Consumer.work (Threads.consumer s)
  bound := 11
  popWork_le s := Consumer.work_le _
  popWork_producer s := congrArg Consumer.work (producerStep_spec Capacity s).1
  pushWork_consumer s := congrArg (Producer.work Capacity) (consumerStep_spec Capacity s).1
  producer_waits h := nomatch h
  consumer_waits h := nomatch h
  producer_works h _ hempty := h.1.producer_work hCapacity hempty h.2
  consumer_works h _ hitems := h.1.consumer_work hitems

/-! ## The locked queue -/

namespace MutexQueue

/-- The thread waits for the mutex, which is taken. -/
def Threads.waits (s : Threads T) (i : ℕ) : Bool :=
  match s.threads i, s.owner with
  | .lock _, some _ => true
  | _, _ => false

/-- The steps that are left of a call, from where a thread calls next.  A pop that has
found nothing is made again. -/
def Thread.work : Thread T → ℕ
  | .unlock (.pop none) => 8
  | .idle => 6
  | .lock _ => 5
  | .enter _ => 4
  | .front => 3
  | .popFront _ => 2
  | .unlock _ => 1

theorem Thread.work_le (t : Thread T) : t.work ≤ 8 := by
  cases t with
  | unlock r => rcases r with ⟨item, ok⟩ | _ | item <;> simp [work]
  | _ => simp [work]

/-- A step of a thread is none of another one's. -/
theorem threadStep_of_ne {i j : ℕ} (hj : j ≠ i) (s : Threads T) :
    (threadStep s i).1.threads j = s.threads j := by
  rw [threadStep]
  cases s.threads i with
  | idle => rfl
  | lock c =>
    cases s.owner with
    | none => exact Threads.goto_of_ne hj _ _
    | some k => rfl
  | enter c =>
    cases c with
    | push item => exact Threads.goto_of_ne hj _ _
    | pop =>
      simp only
      split <;> exact Threads.goto_of_ne hj _ _
  | front =>
    cases s.queue.queue with
    | nil => rfl
    | cons item rest => exact Threads.goto_of_ne hj _ _
  | popFront item => exact Threads.goto_of_ne hj _ _
  | unlock r => exact Threads.goto_of_ne hj _ _

/-- A thread whose mutex is taken stays where it is. -/
theorem threadStep_of_waits {s : Threads T} {i : ℕ} (h : s.waits i = true) :
    threadStep s i = (s, []) := by
  rw [Threads.waits] at h
  rw [threadStep]
  cases hpc : s.threads i with
  | lock c =>
    cases howner : s.owner with
    | none => simp [hpc, howner] at h
    | some j => rfl
  | _ => simp [hpc] at h

theorem producer_of_waits {s : Threads T} (h : s.waits 0 = true) :
    MutexQueue.producer s = (s, []) := by
  rw [MutexQueue.producer, turn, threadStep_of_waits h]
  rfl

theorem consumer_of_waits {s : Threads T} (h : s.waits 1 = true) :
    MutexQueue.consumer s = (s, []) := by
  rw [MutexQueue.consumer]
  cases hpc : s.threads 1 with
  | idle => simp [Threads.waits, hpc] at h
  | _ =>
    simp only [turn, threadStep_of_waits h]
    rfl

theorem consumer_zero (s : Threads T) : (consumer s).1.threads 0 = s.threads 0 := by
  rw [consumer]
  cases hpc : s.threads 1 with
  | idle =>
    simp only [turn, hpc]
    exact Threads.goto_of_ne (by decide) _ _
  | _ => exact threadStep_of_ne (by decide) s

variable {log : List (Returned T)} {s : Threads T} {item : Option T}

/-- The mutex of a thread that does not wait is free. -/
theorem owner_eq_none {i : ℕ} {c : Call T} (hpc : s.threads i = .lock c)
    (hwaits : s.waits i = false) : s.owner = none := by
  rw [Threads.waits, hpc] at hwaits
  cases howner : s.owner with
  | none => rfl
  | some j => simp [howner] at hwaits

/-- **A step of a push** that does not wait ends it or brings it on. -/
theorem TwoThreads.producer_work {item : T} (h : TwoThreads log s (some item))
    (hwaits : s.waits 0 = false) :
    (MutexQueue.producer s).2 = [.push item true] ∨
      ((MutexQueue.producer s).1.threads 0).work < (s.threads 0).work := by
  rw [MutexQueue.producer, turn, threadStep]
  rcases h.pushes.cases h.item with hpc | hpc | hpc
  · simp only [hpc, owner_eq_none hpc hwaits, Threads.goto_self, Thread.work]
    omega
  · simp only [hpc, Threads.goto_self, Thread.work]
    omega
  · simp only [hpc]
    exact Or.inl rfl

/-- While thread 1 works on the queue, what is in it has been pushed and not popped. -/
theorem TwoThreads.length_queue (h : TwoThreads log s item) (hone : (s.threads 1).Critical) :
    (popped log).length + (s.threads 1).removed.length + s.queue.queue.length =
      (pushed log).length := by
  have hlength := congrArg List.length h.between
  rw [h.appended_eq_nil hone, List.append_nil, List.length_append, List.length_append] at hlength
  exact hlength

/-- **A step of a pop from a queue with items** that does not wait ends it or brings it
on. -/
theorem TwoThreads.consumer_work (h : TwoThreads log s item) (hwaits : s.waits 1 = false)
    (hitems : (popped log).length < (pushed log).length) :
    (MutexQueue.consumer s).2 = [] ∧
        ((MutexQueue.consumer s).1.threads 1).work < (s.threads 1).work ∨
      (MutexQueue.consumer s).2 = [.pop none] ∧
        ((MutexQueue.consumer s).1.threads 1).work + 1 < (s.threads 1).work ∨
      ∃ r, (MutexQueue.consumer s).2 = [.pop (some r)] := by
  have hqueue := h.length_queue
  have hknows := h.guarded.knows 1
  rw [MutexQueue.consumer]
  rcases h.pops.cases with hpc | hpc | hpc | hpc | ⟨item', hpc⟩ | ⟨r, hpc⟩
  · simp only [hpc, turn, Threads.goto_self, Thread.work]
    simp
  · simp only [hpc, turn, threadStep, owner_eq_none hpc hwaits, Threads.goto_self, Thread.work]
    simp
  · rw [hpc] at hqueue
    have hlength := hqueue trivial
    have hne : ¬ s.queue.queue.isEmpty := by
      intro hempty
      rw [List.isEmpty_iff.mp hempty] at hlength
      simp only [Thread.removed, List.length_nil] at hlength
      omega
    simp only [hpc, turn, threadStep, if_neg hne, Threads.goto_self, Thread.work]
    simp
  · rw [hpc] at hknows
    cases hitems' : s.queue.queue with
    | nil => exact absurd hitems' hknows
    | cons item' rest =>
      simp only [hpc, turn, threadStep, hitems', Threads.goto_self, Thread.work]
      simp
  · simp only [hpc, turn, threadStep, Threads.goto_self, Thread.work]
    simp
  · cases r with
    | none =>
      simp only [hpc, turn, threadStep, Threads.goto_self, Thread.work]
      simp
    | some item' =>
      simp only [hpc, turn, threadStep]
      exact Or.inr (Or.inr ⟨item', rfl⟩)

end MutexQueue

open MutexQueue in
/-- `MutexQueue<T>`, with two threads. -/
def liveMutexQueue : LiveQueueType T where
  toQueueType := mutexQueue
  producerWaits s := Threads.waits s 0
  consumerWaits s := Threads.waits s 1
  pushWork s := (Threads.threads s 0).work
  popWork s := (Threads.threads s 1).work
  bound := 8
  popWork_le s := Thread.work_le _
  popWork_producer s := congrArg Thread.work (threadStep_of_ne (by decide) s)
  pushWork_consumer s := congrArg Thread.work (consumer_zero s)
  producer_waits := producer_of_waits
  consumer_waits := consumer_of_waits
  producer_works h hwaits _ := TwoThreads.producer_work h hwaits
  consumer_works h hwaits hitems := TwoThreads.consumer_work h hwaits hitems

end MatchingEngine
