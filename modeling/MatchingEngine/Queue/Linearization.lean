import MatchingEngine.Queue.Fifo

/-!
# The calls of the ring take effect at once

Every interleaving of the loads, tests and stores of `push` and `pop` is a sequence of
whole calls.  A call takes effect at one of its steps (`effects`): one that succeeds
where it stores its index, one that fails where it loads the index of the other thread
and finds the queue full, or empty.

* `Effected.turn`: a step of one thread is matched by the calls that take effect at it.
* `spsc_linearizable`: the calls in the order of their effects return what the threads
  have returned.
-/

namespace MatchingEngine

variable {T : Type}

/-- What the pushes have returned, call by call. -/
def pushResults (log : List (Returned T)) : List (T × Bool) :=
  log.filterMap fun r => match r with
    | .push item ok => some (item, ok)
    | _ => none

theorem pushResults_append (log log' : List (Returned T)) :
    pushResults (log ++ log') = pushResults log ++ pushResults log' :=
  List.filterMap_append

namespace SPSCQueue

/-! ## Where calls take effect -/

/-- The calls that take effect at a step. -/
def effects (Capacity : ℕ) (s : Threads T) : Turn T → List (Call T)
  | .producer =>
    match s.producer with
    | .loadHead item currentTail =>
      if (currentTail + 1) % Capacity = s.queue.head then [.push item] else []
    | .store item _ => [.push item]
    | _ => []
  | .consumer =>
    match s.consumer with
    | .loadTail currentHead => if currentHead = s.queue.tail then [.pop] else []
    | .store .. => [.pop]
    | _ => []
  | _ => []

/-- What the producer is about to return of a push that has taken effect. -/
def Producer.due (Capacity : ℕ) : Producer T → List (T × Bool)
  | .test item currentTail currentHead =>
    if (currentTail + 1) % Capacity = currentHead then [(item, false)] else []
  | _ => []

/-- What the consumer is about to return of a pop that has taken effect. -/
def Consumer.due : Consumer T → List (Option T)
  | .test currentHead currentTail => if currentHead = currentTail then [none] else []
  | _ => []

/-- The calls that have taken effect have returned, or are about to. -/
structure Effected (Capacity : ℕ) (log : List (Returned T)) (s : Threads T)
    (log' : List (Returned T)) (q : SPSCQueue T) : Prop where
  inv : Inv Capacity log s
  holds : q.Holds Capacity (pushed log) (popped log).length
  pushes : pushResults log' = pushResults log ++ s.producer.due Capacity
  pops : popResults log' = popResults log ++ s.consumer.due

theorem effected_init {Capacity : ℕ} (hC : 0 < Capacity) (buffer : ℕ → T) :
    Effected Capacity [] (threads Capacity buffer).init [] (calls Capacity buffer).init where
  inv := inv_init hC buffer
  holds := holds_new hC buffer
  pushes := rfl
  pops := rfl

section Step

variable {Capacity : ℕ} {buffer : ℕ → T} {log log' : List (Returned T)} {s : Threads T}
  {q : SPSCQueue T}

/-- A step and the calls `fx` that take effect at it: what it returns was due or is among
them, and what is due now is the rest. -/
theorem Effected.step (h : Effected Capacity log s log' q) {s' : Threads T}
    {out fx : List (Returned T)} {q' : SPSCQueue T} (hinv : Inv Capacity (log ++ out) s')
    (hholds : q'.Holds Capacity (pushed (log ++ out)) (popped (log ++ out)).length)
    (hpushes : s.producer.due Capacity ++ pushResults fx =
      pushResults out ++ s'.producer.due Capacity)
    (hpops : s.consumer.due ++ popResults fx = popResults out ++ s'.consumer.due) :
    Effected Capacity (log ++ out) s' (log' ++ fx) q' := by
  refine ⟨hinv, hholds, ?_, ?_⟩
  · rw [pushResults_append, pushResults_append, h.pushes, List.append_assoc, hpushes,
      List.append_assoc]
  · rw [popResults_append, popResults_append, h.pops, List.append_assoc, hpops,
      List.append_assoc]

/-- A step at which no call succeeds. -/
theorem Effected.of_failing (h : Effected Capacity log s log' q) {s' : Threads T}
    {out fx : List (Returned T)} (hinv : Inv Capacity (log ++ out) s')
    (hpushed : pushed out = []) (hpopped : popped out = [])
    (hpushes : s.producer.due Capacity ++ pushResults fx =
      pushResults out ++ s'.producer.due Capacity)
    (hpops : s.consumer.due ++ popResults fx = popResults out ++ s'.consumer.due) :
    Effected Capacity (log ++ out) s' (log' ++ fx) q := by
  refine h.step hinv ?_ hpushes hpops
  rw [pushed_append, popped_append, hpushed, hpopped, List.append_nil, List.append_nil]
  exact h.holds

/-- **A step of the producer** is matched by the push that takes effect at it. -/
theorem Effected.producerStep (h : Effected Capacity log s log' q) :
    Effected Capacity (log ++ (producerStep Capacity s).2) (producerStep Capacity s).1
      (log' ++ (calls Capacity buffer).logFrom q (effects Capacity s .producer))
      ((calls Capacity buffer).runFrom q (effects Capacity s .producer)) := by
  have hinv := h.inv.producerStep
  have hp := h.inv.producer
  rw [SPSCQueue.producerStep] at hinv ⊢
  rw [effects]
  cases hpc : s.producer with
  | loadHead item t =>
    rw [hpc] at hinv hp
    have ht : t = s.queue.tail := hp
    by_cases hfull : (t + 1) % Capacity = s.queue.head
    · -- the queue is full now, and so is the one of the whole calls
      have hcount := h.inv.rep.full_iff.mp (ht ▸ hfull)
      have hpush : q.push Capacity item = (q, false) := by
        rcases push_spec h.holds item with ⟨-, hpush⟩ | ⟨hlt, -, -⟩
        · exact hpush
        · omega
      simp only [if_pos hfull, Machine.logFrom_cons, Machine.logFrom_nil, Machine.runFrom_cons,
        Machine.runFrom_nil]
      rw [show (calls Capacity buffer).step q (.push item) = (q, [.push item false]) from
        congrArg (fun r => (r.1, [Returned.push item r.2])) hpush]
      refine h.of_failing hinv rfl rfl ?_ (List.append_nil _)
      rw [hpc]
      exact (if_pos hfull).symm
    · simp only [if_neg hfull]
      refine h.of_failing hinv rfl rfl ?_ (List.append_nil _)
      rw [hpc]
      exact (if_neg hfull).symm
  | test item t hd =>
    rw [hpc] at hinv
    simp only at hinv ⊢
    by_cases hfull : (t + 1) % Capacity = hd
    · rw [if_pos hfull] at hinv ⊢
      refine h.of_failing hinv rfl rfl ?_ (List.append_nil _)
      rw [hpc, Producer.due, if_pos hfull]
      rfl
    · rw [if_neg hfull] at hinv ⊢
      refine h.of_failing hinv rfl rfl ?_ (List.append_nil _)
      rw [hpc, Producer.due, if_neg hfull]
      rfl
  | store item t =>
    rw [hpc] at hinv hp
    obtain ⟨-, hroom, -⟩ := hp
    obtain ⟨hok, hholds⟩ : (q.push Capacity item).2 = true ∧
        (q.push Capacity item).1.Holds Capacity (pushed log ++ [item]) (popped log).length := by
      rcases push_spec h.holds item with ⟨hfull, -⟩ | ⟨-, hpush⟩
      · omega
      · exact hpush
    simp only [Machine.logFrom_cons, Machine.logFrom_nil, Machine.runFrom_cons,
      Machine.runFrom_nil]
    rw [show (calls Capacity buffer).step q (.push item) =
      ((q.push Capacity item).1, [.push item true]) from
      congrArg (fun ok => ((q.push Capacity item).1, [Returned.push item ok])) hok]
    refine h.step hinv ?_ ?_ (List.append_nil _)
    · rw [pushed_append, popped_append]
      exact (List.append_nil (popped log)).symm ▸ hholds
    · rw [hpc]
      rfl
  | _ =>
    rw [hpc] at hinv
    refine h.of_failing hinv rfl rfl ?_ (List.append_nil _)
    rw [hpc]
    rfl

/-- **A step of the consumer** is matched by the pop that takes effect at it. -/
theorem Effected.consumerStep (h : Effected Capacity log s log' q) :
    Effected Capacity (log ++ (consumerStep Capacity s).2) (consumerStep Capacity s).1
      (log' ++ (calls Capacity buffer).logFrom q (effects Capacity s .consumer))
      ((calls Capacity buffer).runFrom q (effects Capacity s .consumer)) := by
  have hinv := h.inv.consumerStep
  have hc := h.inv.consumer
  rw [SPSCQueue.consumerStep] at hinv ⊢
  rw [effects]
  cases hpc : s.consumer with
  | loadTail hd =>
    rw [hpc] at hinv hc
    have hhd : hd = s.queue.head := hc
    by_cases hempty : hd = s.queue.tail
    · have hcount := h.inv.rep.empty_iff.mp (hhd ▸ hempty)
      have hpop : q.pop Capacity = (q, none) := by
        rcases pop_spec h.holds with ⟨-, hpop⟩ | ⟨hlt, -⟩
        · exact hpop
        · omega
      simp only [if_pos hempty, Machine.logFrom_cons, Machine.logFrom_nil, Machine.runFrom_cons,
        Machine.runFrom_nil]
      rw [show (calls Capacity buffer).step q .pop = (q, [.pop none]) from
        congrArg (fun r => (r.1, [Returned.pop r.2])) hpop]
      refine h.of_failing hinv rfl rfl (List.append_nil _) ?_
      rw [hpc]
      exact (if_pos hempty).symm
    · simp only [if_neg hempty]
      refine h.of_failing hinv rfl rfl (List.append_nil _) ?_
      rw [hpc]
      exact (if_neg hempty).symm
  | test hd t =>
    rw [hpc] at hinv
    simp only at hinv ⊢
    by_cases hempty : hd = t
    · rw [if_pos hempty] at hinv ⊢
      refine h.of_failing hinv rfl rfl (List.append_nil _) ?_
      rw [hpc, Consumer.due, if_pos hempty]
      rfl
    · rw [if_neg hempty] at hinv ⊢
      refine h.of_failing hinv rfl rfl (List.append_nil _) ?_
      rw [hpc, Consumer.due, if_neg hempty]
      rfl
  | store hd item =>
    rw [hpc] at hinv hc
    obtain ⟨-, hlt, hitem⟩ := hc
    obtain ⟨hret, hholds⟩ : (q.pop Capacity).2 = some item ∧
        (q.pop Capacity).1.Holds Capacity (pushed log) ((popped log).length + 1) := by
      rcases pop_spec h.holds with ⟨hempty, -⟩ | ⟨-, item', hitem', hret, hpop⟩
      · omega
      · rw [hitem] at hitem'
        exact ⟨hret.trans hitem'.symm, hpop⟩
    simp only [Machine.logFrom_cons, Machine.logFrom_nil, Machine.runFrom_cons,
      Machine.runFrom_nil]
    rw [show (calls Capacity buffer).step q .pop = ((q.pop Capacity).1, [.pop (some item)]) from
      congrArg (fun r => ((q.pop Capacity).1, [Returned.pop r])) hret]
    refine h.step hinv ?_ (List.append_nil _) ?_
    · rw [pushed_append, popped_append, List.length_append]
      exact (List.append_nil (pushed log)).symm ▸ hholds
    · rw [hpc]
      rfl
  | _ =>
    rw [hpc] at hinv
    refine h.of_failing hinv rfl rfl (List.append_nil _) ?_
    rw [hpc]
    rfl

/-- **One step of one thread** is matched by the calls that take effect at it. -/
theorem Effected.turn (h : Effected Capacity log s log' q) (t : Turn T) :
    Effected Capacity (log ++ (turn Capacity s t).2) (turn Capacity s t).1
      (log' ++ (calls Capacity buffer).logFrom q (effects Capacity s t))
      ((calls Capacity buffer).runFrom q (effects Capacity s t)) := by
  have hinv := h.inv.turn t
  cases t with
  | call item =>
    rw [SPSCQueue.turn] at hinv ⊢
    cases hpc : s.producer with
    | idle =>
      rw [hpc] at hinv
      refine h.of_failing hinv rfl rfl ?_ (List.append_nil _)
      rw [hpc]
      rfl
    | _ =>
      rw [hpc] at hinv
      exact h.of_failing hinv rfl rfl (List.append_nil _) (List.append_nil _)
  | producer => exact h.producerStep
  | giveUp =>
    rw [SPSCQueue.turn] at hinv ⊢
    cases hpc : s.producer with
    | failed item =>
      rw [hpc] at hinv
      refine h.of_failing hinv rfl rfl ?_ (List.append_nil _)
      rw [hpc]
      rfl
    | _ =>
      rw [hpc] at hinv
      exact h.of_failing hinv rfl rfl (List.append_nil _) (List.append_nil _)
  | consumer => exact h.consumerStep

end Step

/-! ## Every schedule -/

/-- The calls that take effect along a schedule. -/
def linearization (Capacity : ℕ) (buffer : ℕ → T) (steps : List (Turn T)) : List (Call T) :=
  (threads Capacity buffer).points (effects Capacity) steps

theorem effected_threads {Capacity : ℕ} (hC : 0 < Capacity) (buffer : ℕ → T)
    (steps : List (Turn T)) :
    Effected Capacity ((threads Capacity buffer).log steps) ((threads Capacity buffer).run steps)
      ((calls Capacity buffer).log (linearization Capacity buffer steps))
      ((calls Capacity buffer).run (linearization Capacity buffer steps)) :=
  Machine.points_induction (R := Effected Capacity) (effected_init hC buffer)
    (fun _ _ _ _ t h => h.turn t) steps

/-- **The ring is linearizable.**  Along every interleaving of the steps of the two
threads the calls that have taken effect, performed at once and in the order of their
effects, return to each thread what it has been returned, or is about to be; and a call
that has taken effect keeps its place.  So a call that has returned before another is
made comes before it, and a call that fails has found the queue full, or empty, at a
moment between its first step and its last. -/
theorem spsc_linearizable {Capacity : ℕ} (hC : 0 < Capacity) (buffer : ℕ → T)
    (steps more : List (Turn T)) :
    pushResults ((calls Capacity buffer).log (linearization Capacity buffer steps)) =
        pushResults ((threads Capacity buffer).log steps) ++
          ((threads Capacity buffer).run steps).producer.due Capacity ∧
      popResults ((calls Capacity buffer).log (linearization Capacity buffer steps)) =
        popResults ((threads Capacity buffer).log steps) ++
          ((threads Capacity buffer).run steps).consumer.due ∧
      linearization Capacity buffer steps <+: linearization Capacity buffer (steps ++ more) := by
  have h := effected_threads hC buffer steps
  exact ⟨h.pushes, h.pops, _, ((threads Capacity buffer).points_append _ steps more).symm⟩

/-- A push finds the ring of two slots full, and a pop makes room before it returns. -/
theorem spsc_linearizable_stale :
    let buffer : ℕ → ℕ := fun _ => 0
    let steps : List (Turn ℕ) := [.call 7, .producer, .producer, .producer, .producer, .producer,
      .call 8, .producer, .producer, .consumer, .consumer, .consumer, .consumer, .consumer,
      .producer]
    (pushResults ((calls 2 buffer).log (linearization 2 buffer steps)) =
        pushResults ((threads 2 buffer).log steps) ++
          ((threads 2 buffer).run steps).producer.due 2) ∧
      linearization 2 buffer steps = [.push 7, .push 8, .pop] ∧
      (threads 2 buffer).log steps = [.push 7 true, .pop (some 7), .push 8 false] :=
  ⟨(spsc_linearizable (by decide) _ _ []).1, rfl, by decide⟩

end SPSCQueue
end MatchingEngine
