import MatchingEngine.Queue.SPSCQueue
import Mathlib.Data.List.TakeDrop

/-!
# The ring is a bounded queue

Every interleaving of the producer's and the consumer's steps keeps the ring a
bounded first-in-first-out queue.  Each thread works with a copy of the other's
index that may be out of date; `ProducerInv` and `ConsumerInv` say how wrong the
copy can be: it is an earlier value of a counter that only grows.

* `Inv.turn`: one step of one thread preserves the invariant.
* `push_spec`, `pop_spec`: the whole calls in terms of the history.
* `run_schedule`: whole calls are interleavings in which nobody interrupts.
* `popResults_calls`: what the pops return is what those of a locked unbounded
  queue return when it is spared the pushes that failed.
-/

namespace MatchingEngine

variable {T : Type}

namespace SPSCQueue

/-! ## The invariant of the interleavings -/

/-- What the producer knows, when `n` items have been pushed and `m` popped. -/
def ProducerInv (Capacity : ℕ) (q : SPSCQueue T) (n m : ℕ) : Producer T → Prop
  | .idle => True
  | .loadTail _ => True
  | .loadHead _ currentTail => currentTail = q.tail
  | .test _ currentTail currentHead =>
    -- the head it read belongs to an earlier count of pops
    currentTail = q.tail ∧ ∃ m', m' ≤ m ∧ n < m' + Capacity ∧ currentHead = m' % Capacity
  | .write _ currentTail => currentTail = q.tail ∧ n + 1 < m + Capacity
  | .store item currentTail =>
    currentTail = q.tail ∧ n + 1 < m + Capacity ∧ q.buffer currentTail = item
  | .failed _ => True

/-- What the consumer knows, when the items `l` have been pushed and `m` of them
popped. -/
def ConsumerInv (Capacity : ℕ) (q : SPSCQueue T) (l : List T) (m : ℕ) : Consumer T → Prop
  | .loadHead => True
  | .loadTail currentHead => currentHead = q.head
  | .test currentHead currentTail =>
    -- the tail it read belongs to an earlier count of pushes
    currentHead = q.head ∧ ∃ n', n' ≤ l.length ∧ m ≤ n' ∧ currentTail = n' % Capacity
  | .read currentHead => currentHead = q.head ∧ m < l.length
  | .store currentHead item => currentHead = q.head ∧ m < l.length ∧ l[m]? = some item

/-- The invariant: the ring represents the history, the items come out in the
order they went in, and both threads know what they need. -/
structure Inv (Capacity : ℕ) (log : List (Returned T)) (s : Threads T) : Prop where
  rep : Ring.Rep Capacity s.queue.buffer s.queue.head s.queue.tail (pushed log)
    (popped log).length
  fifo : popped log <+: pushed log
  producer : ProducerInv Capacity s.queue (pushed log).length (popped log).length s.producer
  consumer : ConsumerInv Capacity s.queue (pushed log) (popped log).length s.consumer

/-- The producer does not mind the consumer's progress. -/
theorem ProducerInv.mono {Capacity : ℕ} {q q' : SPSCQueue T} {n m m' : ℕ} {pc : Producer T}
    (h : ProducerInv Capacity q n m pc) (htail : q'.tail = q.tail)
    (hbuffer : q'.buffer = q.buffer) (hm : m ≤ m') : ProducerInv Capacity q' n m' pc := by
  cases pc with
  | idle => trivial
  | loadTail item => trivial
  | loadHead item t => exact (show t = q.tail from h).trans htail.symm
  | test item t hd =>
    obtain ⟨ht, k, hk, hroom, hhd⟩ := h
    exact ⟨ht.trans htail.symm, k, hk.trans hm, hroom, hhd⟩
  | write item t =>
    obtain ⟨ht, hroom⟩ := h
    exact ⟨ht.trans htail.symm, by omega⟩
  | store item t =>
    obtain ⟨ht, hroom, hitem⟩ := h
    exact ⟨ht.trans htail.symm, by omega, by rw [hbuffer]; exact hitem⟩
  | failed item => trivial

/-- The consumer does not mind the producer's progress. -/
theorem ConsumerInv.mono {Capacity : ℕ} {q q' : SPSCQueue T} {l l' : List T} {m : ℕ}
    {pc : Consumer T} (h : ConsumerInv Capacity q l m pc) (hhead : q'.head = q.head)
    (hl : l <+: l') : ConsumerInv Capacity q' l' m pc := by
  have hlen := hl.length_le
  cases pc with
  | loadHead => trivial
  | loadTail hd => exact (show hd = q.head from h).trans hhead.symm
  | test hd t =>
    obtain ⟨hhd, n, hn, hmn, ht⟩ := h
    exact ⟨hhd.trans hhead.symm, n, hn.trans hlen, hmn, ht⟩
  | read hd =>
    obtain ⟨hhd, hlt⟩ := h
    exact ⟨hhd.trans hhead.symm, by omega⟩
  | store hd item =>
    obtain ⟨hhd, hlt, hitem⟩ := h
    obtain ⟨rest, rfl⟩ := hl
    exact ⟨hhd.trans hhead.symm, by omega, by rw [List.getElem?_append_left hlt]; exact hitem⟩

theorem inv_init {Capacity : ℕ} (hC : 0 < Capacity) (buffer : ℕ → T) :
    Inv Capacity [] (threads Capacity buffer).init where
  rep := Ring.rep_empty hC buffer
  fifo := List.prefix_rfl
  producer := trivial
  consumer := trivial

/-- A log that reports no success is no news. -/
theorem Inv.of_quiet {Capacity : ℕ} {log log' : List (Returned T)} {s : Threads T}
    (h : Inv Capacity log s) (hpushed : pushed log' = []) (hpopped : popped log' = []) :
    Inv Capacity (log ++ log') s := by
  have h1 : pushed (log ++ log') = pushed log := by
    rw [pushed_append, hpushed, List.append_nil]
  have h2 : popped (log ++ log') = popped log := by
    rw [popped_append, hpopped, List.append_nil]
  exact ⟨by rw [h1, h2]; exact h.rep, by rw [h1, h2]; exact h.fifo,
    by rw [h1, h2]; exact h.producer, by rw [h1, h2]; exact h.consumer⟩

/-- **A step of the producer** preserves the invariant. -/
theorem Inv.producerStep {Capacity : ℕ} {log : List (Returned T)} {s : Threads T}
    (h : Inv Capacity log s) :
    Inv Capacity (log ++ (producerStep Capacity s).2) (producerStep Capacity s).1 := by
  have hp := h.producer
  rw [SPSCQueue.producerStep]
  cases hpc : s.producer with
  | idle => exact h.of_quiet rfl rfl
  | loadTail item => exact Inv.of_quiet ⟨h.rep, h.fifo, rfl, h.consumer⟩ rfl rfl
  | loadHead item t =>
    rw [hpc] at hp
    refine Inv.of_quiet ⟨h.rep, h.fifo, ⟨hp, _, le_refl _, h.rep.room, h.rep.head_eq⟩,
      h.consumer⟩ rfl rfl
  | test item t hd =>
    rw [hpc] at hp
    obtain ⟨ht, m', hm', hroom, hhd⟩ := hp
    simp only
    split
    · exact Inv.of_quiet ⟨h.rep, h.fifo, trivial, h.consumer⟩ rfl rfl
    · rename_i hne
      refine Inv.of_quiet ⟨h.rep, h.fifo, ⟨ht, ?_⟩, h.consumer⟩ rfl rfl
      -- with the old count of pops there was room, and there is no less now
      have hnot : (pushed log).length + 1 ≠ m' + Capacity := by
        intro heq
        refine hne ?_
        rw [ht, h.rep.tail_eq, hhd, Nat.mod_add_mod, heq, Nat.add_mod_right]
      omega
  | write item t =>
    rw [hpc] at hp
    obtain ⟨ht, hroom⟩ := hp
    subst ht
    exact Inv.of_quiet ⟨h.rep.write item, h.fifo, ⟨rfl, hroom, Function.update_self _ _ _⟩,
      h.consumer.mono rfl List.prefix_rfl⟩ rfl rfl
  | store item t =>
    rw [hpc] at hp
    obtain ⟨ht, hroom, hitem⟩ := hp
    subst ht
    have h1 : pushed (log ++ [.push item true]) = pushed log ++ [item] := pushed_append _ _
    have h2 : popped (log ++ [.push item true]) = popped log := by
      rw [popped_append]
      exact List.append_nil _
    refine ⟨?_, ?_, trivial, ?_⟩
    · rw [h1, h2]
      exact h.rep.advance_tail hitem hroom
    · rw [h1, h2]
      exact h.fifo.trans (List.prefix_append _ _)
    · rw [h1, h2]
      exact h.consumer.mono rfl (List.prefix_append _ _)
  | failed item => exact Inv.of_quiet ⟨h.rep, h.fifo, trivial, h.consumer⟩ rfl rfl

/-- **A step of the consumer** preserves the invariant. -/
theorem Inv.consumerStep {Capacity : ℕ} {log : List (Returned T)} {s : Threads T}
    (h : Inv Capacity log s) :
    Inv Capacity (log ++ (consumerStep Capacity s).2) (consumerStep Capacity s).1 := by
  have hc := h.consumer
  rw [SPSCQueue.consumerStep]
  cases hpc : s.consumer with
  | loadHead => exact Inv.of_quiet ⟨h.rep, h.fifo, h.producer, rfl⟩ rfl rfl
  | loadTail hd =>
    rw [hpc] at hc
    exact Inv.of_quiet ⟨h.rep, h.fifo, h.producer, ⟨hc, _, le_refl _, h.rep.le, h.rep.tail_eq⟩⟩
      rfl rfl
  | test hd t =>
    rw [hpc] at hc
    obtain ⟨hhd, n', hn', hmn', ht⟩ := hc
    simp only
    split
    · exact Inv.of_quiet ⟨h.rep, h.fifo, h.producer, trivial⟩ rfl rfl
    · rename_i hne
      refine Inv.of_quiet ⟨h.rep, h.fifo, h.producer, ⟨hhd, ?_⟩⟩ rfl rfl
      -- with the old count of pushes there was an item, and there are no fewer now
      have hnot : (popped log).length ≠ n' := by
        intro heq
        refine hne ?_
        rw [hhd, h.rep.head_eq, ht, heq]
      omega
  | read hd =>
    rw [hpc] at hc
    obtain ⟨hhd, hlt⟩ := hc
    subst hhd
    exact Inv.of_quiet ⟨h.rep, h.fifo, h.producer, ⟨rfl, hlt, h.rep.read hlt⟩⟩ rfl rfl
  | store hd item =>
    rw [hpc] at hc
    obtain ⟨hhd, hlt, hitem⟩ := hc
    subst hhd
    have h1 : pushed (log ++ [.pop (some item)]) = pushed log := by
      rw [pushed_append]
      exact List.append_nil _
    have h2 : popped (log ++ [.pop (some item)]) = popped log ++ [item] := popped_append _ _
    have hlen : (popped log ++ [item]).length = (popped log).length + 1 := by
      rw [List.length_append, List.length_singleton]
    refine ⟨?_, ?_, ?_, trivial⟩
    · rw [h1, h2, hlen]
      exact h.rep.advance_head hlt
    · rw [h1, h2]
      -- the item read is the one after those already popped
      have hnext : (pushed log).take ((popped log).length + 1) = popped log ++ [item] := by
        rw [List.take_add_one, hitem, ← List.prefix_iff_eq_take.mp h.fifo, Option.toList_some]
      rw [← hnext]
      exact List.take_prefix _ _
    · rw [h1, h2, hlen]
      exact h.producer.mono rfl rfl (Nat.le_succ _)

/-- **One step of one thread** preserves the invariant. -/
theorem Inv.turn {Capacity : ℕ} {log : List (Returned T)} {s : Threads T}
    (h : Inv Capacity log s) (t : Turn T) :
    Inv Capacity (log ++ (turn Capacity s t).2) (turn Capacity s t).1 := by
  cases t with
  | call item =>
    rw [SPSCQueue.turn]
    cases s.producer with
    | idle => exact Inv.of_quiet ⟨h.rep, h.fifo, trivial, h.consumer⟩ rfl rfl
    | _ => exact h.of_quiet rfl rfl
  | producer => exact h.producerStep
  | giveUp =>
    rw [SPSCQueue.turn]
    split
    · exact Inv.of_quiet ⟨h.rep, h.fifo, trivial, h.consumer⟩ rfl rfl
    · exact h.of_quiet rfl rfl
  | consumer => exact h.consumerStep

/-- The invariant holds after every schedule. -/
theorem inv_threads {Capacity : ℕ} (hC : 0 < Capacity) (buffer : ℕ → T)
    (steps : List (Turn T)) :
    Inv Capacity ((threads Capacity buffer).log steps) ((threads Capacity buffer).run steps) := by
  induction steps using List.reverseRecOn with
  | nil => exact inv_init hC buffer
  | append_singleton steps t ih =>
    rw [Machine.log_concat, Machine.run_concat]
    exact ih.turn t

/-! ## Whole calls -/

/-- The ring represents a history of calls. -/
def Holds (Capacity : ℕ) (q : SPSCQueue T) (l : List T) (m : ℕ) : Prop :=
  Ring.Rep Capacity q.buffer q.head q.tail l m

theorem holds_new {Capacity : ℕ} (hC : 0 < Capacity) (buffer : ℕ → T) :
    (new buffer).Holds Capacity [] 0 := Ring.rep_empty hC buffer

/-- **A push** fails when one slot is left, and otherwise appends. -/
theorem push_spec {Capacity : ℕ} {q : SPSCQueue T} {l : List T} {m : ℕ}
    (h : q.Holds Capacity l m) (item : T) :
    (l.length + 1 = m + Capacity ∧ q.push Capacity item = (q, false)) ∨
    (l.length + 1 < m + Capacity ∧ (q.push Capacity item).2 = true ∧
      (q.push Capacity item).1.Holds Capacity (l ++ [item]) m) := by
  have hfull := Ring.Rep.full_iff h
  have hroom := Ring.Rep.room h
  rw [push]
  by_cases hc : (q.tail + 1) % Capacity = q.head
  · exact Or.inl ⟨hfull.mp hc, if_pos hc⟩
  · have hlt : l.length + 1 < m + Capacity := by
      have hne := fun heq => hc (hfull.mpr heq)
      omega
    simp only [if_neg hc]
    refine Or.inr ⟨hlt, trivial, ?_⟩
    exact (Ring.Rep.write h item).advance_tail (Function.update_self _ _ _) hlt

/-- **A pop** fails when everything has been popped, and otherwise returns the
oldest item that has not. -/
theorem pop_spec {Capacity : ℕ} {q : SPSCQueue T} {l : List T} {m : ℕ}
    (h : q.Holds Capacity l m) :
    (m = l.length ∧ q.pop Capacity = (q, none)) ∨
    (m < l.length ∧ ∃ item, l[m]? = some item ∧ (q.pop Capacity).2 = some item ∧
      (q.pop Capacity).1.Holds Capacity l (m + 1)) := by
  have hempty := Ring.Rep.empty_iff h
  have hle := Ring.Rep.le h
  rw [pop]
  by_cases hc : q.head = q.tail
  · exact Or.inl ⟨hempty.mp hc, if_pos hc⟩
  · have hlt : m < l.length := by
      have hne := fun heq => hc (hempty.mpr heq)
      omega
    simp only [if_neg hc]
    exact Or.inr ⟨hlt, q.buffer q.head, Ring.Rep.read h hlt, rfl, Ring.Rep.advance_head h hlt⟩

/-- **One call** keeps the ring a representation of the history. -/
theorem Holds.call {Capacity : ℕ} {q : SPSCQueue T} {log : List (Returned T)}
    (h : q.Holds Capacity (pushed log) (popped log).length) (c : Call T) :
    (q.call Capacity c).1.Holds Capacity (pushed (log ++ (q.call Capacity c).2))
      (popped (log ++ (q.call Capacity c).2)).length := by
  rw [pushed_append, popped_append, List.length_append]
  cases c with
  | push item =>
    rcases push_spec h item with ⟨-, hpush⟩ | ⟨-, hok, hpush⟩
    · simp only [SPSCQueue.call, hpush]
      rw [show pushed [Returned.push item false] = [] from rfl, List.append_nil]
      exact h
    · simp only [SPSCQueue.call, hok]
      exact hpush
  | pop =>
    rcases pop_spec h with ⟨-, hpop⟩ | ⟨-, item, -, hitem, hpop⟩
    · simp only [SPSCQueue.call, hpop]
      rw [show pushed [Returned.pop (none : Option T)] = [] from rfl, List.append_nil]
      exact h
    · simp only [SPSCQueue.call, hitem]
      rw [show pushed [Returned.pop (some item)] = [] from rfl, List.append_nil]
      exact hpop

theorem holds_calls {Capacity : ℕ} (hC : 0 < Capacity) (buffer : ℕ → T) (cs : List (Call T)) :
    ((calls Capacity buffer).run cs).Holds Capacity (pushed ((calls Capacity buffer).log cs))
      (popped ((calls Capacity buffer).log cs)).length := by
  induction cs using List.reverseRecOn with
  | nil => exact holds_new hC buffer
  | append_singleton cs c ih =>
    rw [Machine.log_concat, Machine.run_concat]
    exact ih.call c

/-! ## Whole calls are uninterrupted interleavings -/

/-- The steps of a call that nobody interrupts.  A push that fails is given up. -/
def turns (Capacity : ℕ) (q : SPSCQueue T) : Call T → List (Turn T)
  | .push item =>
    if (q.push Capacity item).2 then
      [.call item, .producer, .producer, .producer, .producer, .producer]
    else [.call item, .producer, .producer, .producer, .giveUp]
  | .pop =>
    if (q.pop Capacity).2.isSome then
      [.consumer, .consumer, .consumer, .consumer, .consumer]
    else [.consumer, .consumer, .consumer]

/-- The schedule in which calls follow one another. -/
def schedule (Capacity : ℕ) : SPSCQueue T → List (Call T) → List (Turn T)
  | _, [] => []
  | q, c :: cs => turns Capacity q c ++ schedule Capacity (q.call Capacity c).1 cs

/-- Both threads are between calls. -/
def resting (q : SPSCQueue T) : Threads T := ⟨q, .idle, .loadHead⟩

theorem run_turns (Capacity : ℕ) (buffer : ℕ → T) (q : SPSCQueue T) (c : Call T) :
    (threads Capacity buffer).runFrom q.resting (turns Capacity q c) =
        (q.call Capacity c).1.resting ∧
      (threads Capacity buffer).logFrom q.resting (turns Capacity q c) = (q.call Capacity c).2 := by
  cases c with
  | push item =>
    by_cases hc : (q.tail + 1) % Capacity = q.head
    · have hturns : turns Capacity q (.push item) =
          [.call item, .producer, .producer, .producer, .giveUp] := by
        simp [turns, push, hc]
      rw [hturns]
      simp [threads, turn, producerStep, resting, SPSCQueue.call, push, hc]
    · have hturns : turns Capacity q (.push item) =
          [.call item, .producer, .producer, .producer, .producer, .producer] := by
        simp [turns, push, hc]
      rw [hturns]
      simp [threads, turn, producerStep, resting, SPSCQueue.call, push, hc]
  | pop =>
    by_cases hc : q.head = q.tail
    · have hturns : turns Capacity q .pop = [.consumer, .consumer, .consumer] := by
        simp [turns, pop, hc]
      rw [hturns]
      simp [threads, turn, consumerStep, resting, SPSCQueue.call, pop, hc]
    · have hturns : turns Capacity q .pop =
          [.consumer, .consumer, .consumer, .consumer, .consumer] := by
        simp [turns, pop, hc]
      rw [hturns]
      simp [threads, turn, consumerStep, resting, SPSCQueue.call, pop, hc]

/-- **Whole calls are interleavings.**  A sequence of calls does what the two
threads do when neither is interrupted inside a call. -/
theorem run_schedule (Capacity : ℕ) (buffer : ℕ → T) (cs : List (Call T)) (q : SPSCQueue T) :
    (threads Capacity buffer).runFrom q.resting (schedule Capacity q cs) =
        ((calls Capacity buffer).runFrom q cs).resting ∧
      (threads Capacity buffer).logFrom q.resting (schedule Capacity q cs) =
        (calls Capacity buffer).logFrom q cs := by
  induction cs generalizing q with
  | nil => exact ⟨rfl, rfl⟩
  | cons c cs ih =>
    obtain ⟨hrun, hlog⟩ := run_turns Capacity buffer q c
    obtain ⟨ihrun, ihlog⟩ := ih (q.call Capacity c).1
    rw [schedule, Machine.runFrom_append, Machine.logFrom_append, hrun, hlog, ihrun, ihlog]
    exact ⟨rfl, rfl⟩

/-! ## The locked queue -/

/-- The calls without the pushes that fail. -/
def withoutFailed (Capacity : ℕ) : SPSCQueue T → List (Call T) → List (Call T)
  | _, [] => []
  | q, .push item :: cs =>
    if (q.push Capacity item).2 then
      .push item :: withoutFailed Capacity (q.push Capacity item).1 cs
    else withoutFailed Capacity (q.push Capacity item).1 cs
  | q, .pop :: cs => .pop :: withoutFailed Capacity (q.pop Capacity).1 cs

theorem drop_eq_cons {l : List T} {m : ℕ} {item : T} (h : l[m]? = some item) :
    l.drop m = item :: l.drop (m + 1) := by
  obtain ⟨hlt, hitem⟩ := List.getElem?_eq_some_iff.mp h
  rw [List.drop_eq_getElem_cons hlt, hitem]

/-- **The ring and the locked queue** return the same from every pop, when the
locked queue holds what the ring has pending. -/
theorem popResults_calls {Capacity : ℕ} (buffer : ℕ → T) (cs : List (Call T)) :
    ∀ (q : SPSCQueue T) (l : List T) (m : ℕ), q.Holds Capacity l m →
      popResults ((calls Capacity buffer).logFrom q cs) =
        popResults (MutexQueue.calls.logFrom ⟨l.drop m⟩ (withoutFailed Capacity q cs)) := by
  induction cs with
  | nil => exact fun _ _ _ _ => rfl
  | cons c cs ih =>
    intro q l m h
    rw [Machine.logFrom_cons, popResults_append]
    cases c with
    | push item =>
      rcases push_spec h item with ⟨-, hpush⟩ | ⟨hroom, hok, hpush⟩
      · have hskip : withoutFailed Capacity q (.push item :: cs) = withoutFailed Capacity q cs := by
          rw [withoutFailed, hpush]
          rfl
        rw [hskip]
        show popResults [.push item (q.push Capacity item).2] ++
          popResults ((calls Capacity buffer).logFrom (q.push Capacity item).1 cs) = _
        rw [hpush]
        exact ih q l m h
      · have hkeep : withoutFailed Capacity q (.push item :: cs) =
            .push item :: withoutFailed Capacity (q.push Capacity item).1 cs := by
          rw [withoutFailed, if_pos hok]
        have hle := Ring.Rep.le h
        rw [hkeep, Machine.logFrom_cons, popResults_append]
        have hrec := ih (q.push Capacity item).1 (l ++ [item]) m hpush
        rw [List.drop_append_of_le_length hle] at hrec
        exact hrec
    | pop =>
      rw [withoutFailed, Machine.logFrom_cons, popResults_append]
      rcases pop_spec h with ⟨hm, hpop⟩ | ⟨hlt, item, hitem, hret, hpop⟩
      · have hnil : l.drop m = [] := by rw [hm, List.drop_length]
        show popResults [.pop (q.pop Capacity).2] ++
          popResults ((calls Capacity buffer).logFrom (q.pop Capacity).1 cs) = _
        rw [hpop, ih q l m h, hnil]
        rfl
      · have hcons := drop_eq_cons hitem
        show popResults [.pop (q.pop Capacity).2] ++
          popResults ((calls Capacity buffer).logFrom (q.pop Capacity).1 cs) = _
        rw [hret, ih _ l (m + 1) hpop, hcons]
        rfl

/-! ## The refinement -/

/-- What holds of the two threads at every moment. -/
structure Safe (Capacity : ℕ) (log : List (Returned T)) (s : Threads T) : Prop where
  /-- Nothing is lost, duplicated or reordered. -/
  fifo : popped log <+: pushed log
  /-- One slot is always free. -/
  pending : (pushed log).length ≤ (popped log).length + (Capacity - 1)
  head_lt : s.queue.head < Capacity
  tail_lt : s.queue.tail < Capacity
  /-- The producer does not write where the consumer reads. -/
  no_clash : ∀ item currentTail currentHead, s.producer = .write item currentTail →
    s.consumer = .read currentHead → currentTail ≠ currentHead

theorem Inv.safe {Capacity : ℕ} {log : List (Returned T)} {s : Threads T}
    (h : Inv Capacity log s) : Safe Capacity log s where
  fifo := h.fifo
  pending := by
    have hroom := h.rep.room
    omega
  head_lt := h.rep.head_lt
  tail_lt := h.rep.tail_lt
  no_clash item t hd hwrite hread := by
    have hp := h.producer
    have hc := h.consumer
    rw [hwrite] at hp
    rw [hread] at hc
    obtain ⟨ht, -⟩ := hp
    obtain ⟨hhd, hlt⟩ := hc
    rw [ht, hhd]
    exact (h.rep.head_ne_tail hlt).symm

/-- What holds of whole calls: when they fail, and what the pops return. -/
structure Bounded (Capacity : ℕ) (buffer : ℕ → T) (cs : List (Call T)) : Prop where
  push_iff : ∀ item, (((calls Capacity buffer).run cs).push Capacity item).2 = false ↔
    (pushed ((calls Capacity buffer).log cs)).length =
      (popped ((calls Capacity buffer).log cs)).length + (Capacity - 1)
  pop_iff : (((calls Capacity buffer).run cs).pop Capacity).2 = none ↔
    (pushed ((calls Capacity buffer).log cs)).length =
      (popped ((calls Capacity buffer).log cs)).length
  pops : popResults ((calls Capacity buffer).log cs) =
    popResults (MutexQueue.calls.log (withoutFailed Capacity (new buffer) cs))
  uninterrupted : (threads Capacity buffer).run (schedule Capacity (new buffer) cs) =
      ((calls Capacity buffer).run cs).resting ∧
    (threads Capacity buffer).log (schedule Capacity (new buffer) cs) =
      (calls Capacity buffer).log cs

theorem bounded_calls {Capacity : ℕ} (hC : 0 < Capacity) (buffer : ℕ → T) (cs : List (Call T)) :
    Bounded Capacity buffer cs where
  push_iff item := by
    rcases push_spec (holds_calls hC buffer cs) item with ⟨heq, h⟩ | ⟨hlt, h, -⟩
    · rw [h]
      exact ⟨fun _ => by omega, fun _ => rfl⟩
    · rw [h]
      exact ⟨fun h => absurd h (by simp), fun h => by omega⟩
  pop_iff := by
    rcases pop_spec (holds_calls hC buffer cs) with ⟨heq, h⟩ | ⟨hlt, item, -, h, -⟩
    · rw [h]
      exact ⟨fun _ => heq.symm, fun _ => rfl⟩
    · rw [h]
      exact ⟨fun h => absurd h (by simp), fun h => by omega⟩
  pops := popResults_calls buffer cs (new buffer) [] 0 (holds_new hC buffer)
  uninterrupted := run_schedule Capacity buffer cs (new buffer)

/-- **The ring refines a bounded queue.**  In every interleaving of the two
threads' steps the items come out in the order they went in, at most
`Capacity - 1` are pending, the indices stay inside the array and the threads
never touch the same slot; and taken as single steps the calls fail exactly when
the queue is full or empty, and the pops return what those of a `MutexQueue`
return. -/
theorem spsc_refines_fifo (Capacity : ℕ) (hCapacity : 2 ≤ Capacity) (buffer : ℕ → T) :
    (∀ steps : List (Turn T), Safe Capacity ((threads Capacity buffer).log steps)
      ((threads Capacity buffer).run steps)) ∧
    ∀ cs : List (Call T), Bounded Capacity buffer cs := by
  have hC : 0 < Capacity := by omega
  exact ⟨fun steps => (inv_threads hC buffer steps).safe, bounded_calls hC buffer⟩

/-- A ring of three slots, which is full with two items and wraps around. -/
theorem spsc_refines_fifo_three :
    let buffer : ℕ → ℕ := fun _ => 0
    let cs : List (Call ℕ) := [.push 5, .push 6, .push 7, .pop, .push 8, .pop, .pop, .pop]
    Bounded 3 buffer cs ∧
      popResults ((calls 3 buffer).log cs) = [some 5, some 6, some 8, none] :=
  ⟨(spsc_refines_fifo 3 (by decide) _).2 _, by decide⟩

end SPSCQueue
end MatchingEngine
