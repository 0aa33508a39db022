import MatchingEngine.Lib.WeakMemory
import MatchingEngine.Queue.Fifo

/-!
# The memory orders of the ring

`spsc_queue.h` gives every access to `head` and `tail` a `std::memory_order`.  Here `push`
and `pop` take the same steps as in `threads`, over a memory whose loads may return old
values and in which the slots of the array are plain cells: what a step of one thread means
for the other one is what the memory orders say, and no more.

* `WeakInv`: with whatever orders, the present values are those of a run of `threads`, and
  the index that a thread has loaded is an old one that it can live with.
* `weakTurn_memory`: what a step does to the memory.
-/

namespace MatchingEngine

variable {T : Type}

namespace SPSCQueue

open WeakMemory

/-! ## The steps -/

/-- The two threads. -/
inductive Thread where
  | producer
  | consumer
  deriving DecidableEq

/-- The two atomics. -/
inductive Index where
  | head
  | tail
  deriving DecidableEq

/-- The thread that stores an index. -/
def Index.owner : Index → Thread
  | .head => .consumer
  | .tail => .producer

/-- The memory orders of the six atomic accesses: `push` loads `tail` and `head` and stores
`tail`, `pop` loads `head` and `tail` and stores `head`. -/
structure Orders where
  load : Thread → Index → LoadOrder
  store : Index → StoreOrder

/-- The memory orders of `spsc_queue.h`. -/
def Orders.source : Orders where
  load
    | .producer, .tail => .relaxed
    | .producer, .head => .acquire
    | .consumer, .head => .relaxed
    | .consumer, .tail => .acquire
  store
    | .tail => .release
    | .head => .release

/-- The queue, in memory, and its two threads. -/
structure WeakThreads (T : Type) where
  memory : Memory Thread Index ℕ ℕ T
  producer : Producer T
  consumer : Consumer T

/-- Who takes the next step, and how old a value it gets if the step is a load. -/
inductive WeakTurn (T : Type) where
  | call (item : T)
  | producer (age : ℕ)
  | giveUp
  | consumer (age : ℕ)

/-- A step of `push`. -/
def weakProducerStep (Capacity : ℕ) (orders : Orders) (age : ℕ) (s : WeakThreads T) :
    WeakThreads T × List (Returned T) :=
  match s.producer with
  | .idle => (s, [])
  | .loadTail item =>
    let r := s.memory.load (orders.load .producer .tail) .producer .tail age
    ({ s with memory := r.2, producer := .loadHead item r.1 }, [])
  | .loadHead item currentTail =>
    let r := s.memory.load (orders.load .producer .head) .producer .head age
    ({ s with memory := r.2, producer := .test item currentTail r.1 }, [])
  | .test item currentTail currentHead =>
    if (currentTail + 1) % Capacity = currentHead then
      ({ s with producer := .failed item }, [.push item false])
    else ({ s with producer := .write item currentTail }, [])
  | .write item currentTail =>
    ({ s with
        memory := s.memory.write .producer currentTail item
        producer := .store item currentTail }, [])
  | .store item currentTail =>
    ({ s with
        memory :=
          s.memory.store (orders.store .tail) .producer .tail ((currentTail + 1) % Capacity)
        producer := .idle }, [.push item true])
  | .failed item => ({ s with producer := .loadTail item }, [])

/-- A step of `pop`. -/
def weakConsumerStep (Capacity : ℕ) (orders : Orders) (age : ℕ) (s : WeakThreads T) :
    WeakThreads T × List (Returned T) :=
  match s.consumer with
  | .loadHead =>
    let r := s.memory.load (orders.load .consumer .head) .consumer .head age
    ({ s with memory := r.2, consumer := .loadTail r.1 }, [])
  | .loadTail currentHead =>
    let r := s.memory.load (orders.load .consumer .tail) .consumer .tail age
    ({ s with memory := r.2, consumer := .test currentHead r.1 }, [])
  | .test currentHead currentTail =>
    if currentHead = currentTail then ({ s with consumer := .loadHead }, [.pop none])
    else ({ s with consumer := .read currentHead }, [])
  | .read currentHead =>
    let r := s.memory.read .consumer currentHead
    ({ s with memory := r.2, consumer := .store currentHead r.1 }, [])
  | .store currentHead item =>
    ({ s with
        memory :=
          s.memory.store (orders.store .head) .consumer .head ((currentHead + 1) % Capacity)
        consumer := .loadHead }, [.pop (some item)])

/-- One step of the two threads. -/
def weakTurn (Capacity : ℕ) (orders : Orders) (s : WeakThreads T) :
    WeakTurn T → WeakThreads T × List (Returned T)
  | .call item =>
    match s.producer with
    | .idle => ({ s with producer := .loadTail item }, [])
    | _ => (s, [])
  | .producer age => weakProducerStep Capacity orders age s
  | .giveUp =>
    match s.producer with
    | .failed _ => ({ s with producer := .idle }, [])
    | _ => (s, [])
  | .consumer age => weakConsumerStep Capacity orders age s

/-- The two threads as a machine that reads a schedule and the ages of the loads. -/
def weakThreads (Capacity : ℕ) (orders : Orders) (buffer : ℕ → T) :
    Machine (WeakThreads T) (WeakTurn T) (Returned T) :=
  ⟨⟨.new (fun _ => 0) buffer, .idle, .loadHead⟩, weakTurn Capacity orders⟩

/-- The write of a push that has not stored its index. -/
def Producer.written : Producer T → ℕ
  | .store .. => 1
  | _ => 0

/-- The read of a pop that has not stored its index. -/
def Consumer.taken : Consumer T → ℕ
  | .store .. => 1
  | _ => 0

/-- The access of its owner that an index does not count yet. -/
def WeakThreads.unstored (s : WeakThreads T) : Index → ℕ
  | .head => s.consumer.taken
  | .tail => s.producer.written

/-- **What a step does to the memory.** -/
theorem weakTurn_memory (Capacity : ℕ) (orders : Orders) (s : WeakThreads T) (t : WeakTurn T) :
    (weakTurn Capacity orders s t).1.memory = s.memory ∨
      (∃ w a age, (weakTurn Capacity orders s t).1.memory =
        (s.memory.load (orders.load w a) w a age).2) ∨
      (∃ a value, s.unstored a = 1 ∧ (weakTurn Capacity orders s t).1.memory =
        s.memory.store (orders.store a) a.owner a value) ∨
      (∃ c, s.consumer = .read c ∧
        (weakTurn Capacity orders s t).1.memory = (s.memory.read .consumer c).2) ∨
      ∃ item c, s.producer = .write item c ∧
        (weakTurn Capacity orders s t).1.memory = s.memory.write .producer c item := by
  cases t with
  | call item =>
    rw [weakTurn]
    split <;> exact Or.inl rfl
  | producer age =>
    rw [weakTurn, weakProducerStep]
    cases hpc : s.producer with
    | loadTail item => exact Or.inr (Or.inl ⟨.producer, .tail, age, rfl⟩)
    | loadHead item t => exact Or.inr (Or.inl ⟨.producer, .head, age, rfl⟩)
    | test item t hd =>
      simp only
      split <;> exact Or.inl rfl
    | write item t => exact Or.inr (Or.inr (Or.inr (Or.inr ⟨item, t, rfl, rfl⟩)))
    | store item t =>
      exact Or.inr (Or.inr (Or.inl ⟨.tail, _, congrArg Producer.written hpc, rfl⟩))
    | _ => exact Or.inl rfl
  | giveUp =>
    rw [weakTurn]
    split <;> exact Or.inl rfl
  | consumer age =>
    rw [weakTurn, weakConsumerStep]
    cases hpc : s.consumer with
    | loadHead => exact Or.inr (Or.inl ⟨.consumer, .head, age, rfl⟩)
    | loadTail hd => exact Or.inr (Or.inl ⟨.consumer, .tail, age, rfl⟩)
    | test hd t =>
      simp only
      split <;> exact Or.inl rfl
    | read hd => exact Or.inr (Or.inr (Or.inr (Or.inl ⟨hd, rfl, rfl⟩)))
    | store hd item =>
      exact Or.inr (Or.inr (Or.inl ⟨.head, _, congrArg Consumer.taken hpc, rfl⟩))

/-! ## The present values -/

/-- The two threads, with the present values of the array and of the indices. -/
def WeakThreads.present (s : WeakThreads T) : Threads T where
  queue :=
    { buffer := fun c => (s.memory.cells c).value
      head := s.memory.current .head
      tail := s.memory.current .tail }
  producer := s.producer
  consumer := s.consumer

/-- What the producer knows of the store of `head` it has loaded, when it knows of `f` and
has pushed `n` items. -/
def Producer.Sees (Capacity n f : ℕ) : Producer T → Prop
  | .test _ _ currentHead => ∃ i, i ≤ f ∧ n < i + Capacity ∧ currentHead = i % Capacity
  | .write .. => n + 1 < f + Capacity
  | .store .. => n + 1 < f + Capacity
  | _ => True

/-- What the consumer knows of the store of `tail` it has loaded, when it knows of `f` and
has popped `m` items. -/
def Consumer.Sees (Capacity m f : ℕ) : Consumer T → Prop
  | .test _ currentTail => ∃ i, i ≤ f ∧ m ≤ i ∧ currentTail = i % Capacity
  | .read _ => m < f
  | .store .. => m < f
  | _ => True

/-- The invariant, whatever the memory orders are. -/
structure WeakInv (Capacity : ℕ) (log : List (Returned T)) (s : WeakThreads T) : Prop where
  inv : Inv Capacity log s.present
  wf : s.memory.Wf
  last_head : s.memory.last .head = (popped log).length
  last_tail : s.memory.last .tail = (pushed log).length
  values : ∀ a i, i ≤ s.memory.last a → (s.memory.messages a i).value = i % Capacity
  /-- A thread knows its own stores. -/
  own : ∀ a, (s.memory.views (Index.owner a)).front a = s.memory.last a
  room : (pushed log).length < (s.memory.views .producer).front .head + Capacity
  items : (popped log).length ≤ (s.memory.views .consumer).front .tail
  producer : s.producer.Sees Capacity (pushed log).length
    ((s.memory.views .producer).front .head)
  consumer : s.consumer.Sees Capacity (popped log).length
    ((s.memory.views .consumer).front .tail)

variable {Capacity : ℕ} {orders : Orders} {log : List (Returned T)} {s : WeakThreads T}

theorem Producer.Sees.mono {n f f' : ℕ} {p : Producer T} (h : p.Sees Capacity n f)
    (hf : f ≤ f') : p.Sees Capacity n f' := by
  cases p with
  | test item t hd =>
    obtain ⟨i, hi, hroom, hhd⟩ := h
    exact ⟨i, hi.trans hf, hroom, hhd⟩
  | write item t => exact h.trans_le (Nat.add_le_add_right hf Capacity)
  | store item t => exact h.trans_le (Nat.add_le_add_right hf Capacity)
  | _ => trivial

theorem Consumer.Sees.mono {m f f' : ℕ} {c : Consumer T} (h : c.Sees Capacity m f)
    (hf : f ≤ f') : c.Sees Capacity m f' := by
  cases c with
  | test hd t =>
    obtain ⟨i, hi, hitems, ht⟩ := h
    exact ⟨i, hi.trans hf, hitems, ht⟩
  | read hd => exact h.trans_le hf
  | store hd item => exact h.trans_le hf
  | _ => trivial

theorem weakInv_init (hC : 0 < Capacity) (orders : Orders) (buffer : ℕ → T) :
    WeakInv Capacity [] (weakThreads Capacity orders buffer).init where
  inv := inv_init hC buffer
  wf := Memory.wf_new _ _
  last_head := rfl
  last_tail := rfl
  values a i hi := by
    obtain rfl : i = 0 := Nat.eq_zero_of_le_zero hi
    exact (Nat.zero_mod Capacity).symm
  own _ := rfl
  room := hC.trans_le (Nat.le_add_left _ _)
  items := le_refl 0
  producer := trivial
  consumer := trivial

/-- A step without a store, at which no call succeeds. -/
theorem WeakInv.of_views (h : WeakInv Capacity log s) {s' : WeakThreads T}
    {out : List (Returned T)} (hpushed : pushed out = []) (hpopped : popped out = [])
    (hinv : Inv Capacity (log ++ out) s'.present) (hwf : s'.memory.Wf)
    (hmessages : s'.memory.messages = s.memory.messages)
    (hlast : s'.memory.last = s.memory.last)
    (hviews : ∀ t, s.memory.views t ≤ s'.memory.views t)
    (hproducer : s'.producer.Sees Capacity (pushed log).length
      ((s'.memory.views .producer).front .head))
    (hconsumer : s'.consumer.Sees Capacity (popped log).length
      ((s'.memory.views .consumer).front .tail)) : WeakInv Capacity (log ++ out) s' := by
  have h1 : pushed (log ++ out) = pushed log := by
    rw [pushed_append, hpushed, List.append_nil]
  have h2 : popped (log ++ out) = popped log := by
    rw [popped_append, hpopped, List.append_nil]
  have hhead := (hviews .producer).2 .head
  have htail := (hviews .consumer).2 .tail
  have hroom := h.room
  refine ⟨hinv, hwf, ?_, ?_, ?_, fun a => ?_, ?_, ?_, ?_, ?_⟩
  · rw [hlast, h2, h.last_head]
  · rw [hlast, h1, h.last_tail]
  · rw [hlast, hmessages]
    exact h.values
  · refine le_antisymm (hwf.front_le _ a) ?_
    rw [hlast, ← h.own a]
    exact (hviews _).2 a
  · rw [h1]
    exact hroom.trans_le (Nat.add_le_add_right hhead Capacity)
  · rw [h2]
    exact h.items.trans htail
  · rwa [h1]
  · rwa [h2]

/-- A step that does not touch the memory, at which no call succeeds. -/
theorem WeakInv.of_quiet (h : WeakInv Capacity log s) {s' : WeakThreads T}
    {out : List (Returned T)} (hpushed : pushed out = []) (hpopped : popped out = [])
    (hinv : Inv Capacity (log ++ out) s'.present) (hmemory : s'.memory = s.memory)
    (hproducer : s'.producer.Sees Capacity (pushed log).length
      ((s.memory.views .producer).front .head))
    (hconsumer : s'.consumer.Sees Capacity (popped log).length
      ((s.memory.views .consumer).front .tail)) : WeakInv Capacity (log ++ out) s' := by
  rw [← hmemory] at hproducer hconsumer
  exact h.of_views hpushed hpopped hinv (hmemory ▸ h.wf) (by rw [hmemory]) (by rw [hmemory])
    (fun t => by rw [hmemory]) hproducer hconsumer

/-- Who loads its own index gets the present value. -/
theorem WeakInv.load_own (h : WeakInv Capacity log s) (order : LoadOrder) (a : Index) (age : ℕ) :
    (s.memory.load order a.owner a age).1 = s.memory.current a := by
  rw [Memory.load, Memory.seen_of_front (h.own a), Memory.current]

/-- The next store of an index. -/
theorem WeakInv.values_store (h : WeakInv Capacity log s) (order : StoreOrder) (a : Index)
    {value : ℕ} (hvalue : value = (s.memory.last a + 1) % Capacity) :
    ∀ b i, i ≤ (s.memory.store order a.owner a value).last b →
      ((s.memory.store order a.owner a value).messages b i).value = i % Capacity := by
  intro b i hi
  by_cases hnew : b = a ∧ i = s.memory.last a + 1
  · obtain ⟨rfl, rfl⟩ := hnew
    rw [Memory.messages_store_self, hvalue]
  · rw [Memory.messages_store_of_ne _ _ _ _ (by rwa [← not_and_or])]
    refine h.values b i ?_
    by_cases hb : b = a
    · subst hb
      rw [Memory.last_store_self] at hi
      have hne : i ≠ s.memory.last b + 1 := fun heq => hnew ⟨rfl, heq⟩
      omega
    · rwa [Memory.last_store_of_ne _ _ _ hb] at hi

/-- A thread knows what it has stored. -/
theorem WeakInv.own_store (h : WeakInv Capacity log s) (order : StoreOrder) (a : Index)
    (value : ℕ) (b : Index) :
    ((s.memory.store order a.owner a value).views b.owner).front b =
      (s.memory.store order a.owner a value).last b := by
  refine le_antisymm ((h.wf.store order a.owner a value).front_le _ b) ?_
  by_cases hb : b = a
  · subst hb
    rw [Memory.last_store_self, h.wf.front_store]
  · rw [Memory.last_store_of_ne _ _ _ hb, ← h.own b]
    exact (Memory.views_le_store _ _ _ _ _ _).2 b

/-- **A step of the producer** preserves the invariant. -/
theorem WeakInv.producerStep (h : WeakInv Capacity log s) (age : ℕ) :
    WeakInv Capacity (log ++ (weakProducerStep Capacity orders age s).2)
      (weakProducerStep Capacity orders age s).1 := by
  -- the step of `threads` at the present values
  have hstep := h.inv.producerStep
  have hinv : ProducerInv Capacity s.present.queue _ _ s.producer := h.inv.producer
  have hsees := h.producer
  rw [SPSCQueue.producerStep, WeakThreads.present] at hstep
  rw [weakProducerStep]
  cases hpc : s.producer with
  | idle => exact (List.append_nil log).symm ▸ h
  | loadTail item =>
    simp only [hpc] at hstep ⊢
    refine h.of_views rfl rfl ?_ (h.wf.load _ _ _ _) rfl rfl (Memory.views_le_load _ _ _ _ _)
      trivial (h.consumer.mono ((Memory.views_le_load _ _ _ _ _ _).2 _))
    have hload : (s.memory.load (orders.load .producer .tail) .producer .tail age).1 =
        s.memory.current .tail := h.load_own _ .tail age
    rw [WeakThreads.present, hload]
    exact hstep
  | loadHead item t =>
    rw [hpc] at hinv
    have hseen := h.wf.seen_le .producer .head age
    have hfront := Memory.front_le_seen s.memory .producer .head age
    have hvalue := h.values .head _ hseen
    have hroom := h.room
    have hlast := h.last_head
    refine h.of_views rfl rfl ?_ (h.wf.load _ _ _ _) rfl rfl (Memory.views_le_load _ _ _ _ _)
      ⟨_, ?_, ?_, hvalue⟩ (h.consumer.mono ((Memory.views_le_load _ _ _ _ _ _).2 _))
    · exact Inv.of_quiet ⟨h.inv.rep, h.inv.fifo, ⟨hinv, _, hlast ▸ hseen, by omega, hvalue⟩,
        h.inv.consumer⟩ rfl rfl
    · exact (h.wf.front_load _ _ _ age).ge
    · omega
  | test item t hd =>
    rw [hpc] at hinv hsees
    obtain ⟨ht, -⟩ := hinv
    obtain ⟨i, hi, hroom, hhd⟩ := hsees
    simp only [hpc] at hstep ⊢
    split
    · rename_i hfull
      rw [if_pos hfull] at hstep
      exact h.of_quiet rfl rfl hstep rfl trivial h.consumer
    · rename_i hfull
      rw [if_neg hfull] at hstep
      refine h.of_quiet rfl rfl hstep rfl ?_ h.consumer
      have hne : (pushed log).length + 1 ≠ i + Capacity := by
        intro heq
        refine hfull ?_
        rw [ht, h.inv.rep.tail_eq, hhd, Nat.mod_add_mod, heq, Nat.add_mod_right]
      show (pushed log).length + 1 < _
      omega
  | write item t =>
    rw [hpc] at hsees
    simp only [hpc] at hstep ⊢
    refine h.of_views rfl rfl ?_ (h.wf.write _ _ _) rfl rfl (Memory.views_le_write _ _ _ _)
      (Producer.Sees.mono (p := .store item t) hsees ((Memory.views_le_write _ _ _ _ _).2 _))
      (h.consumer.mono ((Memory.views_le_write _ _ _ _ _).2 _))
    rw [WeakThreads.present, Memory.value_write]
    exact hstep
  | store item t =>
    rw [hpc] at hinv hsees
    obtain ⟨ht, -⟩ := hinv
    simp only [hpc] at hstep ⊢
    have hvalue : (t + 1) % Capacity = (s.memory.last .tail + 1) % Capacity := by
      rw [ht, h.inv.rep.tail_eq, Nat.mod_add_mod, h.last_tail]
    have h1 : pushed (log ++ [.push item true]) = pushed log ++ [item] := pushed_append _ _
    have h2 : popped (log ++ [.push item true]) = popped log := by
      rw [popped_append]
      exact List.append_nil _
    refine ⟨?_, h.wf.store _ _ _ _, ?_, ?_, h.values_store _ .tail hvalue, h.own_store _ .tail _,
      ?_, ?_, trivial, ?_⟩
    · rw [WeakThreads.present, Memory.current_store_self,
        Memory.current_store_of_ne _ _ _ (by decide : Index.head ≠ .tail)]
      exact hstep
    · rw [h2, Memory.last_store_of_ne _ _ _ (by decide), h.last_head]
    · rw [h1, Memory.last_store_self, h.last_tail, List.length_append, List.length_singleton]
    · rw [h1, List.length_append, List.length_singleton]
      exact Nat.lt_of_lt_of_le hsees
        (Nat.add_le_add_right ((Memory.views_le_store _ _ _ _ _ _).2 _) Capacity)
    · rw [h2]
      exact h.items.trans ((Memory.views_le_store _ _ _ _ _ _).2 _)
    · rw [h2]
      exact h.consumer.mono ((Memory.views_le_store _ _ _ _ _ _).2 _)
  | failed item =>
    simp only [hpc] at hstep ⊢
    exact h.of_quiet rfl rfl hstep rfl trivial h.consumer

/-- **A step of the consumer** preserves the invariant. -/
theorem WeakInv.consumerStep (h : WeakInv Capacity log s) (age : ℕ) :
    WeakInv Capacity (log ++ (weakConsumerStep Capacity orders age s).2)
      (weakConsumerStep Capacity orders age s).1 := by
  have hstep := h.inv.consumerStep
  have hinv : ConsumerInv Capacity s.present.queue _ _ s.consumer := h.inv.consumer
  have hsees := h.consumer
  rw [SPSCQueue.consumerStep, WeakThreads.present] at hstep
  rw [weakConsumerStep]
  cases hpc : s.consumer with
  | loadHead =>
    simp only [hpc] at hstep ⊢
    refine h.of_views rfl rfl ?_ (h.wf.load _ _ _ _) rfl rfl (Memory.views_le_load _ _ _ _ _)
      (h.producer.mono ((Memory.views_le_load _ _ _ _ _ _).2 _)) trivial
    have hload : (s.memory.load (orders.load .consumer .head) .consumer .head age).1 =
        s.memory.current .head := h.load_own _ .head age
    rw [WeakThreads.present, hload]
    exact hstep
  | loadTail hd =>
    rw [hpc] at hinv
    have hseen := h.wf.seen_le .consumer .tail age
    have hfront := Memory.front_le_seen s.memory .consumer .tail age
    have hvalue := h.values .tail _ hseen
    have hitems := h.items
    have hlast := h.last_tail
    refine h.of_views rfl rfl ?_ (h.wf.load _ _ _ _) rfl rfl (Memory.views_le_load _ _ _ _ _)
      (h.producer.mono ((Memory.views_le_load _ _ _ _ _ _).2 _)) ⟨_, ?_, ?_, hvalue⟩
    · exact Inv.of_quiet ⟨h.inv.rep, h.inv.fifo, h.inv.producer,
        ⟨hinv, _, hlast ▸ hseen, by omega, hvalue⟩⟩ rfl rfl
    · exact (h.wf.front_load _ _ _ age).ge
    · omega
  | test hd t =>
    rw [hpc] at hinv hsees
    obtain ⟨hhd, -⟩ := hinv
    obtain ⟨i, hi, hitems, ht⟩ := hsees
    simp only [hpc] at hstep ⊢
    split
    · rename_i hempty
      rw [if_pos hempty] at hstep
      exact h.of_quiet rfl rfl hstep rfl h.producer trivial
    · rename_i hempty
      rw [if_neg hempty] at hstep
      refine h.of_quiet rfl rfl hstep rfl h.producer ?_
      have hne : (popped log).length ≠ i := by
        intro heq
        refine hempty ?_
        rw [hhd, h.inv.rep.head_eq, ht, heq]
      show (popped log).length < _
      omega
  | read hd =>
    rw [hpc] at hsees
    simp only [hpc] at hstep ⊢
    refine h.of_views rfl rfl ?_ (h.wf.read _ _) rfl rfl (Memory.views_le_read _ _ _)
      (h.producer.mono ((Memory.views_le_read _ _ _ _).2 _))
      (Consumer.Sees.mono (c := .store hd (s.memory.read .consumer hd).1) hsees
        ((Memory.views_le_read _ _ _ _).2 _))
    simp only [WeakThreads.present, Memory.value_read]
    exact hstep
  | store hd item =>
    rw [hpc] at hinv hsees
    obtain ⟨hhd, -⟩ := hinv
    simp only [hpc] at hstep ⊢
    have hvalue : (hd + 1) % Capacity = (s.memory.last .head + 1) % Capacity := by
      rw [hhd, h.inv.rep.head_eq, Nat.mod_add_mod, h.last_head]
    have h1 : pushed (log ++ [.pop (some item)]) = pushed log := by
      rw [pushed_append]
      exact List.append_nil _
    have h2 : (popped (log ++ [.pop (some item)])).length = (popped log).length + 1 := by
      rw [popped_append, List.length_append]
      rfl
    refine ⟨?_, h.wf.store _ _ _ _, ?_, ?_, h.values_store _ .head hvalue, h.own_store _ .head _,
      ?_, ?_, ?_, trivial⟩
    · rw [WeakThreads.present, Memory.current_store_self,
        Memory.current_store_of_ne _ _ _ (by decide : Index.tail ≠ .head)]
      exact hstep
    · rw [h2, Memory.last_store_self, h.last_head]
    · rw [h1, Memory.last_store_of_ne _ _ _ (by decide), h.last_tail]
    · rw [h1]
      exact h.room.trans_le
        (Nat.add_le_add_right ((Memory.views_le_store _ _ _ _ _ _).2 _) Capacity)
    · rw [h2]
      exact Nat.le_trans hsees ((Memory.views_le_store _ _ _ _ _ _).2 _)
    · rw [h1]
      exact h.producer.mono ((Memory.views_le_store _ _ _ _ _ _).2 _)

/-- **One step of one thread** preserves the invariant. -/
theorem WeakInv.turn (h : WeakInv Capacity log s) (t : WeakTurn T) :
    WeakInv Capacity (log ++ (weakTurn Capacity orders s t).2)
      (weakTurn Capacity orders s t).1 := by
  cases t with
  | call item =>
    have hstep := h.inv.turn (.call item)
    rw [SPSCQueue.turn, WeakThreads.present] at hstep
    rw [weakTurn]
    cases hpc : s.producer with
    | idle =>
      simp only [hpc] at hstep ⊢
      exact h.of_quiet rfl rfl hstep rfl trivial h.consumer
    | _ => exact (List.append_nil log).symm ▸ h
  | producer age => exact h.producerStep age
  | giveUp =>
    have hstep := h.inv.turn .giveUp
    rw [SPSCQueue.turn, WeakThreads.present] at hstep
    rw [weakTurn]
    cases hpc : s.producer with
    | failed item =>
      simp only [hpc] at hstep ⊢
      exact h.of_quiet rfl rfl hstep rfl trivial h.consumer
    | _ => exact (List.append_nil log).symm ▸ h
  | consumer age => exact h.consumerStep age

/-- The invariant holds after every schedule, whatever the loads return. -/
theorem weakInv_run (hC : 0 < Capacity) (orders : Orders) (buffer : ℕ → T)
    (steps : List (WeakTurn T)) :
    WeakInv Capacity ((weakThreads Capacity orders buffer).log steps)
      ((weakThreads Capacity orders buffer).run steps) := by
  induction steps using List.reverseRecOn with
  | nil => exact weakInv_init hC orders buffer
  | append_singleton steps t ih =>
    rw [Machine.log_concat, Machine.run_concat]
    exact ih.turn t

/-! ## The interleavings are runs -/

/-- A step whose load returns the present value. -/
def Turn.fresh : Turn T → WeakTurn T
  | .call item => .call item
  | .producer => .producer 0
  | .giveUp => .giveUp
  | .consumer => .consumer 0

/-- A step that sees the present values is a step of `threads`. -/
theorem weakTurn_fresh (Capacity : ℕ) (orders : Orders) {s : WeakThreads T}
    (hwf : s.memory.Wf) (t : Turn T) :
    (weakTurn Capacity orders s t.fresh).1.present = (SPSCQueue.turn Capacity s.present t).1 ∧
      (weakTurn Capacity orders s t.fresh).2 = (SPSCQueue.turn Capacity s.present t).2 := by
  obtain ⟨memory, p, c⟩ := s
  have hload : ∀ order t a, (memory.load order t a 0).1 = memory.current a := hwf.load_zero
  cases t with
  | call item => cases p <;> exact ⟨rfl, rfl⟩
  | producer =>
    rw [Turn.fresh, weakTurn, SPSCQueue.turn, weakProducerStep, SPSCQueue.producerStep]
    cases p with
    | loadTail item =>
      simp only [hload]
      exact ⟨rfl, rfl⟩
    | loadHead item t =>
      simp only [hload]
      exact ⟨rfl, rfl⟩
    | test item t hd =>
      simp only [WeakThreads.present]
      split <;> exact ⟨rfl, rfl⟩
    | write item t =>
      simp only [WeakThreads.present, Memory.value_write]
      exact ⟨rfl, trivial⟩
    | store item t =>
      simp only [WeakThreads.present, Memory.current_store_self,
        Memory.current_store_of_ne _ _ _ (by decide : Index.head ≠ .tail)]
      exact ⟨rfl, trivial⟩
    | _ => exact ⟨rfl, rfl⟩
  | giveUp => cases p <;> exact ⟨rfl, rfl⟩
  | consumer =>
    rw [Turn.fresh, weakTurn, SPSCQueue.turn, weakConsumerStep, SPSCQueue.consumerStep]
    cases c with
    | loadHead =>
      simp only [hload]
      exact ⟨rfl, rfl⟩
    | loadTail hd =>
      simp only [hload]
      exact ⟨rfl, rfl⟩
    | test hd t =>
      simp only [WeakThreads.present]
      split <;> exact ⟨rfl, rfl⟩
    | read hd =>
      simp only [WeakThreads.present, Memory.value_read]
      exact ⟨rfl, trivial⟩
    | store hd item =>
      simp only [WeakThreads.present, Memory.current_store_self,
        Memory.current_store_of_ne _ _ _ (by decide : Index.tail ≠ .head)]
      exact ⟨rfl, trivial⟩

/-- **Every interleaving is a run**, in which all loads return the present values. -/
theorem run_fresh (hC : 0 < Capacity) (orders : Orders) (buffer : ℕ → T)
    (steps : List (Turn T)) :
    ((weakThreads Capacity orders buffer).run (steps.map Turn.fresh)).present =
        (threads Capacity buffer).run steps ∧
      (weakThreads Capacity orders buffer).log (steps.map Turn.fresh) =
        (threads Capacity buffer).log steps := by
  induction steps using List.reverseRecOn with
  | nil => exact ⟨rfl, rfl⟩
  | append_singleton steps t ih =>
    obtain ⟨hpresent, hlog⟩ := ih
    have hstep := weakTurn_fresh Capacity orders
      (weakInv_run hC orders buffer (steps.map Turn.fresh)).wf t
    rw [hpresent] at hstep
    rw [List.map_append, List.map_singleton, Machine.run_concat, Machine.run_concat,
      Machine.log_concat, Machine.log_concat, hlog]
    exact ⟨hstep.1, congrArg _ hstep.2⟩

end SPSCQueue
end MatchingEngine
