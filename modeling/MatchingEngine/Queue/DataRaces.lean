import MatchingEngine.Queue.MemoryOrder

/-!
# The ring has no data races

Every slot of the array is written by one thread and read by the other one.  What orders
these accesses is the two indices alone: that an index is stored with `release` and loaded
by the other thread with `acquire`.

* `Accessed`: which accesses the slots have seen, by number.
* `spsc_race_free`: with the orders of the source no two accesses race, and what comes out
  is what went in, whatever old values the loads return.
* `orders_exact`: the four orders are needed, each of them, and nothing else is.
-/

namespace MatchingEngine

variable {T : Type}

namespace SPSCQueue

open WeakMemory

/-! ## The accesses to the slots -/

/-- The accesses of the two threads, by number: access number `k` of either thread is to
slot `k % Capacity`. -/
structure Accessed (Capacity : ℕ) (m : Memory Thread Index ℕ ℕ T) : Prop where
  write : ∀ c x, (m.cells c).write = some x →
    ∃ k, x = (.producer, k + 1) ∧ k % Capacity = c ∧ k < m.present.clock .producer
  reads : ∀ c, ∀ x ∈ (m.cells c).reads,
    ∃ k, x = (.consumer, k + 1) ∧ k % Capacity = c ∧ k < m.present.clock .consumer
  written : ∀ k, k < m.present.clock .producer → ∃ x, (m.cells (k % Capacity)).write = some x
  /-- A read is seen up to the next write to its slot. -/
  taken : ∀ k, k < m.present.clock .consumer → m.present.clock .producer ≤ k + Capacity →
    ∃ x, x ∈ (m.cells (k % Capacity)).reads

section Accessed

variable {Capacity : ℕ} {m : Memory Thread Index ℕ ℕ T}

theorem accessed_new (Capacity : ℕ) (buffer : ℕ → T) :
    Accessed Capacity (Memory.new (fun _ => 0) buffer) where
  write _ _ h := nomatch h
  reads _ _ h := nomatch h
  written _ h := nomatch h
  taken _ h := nomatch h

/-- What is no access. -/
theorem Accessed.of_cells (h : Accessed Capacity m) {m' : Memory Thread Index ℕ ℕ T}
    (hcells : m'.cells = m.cells) (hclock : ∀ t, m'.present.clock t = m.present.clock t) :
    Accessed Capacity m' := by
  refine ⟨?_, ?_, ?_, ?_⟩
  · rw [hcells, hclock]
    exact h.write
  · rw [hcells, hclock]
    exact h.reads
  · rw [hcells, hclock]
    exact h.written
  · rw [hcells, hclock, hclock]
    exact h.taken

/-- The next write, by a producer that has not been overtaken. -/
theorem Accessed.write_next (h : Accessed Capacity m)
    (hle : m.present.clock .consumer ≤ m.present.clock .producer) {c : ℕ}
    (hc : c = m.present.clock .producer % Capacity) (item : T) :
    Accessed Capacity (m.write .producer c item) := by
  have hproducer : (m.write .producer c item).present.clock .producer =
      m.present.clock .producer + 1 := Memory.clock_access_self m .producer
  have hconsumer : (m.write .producer c item).present.clock .consumer =
      m.present.clock .consumer := Memory.clock_access_of_ne m (by decide) _
  have hcell : (m.write .producer c item).cells c =
      ⟨item, some (.producer, m.present.clock .producer + 1), []⟩ := Function.update_self _ _ _
  have hother : ∀ d, d ≠ c → (m.write .producer c item).cells d = m.cells d :=
    fun d hd => Function.update_of_ne hd _ _
  refine ⟨fun d x hx => ?_, fun d x hx => ?_, fun k hk => ?_, fun k hk hk' => ?_⟩
  · by_cases hd : d = c
    · subst hd
      rw [hcell] at hx
      exact ⟨_, (Option.some_inj.mp hx).symm, hc.symm, by omega⟩
    · rw [hother d hd] at hx
      obtain ⟨k, hx, hkd, hk⟩ := h.write d x hx
      exact ⟨k, hx, hkd, by omega⟩
  · by_cases hd : d = c
    · subst hd
      rw [hcell] at hx
      cases hx
    · rw [hother d hd] at hx
      rw [hconsumer]
      exact h.reads d x hx
  · by_cases hd : k % Capacity = c
    · rw [hd, hcell]
      exact ⟨_, rfl⟩
    · rw [hother _ hd]
      refine h.written k ?_
      have hne : k ≠ m.present.clock .producer := fun heq => hd (heq ▸ hc.symm)
      omega
  · rw [hconsumer] at hk
    rw [hproducer] at hk'
    have hd : k % Capacity ≠ c := by
      intro heq
      have hsame := Ring.eq_of_mod_eq (by omega) (by omega) (heq.trans hc)
      omega
    rw [hother _ hd]
    exact h.taken k hk (by omega)

/-- The next read. -/
theorem Accessed.read_next (h : Accessed Capacity m) {c : ℕ}
    (hc : c = m.present.clock .consumer % Capacity) :
    Accessed Capacity (m.read .consumer c).2 := by
  have hproducer : (m.read .consumer c).2.present.clock .producer =
      m.present.clock .producer := Memory.clock_access_of_ne m (by decide) _
  have hconsumer : (m.read .consumer c).2.present.clock .consumer =
      m.present.clock .consumer + 1 := Memory.clock_access_self m .consumer
  have hcell : (m.read .consumer c).2.cells c =
      { m.cells c with
        reads := (.consumer, m.present.clock .consumer + 1) :: (m.cells c).reads } :=
    Function.update_self _ _ _
  have hother : ∀ d, d ≠ c → (m.read .consumer c).2.cells d = m.cells d :=
    fun d hd => Function.update_of_ne hd _ _
  have hwrite : ∀ d, ((m.read .consumer c).2.cells d).write = (m.cells d).write := by
    intro d
    by_cases hd : d = c
    · subst hd
      rw [hcell]
    · rw [hother d hd]
  refine ⟨fun d x hx => ?_, fun d x hx => ?_, fun k hk => ?_, fun k hk hk' => ?_⟩
  · rw [hwrite] at hx
    rw [hproducer]
    exact h.write d x hx
  · by_cases hd : d = c
    · subst hd
      rw [hcell] at hx
      rcases List.mem_cons.mp hx with rfl | hx
      · exact ⟨_, rfl, hc.symm, by omega⟩
      · obtain ⟨k, hx, hkd, hk⟩ := h.reads d x hx
        exact ⟨k, hx, hkd, by omega⟩
    · rw [hother d hd] at hx
      obtain ⟨k, hx, hkd, hk⟩ := h.reads d x hx
      exact ⟨k, hx, hkd, by omega⟩
  · rw [hwrite]
    rw [hproducer] at hk
    exact h.written k hk
  · rw [hproducer] at hk'
    by_cases hd : k % Capacity = c
    · rw [hd, hcell]
      exact ⟨_, List.mem_cons_self⟩
    · rw [hother _ hd]
      have hne : k ≠ m.present.clock .consumer := fun heq => hd (heq ▸ hc.symm)
      exact h.taken k (by omega) hk'

end Accessed

/-- The clocks count the accesses, and the slots have seen them. -/
structure Tracked (Capacity : ℕ) (log : List (Returned T)) (s : WeakThreads T) : Prop where
  weak : WeakInv Capacity log s
  accessed : Accessed Capacity s.memory
  producer : s.memory.present.clock .producer = (pushed log).length + s.producer.written
  consumer : s.memory.present.clock .consumer = (popped log).length + s.consumer.taken

section Tracked

variable {Capacity : ℕ} {orders : Orders} {log : List (Returned T)} {s : WeakThreads T}

/-- No slot is written again before it has been read. -/
theorem Tracked.producer_lt (h : Tracked Capacity log s) :
    s.memory.present.clock .producer < (popped log).length + Capacity := by
  have hinv : ProducerInv Capacity s.present.queue _ _ s.producer := h.weak.inv.producer
  have hroom := h.weak.inv.rep.room
  rw [h.producer]
  cases hpc : s.producer with
  | store item t =>
    rw [hpc] at hinv
    exact hinv.2.1
  | _ => exact hroom

/-- No slot is read that has not been written. -/
theorem Tracked.consumer_le (h : Tracked Capacity log s) :
    s.memory.present.clock .consumer ≤ (pushed log).length := by
  have hinv : ConsumerInv Capacity s.present.queue _ _ s.consumer := h.weak.inv.consumer
  have hle := h.weak.inv.rep.le
  rw [h.consumer]
  cases hpc : s.consumer with
  | store hd item =>
    rw [hpc] at hinv
    exact hinv.2.1
  | _ => exact hle

/-- The slot that the producer is about to write. -/
theorem Tracked.slot_write (h : Tracked Capacity log s) {item : T} {c : ℕ}
    (hpc : s.producer = .write item c) : c = s.memory.present.clock .producer % Capacity := by
  have hinv : ProducerInv Capacity s.present.queue _ _ s.producer := h.weak.inv.producer
  rw [hpc] at hinv
  rw [h.producer, hpc]
  exact hinv.1.trans h.weak.inv.rep.tail_eq

/-- The slot that the consumer is about to read. -/
theorem Tracked.slot_read (h : Tracked Capacity log s) {c : ℕ} (hpc : s.consumer = .read c) :
    c = s.memory.present.clock .consumer % Capacity := by
  have hinv : ConsumerInv Capacity s.present.queue _ _ s.consumer := h.weak.inv.consumer
  rw [hpc] at hinv
  rw [h.consumer, hpc]
  exact hinv.1.trans h.weak.inv.rep.head_eq

/-- The slots see the accesses of a step. -/
theorem Tracked.accessed_turn (h : Tracked Capacity log s) (t : WeakTurn T) :
    Accessed Capacity (weakTurn Capacity orders s t).1.memory := by
  have hle : s.memory.present.clock .consumer ≤ s.memory.present.clock .producer := by
    have hconsumer := h.consumer_le
    have hproducer := h.producer
    omega
  rcases weakTurn_memory Capacity orders s t with
    heq | ⟨w, a, age, heq⟩ | ⟨a, value, -, heq⟩ | ⟨c, hpc, heq⟩ | ⟨item, c, hpc, heq⟩
  · rw [heq]
    exact h.accessed
  · rw [heq]
    exact h.accessed.of_cells rfl (h.weak.wf.clock_load _ _ _ _)
  · rw [heq]
    exact h.accessed.of_cells rfl (Memory.clock_store _ _ _ _ _)
  · rw [heq]
    exact h.accessed.read_next (h.slot_read hpc)
  · rw [heq]
    exact h.accessed.write_next hle (h.slot_write hpc) item

/-- The clocks count the accesses of a step. -/
theorem Tracked.clocks_turn (h : Tracked Capacity log s) (t : WeakTurn T) :
    (weakTurn Capacity orders s t).1.memory.present.clock .producer =
        (pushed (log ++ (weakTurn Capacity orders s t).2)).length +
          (weakTurn Capacity orders s t).1.producer.written ∧
      (weakTurn Capacity orders s t).1.memory.present.clock .consumer =
        (popped (log ++ (weakTurn Capacity orders s t).2)).length +
          (weakTurn Capacity orders s t).1.consumer.taken := by
  have hproducer := h.producer
  have hconsumer := h.consumer
  rw [pushed_append, popped_append, List.length_append, List.length_append]
  cases t with
  | call item =>
    rw [weakTurn]
    cases hpc : s.producer with
    | idle =>
      rw [hpc] at hproducer
      exact ⟨hproducer, hconsumer⟩
    | _ => exact ⟨hproducer, hconsumer⟩
  | producer age =>
    rw [weakTurn, weakProducerStep]
    cases hpc : s.producer with
    | idle => exact ⟨hproducer, hconsumer⟩
    | loadTail item =>
      rw [hpc] at hproducer
      exact ⟨(h.weak.wf.clock_load _ _ _ _ _).trans hproducer,
        (h.weak.wf.clock_load _ _ _ _ _).trans hconsumer⟩
    | loadHead item t =>
      rw [hpc] at hproducer
      exact ⟨(h.weak.wf.clock_load _ _ _ _ _).trans hproducer,
        (h.weak.wf.clock_load _ _ _ _ _).trans hconsumer⟩
    | test item t hd =>
      rw [hpc] at hproducer
      simp only
      split <;> exact ⟨hproducer, hconsumer⟩
    | write item t =>
      rw [hpc] at hproducer
      exact ⟨(Memory.clock_access_self s.memory .producer).trans (congrArg (· + 1) hproducer),
        (Memory.clock_access_of_ne s.memory (by decide) _).trans hconsumer⟩
    | store item t =>
      rw [hpc] at hproducer
      exact ⟨(Memory.clock_store _ _ _ _ _ _).trans hproducer,
        (Memory.clock_store _ _ _ _ _ _).trans hconsumer⟩
    | failed item =>
      rw [hpc] at hproducer
      exact ⟨hproducer, hconsumer⟩
  | giveUp =>
    rw [weakTurn]
    cases hpc : s.producer with
    | failed item =>
      rw [hpc] at hproducer
      exact ⟨hproducer, hconsumer⟩
    | _ => exact ⟨hproducer, hconsumer⟩
  | consumer age =>
    rw [weakTurn, weakConsumerStep]
    cases hpc : s.consumer with
    | loadHead =>
      rw [hpc] at hconsumer
      exact ⟨(h.weak.wf.clock_load _ _ _ _ _).trans hproducer,
        (h.weak.wf.clock_load _ _ _ _ _).trans hconsumer⟩
    | loadTail hd =>
      rw [hpc] at hconsumer
      exact ⟨(h.weak.wf.clock_load _ _ _ _ _).trans hproducer,
        (h.weak.wf.clock_load _ _ _ _ _).trans hconsumer⟩
    | test hd t =>
      rw [hpc] at hconsumer
      simp only
      split <;> exact ⟨hproducer, hconsumer⟩
    | read hd =>
      rw [hpc] at hconsumer
      exact ⟨(Memory.clock_access_of_ne s.memory (by decide) _).trans hproducer,
        (Memory.clock_access_self s.memory .consumer).trans (congrArg (· + 1) hconsumer)⟩
    | store hd item =>
      rw [hpc] at hconsumer
      exact ⟨(Memory.clock_store _ _ _ _ _ _).trans hproducer,
        (Memory.clock_store _ _ _ _ _ _).trans hconsumer⟩

/-- **One step of one thread.** -/
theorem Tracked.turn (h : Tracked Capacity log s) (t : WeakTurn T) :
    Tracked Capacity (log ++ (weakTurn Capacity orders s t).2)
      (weakTurn Capacity orders s t).1 where
  weak := h.weak.turn t
  accessed := h.accessed_turn t
  producer := (h.clocks_turn t).1
  consumer := (h.clocks_turn t).2

theorem tracked_init (hC : 0 < Capacity) (orders : Orders) (buffer : ℕ → T) :
    Tracked Capacity [] (weakThreads Capacity orders buffer).init where
  weak := weakInv_init hC orders buffer
  accessed := accessed_new Capacity buffer
  producer := rfl
  consumer := rfl

end Tracked

/-! ## The orders of the source -/

/-- An index is loaded with `acquire` by the thread that does not own it, and stored with
`release`. -/
structure Orders.Synchronises (orders : Orders) : Prop where
  load : ∀ a t, t ≠ Index.owner a → orders.load t a = .acquire
  store : ∀ a, orders.store a = .release

theorem Orders.source_synchronises : Orders.source.Synchronises where
  load a t h := by
    cases a <;> cases t <;> first | rfl | exact absurd rfl h
  store a := by cases a <;> rfl

/-- No two accesses have raced, since each index carries the accesses that it counts. -/
structure RaceFree (Capacity : ℕ) (log : List (Returned T)) (s : WeakThreads T) : Prop where
  tracked : Tracked Capacity log s
  carries : Transfers Index.owner s.memory
  raced : s.memory.raced = false

section RaceFree

variable {Capacity : ℕ} {orders : Orders} {log : List (Returned T)} {s : WeakThreads T}

/-- An index is stored once the access that it is to count has been made. -/
theorem Tracked.last_lt (h : Tracked Capacity log s) {a : Index} (ha : s.unstored a = 1) :
    s.memory.last a < (s.memory.views a.owner).clock a.owner := by
  cases a with
  | head =>
    have hclock : (s.memory.views .consumer).clock .consumer = _ := h.consumer
    rw [show s.consumer.taken = 1 from ha] at hclock
    show s.memory.last .head < (s.memory.views .consumer).clock .consumer
    rw [hclock, h.weak.last_head]
    exact Nat.lt_succ_self _
  | tail =>
    have hclock : (s.memory.views .producer).clock .producer = _ := h.producer
    rw [show s.producer.written = 1 from ha] at hclock
    show s.memory.last .tail < (s.memory.views .producer).clock .producer
    rw [hclock, h.weak.last_tail]
    exact Nat.lt_succ_self _

/-- **The indices carry the accesses** after a step. -/
theorem RaceFree.carries_turn (h : RaceFree Capacity log s) (horders : orders.Synchronises)
    (t : WeakTurn T) : Transfers Index.owner (weakTurn Capacity orders s t).1.memory := by
  rcases weakTurn_memory Capacity orders s t with
    heq | ⟨w, a, age, heq⟩ | ⟨a, value, hpc, heq⟩ | ⟨c, -, heq⟩ | ⟨item, c, -, heq⟩
  · rw [heq]
    exact h.carries
  · rw [heq]
    refine h.carries.load h.tracked.weak.wf ?_ age
    by_cases hw : w = a.owner
    · subst hw
      exact Or.inr (h.tracked.weak.own a)
    · exact Or.inl (horders.load a w hw)
  · rw [heq, horders.store a]
    exact h.carries.store (h.tracked.last_lt hpc) value
  · rw [heq]
    exact h.carries.read _ _
  · rw [heq]
    exact h.carries.write _ _ _

/-- **The consumer knows of the write** to the slot that it reads. -/
theorem RaceFree.knows_write (h : RaceFree Capacity log s) {c : ℕ} (hpc : s.consumer = .read c) :
    (s.memory.cells c).write.all (s.memory.views .consumer).knows = true := by
  have hslot := h.tracked.slot_read hpc
  have hsees := h.tracked.weak.consumer
  have hconsumer := h.tracked.consumer
  rw [hpc] at hsees hconsumer
  have hfront : (popped log).length < (s.memory.views .consumer).front .tail := hsees
  have hclock : (s.memory.views .consumer).front .tail ≤
      (s.memory.views .consumer).clock .producer := h.carries.views .consumer .tail
  rw [Option.all_eq_true]
  intro x hx
  obtain ⟨k, rfl, hk, hlt⟩ := h.tracked.accessed.write c x hx
  refine decide_eq_true ?_
  -- the slot has not been written again since the write that is read
  have hle : k ≤ (popped log).length := by
    by_contra hgt
    have hproducer := h.tracked.producer_lt
    have hmod : (popped log).length % Capacity = k % Capacity := by
      rw [hk, hslot, hconsumer]
      rfl
    have hsame := Ring.eq_of_mod_eq (by omega) (by omega) hmod
    omega
  show k + 1 ≤ (s.memory.views .consumer).clock .producer
  omega

/-- **The producer knows of the accesses** to the slot that it writes. -/
theorem RaceFree.knows_accesses (h : RaceFree Capacity log s) {item : T} {c : ℕ}
    (hpc : s.producer = .write item c) :
    (s.memory.cells c).write.all (s.memory.views .producer).knows = true ∧
      (s.memory.cells c).reads.all (s.memory.views .producer).knows = true := by
  have hslot := h.tracked.slot_write hpc
  have hsees := h.tracked.weak.producer
  have hproducer := h.tracked.producer
  rw [hpc] at hsees hproducer
  have hfront : (pushed log).length + 1 < (s.memory.views .producer).front .head + Capacity :=
    hsees
  have hclock : (s.memory.views .producer).front .head ≤
      (s.memory.views .producer).clock .consumer := h.carries.views .producer .head
  refine ⟨?_, ?_⟩
  · rw [Option.all_eq_true]
    intro x hx
    obtain ⟨k, rfl, -, hlt⟩ := h.tracked.accessed.write c x hx
    exact decide_eq_true hlt
  · rw [List.all_eq_true]
    intro x hx
    obtain ⟨k, rfl, hk, hlt⟩ := h.tracked.accessed.reads c x hx
    refine decide_eq_true ?_
    -- the read is of the turn before
    have hle := h.tracked.consumer_le
    have hturn : k + Capacity ≤ (pushed log).length := by
      by_contra hgt
      have hmod : k % Capacity = (pushed log).length % Capacity := by
        rw [hk, hslot, hproducer]
        rfl
      have hsame := Ring.eq_of_mod_eq (by omega) (by omega) hmod
      omega
    show k + 1 ≤ (s.memory.views .producer).clock .consumer
    omega

/-- **One step of one thread** does not race. -/
theorem RaceFree.turn (h : RaceFree Capacity log s) (horders : orders.Synchronises)
    (t : WeakTurn T) :
    RaceFree Capacity (log ++ (weakTurn Capacity orders s t).2)
      (weakTurn Capacity orders s t).1 := by
  refine ⟨h.tracked.turn t, h.carries_turn horders t, ?_⟩
  rcases weakTurn_memory Capacity orders s t with
    heq | ⟨w, a, age, heq⟩ | ⟨a, value, -, heq⟩ | ⟨c, hpc, heq⟩ | ⟨item, c, hpc, heq⟩
  · rw [heq]
    exact h.raced
  · rw [heq]
    exact h.raced
  · rw [heq]
    exact h.raced
  · rw [heq]
    simp only [Memory.read, h.raced, h.knows_write hpc]
    rfl
  · rw [heq]
    simp only [Memory.write, h.raced, (h.knows_accesses hpc).1, (h.knows_accesses hpc).2]
    rfl

end RaceFree

theorem raceFree_run {Capacity : ℕ} (hC : 0 < Capacity) {orders : Orders}
    (horders : orders.Synchronises) (buffer : ℕ → T) (steps : List (WeakTurn T)) :
    RaceFree Capacity ((weakThreads Capacity orders buffer).log steps)
      ((weakThreads Capacity orders buffer).run steps) := by
  induction steps using List.reverseRecOn with
  | nil => exact ⟨tracked_init hC orders buffer, transfers_new _ _ _, rfl⟩
  | append_singleton steps t ih =>
    rw [Machine.log_concat, Machine.run_concat]
    exact ih.turn horders t

/-- **The ring is free of data races.**  With the memory orders of the source, in every
run and whichever old values the loads return, no access to a slot races with another one;
and the items come out in the order they went in, at most `Capacity - 1` are pending and the
indices stay inside the array. -/
theorem spsc_race_free (Capacity : ℕ) (hCapacity : 0 < Capacity) (buffer : ℕ → T)
    (steps : List (WeakTurn T)) :
    ((weakThreads Capacity .source buffer).run steps).memory.raced = false ∧
      Safe Capacity ((weakThreads Capacity .source buffer).log steps)
        ((weakThreads Capacity .source buffer).run steps).present := by
  have h := raceFree_run hCapacity Orders.source_synchronises buffer steps
  exact ⟨h.raced, h.tracked.weak.inv.safe⟩

/-- A pop that has loaded an old `tail` and finds nothing, and the next one. -/
theorem spsc_race_free_stale :
    let steps : List (WeakTurn ℕ) := [.call 5, .producer 0, .producer 0, .producer 0, .producer 0,
      .producer 0, .consumer 0, .consumer 1, .consumer 0, .consumer 0, .consumer 0, .consumer 0,
      .consumer 0, .consumer 0]
    let ring := weakThreads 2 .source fun _ => 0
    (ring.run steps).memory.raced = false ∧ pushed (ring.log steps) = [5] ∧
      popResults (ring.log steps) = [none, some 5] :=
  ⟨(spsc_race_free 2 (by decide) _ _).1, by decide, by decide⟩

/-! ## Every order is needed -/

section Broken

variable {Capacity : ℕ} {orders : Orders} {s : WeakThreads T} {a : Index} {t : Thread}

theorem Index.eq_of_owner_ne {a b : Index} {t : Thread} (hb : b ≠ a) (ht : t ≠ a.owner) :
    b.owner = t := by
  cases a <;> cases b <;> cases t <;> first | rfl | exact absurd rfl hb | exact absurd rfl ht

/-- A thread that does not synchronise with the stores of the other one stays blind. -/
theorem blind_turn (ht : t ≠ a.owner)
    (hbroken : orders.load t a = .relaxed ∨ orders.store a = .relaxed)
    (h : Blind t a.owner (fun b => b ≠ a ∨ orders.store a = .relaxed) s.memory)
    (turn : WeakTurn T) :
    Blind t a.owner (fun b => b ≠ a ∨ orders.store a = .relaxed)
      (weakTurn Capacity orders s turn).1.memory := by
  rcases weakTurn_memory Capacity orders s turn with
    heq | ⟨w, b, age, heq⟩ | ⟨b, value, -, heq⟩ | ⟨c, -, heq⟩ | ⟨item, c, -, heq⟩
  · rw [heq]
    exact h
  · rw [heq]
    refine h.load (fun hw => ?_) age
    subst hw
    by_cases hb : b = a
    · subst hb
      exact hbroken.imp id Or.inr
    · exact Or.inr (Or.inl hb)
  · rw [heq]
    refine h.store (fun hp => ?_) value
    by_cases hb : b = a
    · subst hb
      exact Or.inl (hp.resolve_left fun hne => hne rfl)
    · exact Or.inr (Index.eq_of_owner_ne hb ht)
  · rw [heq]
    exact h.read ht c
  · rw [heq]
    exact h.write ht c item

/-- A race is not undone. -/
theorem raced_turn (h : s.memory.raced = true) (turn : WeakTurn T) :
    (weakTurn Capacity orders s turn).1.memory.raced = true := by
  rcases weakTurn_memory Capacity orders s turn with
    heq | ⟨w, b, age, heq⟩ | ⟨b, value, -, heq⟩ | ⟨c, -, heq⟩ | ⟨item, c, -, heq⟩
  · rw [heq]
    exact h
  · rw [heq]
    exact h
  · rw [heq]
    exact h
  · rw [heq]
    simp only [Memory.read, h, Bool.true_or]
  · rw [heq]
    simp only [Memory.write, h, Bool.true_or]

/-- The accesses of the owner of the other index at which a thread races that is blind to
`a`: the consumer at its first read, the producer when it comes round. -/
def Index.spared (Capacity : ℕ) : Index → ℕ
  | .head => Capacity
  | .tail => 0

/-- What a run has come to when a thread is blind to the stores of `a`. -/
structure Broken (Capacity : ℕ) (orders : Orders) (a : Index) (t : Thread)
    (log : List (Returned T)) (s : WeakThreads T) : Prop where
  tracked : Tracked Capacity log s
  blind : Blind t a.owner (fun b => b ≠ a ∨ orders.store a = .relaxed) s.memory
  raced : a.spared Capacity < s.memory.present.clock t → s.memory.raced = true

variable {log : List (Returned T)}

/-- A blind consumer does not know of the write to the slot that it reads. -/
theorem Broken.read (h : Broken Capacity orders .tail .consumer log s) {c : ℕ}
    (hpc : s.consumer = .read c) : (s.memory.read .consumer c).2.raced = true := by
  have hinv : ConsumerInv Capacity s.present.queue _ _ s.consumer := h.tracked.weak.inv.consumer
  have hproducer := h.tracked.producer
  have hconsumer := h.tracked.consumer
  rw [hpc] at hinv hconsumer
  have hlt : (popped log).length < (pushed log).length := hinv.2
  have htaken : s.memory.present.clock .consumer = (popped log).length := hconsumer
  obtain ⟨x, hx⟩ := h.tracked.accessed.written (s.memory.present.clock .consumer) (by omega)
  rw [← h.tracked.slot_read hpc] at hx
  obtain ⟨k, rfl, -, -⟩ := h.tracked.accessed.write c x hx
  have hknows := h.blind.knows (Nat.succ_pos k)
  simp only [Memory.read, hx, Option.all_some]
  rw [show (s.memory.views .consumer).knows (.producer, k + 1) = false from hknows]
  exact Bool.or_true _

/-- A blind producer does not know of the read of the slot that it writes again. -/
theorem Broken.write (h : Broken Capacity orders .head .producer log s) {item : T} {c : ℕ}
    (hpc : s.producer = .write item c) (hround : Capacity ≤ s.memory.present.clock .producer) :
    (s.memory.write .producer c item).raced = true := by
  have hinv : ProducerInv Capacity s.present.queue _ _ s.producer := h.tracked.weak.inv.producer
  have hproducer := h.tracked.producer
  have hconsumer := h.tracked.consumer
  rw [hpc] at hinv hproducer
  have hroom : (pushed log).length + 1 < (popped log).length + Capacity := hinv.2
  have hwritten : s.memory.present.clock .producer = (pushed log).length := hproducer
  -- the read of the turn before
  obtain ⟨x, hx⟩ := h.tracked.accessed.taken (s.memory.present.clock .producer - Capacity)
    (by omega) (by omega)
  have hslot : (s.memory.present.clock .producer - Capacity) % Capacity = c := by
    rw [h.tracked.slot_write hpc, Nat.mod_eq_sub_mod hround]
  rw [hslot] at hx
  obtain ⟨k, rfl, -, -⟩ := h.tracked.accessed.reads c x hx
  have hknows : (s.memory.views .producer).knows (.consumer, k + 1) = false :=
    h.blind.knows (Nat.succ_pos k)
  have hall : (s.memory.cells c).reads.all (s.memory.views .producer).knows = false := by
    rw [List.all_eq_false]
    exact ⟨_, hx, by rw [hknows]; decide⟩
  simp only [Memory.write, hall]
  exact Bool.or_true _

/-- **One step of one thread** of which one is blind. -/
theorem Broken.turn (h : Broken Capacity orders a t log s) (ht : t ≠ a.owner)
    (hbroken : orders.load t a = .relaxed ∨ orders.store a = .relaxed) (turn : WeakTurn T) :
    Broken Capacity orders a t (log ++ (weakTurn Capacity orders s turn).2)
      (weakTurn Capacity orders s turn).1 := by
  refine ⟨h.tracked.turn turn, blind_turn ht hbroken h.blind turn, fun hlt => ?_⟩
  by_cases hraced : s.memory.raced = true
  · exact raced_turn hraced turn
  have hle : s.memory.present.clock t ≤ a.spared Capacity :=
    Nat.le_of_not_lt fun hlt => hraced (h.raced hlt)
  rcases weakTurn_memory Capacity orders s turn with
    heq | ⟨w, b, age, heq⟩ | ⟨b, value, -, heq⟩ | ⟨c, hpc, heq⟩ | ⟨item, c, hpc, heq⟩
  · rw [heq] at hlt
    omega
  · rw [heq, h.tracked.weak.wf.clock_load] at hlt
    omega
  · rw [heq, Memory.clock_store] at hlt
    omega
  · rw [heq] at hlt ⊢
    cases t with
    | producer =>
      have hclock : (s.memory.read .consumer c).2.present.clock .producer =
          s.memory.present.clock .producer := Memory.clock_access_of_ne _ (by decide) _
      omega
    | consumer =>
      cases a with
      | head => exact absurd rfl ht
      | tail => exact h.read hpc
  · rw [heq] at hlt ⊢
    cases t with
    | consumer =>
      have hclock : (s.memory.write .producer c item).present.clock .consumer =
          s.memory.present.clock .consumer := Memory.clock_access_of_ne _ (by decide) _
      omega
    | producer =>
      cases a with
      | tail => exact absurd rfl ht
      | head =>
        have hclock : (s.memory.write .producer c item).present.clock .producer =
            s.memory.present.clock .producer + 1 := Memory.clock_access_self _ _
        have hspared : Index.head.spared Capacity = Capacity := rfl
        exact h.write hpc (by omega)

theorem broken_run (hC : 0 < Capacity) (ht : t ≠ a.owner)
    (hbroken : orders.load t a = .relaxed ∨ orders.store a = .relaxed) (buffer : ℕ → T)
    (steps : List (WeakTurn T)) :
    Broken Capacity orders a t ((weakThreads Capacity orders buffer).log steps)
      ((weakThreads Capacity orders buffer).run steps) := by
  induction steps using List.reverseRecOn with
  | nil => exact ⟨tracked_init hC orders buffer, blind_new _ _ _ _ _, fun h => nomatch h⟩
  | append_singleton steps turn ih =>
    rw [Machine.log_concat, Machine.run_concat]
    exact ih.turn ht hbroken turn

/-- A run has raced that has popped anything, or come round, with the stores of the index
that the thread waits for unsynchronised. -/
theorem raced_of_broken (hC : 0 < Capacity) (ht : t ≠ a.owner)
    (hbroken : orders.load t a = .relaxed ∨ orders.store a = .relaxed) (buffer : ℕ → T)
    {steps : List (WeakTurn T)}
    (hpushed : Capacity < (pushed ((weakThreads Capacity orders buffer).log steps)).length)
    (hpopped : 0 < (popped ((weakThreads Capacity orders buffer).log steps)).length) :
    ((weakThreads Capacity orders buffer).run steps).memory.raced = true := by
  have h := broken_run hC ht hbroken buffer steps
  refine h.raced ?_
  cases a with
  | head =>
    cases t with
    | producer =>
      have hproducer := h.tracked.producer
      show Capacity < _
      omega
    | consumer => exact absurd rfl ht
  | tail =>
    cases t with
    | producer => exact absurd rfl ht
    | consumer =>
      have hconsumer := h.tracked.consumer
      show 0 < _
      omega

/-- There are calls that push and pop any number of items. -/
theorem exists_calls (hCapacity : 2 ≤ Capacity) (buffer : ℕ → T) (k : ℕ) :
    ∃ cs, (pushed ((calls Capacity buffer).log cs)).length = k ∧
      (popped ((calls Capacity buffer).log cs)).length = k := by
  induction k with
  | zero => exact ⟨[], rfl, rfl⟩
  | succ k ih =>
    obtain ⟨cs, hpushed, hpopped⟩ := ih
    have hholds := holds_calls (show 0 < Capacity by omega) buffer cs
    rw [hpopped] at hholds
    rcases push_spec hholds (buffer 0) with ⟨hfull, -⟩ | ⟨-, hpush, hholds'⟩
    · omega
    rcases pop_spec hholds' with ⟨hempty, -⟩ | ⟨-, item, -, hpop, -⟩
    · rw [List.length_append, List.length_singleton] at hempty
      omega
    have hlog : (calls Capacity buffer).logFrom ((calls Capacity buffer).run cs)
        [.push (buffer 0), .pop] = [.push (buffer 0) true, .pop (some item)] := by
      rw [Machine.logFrom_cons, Machine.logFrom_cons, Machine.logFrom_nil]
      simp only [calls, SPSCQueue.call] at hpush hpop ⊢
      rw [hpush, hpop]
      rfl
    refine ⟨cs ++ [.push (buffer 0), .pop], ?_, ?_⟩
    · rw [Machine.log_append, pushed_append, List.length_append, hpushed, hlog]
      rfl
    · rw [Machine.log_append, popped_append, List.length_append, hpopped, hlog]
      rfl

/-- A thread that is blind races in some run. -/
theorem exists_raced (hCapacity : 2 ≤ Capacity) (ht : t ≠ a.owner)
    (hbroken : orders.load t a = .relaxed ∨ orders.store a = .relaxed) (buffer : ℕ → T) :
    ∃ steps, ((weakThreads Capacity orders buffer).run steps).memory.raced = true := by
  have hC : 0 < Capacity := by omega
  obtain ⟨cs, hpushed, hpopped⟩ := exists_calls hCapacity buffer (Capacity + 1)
  have hcalls := (bounded_calls hC buffer cs).uninterrupted.2
  have hlog := (run_fresh hC orders buffer (schedule Capacity (new buffer) cs)).2.trans hcalls
  refine ⟨(schedule Capacity (new buffer) cs).map Turn.fresh,
    raced_of_broken hC ht hbroken buffer ?_ ?_⟩
  · rw [hlog, hpushed]
    exact Nat.lt_succ_self Capacity
  · rw [hlog, hpopped]
    exact Nat.succ_pos Capacity

end Broken

/-- **The memory orders are exact.**  No run races if, and only if, each index is stored
with `release` and loaded with `acquire` by the thread that does not own it.  The loads of
a thread's own index may be relaxed, as they are in the source. -/
theorem orders_exact (Capacity : ℕ) (hCapacity : 2 ≤ Capacity) (orders : Orders)
    (buffer : ℕ → T) :
    (∀ steps, ((weakThreads Capacity orders buffer).run steps).memory.raced = false) ↔
      orders.Synchronises := by
  refine ⟨fun hfree => ?_, fun horders steps =>
    (raceFree_run (by omega) horders buffer steps).raced⟩
  have hnot : ∀ a t, t ≠ Index.owner a →
      ¬ (orders.load t a = .relaxed ∨ orders.store a = .relaxed) := by
    intro a t ht hbroken
    obtain ⟨steps, hraced⟩ := exists_raced hCapacity ht hbroken buffer
    rw [hfree steps] at hraced
    cases hraced
  refine ⟨fun a t ht => ?_, fun a => ?_⟩
  · cases hload : orders.load t a with
    | relaxed => exact absurd (Or.inl hload) (hnot a t ht)
    | acquire => rfl
  · obtain ⟨t, ht⟩ : ∃ t, t ≠ Index.owner a := by
      cases a with
      | head => exact ⟨.producer, by decide⟩
      | tail => exact ⟨.consumer, by decide⟩
    cases hstore : orders.store a with
    | relaxed => exact absurd (Or.inr hstore) (hnot a t ht)
    | release => rfl

/-- The ring of the source, if its stores were relaxed. -/
theorem orders_exact_relaxed :
    let orders : Orders := { Orders.source with store := fun _ => .relaxed }
    ¬ ∀ steps, ((weakThreads 1024 orders fun _ => 0).run steps).memory.raced = false := by
  intro orders hfree
  have horders := (orders_exact 1024 (by decide) orders fun _ => 0).mp hfree
  exact absurd (horders.store .head) (by decide)

end SPSCQueue
end MatchingEngine
