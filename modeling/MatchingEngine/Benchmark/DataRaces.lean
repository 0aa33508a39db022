import MatchingEngine.Benchmark.Work
import MatchingEngine.Queue.DataRaces

/-!
# The benchmark has no data races

`weakSpscQueue` is the ring with the memory orders of the source, as a queue that a
benchmark can be run with.  The ages of its loads are given beforehand, one for every step.

* `runBenchmark_race_free`: the benchmark does its work, and no two accesses race.
-/

namespace MatchingEngine

variable {T : Type}

namespace SPSCQueue

/-- A step of a push under way leaves it under way, or ends it. -/
theorem item_weakProducerStep (Capacity : ℕ) (orders : Orders) (age : ℕ) {s : WeakThreads T}
    {item : T} (h : s.producer.item = some item) :
    ((weakProducerStep Capacity orders age s).2 = [] ∨
          (weakProducerStep Capacity orders age s).2 = [.push item false]) ∧
        (weakProducerStep Capacity orders age s).1.producer.item = some item ∨
      (weakProducerStep Capacity orders age s).2 = [.push item true] ∧
        (weakProducerStep Capacity orders age s).1.producer.item = none := by
  rw [weakProducerStep]
  cases hpc : s.producer with
  | idle =>
    rw [hpc] at h
    exact absurd h (by simp [Producer.item])
  | test item' t hd =>
    rw [hpc] at h
    cases h
    simp only
    split
    · exact Or.inl ⟨Or.inr rfl, rfl⟩
    · exact Or.inl ⟨Or.inl rfl, rfl⟩
  | store item' t =>
    rw [hpc] at h
    cases h
    exact Or.inr ⟨rfl, rfl⟩
  | _ =>
    rw [hpc] at h
    exact Or.inl ⟨Or.inl rfl, h⟩

/-- A step of the consumer returns nothing, or ends a call. -/
theorem weakConsumerStep_spec (Capacity : ℕ) (orders : Orders) (age : ℕ) (s : WeakThreads T) :
    (weakConsumerStep Capacity orders age s).1.producer = s.producer ∧
      ((weakConsumerStep Capacity orders age s).2 = [] ∨
        ∃ r, (weakConsumerStep Capacity orders age s).2 = [.pop r]) := by
  rw [weakConsumerStep]
  cases s.consumer with
  | test hd t =>
    simp only
    split
    · exact ⟨rfl, Or.inr ⟨none, rfl⟩⟩
    · exact ⟨rfl, Or.inl rfl⟩
  | store hd item => exact ⟨rfl, Or.inr ⟨some item, rfl⟩⟩
  | _ => exact ⟨rfl, Or.inl rfl⟩

end SPSCQueue

open SPSCQueue in
/-- `SPSCQueue<T, Capacity>`, over a memory in which the load of step `k` is `ages k` stores
old. -/
def weakSpscQueue (Capacity : ℕ) (hCapacity : 0 < Capacity) (orders : Orders)
    (horders : orders.Synchronises) (ages : ℕ → ℕ) (buffer : ℕ → T) : QueueType T where
  State := WeakThreads T × ℕ
  init := ((weakThreads Capacity orders buffer).init, 0)
  call s item := ((weakTurn Capacity orders s.1 (.call item)).1, s.2)
  producer s :=
    let r := weakProducerStep Capacity orders (ages s.2) s.1
    ((r.1, s.2 + 1), r.2)
  consumer s :=
    let r := weakConsumerStep Capacity orders (ages s.2) s.1
    ((r.1, s.2 + 1), r.2)
  Holds log s item := RaceFree Capacity log s.1 ∧ s.1.producer.item = item
  holds_init := ⟨raceFree_run hCapacity horders buffer [], rfl⟩
  holds_call {log s} item h := by
    obtain ⟨hfree, hitem⟩ := h
    have hcall := hfree.turn horders (.call item)
    rw [weakTurn] at hcall ⊢
    cases hpc : s.1.producer with
    | idle =>
      simp only [hpc, List.append_nil] at hcall
      exact ⟨hcall, rfl⟩
    | _ =>
      rw [hpc] at hitem
      exact absurd hitem (by simp [Producer.item])
  holds_producer {log s item} h := by
    have hturn := h.1.turn horders (.producer (ages s.2))
    rcases item_weakProducerStep Capacity orders (ages s.2) h.2 with ⟨hout, hitem⟩ | ⟨hout, hitem⟩
    · exact Or.inl ⟨hout, hturn, hitem⟩
    · exact Or.inr ⟨hout, hturn, hitem⟩
  holds_consumer {log s item} h := by
    have hturn := h.1.turn horders (.consumer (ages s.2))
    obtain ⟨hproducer, hout⟩ := weakConsumerStep_spec Capacity orders (ages s.2) s.1
    exact ⟨hout, hturn, by rw [hproducer, h.2]⟩
  fifo h := h.1.tracked.weak.inv.fifo

namespace Benchmark

/-- **The benchmark is free of data races.**  With the ring, the memory orders of the source,
any ages of its loads and any schedule, no two accesses to the array race; and when the
consumer returns, the exchange is what one engine makes of all orders in turn. -/
theorem runBenchmark_race_free (Capacity : ℕ) (hCapacity : 0 < Capacity) (ages : ℕ → ℕ)
    (buffer : ℕ → Command ℚ) (numOrders : ℕ) (tracker : LatencyTracker) (boot : ℤ)
    (acts : List Action) :
    let queue := weakSpscQueue Capacity hCapacity .source SPSCQueue.Orders.source_synchronises
      ages buffer
    let s := (runBenchmark queue numOrders tracker boot).run acts
    (Prod.fst s.queue : SPSCQueue.WeakThreads (Command ℚ)).memory.raced = false ∧
      s.tracker.e2eSamples.length = s.processed ∧
      (s.consumer = .returned → s.processed = numOrders ∧
        s.exchange = engine.run (makeCommands numOrders)) := by
  intro queue s
  have hinv := inv_run queue numOrders tracker boot acts
  obtain ⟨item, hholds⟩ := hinv.offers.holds
  exact ⟨hholds.1.raced, hinv.work.1, hinv.work.2.2⟩

/-- A thousand orders through the ring of the source, with loads up to two stores old. -/
theorem runBenchmark_race_free_thousand :
    let acts : List Action := (List.replicate 9000 [⟨1, .producer⟩, ⟨2, .consumer⟩]).flatten
    let queue := weakSpscQueue 1024 (by decide) .source SPSCQueue.Orders.source_synchronises
      (fun k => k % 3) fun _ => (Command.zero : Command ℚ)
    let s := (runBenchmark queue 1000 {} 0).run acts
    (Prod.fst s.queue : SPSCQueue.WeakThreads (Command ℚ)).memory.raced = false :=
  (runBenchmark_race_free 1024 (by decide) (fun k => k % 3) _ 1000 {} 0 _).1

end Benchmark
end MatchingEngine
