import MatchingEngine.OrderBook.Operations
import Mathlib.Data.List.Nodup

/-!
# The queues of the book

`resting` reads a side as one list.  Here the book is read level by level: `queue`
is what stands at a price of a side, and each operation has one lemma that says what
it does to every queue.

* `queue_insertOrder`, `queue_unlink`, `queue_setQuantity`: at the back of one queue
  an order is added; from one queue an order leaves; one queue has a quantity
  rewritten.
* `queueIds_insertOrder_unlink`: an order that is unlinked and inserted again leaves
  every queue and stands last in one.

The last operation is `sendBack` on the queue of identifiers when the price stays the
same, and it moves nothing exactly when the order was last before
(`sendBack_eq_self_iff`).
-/

namespace MatchingEngine

/-! ## Sending an element to the back -/

section SendBack

variable {α : Type*} [DecidableEq α]

/-- Take an element out of a list and put it at the end. -/
def sendBack (x : α) (l : List α) : List α := l.filter (fun y => decide (y ≠ x)) ++ [x]

theorem getLast?_sendBack (x : α) (l : List α) : (sendBack x l).getLast? = some x := by
  rw [sendBack, List.getLast?_append, List.getLast?_singleton, Option.some_or]

theorem filter_ne_split {x : α} {l₁ l₂ : List α} (hnd : (l₁ ++ x :: l₂).Nodup) :
    (l₁ ++ x :: l₂).filter (fun y => decide (y ≠ x)) = l₁ ++ l₂ := by
  rw [List.nodup_append, List.nodup_cons] at hnd
  obtain ⟨-, ⟨hafter, -⟩, hbefore⟩ := hnd
  have h₁ : ∀ y ∈ l₁, y ≠ x := fun y hy => hbefore y hy x List.mem_cons_self
  have h₂ : ∀ y ∈ l₂, y ≠ x := fun y hy hyx => hafter (hyx ▸ hy)
  rw [List.filter_append, List.filter_cons_of_neg (by simp),
    List.filter_eq_self.mpr fun y hy => by simpa using h₁ y hy,
    List.filter_eq_self.mpr fun y hy => by simpa using h₂ y hy]

/-- **Sending an element to the back moves nothing** exactly when it is at the back
already. -/
theorem sendBack_eq_self_iff {x : α} {l : List α} (hnd : l.Nodup) :
    sendBack x l = l ↔ l.getLast? = some x := by
  constructor
  · intro h
    rw [← h]
    exact getLast?_sendBack x l
  · intro h
    obtain ⟨l', rfl⟩ := List.getLast?_eq_some_iff.mp h
    rw [sendBack, filter_ne_split hnd, List.append_nil]

/-- The position of an element tells whether it was at the back. -/
theorem idxOf_sendBack_iff {x : α} {l : List α} (hnd : l.Nodup) (hx : x ∈ l) :
    (sendBack x l).idxOf x = l.idxOf x ↔ l.getLast? = some x := by
  obtain ⟨l₁, l₂, rfl⟩ := List.append_of_mem hx
  have hne : x ∉ l₁ ++ l₂ := (List.nodup_cons.mp (List.nodup_middle.mp hnd)).1
  have hne₁ : x ∉ l₁ := fun h => hne (List.mem_append_left _ h)
  have hidx : (l₁ ++ x :: l₂).idxOf x = l₁.length := by
    rw [List.idxOf_append_of_notMem hne₁, List.idxOf_cons_self, Nat.add_zero]
  have hidx' : (sendBack x (l₁ ++ x :: l₂)).idxOf x = l₁.length + l₂.length := by
    rw [sendBack, filter_ne_split hnd, List.idxOf_append_of_notMem hne, List.idxOf_cons_self,
      Nat.add_zero, List.length_append]
  rw [hidx, hidx']
  constructor
  · intro hlen
    obtain rfl : l₂ = [] := List.length_eq_zero_iff.mp (by omega)
    rw [List.getLast?_append, List.getLast?_singleton, Option.some_or]
  · intro hlast
    rw [← sendBack_eq_self_iff hnd] at hlast
    have heq := hidx'
    rw [hlast, hidx] at heq
    exact heq.symm

end SendBack

variable {P : Type} [LinearOrder P]

namespace OrderBook

/-! ## One queue for each price -/

/-- The queue at a price of a side, front to back. -/
def queue (b : OrderBook P) (s : Side) (k : P) : List (Node P) := (b.levels s).queue k

/-- The identifiers in a queue. -/
def queueIds (b : OrderBook P) (s : Side) (k : P) : List UInt64 :=
  (b.queue s k).map fun n => n.order.orderId

theorem mem_queue {b : OrderBook P} {s : Side} {k : P} {n : Node P} :
    n ∈ b.queue s k ↔ (k, n) ∈ b.resting s := LevelMap.mem_queue

theorem queue_insertOrder (b : OrderBook P) (o : Order P) (s : Side) (k : P) :
    (b.insertOrder o).queue s k =
      if s = o.side ∧ k = o.price then b.queue s k ++ [⟨b.nextNode, o⟩] else b.queue s k := by
  rw [queue, levels_insertOrder]
  by_cases hs : s = o.side
  · rw [if_pos hs, LevelMap.queue_pushBack]
    by_cases hk : k = o.price
    · rw [if_pos hk, if_pos ⟨hs, hk⟩, hk, queue]
    · rw [if_neg hk, if_neg fun h => hk h.2, queue]
  · rw [if_neg hs, if_neg fun h => hs h.1, queue]

/-- A new order is the last of the level of its price. -/
theorem find?_insertOrder (b : OrderBook P) (o : Order P) :
    ((b.insertOrder o).levels o.side).find? o.price =
      some (b.queue o.side o.price ++ [⟨b.nextNode, o⟩]) := by
  have hqueue := queue_insertOrder b o o.side o.price
  rw [if_pos ⟨rfl, rfl⟩] at hqueue
  rw [← hqueue]
  exact LevelMap.find?_eq_some_of_queue (by rw [← queue, hqueue]; simp)

theorem queue_setQuantity (b : OrderBook P) (loc : OrderLocation P) (q : Int32) (s : Side)
    (k : P) : (b.setQuantity loc q).queue s k =
      if s = loc.side ∧ k = loc.price then (b.queue s k).map (requantify loc.it q)
      else b.queue s k := by
  rw [queue, levels_setQuantity]
  by_cases hs : s = loc.side
  · subst hs
    simp only [if_true, true_and]
    exact LevelMap.queue_rewrite List.map_nil (fun q' h => by rw [h]) (fun h => by rw [h]) k
  · rw [if_neg hs, if_neg fun h => hs h.1, queue]

/-- Updating a quantity leaves every order in its place. -/
theorem queueIds_setQuantity (b : OrderBook P) (loc : OrderLocation P) (q : Int32) (s : Side)
    (k : P) : (b.setQuantity loc q).queueIds s k = b.queueIds s k := by
  have hid : ∀ n : Node P, (requantify loc.it q n).order.orderId = n.order.orderId := by
    intro n
    rw [requantify]
    split <;> rfl
  rw [queueIds, queueIds, queue_setQuantity]
  split
  · rw [List.map_map]
    exact List.map_congr_left fun n _ => hid n
  · rfl

theorem queue_removeByLocation (b : OrderBook P) (loc : OrderLocation P) (s : Side) (k : P) :
    (b.removeByLocation loc).queue s k =
      if s = loc.side ∧ k = loc.price then
        (b.queue s k).filter fun n => decide (n.addr ≠ loc.it)
      else b.queue s k := by
  rw [queue, levels_removeByLocation]
  by_cases hs : s = loc.side
  · subst hs
    simp only [if_true, true_and]
    exact LevelMap.queue_rewrite List.filter_nil (fun q' h => by rw [eraseNode, h])
      (fun h => by rw [eraseNode, h]) k
  · rw [if_neg hs, if_neg fun h => hs h.1, queue]

/-- **Unlinking an identifier** takes it out of every queue, and moves no other
order. -/
theorem queue_unlink {b : OrderBook P} (hb : b.Linked) (hi : b.Indexed) {i : UInt64}
    {loc : OrderLocation P} (hloc : b.orderMap.lookup i = some loc) (s : Side) (k : P) :
    (b.unlink i loc).queue s k =
      (b.queue s k).filter fun n => decide (n.order.orderId ≠ i) := by
  have hiff : ∀ n ∈ b.queue s k, (¬ (s = loc.side ∧ k = loc.price ∧ n.addr = loc.it) ↔
      n.order.orderId ≠ i) := by
    intro n hn
    have hmem : (k, n) ∈ b.resting s := mem_queue.mp hn
    have h := mem_resting_unlink hb hi hloc (s := s) (e := (k, n))
    rw [resting_unlink, mem_resting_removeByLocation] at h
    simpa only [hmem, true_and] using h
  rw [queue, levels_unlink, ← queue, queue_removeByLocation]
  split
  · rename_i hc
    refine List.filter_congr fun n hn => decide_eq_decide.mpr ?_
    rw [← hiff n hn]
    simp only [hc.1, hc.2, true_and, ne_eq]
  · rename_i hc
    refine (List.filter_eq_self.mpr fun n hn => ?_).symm
    rw [decide_eq_true_eq, ← hiff n hn]
    exact fun h => hc ⟨h.1, h.2.1⟩

/-- **Unlinked and inserted again**, an identifier stands last in the queue of its new
price, and nowhere else. -/
theorem queueIds_insertOrder_unlink {b : OrderBook P} (hb : b.Linked) (hi : b.Indexed)
    {i : UInt64} {loc : OrderLocation P} (hloc : b.orderMap.lookup i = some loc) {o : Order P}
    (ho : o.orderId = i) (s : Side) (k : P) :
    ((b.unlink i loc).insertOrder o).queueIds s k =
      if s = o.side ∧ k = o.price then sendBack i (b.queueIds s k)
      else (b.queueIds s k).filter fun j => decide (j ≠ i) := by
  have hfilter : ((b.queue s k).filter fun n => decide (n.order.orderId ≠ i)).map
      (fun n => n.order.orderId) = (b.queueIds s k).filter fun j => decide (j ≠ i) := by
    rw [queueIds, List.filter_map]
    rfl
  rw [queueIds, queue_insertOrder, queue_unlink hb hi hloc]
  split
  · rw [List.map_append, hfilter, List.map_singleton, ho, sendBack]
  · exact hfilter

/-! ## Queues of a linked and indexed book -/

/-- Where an order stands, the identifiers say. -/
theorem mem_queueIds {b : OrderBook P} (hb : b.Linked) (hi : b.Indexed) {s s' : Side} {k k' : P}
    {n : Node P} (hn : (k, n) ∈ b.resting s) :
    n.order.orderId ∈ b.queueIds s' k' ↔ s' = s ∧ k' = k := by
  rw [queueIds, List.mem_map]
  constructor
  · rintro ⟨n', hn', hid⟩
    obtain ⟨hs, he⟩ := hi.id_inj hb (mem_queue.mp hn') hn hid
    exact ⟨hs, congrArg Prod.fst he⟩
  · rintro ⟨rfl, rfl⟩
    exact ⟨n, mem_queue.mpr hn, rfl⟩

theorem nodup_queueIds {b : OrderBook P} (hb : b.Linked) (hi : b.Indexed) (s : Side) (k : P) :
    (b.queueIds s k).Nodup := by
  have hmem : ∀ n ∈ b.queue s k, (k, n) ∈ b.resting s := fun n hn => mem_queue.mp hn
  have haddr : ((b.queue s k).map fun n => n.addr).Nodup := by
    rw [queue]
    cases hfind : (b.levels s).find? k with
    | none =>
      rw [LevelMap.queue_of_find?_none hfind]
      exact List.nodup_nil
    | some queue =>
      rw [LevelMap.queue_of_find? hfind]
      exact hb.nodup_level hfind
  rw [queueIds]
  refine (List.Nodup.of_map _ haddr).map_on fun n hn n' hn' hid => ?_
  exact congrArg Prod.snd (hi.id_inj hb (hmem n hn) (hmem n' hn') hid).2

/-- The queues an order does not stand in do not name it. -/
theorem filter_queueIds_of_ne {b : OrderBook P} (hb : b.Linked) (hi : b.Indexed) {s s' : Side}
    {k k' : P} {n : Node P} (hn : (k, n) ∈ b.resting s) (hne : ¬ (s' = s ∧ k' = k)) :
    (b.queueIds s' k').filter (fun j => decide (j ≠ n.order.orderId)) = b.queueIds s' k' := by
  refine List.filter_eq_self.mpr fun j hj => ?_
  rw [decide_eq_true_eq]
  rintro rfl
  exact hne ((mem_queueIds hb hi hn).mp hj)

/-- The level of an order disappears with it exactly when the order was alone. -/
theorem filter_queue_eq_nil_iff {b : OrderBook P} (hb : b.Linked) (hi : b.Indexed) {s : Side}
    {k : P} {n : Node P} (hn : (k, n) ∈ b.resting s) :
    (b.queue s k).filter (fun m => decide (m.order.orderId ≠ n.order.orderId)) = [] ↔
      b.queue s k = [n] := by
  have hmem : n ∈ b.queue s k := mem_queue.mpr hn
  constructor
  · intro h
    rw [List.filter_eq_nil_iff] at h
    have hall : ∀ m ∈ b.queue s k, m = n := by
      intro m hm
      have hid : m.order.orderId = n.order.orderId := by simpa using h m hm
      exact congrArg Prod.snd (hi.id_inj hb (mem_queue.mp hm) hn hid).2
    have hnd : (b.queue s k).Nodup := List.Nodup.of_map _ (nodup_queueIds hb hi s k)
    have hrep := List.eq_replicate_of_mem hall
    have hlen : (b.queue s k).length = 1 := by
      have hpos := List.length_pos_of_mem hmem
      have hle : (b.queue s k).length ≤ 1 := List.nodup_replicate.mp (hrep ▸ hnd)
      omega
    rw [hrep, hlen]
    rfl
  · intro h
    rw [h]
    simp

end OrderBook
end MatchingEngine
