import MatchingEngine.Queue.DataRaces
import MatchingEngine.Queue.Sequential

/-!
# When the ring is sequentially consistent

Every interleaving of the steps of `push` and `pop` is a run over the weak memory
(`run_fresh`).  Is every run, as far as the threads can tell, an interleaving?  `release`
and `acquire` do not order a store of one index before a load of the other, so each thread
may go on for a while on old values of the other one's index.

* `not_both_fail`, `reaches_both`: with room for two items, the producer fills the ring; the
  consumer pops one and finds no other, for it loads the first store to `tail`; the producer
  finds no room, for it loads the first value of `head`.  In an interleaving one of the two
  failures comes after the other, and at it the ring is neither full nor empty.
* `exists_sequential`: with room for one item, a call that has failed on an old value would
  have failed in the past.
-/

namespace MatchingEngine

variable {T : Type}

namespace SPSCQueue

open WeakMemory

/-! ## What no interleaving returns -/

theorem length_pushed_of_pushResults {log : List (Returned T)} {l : List (T × Bool)}
    (h : pushResults log = l) : (pushed log).length = l.countP Prod.snd := by
  rw [pushed_eq, h, List.length_filterMap_eq_countP]
  refine List.countP_congr fun r _ => ?_
  cases r.2 <;> simp

theorem length_popped_of_popResults {log : List (Returned T)} {l : List (Option T)}
    (h : popResults log = l) : (popped log).length = l.countP Option.isSome := by
  rw [popped_eq, h, List.reduceOption, List.length_filterMap_eq_countP]
  rfl

theorem call_one (Capacity : ℕ) (q : SPSCQueue T) (c : Call T) :
    ∃ r, (q.call Capacity c).2 = [r] := by
  cases c <;> exact ⟨_, rfl⟩

/-- **A push that has failed** among whole calls found the ring full. -/
theorem full_of_pushResults {Capacity : ℕ} (hC : 0 < Capacity) (buffer : ℕ → T)
    {cs : List (Call T)} {l l' : List (T × Bool)} {item : T}
    (h : pushResults ((calls Capacity buffer).log cs) = l ++ (item, false) :: l') :
    ∃ cs', cs' <+: cs ∧ (pushed ((calls Capacity buffer).log cs')).length = l.countP Prod.snd ∧
      (pushed ((calls Capacity buffer).log cs')).length =
        (popped ((calls Capacity buffer).log cs')).length + (Capacity - 1) := by
  obtain ⟨cs', c, r, hpre, hbefore, hr, hfail⟩ :=
    Machine.exists_split (calls Capacity buffer) (call_one Capacity) h
  refine ⟨cs', (List.prefix_append _ _).trans hpre, length_pushed_of_pushResults hbefore, ?_⟩
  cases c with
  | pop =>
    obtain rfl := List.singleton_inj.mp hr
    cases hfail
  | push x =>
    obtain rfl := List.singleton_inj.mp hr
    have hok : (((calls Capacity buffer).run cs').push Capacity x).2 = false :=
      congrArg Prod.snd (Option.some_inj.mp hfail)
    exact ((bounded_calls hC buffer cs').push_iff x).mp hok

/-- **A pop that has failed** among whole calls found the ring empty. -/
theorem empty_of_popResults {Capacity : ℕ} (hC : 0 < Capacity) (buffer : ℕ → T)
    {cs : List (Call T)} {l l' : List (Option T)}
    (h : popResults ((calls Capacity buffer).log cs) = l ++ none :: l') :
    ∃ cs', cs' <+: cs ∧ (popped ((calls Capacity buffer).log cs')).length =
        l.countP Option.isSome ∧
      (pushed ((calls Capacity buffer).log cs')).length =
        (popped ((calls Capacity buffer).log cs')).length := by
  obtain ⟨cs', c, r, hpre, hbefore, hr, hfail⟩ :=
    Machine.exists_split (calls Capacity buffer) (call_one Capacity) h
  refine ⟨cs', (List.prefix_append _ _).trans hpre, length_popped_of_popResults hbefore, ?_⟩
  cases c with
  | push x =>
    obtain rfl := List.singleton_inj.mp hr
    cases hfail
  | pop =>
    obtain rfl := List.singleton_inj.mp hr
    exact (bounded_calls hC buffer cs').pop_iff.mp (Option.some_inj.mp hfail)

/-- What a run of the calls has pushed and popped grows. -/
theorem counts_mono (Capacity : ℕ) (buffer : ℕ → T) {cs cs' : List (Call T)} (h : cs <+: cs') :
    (pushed ((calls Capacity buffer).log cs)).length ≤
        (pushed ((calls Capacity buffer).log cs')).length ∧
      (popped ((calls Capacity buffer).log cs)).length ≤
        (popped ((calls Capacity buffer).log cs')).length := by
  obtain ⟨more, rfl⟩ := h
  rw [Machine.log_append, pushed_append, popped_append, List.length_append, List.length_append]
  exact ⟨Nat.le_add_right _ _, Nat.le_add_right _ _⟩

/-- **No interleaving** fills the ring, fails to push, and pops one item only, when the ring
has room for two. -/
theorem not_both_fail {Capacity : ℕ} (hCapacity : 3 ≤ Capacity) (buffer : ℕ → T)
    (steps : List (Turn T)) {item item' : T}
    (hpush : pushResults ((threads Capacity buffer).log steps) =
      List.replicate (Capacity - 1) (item, true) ++ [(item, false)])
    (hpop : popResults ((threads Capacity buffer).log steps) = [some item', none]) : False := by
  have hC : 0 < Capacity := by omega
  have h := effected_threads hC buffer steps
  have hpushes := h.pushes
  have hpops := h.pops
  rw [hpush, List.append_assoc] at hpushes
  rw [hpop] at hpops
  obtain ⟨cs, hpre, hcount, hfull⟩ := full_of_pushResults hC buffer hpushes
  obtain ⟨cs', hpre', hcount', hempty⟩ := empty_of_popResults hC buffer (l := [some item']) hpops
  rw [List.countP_replicate, if_pos rfl] at hcount
  have hone : List.countP Option.isSome [some item'] = 1 := rfl
  rcases List.prefix_or_prefix_of_prefix hpre hpre' with hle | hle
  · have hmono := (counts_mono Capacity buffer hle).1
    omega
  · have hmono := (counts_mono Capacity buffer hle).2
    omega

/-! ## The steps of the run -/

theorem authored_turn (Capacity : ℕ) (orders : Orders) {s : WeakThreads T}
    (h : Authored Index.owner s.memory) (t : WeakTurn T) :
    Authored Index.owner (weakTurn Capacity orders s t).1.memory := by
  rcases weakTurn_memory Capacity orders s t with heq | ⟨w, a, age, heq⟩ | ⟨a, value, -, heq⟩ |
    ⟨c, -, heq⟩ | ⟨item, c, -, heq⟩
  · rwa [heq]
  · rw [heq]
    exact h.mono rfl (Memory.views_le_load _ _ _ _ _)
  · rw [heq]
    exact h.store _ a value
  · rw [heq]
    exact h.mono rfl (Memory.views_le_read _ _ _)
  · rw [heq]
    exact h.mono rfl (Memory.views_le_write _ _ _ _)

theorem authored_run (Capacity : ℕ) (orders : Orders) (buffer : ℕ → T)
    (steps : List (WeakTurn T)) :
    Authored Index.owner ((weakThreads Capacity orders buffer).run steps).memory :=
  Machine.run_invariant (weakThreads Capacity orders buffer)
    (I := fun s => Authored Index.owner s.memory) (authored_new _ _ _)
    (fun _ t h => authored_turn Capacity orders h t) steps

/-- A state of the two threads, with the stores of the other thread's index that each of
them has loaded. -/
structure Stands (Capacity : ℕ) (log : List (Returned T)) (s : WeakThreads T)
    (p : Producer T) (c : Consumer T) (f g : ℕ) : Prop where
  weak : WeakInv Capacity log s
  authored : Authored Index.owner s.memory
  producer : s.producer = p
  consumer : s.consumer = c
  front_head : (s.memory.views .producer).front .head = f
  front_tail : (s.memory.views .consumer).front .tail = g

/-- One step, and the state in which it leaves the threads. -/
def StepsTo (Capacity : ℕ) (orders : Orders) (log : List (Returned T)) (s : WeakThreads T)
    (t : WeakTurn T) (out : List (Returned T)) (p : Producer T) (c : Consumer T) (f g : ℕ) :
    Prop :=
  (weakTurn Capacity orders s t).2 = out ∧
    Stands Capacity (log ++ out) (weakTurn Capacity orders s t).1 p c f g

section Stands

variable {Capacity : ℕ} {orders : Orders} {log : List (Returned T)} {s : WeakThreads T}
  {p : Producer T} {c : Consumer T} {f g : ℕ}

theorem Stands.turn (h : Stands Capacity log s p c f g) (orders : Orders) (t : WeakTurn T) :
    WeakInv Capacity (log ++ (weakTurn Capacity orders s t).2)
        (weakTurn Capacity orders s t).1 ∧
      Authored Index.owner (weakTurn Capacity orders s t).1.memory :=
  ⟨h.weak.turn t, authored_turn Capacity orders h.authored t⟩

theorem Stands.pop_loadHead (h : Stands Capacity log s p .loadHead f g) :
    StepsTo Capacity orders log s (.consumer 0) [] p
      (.loadTail ((popped log).length % Capacity)) f g := by
  have hturn := h.turn orders (.consumer 0)
  have hload := h.weak.load_own (orders.load .consumer .head) .head 0
  have hhead := h.weak.inv.rep.head_eq
  have hview : (s.memory.load (orders.load .consumer .head) .consumer .head 0).2.views .consumer =
      s.memory.views .consumer := h.authored.views_load (h.weak.own .head) _ 0
  obtain ⟨-, -, hp, hc, hf, hg⟩ := h
  simp only [StepsTo, weakTurn, weakConsumerStep, hc] at hturn ⊢
  refine ⟨trivial, hturn.1, hturn.2, hp, ?_, ?_, ?_⟩
  · exact congrArg Consumer.loadTail (hload.trans hhead)
  · rw [Memory.views_load_of_ne _ _ (by decide), hf]
  · rw [hview, hg]

theorem Stands.pop_loadTail {hd : ℕ} (h : Stands Capacity log s p (.loadTail hd) f g)
    (age : ℕ) :
    StepsTo Capacity orders log s (.consumer age) [] p
      (.test hd (max g ((pushed log).length - age) % Capacity)) f
      (max g ((pushed log).length - age)) := by
  have hturn := h.turn orders (.consumer age)
  have hseen : s.memory.seen .consumer .tail age = max g ((pushed log).length - age) := by
    rw [Memory.seen, h.weak.last_tail]
    exact congrArg (max · _) h.front_tail
  have hvalue := h.weak.values .tail _ (h.weak.wf.seen_le .consumer .tail age)
  have hfront := h.weak.wf.front_load (orders.load .consumer .tail) .consumer .tail age
  rw [hseen] at hvalue hfront
  obtain ⟨-, -, hp, hc, hf, hg⟩ := h
  simp only [StepsTo, weakTurn, weakConsumerStep, hc] at hturn ⊢
  refine ⟨trivial, hturn.1, hturn.2, hp, ?_, ?_, hfront⟩
  · rw [Memory.load, hseen, hvalue]
  · rw [Memory.views_load_of_ne _ _ (by decide), hf]

theorem Stands.pop_test {hd t : ℕ} (h : Stands Capacity log s p (.test hd t) f g) :
    StepsTo Capacity orders log s (.consumer 0) (if hd = t then [.pop none] else []) p
      (if hd = t then .loadHead else .read hd) f g := by
  have hturn := h.turn orders (.consumer 0)
  obtain ⟨-, -, hp, hc, hf, hg⟩ := h
  simp only [StepsTo, weakTurn, weakConsumerStep, hc] at hturn ⊢
  split
  · rename_i heq
    rw [if_pos heq] at hturn
    exact ⟨rfl, hturn.1, hturn.2, hp, rfl, hf, hg⟩
  · rename_i hne
    rw [if_neg hne] at hturn
    exact ⟨rfl, hturn.1, hturn.2, hp, rfl, hf, hg⟩

theorem Stands.pop_read {hd : ℕ} (h : Stands Capacity log s p (.read hd) f g) :
    ∃ item, StepsTo Capacity orders log s (.consumer 0) [] p (.store hd item) f g := by
  have hturn := h.turn orders (.consumer 0)
  obtain ⟨-, -, hp, hc, hf, hg⟩ := h
  refine ⟨(s.memory.read .consumer hd).1, ?_⟩
  simp only [StepsTo, weakTurn, weakConsumerStep, hc] at hturn ⊢
  refine ⟨trivial, hturn.1, hturn.2, hp, rfl, ?_, ?_⟩
  · rw [Memory.views_read_of_ne _ (by decide), hf]
  · rw [Memory.front_read, hg]

theorem Stands.pop_store {hd : ℕ} {item : T} (h : Stands Capacity log s p (.store hd item) f g) :
    StepsTo Capacity orders log s (.consumer 0) [.pop (some item)] p .loadHead f g := by
  have hturn := h.turn orders (.consumer 0)
  obtain ⟨-, -, hp, hc, hf, hg⟩ := h
  simp only [StepsTo, weakTurn, weakConsumerStep, hc] at hturn ⊢
  refine ⟨trivial, hturn.1, hturn.2, hp, rfl, ?_, ?_⟩
  · rw [Memory.views_store_of_ne _ _ (by decide), hf]
  · rw [Memory.front_store_of_ne _ _ _ (by decide), hg]

theorem Stands.push_call (h : Stands Capacity log s .idle c f g) (item : T) :
    StepsTo Capacity orders log s (.call item) [] (.loadTail item) c f g := by
  have hturn := h.turn orders (.call item)
  obtain ⟨-, -, hp, hc, hf, hg⟩ := h
  simp only [StepsTo, weakTurn, hp] at hturn ⊢
  exact ⟨trivial, hturn.1, hturn.2, rfl, hc, hf, hg⟩

theorem Stands.push_loadTail {item : T} (h : Stands Capacity log s (.loadTail item) c f g) :
    StepsTo Capacity orders log s (.producer 0) []
      (.loadHead item ((pushed log).length % Capacity)) c f g := by
  have hturn := h.turn orders (.producer 0)
  have hload := h.weak.load_own (orders.load .producer .tail) .tail 0
  have htail := h.weak.inv.rep.tail_eq
  have hview : (s.memory.load (orders.load .producer .tail) .producer .tail 0).2.views .producer =
      s.memory.views .producer := h.authored.views_load (h.weak.own .tail) _ 0
  obtain ⟨-, -, hp, hc, hf, hg⟩ := h
  simp only [StepsTo, weakTurn, weakProducerStep, hp] at hturn ⊢
  refine ⟨trivial, hturn.1, hturn.2, ?_, hc, ?_, ?_⟩
  · exact congrArg (Producer.loadHead item) (hload.trans htail)
  · rw [hview, hf]
  · rw [Memory.views_load_of_ne _ _ (by decide), hg]

theorem Stands.push_loadHead {item : T} {t : ℕ}
    (h : Stands Capacity log s (.loadHead item t) c f g) (age : ℕ) :
    StepsTo Capacity orders log s (.producer age) []
      (.test item t (max f ((popped log).length - age) % Capacity)) c
      (max f ((popped log).length - age)) g := by
  have hturn := h.turn orders (.producer age)
  have hseen : s.memory.seen .producer .head age = max f ((popped log).length - age) := by
    rw [Memory.seen, h.weak.last_head]
    exact congrArg (max · _) h.front_head
  have hvalue := h.weak.values .head _ (h.weak.wf.seen_le .producer .head age)
  have hfront := h.weak.wf.front_load (orders.load .producer .head) .producer .head age
  rw [hseen] at hvalue hfront
  obtain ⟨-, -, hp, hc, hf, hg⟩ := h
  simp only [StepsTo, weakTurn, weakProducerStep, hp] at hturn ⊢
  refine ⟨trivial, hturn.1, hturn.2, ?_, hc, hfront, ?_⟩
  · rw [Memory.load, hseen, hvalue]
  · rw [Memory.views_load_of_ne _ _ (by decide), hg]

theorem Stands.push_full {item : T} {t hd : ℕ}
    (h : Stands Capacity log s (.test item t hd) c f g) (hfull : (t + 1) % Capacity = hd) :
    StepsTo Capacity orders log s (.producer 0) [.push item false] (.failed item) c f g := by
  have hturn := h.turn orders (.producer 0)
  obtain ⟨-, -, hp, hc, hf, hg⟩ := h
  simp only [StepsTo, weakTurn, weakProducerStep, hp, if_pos hfull] at hturn ⊢
  exact ⟨trivial, hturn.1, hturn.2, rfl, hc, hf, hg⟩

end Stands

/-! ## The run -/

/-- The two threads can come to stand so. -/
def Reaches (Capacity : ℕ) (orders : Orders) (buffer : ℕ → T) (log : List (Returned T))
    (p : Producer T) (c : Consumer T) (f g : ℕ) : Prop :=
  ∃ steps, (weakThreads Capacity orders buffer).log steps = log ∧
    Stands Capacity log ((weakThreads Capacity orders buffer).run steps) p c f g

section Run

variable {Capacity : ℕ} {orders : Orders} {buffer : ℕ → T} {log : List (Returned T)}
  {p p' : Producer T} {c c' : Consumer T} {f f' g g' : ℕ}

theorem StepsTo.reaches {steps : List (WeakTurn T)} {t : WeakTurn T} {out : List (Returned T)}
    (h : StepsTo Capacity orders log ((weakThreads Capacity orders buffer).run steps) t out p c f g)
    (hlog : (weakThreads Capacity orders buffer).log steps = log) :
    Reaches Capacity orders buffer (log ++ out) p c f g := by
  obtain ⟨hout, hstands⟩ := h
  refine ⟨steps ++ [t], ?_, ?_⟩
  · rw [Machine.log_concat, hlog]
    exact congrArg _ hout
  · rw [Machine.run_concat]
    exact hstands

theorem Reaches.next (h : Reaches Capacity orders buffer log p c f g) {t : WeakTurn T}
    {out : List (Returned T)}
    (hstep : ∀ s, Stands Capacity log s p c f g → StepsTo Capacity orders log s t out p' c' f' g') :
    Reaches Capacity orders buffer (log ++ out) p' c' f' g' := by
  obtain ⟨steps, hlog, hstands⟩ := h
  exact (hstep _ hstands).reaches hlog

/-- Pushes without pops up to the last slot. -/
theorem log_pushes (hC : 0 < Capacity) (buffer : ℕ → T) (item : T) {k : ℕ}
    (hk : k < Capacity) :
    (calls Capacity buffer).log (List.replicate k (.push item)) =
      List.replicate k (.push item true) := by
  induction k with
  | zero => rfl
  | succ k ih =>
    have hlog := ih (by omega)
    have hholds := holds_calls hC buffer (List.replicate k (.push item))
    rw [List.replicate_succ', List.replicate_succ', Machine.log_concat, hlog]
    rw [hlog] at hholds
    have hpushed : (pushed (List.replicate k (Returned.push item true))).length = k := by
      simp [pushed]
    have hpopped : (popped (List.replicate k (Returned.push item true))).length = 0 := by
      simp [popped]
    rcases push_spec hholds item with ⟨hfull, -⟩ | ⟨-, hpush, -⟩
    · omega
    · rw [show ((calls Capacity buffer).step _ (.push item)).2 = [.push item true] from
        congrArg (fun ok => [Returned.push item ok]) hpush]

/-- The consumer takes no step in a push. -/
theorem schedule_pushes (Capacity : ℕ) (q : SPSCQueue T) (item : T) (k : ℕ) :
    ∀ t ∈ schedule Capacity q (List.replicate k (.push item)), t ≠ Turn.consumer := by
  induction k generalizing q with
  | zero => exact fun t ht => absurd ht List.not_mem_nil
  | succ k ih =>
    intro t ht
    rw [List.replicate_succ, schedule, List.mem_append] at ht
    rcases ht with ht | ht
    · rintro rfl
      rw [turns] at ht
      split at ht <;> simp at ht
    · exact ih _ t ht

/-- A consumer that takes no step learns nothing. -/
theorem views_consumer (Capacity : ℕ) (orders : Orders) (buffer : ℕ → T) {steps : List (Turn T)}
    (hsteps : ∀ t ∈ steps, t ≠ Turn.consumer) :
    ((weakThreads Capacity orders buffer).run (steps.map Turn.fresh)).memory.views .consumer =
      ⊥ := by
  induction steps using List.reverseRecOn with
  | nil => rfl
  | append_singleton steps t ih =>
    have hview := ih fun t ht => hsteps t (List.mem_append_left _ ht)
    rw [List.map_append, List.map_singleton, Machine.run_concat]
    refine Eq.trans ?_ hview
    generalize (weakThreads Capacity orders buffer).run (steps.map Turn.fresh) = s
    show (weakTurn Capacity orders s t.fresh).1.memory.views .consumer = _
    cases t with
    | consumer => exact absurd rfl (hsteps _ (List.mem_append_right _ List.mem_cons_self))
    | call item =>
      rw [Turn.fresh, weakTurn]
      split <;> rfl
    | giveUp =>
      rw [Turn.fresh, weakTurn]
      split <;> rfl
    | producer =>
      rw [Turn.fresh, weakTurn, weakProducerStep]
      cases s.producer with
      | test item t hd =>
        simp only
        split <;> rfl
      | loadTail item => exact Memory.views_load_of_ne _ _ (by decide) _ _
      | loadHead item t => exact Memory.views_load_of_ne _ _ (by decide) _ _
      | write item t => exact Memory.views_write_of_ne _ (by decide) _ _
      | store item t => exact Memory.views_store_of_ne _ _ (by decide) _ _
      | _ => rfl

/-- The ring is full, and the consumer has not taken a step. -/
theorem reaches_full (hC : 0 < Capacity) (orders : Orders) (buffer : ℕ → T) (item : T) :
    Reaches Capacity orders buffer (List.replicate (Capacity - 1) (.push item true)) .idle
      .loadHead 0 0 := by
  have hcalls := bounded_calls hC buffer (List.replicate (Capacity - 1) (.push item))
  have hfresh := run_fresh hC orders buffer
    (schedule Capacity (new buffer) (List.replicate (Capacity - 1) (.push item)))
  have hview := views_consumer Capacity orders buffer
    (schedule_pushes Capacity (new buffer) item (Capacity - 1))
  have hlog := hfresh.2.trans (hcalls.uninterrupted.2.trans (log_pushes hC buffer item
    (by omega : Capacity - 1 < Capacity)))
  have hpresent := hfresh.1.trans hcalls.uninterrupted.1
  have hweak := weakInv_run hC orders buffer
    ((schedule Capacity (new buffer) (List.replicate (Capacity - 1) (.push item))).map Turn.fresh)
  refine ⟨_, hlog, hlog ▸ hweak, authored_run Capacity orders buffer _,
    congrArg Threads.producer hpresent, congrArg Threads.consumer hpresent, ?_, ?_⟩
  · refine Nat.eq_zero_of_le_zero ((hweak.wf.front_le _ _).trans ?_)
    rw [hweak.last_head, hlog]
    simp [popped]
  · rw [hview]
    rfl

/-- The consumer pops one item from the full ring, and then no other: it loads the first
store to `tail`, twice. -/
theorem reaches_empty (hCapacity : 3 ≤ Capacity) (orders : Orders) (buffer : ℕ → T) (item : T) :
    ∃ item', Reaches Capacity orders buffer
      (List.replicate (Capacity - 1) (.push item true) ++ [.pop (some item')] ++ [.pop none])
      .idle .loadHead 0 1 := by
  have h := reaches_full (by omega : 0 < Capacity) orders buffer item
  have hpushed : (pushed (List.replicate (Capacity - 1) (Returned.push item true))).length =
      Capacity - 1 := by simp [pushed]
  have hpopped : (popped (List.replicate (Capacity - 1) (Returned.push item true))).length =
      0 := by simp [popped]
  generalize List.replicate (Capacity - 1) (Returned.push item true) = log at *
  have hmod : 1 % Capacity = 1 := Nat.mod_eq_of_lt (by omega)
  have hold : Capacity - 1 - (Capacity - 2) = 1 := by omega
  -- the first pop
  have h := h.next fun s hs => hs.pop_loadHead
  have h := h.next fun s hs => hs.pop_loadTail (Capacity - 2)
  have h := h.next fun s hs => hs.pop_test
  simp only [List.append_nil, hpushed, hpopped, hold, Nat.zero_max, Nat.zero_mod, hmod,
    if_neg Nat.zero_ne_one] at h
  obtain ⟨steps, hlog, hstands⟩ := h
  obtain ⟨item', hread⟩ := hstands.pop_read
  have h := (hread.reaches hlog).next fun s hs => hs.pop_store
  -- the second pop
  have hpushed' : (pushed (log ++ [.pop (some item')])).length = Capacity - 1 := by
    rw [pushed_pop, hpushed]
  have hpopped' : (popped (log ++ [.pop (some item')])).length = 1 := by
    rw [popped_pop, List.length_append, hpopped, List.length_singleton]
  rw [List.append_nil] at h
  have h := h.next fun s hs => hs.pop_loadHead
  have h := h.next fun s hs => hs.pop_loadTail (Capacity - 2)
  have h := h.next fun s hs => hs.pop_test
  simp only [List.append_nil, hpushed', hpopped', hold, Nat.max_self, hmod, if_pos] at h
  exact ⟨item', h⟩

/-- The push after that loads the initial value of `head`, and fails. -/
theorem reaches_both (hCapacity : 3 ≤ Capacity) (orders : Orders) (buffer : ℕ → T) (item : T) :
    ∃ item', Reaches Capacity orders buffer
      (List.replicate (Capacity - 1) (.push item true) ++ [.pop (some item')] ++ [.pop none] ++
        [.push item false]) (.failed item) .loadHead 0 1 := by
  obtain ⟨item', h⟩ := reaches_empty hCapacity orders buffer item
  refine ⟨item', ?_⟩
  have hpushed : (pushed (List.replicate (Capacity - 1) (Returned.push item true) ++
      [.pop (some item')] ++ [.pop none])).length = Capacity - 1 := by simp [pushed]
  have hpopped : (popped (List.replicate (Capacity - 1) (Returned.push item true) ++
      [.pop (some item')] ++ [.pop none])).length = 1 := by simp [popped]
  generalize List.replicate (Capacity - 1) (Returned.push item true) ++ [.pop (some item')] ++
    [.pop none] = log at *
  have h := h.next fun s hs => hs.push_call item
  have h := h.next fun s hs => hs.push_loadTail
  have h := h.next fun s hs => hs.push_loadHead 1
  simp only [List.append_nil, hpushed, hpopped, Nat.sub_self, Nat.max_self, Nat.zero_mod] at h
  refine h.next fun s hs => hs.push_full ?_
  rw [Nat.mod_add_mod, Nat.sub_add_cancel (by omega), Nat.mod_self]

end Run

/-- **A ring with room for two items** can return to the two threads what no interleaving
returns to them. -/
theorem exists_not_sequential {Capacity : ℕ} (hCapacity : 3 ≤ Capacity) (orders : Orders)
    (buffer : ℕ → T) :
    ∃ steps, ∀ steps', ¬SameResults ((threads Capacity buffer).log steps')
      ((weakThreads Capacity orders buffer).log steps) := by
  obtain ⟨item', steps, hlog, -⟩ := reaches_both hCapacity orders buffer (buffer 0)
  refine ⟨steps, fun steps' ⟨hpush, hpop⟩ => ?_⟩
  have hpush' : pushResults ((threads Capacity buffer).log steps') =
      List.replicate (Capacity - 1) (buffer 0, true) ++ [(buffer 0, false)] := by
    rw [hpush, hlog]
    simp [pushResults]
  have hpop' : popResults ((threads Capacity buffer).log steps') = [some item', none] := by
    rw [hpop, hlog]
    simp [popResults]
  exact not_both_fail hCapacity buffer steps' hpush' hpop'

/-! ## The ring with room for one item -/

variable {Capacity : ℕ} {orders : Orders} {log : List (Returned T)} {s : WeakThreads T}

/-- What a step can return, when `n` items have been pushed and `m` popped.  A push that
fails may have loaded an old `head`. -/
inductive Outcome (Capacity n m : ℕ) : List (Returned T) → Prop
  | silent : Outcome Capacity n m []
  | push (item : T) (hroom : n + 1 < m + Capacity) : Outcome Capacity n m [.push item true]
  | full (item : T) {i : ℕ} (hi : i ≤ m) (hfull : n + 1 = i + Capacity) :
      Outcome Capacity n m [.push item false]
  | pop (item : T) (hlt : m < n) : Outcome Capacity n m [.pop (some item)]
  | empty : Outcome Capacity n m [.pop none]

theorem WeakInv.outcome (h : WeakInv Capacity log s) (t : WeakTurn T) :
    Outcome Capacity (pushed log).length (popped log).length
      (weakTurn Capacity orders s t).2 := by
  have hfront := (h.wf.front_le .producer .head).trans_eq h.last_head
  have hfront' := (h.wf.front_le .consumer .tail).trans_eq h.last_tail
  have hproducer := h.producer
  have hconsumer := h.consumer
  cases t with
  | call item =>
    rw [weakTurn]
    split <;> exact .silent
  | giveUp =>
    rw [weakTurn]
    split <;> exact .silent
  | producer age =>
    rw [weakTurn, weakProducerStep]
    cases hpc : s.producer with
    | test item t hd =>
      rw [hpc] at hproducer
      obtain ⟨i, hi, hroom, hhd⟩ := hproducer
      have hinv : ProducerInv Capacity s.present.queue _ _ s.producer := h.inv.producer
      rw [hpc] at hinv
      have ht := hinv.1.trans h.inv.rep.tail_eq
      simp only
      split
      · rename_i hfull
        have hle := h.inv.rep.le
        have hmod : ((pushed log).length + 1) % Capacity = (i + Capacity) % Capacity := by
          rw [Nat.add_mod_right, ← hhd, ← hfull, ht, Nat.mod_add_mod]
        exact .full item (hi.trans hfront) (Ring.eq_of_mod_eq (by omega) (by omega) hmod)
      · exact .silent
    | store item t =>
      rw [hpc] at hproducer
      have hroom : (pushed log).length + 1 < _ := hproducer
      exact .push item (by omega)
    | _ => exact .silent
  | consumer age =>
    rw [weakTurn, weakConsumerStep]
    cases hpc : s.consumer with
    | test hd t =>
      simp only
      split
      · exact .empty
      · exact .silent
    | store hd item =>
      rw [hpc] at hconsumer
      have hlt : (popped log).length < _ := hconsumer
      exact .pop item (hlt.trans_le hfront')
    | _ => exact .silent

/-- What a step returns, sequential logs can return, if need be in the past. -/
theorem Sequential.step {log' out : List (Returned T)} (hC : 0 < Capacity) (hle : Capacity ≤ 2)
    (h : Sequential Capacity log') (hsame : SameResults log' log)
    (hout : Outcome Capacity (pushed log).length (popped log).length out)
    (hfifo : popped (log ++ out) <+: pushed (log ++ out)) :
    ∃ log'', Sequential Capacity log'' ∧ SameResults log'' (log ++ out) := by
  obtain ⟨hbelow, habove⟩ := h.bounds hC
  rw [← hsame.pushed, ← hsame.popped] at hout
  cases hout with
  | silent => exact ⟨log', h, by rwa [List.append_nil]⟩
  | push item hroom => exact ⟨_, .push item h hroom, hsame.append _⟩
  | @full item i hi hfull =>
    rcases hi.eq_or_lt with rfl | hlt
    · exact ⟨_, .full item h hfull, hsame.append _⟩
    · obtain rfl : Capacity = 2 := by omega
      obtain ⟨log'', h', hsame'⟩ := h.exists_full item (by omega) (by omega)
      exact ⟨log'', h', hsame'.trans (hsame.append _)⟩
  | pop item hlt =>
    refine ⟨_, .pop h ?_, hsame.append _⟩
    rw [pushed_pop, popped_pop, ← hsame.pushed, ← hsame.popped] at hfifo
    obtain ⟨rest, hrest⟩ := hfifo
    rw [← hrest, List.append_assoc, List.getElem?_append_right (le_refl _), Nat.sub_self]
    rfl
  | empty =>
    rcases hbelow.eq_or_lt with heq | hlt
    · exact ⟨_, .empty h heq.symm, hsame.append _⟩
    · obtain rfl : Capacity = 2 := by omega
      obtain ⟨log'', h', hsame'⟩ := h.exists_empty (by omega)
      exact ⟨log'', h', hsame'.trans (hsame.append _)⟩

/-- **A ring with room for one item** returns to the two threads what an interleaving returns
to them, whatever old values its loads return. -/
theorem exists_sequential (hC : 0 < Capacity) (hle : Capacity ≤ 2) (orders : Orders)
    (buffer : ℕ → T) (steps : List (WeakTurn T)) :
    ∃ log, Sequential Capacity log ∧
      SameResults log ((weakThreads Capacity orders buffer).log steps) := by
  induction steps using List.reverseRecOn with
  | nil => exact ⟨[], .nil, rfl, rfl⟩
  | append_singleton steps t ih =>
    obtain ⟨log, h, hsame⟩ := ih
    have hweak := weakInv_run hC orders buffer steps
    rw [Machine.log_concat]
    exact h.step hC hle hsame (hweak.outcome t) (hweak.turn t).inv.fifo

/-- **Sequential consistency.**  Whichever accesses acquire and release, every run returns to
the two threads what some interleaving returns to them if and only if the ring has room for
one item at most.  In a larger one a push can fail and a pop can fail, neither thread having
seen the last store of the other one. -/
theorem sequential_iff {Capacity : ℕ} (hC : 0 < Capacity) (orders : Orders) (buffer : ℕ → T) :
    (∀ steps, ∃ steps', SameResults ((threads Capacity buffer).log steps')
      ((weakThreads Capacity orders buffer).log steps)) ↔ Capacity ≤ 2 := by
  constructor
  · intro h
    by_contra hlt
    obtain ⟨steps, hsteps⟩ := exists_not_sequential (by omega : 3 ≤ Capacity) orders buffer
    obtain ⟨steps', hsame⟩ := h steps
    exact hsteps steps' hsame
  · intro hle steps
    obtain ⟨log, h, hsame⟩ := exists_sequential hC hle orders buffer steps
    obtain ⟨cs, rfl⟩ := h.exists_calls hC buffer
    exact ⟨_, (bounded_calls hC buffer cs).uninterrupted.2 ▸ hsame⟩

/-- A ring of two slots, and one of three. -/
theorem sequential_iff_three :
    (∀ steps, ∃ steps', SameResults ((threads 2 (fun _ => 0)).log steps')
      ((weakThreads 2 .source (fun _ => 0)).log steps)) ∧
    ¬∀ steps, ∃ steps', SameResults ((threads 3 (fun _ => 0)).log steps')
      ((weakThreads 3 .source (fun _ => 0)).log steps) :=
  ⟨(sequential_iff (by decide) .source _).mpr (by decide),
    fun h => absurd ((sequential_iff (by decide) .source _).mp h) (by decide)⟩

end SPSCQueue
end MatchingEngine
