import MatchingEngine.Queue.SPSCQueue
import Mathlib.Logic.Function.Basic

/-!
# The locked queue under its lock

`push` and `pop` of `mutex_queue.h`, one step of one thread at a time, for any number of
threads: a thread waits for the mutex, works on the queue, and leaves the mutex when the
call returns.

* `Guarded` is the invariant: the thread that works on the queue owns the mutex, and it
  finds the queue as it has left it.
* `mutex_linearizable`: the calls take effect at once, in the order of the critical
  sections.
-/

namespace MatchingEngine

variable {T : Type}

namespace MutexQueue

/-! ## One step of one thread -/

/-- Where a thread stands in a call: it waits in the constructor of `lock`, or it owns
the mutex, up to the return of what it has found. -/
inductive Thread (T : Type) where
  | idle
  | lock (c : Call T)
  | enter (c : Call T)
  | front
  | popFront (item : T)
  | unlock (r : Returned T)

/-- The queue, the mutex with the thread that owns it, and the threads. -/
structure Threads (T : Type) where
  queue : MutexQueue T
  owner : Option ℕ
  threads : ℕ → Thread T

/-- Who takes the next step.  `call` starts a call of a thread that is idle. -/
inductive Turn (T : Type) where
  | call (i : ℕ) (c : Call T)
  | step (i : ℕ)

/-- Thread `i` goes on to `t`. -/
def Threads.goto (s : Threads T) (i : ℕ) (t : Thread T) : Threads T :=
  { s with threads := Function.update s.threads i t }

theorem Threads.goto_self (s : Threads T) (i : ℕ) (t : Thread T) : (s.goto i t).threads i = t :=
  Function.update_self _ _ _

theorem Threads.goto_of_ne {i j : ℕ} (hj : j ≠ i) (s : Threads T) (t : Thread T) :
    (s.goto i t).threads j = s.threads j :=
  Function.update_of_ne hj _ _

/-- A step of a thread in a call. -/
def threadStep (s : Threads T) (i : ℕ) : Threads T × List (ℕ × Returned T) :=
  match s.threads i with
  | .idle => (s, [])
  | .lock c =>
    match s.owner with
    | none => ({ s with owner := some i }.goto i (.enter c), [])
    | some _ => (s, [])
  | .enter (.push item) =>
    ({ s with queue := ⟨s.queue.queue ++ [item]⟩ }.goto i (.unlock (.push item true)), [])
  | .enter .pop =>
    if s.queue.queue.isEmpty then (s.goto i (.unlock (.pop none)), []) else (s.goto i .front, [])
  | .front =>
    match s.queue.queue with
    | [] => (s, [])  -- `front` of an empty queue, which is not defined
    | item :: _ => (s.goto i (.popFront item), [])
  | .popFront item =>
    ({ s with queue := ⟨s.queue.queue.tail⟩ }.goto i (.unlock (.pop (some item))), [])
  | .unlock r => ({ s with owner := none }.goto i .idle, [(i, r)])

/-- One step of the threads. -/
def turn (s : Threads T) : Turn T → Threads T × List (ℕ × Returned T)
  | .call i c =>
    match s.threads i with
    | .idle => (s.goto i (.lock c), [])
    | _ => (s, [])
  | .step i => threadStep s i

/-- The threads as a machine that reads a schedule. -/
def threads : Machine (Threads T) (Turn T) (ℕ × Returned T) :=
  ⟨⟨new, none, fun _ => .idle⟩, turn⟩

/-- The queue as a machine that reads whole calls, with the thread that makes them. -/
def callsOf : Machine (MutexQueue T) (ℕ × Call T) (ℕ × Returned T) :=
  ⟨new, fun q c => ((q.call c.2).1, (q.call c.2).2.map fun r => (c.1, r))⟩

/-- What the calls of a thread have returned. -/
def resultsOf (i : ℕ) (log : List (ℕ × Returned T)) : List (Returned T) :=
  log.filterMap fun r => if r.1 = i then some r.2 else none

theorem resultsOf_append (i : ℕ) (log log' : List (ℕ × Returned T)) :
    resultsOf i (log ++ log') = resultsOf i log ++ resultsOf i log' :=
  List.filterMap_append

/-! ## Where calls take effect -/

/-- The calls that take effect at a step. -/
def effects (s : Threads T) : Turn T → List (ℕ × Call T)
  | .call .. => []
  | .step i =>
    match s.threads i with
    | .enter (.push item) => [(i, .push item)]
    | .enter .pop => if s.queue.queue.isEmpty then [(i, .pop)] else []
    | .popFront _ => [(i, .pop)]
    | _ => []

/-- What a thread is about to return. -/
def Thread.due : Thread T → List (Returned T)
  | .unlock r => [r]
  | _ => []

/-- A thread that is in its critical section. -/
def Thread.Critical : Thread T → Prop
  | .idle => False
  | .lock _ => False
  | _ => True

/-- What a thread knows of the queue. -/
def Thread.Knows (queue : List T) : Thread T → Prop
  | .front => queue ≠ []
  | .popFront item => queue.head? = some item
  | _ => True

/-- The invariant: a thread in its critical section owns the mutex, so it is the only
one, and what it knows of the queue is true. -/
structure Guarded (s : Threads T) : Prop where
  owner : ∀ i, (s.threads i).Critical → s.owner = some i
  knows : ∀ i, (s.threads i).Knows s.queue.queue

/-- The calls that have taken effect have returned, or are about to, and have left the
queue as it is. -/
structure Effected (log : List (ℕ × Returned T)) (s : Threads T)
    (log' : List (ℕ × Returned T)) (q : MutexQueue T) : Prop where
  guarded : Guarded s
  queue : q = s.queue
  results : ∀ i, resultsOf i log' = resultsOf i log ++ (s.threads i).due

theorem effected_init : Effected [] (threads (T := T)).init [] callsOf.init where
  guarded := ⟨fun _ h => h.elim, fun _ => trivial⟩
  queue := rfl
  results _ := rfl

theorem Thread.knows_of_not_critical {t : Thread T} (h : ¬ t.Critical) (queue : List T) :
    t.Knows queue := by
  cases t with
  | front => exact absurd trivial h
  | popFront item => exact absurd trivial h
  | _ => trivial

section Step

variable {log log' : List (ℕ × Returned T)} {s : Threads T} {q : MutexQueue T} {i : ℕ}

/-- A step of thread `i`, by which the others do not lose what they have. -/
theorem Effected.goto (h : Effected log s log' q) {t : Thread T} {queue : MutexQueue T}
    {owner : Option ℕ} {out fx : List (ℕ × Returned T)}
    (hothers : ∀ j, j ≠ i → (s.threads j).Critical →
      owner = some j ∧ (s.threads j).Knows queue.queue)
    (howner : t.Critical → owner = some i) (hknows : t.Knows queue.queue)
    (hlogs : ∀ j, j ≠ i → resultsOf j fx = [] ∧ resultsOf j out = [])
    (hdue : (s.threads i).due ++ resultsOf i fx = resultsOf i out ++ t.due) :
    Effected (log ++ out) ((⟨queue, owner, s.threads⟩ : Threads T).goto i t) (log' ++ fx)
      queue := by
  have hself := Threads.goto_self (⟨queue, owner, s.threads⟩ : Threads T) i t
  have hne := fun j (hj : j ≠ i) => Threads.goto_of_ne hj (⟨queue, owner, s.threads⟩ : Threads T) t
  refine ⟨⟨fun j => ?_, fun j => ?_⟩, rfl, fun j => ?_⟩
  · by_cases hj : j = i
    · rw [hj, hself]
      exact howner
    · rw [hne j hj]
      exact fun hcritical => (hothers j hj hcritical).1
  · by_cases hj : j = i
    · rw [hj, hself]
      exact hknows
    · rw [hne j hj]
      by_cases hcritical : (s.threads j).Critical
      · exact (hothers j hj hcritical).2
      · exact Thread.knows_of_not_critical hcritical _
  · rw [resultsOf_append, resultsOf_append, h.results j, List.append_assoc, List.append_assoc]
    by_cases hj : j = i
    · rw [hj, hself, hdue]
    · rw [hne j hj, (hlogs j hj).1, (hlogs j hj).2, List.append_nil, List.nil_append]

/-- A thread in its critical section is alone. -/
theorem Guarded.alone (h : Guarded s) (hi : (s.threads i).Critical) {j : ℕ} (hj : j ≠ i) :
    ¬ (s.threads j).Critical :=
  fun hcritical => hj (Option.some_inj.mp ((h.owner j hcritical).symm.trans (h.owner i hi)))

/-- A step of the thread that owns the mutex. -/
theorem Effected.inside (h : Effected log s log' q) (hi : (s.threads i).Critical) {t : Thread T}
    {queue : MutexQueue T} {fx : List (ℕ × Returned T)} (hknows : t.Knows queue.queue)
    (hlogs : ∀ j, j ≠ i → resultsOf j fx = [])
    (hdue : (s.threads i).due ++ resultsOf i fx = t.due) :
    Effected (log ++ []) ({ s with queue := queue }.goto i t) (log' ++ fx) queue :=
  h.goto (fun _ hj hcritical => absurd hcritical (h.guarded.alone hi hj))
    (fun _ => h.guarded.owner i hi) hknows (fun j hj => ⟨hlogs j hj, rfl⟩) hdue

/-- The results of one thread are not those of another. -/
theorem resultsOf_singleton {j : ℕ} (hj : j ≠ i) (r : Returned T) : resultsOf j [(i, r)] = [] := by
  rw [resultsOf, List.filterMap_cons, if_neg (Ne.symm hj)]
  rfl

theorem resultsOf_self (r : Returned T) : resultsOf i [(i, r)] = [r] := by
  rw [resultsOf, List.filterMap_cons, if_pos rfl]
  rfl

/-- **One step of one thread** is matched by the call that takes effect at it. -/
theorem Effected.threadStep (h : Effected log s log' q) :
    Effected (log ++ (threadStep s i).2) (threadStep s i).1
      (log' ++ callsOf.logFrom q (effects s (.step i)))
      (callsOf.runFrom q (effects s (.step i))) := by
  have hsame : Effected (log ++ []) s (log' ++ []) q := by
    rw [List.append_nil, List.append_nil]
    exact h
  have hqueue := h.queue
  subst hqueue
  have hknows := h.guarded.knows i
  rw [MutexQueue.threadStep, effects]
  cases hpc : s.threads i with
  | idle => exact hsame
  | lock c =>
    simp only
    split
    · rename_i hfree
      refine h.goto (fun j _ hcritical => ?_) (fun _ => rfl) ?_ (fun j _ => ⟨rfl, rfl⟩) ?_
      · exact nomatch hfree.symm.trans (h.guarded.owner j hcritical)
      · trivial
      · rw [hpc]
        rfl
    · exact hsame
  | enter c =>
    have hcritical : (s.threads i).Critical := by
      rw [hpc]
      trivial
    cases c with
    | push item =>
      refine h.inside hcritical trivial (fun j hj => resultsOf_singleton hj _) ?_
      rw [hpc]
      exact resultsOf_self _
    | pop =>
      simp only
      by_cases hempty : s.queue.queue.isEmpty
      · have hpop : s.queue.pop = (s.queue, none) := by
          rw [MutexQueue.pop, List.isEmpty_iff.mp hempty]
        rw [if_pos hempty, if_pos hempty]
        rw [Machine.logFrom_cons, Machine.runFrom_cons,
          show callsOf.step s.queue (i, .pop) = (s.queue, [(i, .pop none)]) from
            congrArg (fun r => (r.1, [(i, Returned.pop r.2)])) hpop]
        refine h.inside hcritical trivial (fun j hj => resultsOf_singleton hj _) ?_
        rw [hpc]
        exact resultsOf_self _
      · rw [if_neg hempty, if_neg hempty]
        refine h.inside hcritical (fun hnil => hempty (List.isEmpty_iff.mpr hnil))
          (fun _ _ => rfl) ?_
        rw [hpc]
        rfl
  | front =>
    have hcritical : (s.threads i).Critical := by
      rw [hpc]
      trivial
    rw [hpc] at hknows
    cases hitems : s.queue.queue with
    | nil => exact absurd hitems hknows
    | cons item rest =>
      refine h.inside hcritical (congrArg List.head? hitems) (fun _ _ => rfl) ?_
      rw [hpc]
      rfl
  | popFront item =>
    have hcritical : (s.threads i).Critical := by
      rw [hpc]
      trivial
    rw [hpc] at hknows
    obtain ⟨rest, hitems⟩ := List.head?_eq_some_iff.mp hknows
    have hpop : s.queue.pop = (⟨s.queue.queue.tail⟩, some item) := by
      rw [MutexQueue.pop, hitems]
      rfl
    rw [Machine.logFrom_cons, Machine.runFrom_cons,
      show callsOf.step s.queue (i, .pop) = (⟨s.queue.queue.tail⟩, [(i, .pop (some item))]) from
        congrArg (fun r => (r.1, [(i, Returned.pop r.2)])) hpop]
    refine h.inside hcritical trivial (fun j hj => resultsOf_singleton hj _) ?_
    rw [hpc]
    exact resultsOf_self _
  | unlock r =>
    have hcritical : (s.threads i).Critical := by
      rw [hpc]
      trivial
    refine h.goto (fun j hj hc => absurd hc (h.guarded.alone hcritical hj)) (fun hc => hc.elim)
      ?_ (fun j hj => ⟨rfl, resultsOf_singleton hj _⟩) ?_
    · trivial
    · rw [hpc, resultsOf_self]
      rfl

/-- **A step of somebody**. -/
theorem Effected.turn (h : Effected log s log' q) (t : Turn T) :
    Effected (log ++ (turn s t).2) (turn s t).1 (log' ++ callsOf.logFrom q (effects s t))
      (callsOf.runFrom q (effects s t)) := by
  cases t with
  | step i => exact h.threadStep
  | call i c =>
    have hqueue := h.queue
    subst hqueue
    rw [MutexQueue.turn]
    cases hpc : s.threads i with
    | idle =>
      refine h.goto (fun j _ hcritical => ?_) (fun hc => hc.elim) ?_ (fun j _ => ⟨rfl, rfl⟩) ?_
      · exact ⟨h.guarded.owner j hcritical, h.guarded.knows j⟩
      · trivial
      · rw [hpc]
        rfl
    | _ =>
      simp only [effects, Machine.logFrom_nil, Machine.runFrom_nil, List.append_nil]
      exact h

end Step

/-! ## Every schedule -/

/-- The calls that take effect along a schedule. -/
def linearization (steps : List (Turn T)) : List (ℕ × Call T) := threads.points effects steps

theorem effected_threads (steps : List (Turn T)) :
    Effected (threads.log steps) (threads.run steps) (callsOf.log (linearization steps))
      (callsOf.run (linearization steps)) :=
  Machine.points_induction (R := Effected) effected_init (fun _ _ _ _ t h => h.turn t) steps

/-- **The locked queue is linearizable**, for any number of producers and consumers.
Along every interleaving no two threads work on the queue, none takes the front of an
empty one, and the calls in the order of their critical sections, performed at once,
leave the queue as it is and return to each thread what it has been returned, or is about
to be. -/
theorem mutex_linearizable (steps more : List (Turn T)) :
    (∀ i j, ((threads.run steps).threads i).Critical → ((threads.run steps).threads j).Critical →
        i = j) ∧
      (∀ i, (threads.run steps).threads i = .front → (threads.run steps).queue.queue ≠ []) ∧
      (threads.run steps).queue = callsOf.run (linearization steps) ∧
      (∀ i, resultsOf i (callsOf.log (linearization steps)) =
        resultsOf i (threads.log steps) ++ ((threads.run steps).threads i).due) ∧
      linearization steps <+: linearization (steps ++ more) := by
  have h := effected_threads steps
  refine ⟨fun i j hi hj => ?_, fun i hi => ?_, h.queue.symm, h.results, _,
    (threads.points_append _ steps more).symm⟩
  · by_contra hne
    exact h.guarded.alone hj hne hi
  · have hknows := h.guarded.knows i
    rw [hi] at hknows
    exact hknows

end MutexQueue
end MatchingEngine
