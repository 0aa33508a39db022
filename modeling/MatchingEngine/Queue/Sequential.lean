import MatchingEngine.Queue.Linearization
import Mathlib.Data.List.ReduceOption

/-!
# What the two threads can tell apart

Each thread sees what its own calls return, and not how they lie among those of the other
one.

* `SameResults`: the logs that no thread tells apart.
* `Sequential`: the logs of whole calls.
* `Sequential.exists_full`, `Sequential.exists_empty`: in a ring with room for one item a
  call may fail as one in the past would have: nobody can tell.
-/

namespace MatchingEngine

variable {T : Type}

namespace SPSCQueue

variable {Capacity : ℕ} {log log' : List (Returned T)}

/-! ## Results -/

theorem pushed_eq (log : List (Returned T)) :
    pushed log = (pushResults log).filterMap fun r => if r.2 then some r.1 else none := by
  induction log with
  | nil => rfl
  | cons r log ih =>
    rcases r with ⟨item, ok⟩ | r
    · cases ok <;> simpa [pushed, pushResults] using ih
    · simpa [pushed, pushResults] using ih

theorem popped_eq (log : List (Returned T)) : popped log = (popResults log).reduceOption := by
  induction log with
  | nil => rfl
  | cons r log ih =>
    rcases r with ⟨item, ok⟩ | r
    · simpa [popped, popResults] using ih
    · cases r <;> simpa [popped, popResults, List.reduceOption] using ih

/-- Logs that no thread tells apart. -/
structure SameResults (log log' : List (Returned T)) : Prop where
  pushes : pushResults log = pushResults log'
  pops : popResults log = popResults log'

theorem SameResults.pushed (h : SameResults log log') :
    MatchingEngine.pushed log = MatchingEngine.pushed log' := by
  rw [pushed_eq, pushed_eq, h.pushes]

theorem SameResults.popped (h : SameResults log log') :
    MatchingEngine.popped log = MatchingEngine.popped log' := by
  rw [popped_eq, popped_eq, h.pops]

theorem SameResults.append (h : SameResults log log') (out : List (Returned T)) :
    SameResults (log ++ out) (log' ++ out) where
  pushes := by rw [pushResults_append, pushResults_append, h.pushes]
  pops := by rw [popResults_append, popResults_append, h.pops]

/-- The two threads do not see which of their calls returned first. -/
theorem sameResults_swap (log : List (Returned T)) (item : T) (ok : Bool) (r : Option T) :
    SameResults (log ++ [.push item ok] ++ [.pop r]) (log ++ [.pop r] ++ [.push item ok]) where
  pushes := by simp [pushResults]
  pops := by simp [popResults]

theorem SameResults.symm (h : SameResults log log') : SameResults log' log :=
  ⟨h.pushes.symm, h.pops.symm⟩

theorem SameResults.trans {log'' : List (Returned T)} (h : SameResults log log')
    (h' : SameResults log' log'') : SameResults log log'' :=
  ⟨h.pushes.trans h'.pushes, h.pops.trans h'.pops⟩

/-! ## Whole calls -/

theorem pushed_push (log : List (Returned T)) (item : T) :
    pushed (log ++ [.push item true]) = pushed log ++ [item] := pushed_append _ _

theorem pushed_full (log : List (Returned T)) (item : T) :
    pushed (log ++ [.push item false]) = pushed log :=
  (pushed_append _ _).trans (List.append_nil _)

theorem pushed_pop (log : List (Returned T)) (r : Option T) :
    pushed (log ++ [.pop r]) = pushed log :=
  (pushed_append _ _).trans (List.append_nil _)

theorem popped_push (log : List (Returned T)) (item : T) (ok : Bool) :
    popped (log ++ [.push item ok]) = popped log :=
  (popped_append _ _).trans (List.append_nil _)

theorem popped_pop (log : List (Returned T)) (item : T) :
    popped (log ++ [.pop (some item)]) = popped log ++ [item] := popped_append _ _

theorem popped_empty (log : List (Returned T)) :
    popped (log ++ [.pop none]) = popped log :=
  (popped_append _ _).trans (List.append_nil _)

/-- The logs of whole calls, in terms of what has been pushed and popped. -/
inductive Sequential (Capacity : ℕ) : List (Returned T) → Prop
  | nil : Sequential Capacity []
  | push {log : List (Returned T)} (item : T) (h : Sequential Capacity log)
      (hroom : (pushed log).length + 1 < (popped log).length + Capacity) :
      Sequential Capacity (log ++ [.push item true])
  | full {log : List (Returned T)} (item : T) (h : Sequential Capacity log)
      (hfull : (pushed log).length + 1 = (popped log).length + Capacity) :
      Sequential Capacity (log ++ [.push item false])
  | pop {log : List (Returned T)} {item : T} (h : Sequential Capacity log)
      (hitem : (pushed log)[(popped log).length]? = some item) :
      Sequential Capacity (log ++ [.pop (some item)])
  | empty {log : List (Returned T)} (h : Sequential Capacity log)
      (hempty : (pushed log).length = (popped log).length) :
      Sequential Capacity (log ++ [.pop none])

/-- **Sequential logs** are returned by calls that follow one another. -/
theorem Sequential.exists_calls (hC : 0 < Capacity) (buffer : ℕ → T)
    (h : Sequential Capacity log) : ∃ cs, (calls Capacity buffer).log cs = log := by
  induction h with
  | nil => exact ⟨[], rfl⟩
  | push item _ hroom ih =>
    obtain ⟨cs, rfl⟩ := ih
    refine ⟨cs ++ [.push item], ?_⟩
    rcases push_spec (holds_calls hC buffer cs) item with ⟨heq, -⟩ | ⟨-, hok, -⟩
    · omega
    · rw [Machine.log_concat]
      exact congrArg (fun ok => _ ++ [Returned.push item ok]) hok
  | full item _ hfull ih =>
    obtain ⟨cs, rfl⟩ := ih
    refine ⟨cs ++ [.push item], ?_⟩
    rcases push_spec (holds_calls hC buffer cs) item with ⟨-, hpush⟩ | ⟨hlt, -, -⟩
    · rw [Machine.log_concat]
      exact congrArg (fun r => _ ++ [Returned.push item r.2]) hpush
    · omega
  | @pop _ item _ hitem ih =>
    obtain ⟨cs, rfl⟩ := ih
    refine ⟨cs ++ [.pop], ?_⟩
    rcases pop_spec (holds_calls hC buffer cs) with ⟨heq, -⟩ | ⟨-, item', hitem', hpop, -⟩
    · rw [heq, List.getElem?_eq_none (le_refl _)] at hitem
      cases hitem
    · obtain rfl := Option.some_inj.mp (hitem.symm.trans hitem')
      rw [Machine.log_concat]
      exact congrArg (fun r => _ ++ [Returned.pop r]) hpop
  | empty _ hempty ih =>
    obtain ⟨cs, rfl⟩ := ih
    refine ⟨cs ++ [.pop], ?_⟩
    rcases pop_spec (holds_calls hC buffer cs) with ⟨-, hpop⟩ | ⟨hlt, -, -, -, -⟩
    · rw [Machine.log_concat]
      exact congrArg (fun r => _ ++ [Returned.pop r.2]) hpop
    · omega

theorem Sequential.bounds (hC : 0 < Capacity) (h : Sequential Capacity log) :
    (popped log).length ≤ (pushed log).length ∧
      (pushed log).length < (popped log).length + Capacity := by
  induction h with
  | nil => exact ⟨le_refl _, hC.trans_le (Nat.le_add_left _ _)⟩
  | push item _ hroom ih =>
    rw [pushed_push, popped_push, List.length_append, List.length_singleton]
    omega
  | full item _ hfull ih =>
    rw [pushed_full, popped_push]
    exact ih
  | pop _ hitem ih =>
    have hlt := (List.getElem?_eq_some_iff.mp hitem).1
    rw [pushed_pop, popped_pop, List.length_append, List.length_singleton]
    omega
  | empty _ hempty ih =>
    rw [pushed_pop, popped_empty]
    exact ih

/-- **A push that failed in the past**, in a ring with room for one item. -/
theorem Sequential.exists_full (h : Sequential 2 log) (item : T)
    (hn : 0 < (pushed log).length) (hm : (pushed log).length = (popped log).length) :
    ∃ log', Sequential 2 log' ∧ SameResults log' (log ++ [.push item false]) := by
  induction h with
  | nil => exact absurd hn (lt_irrefl 0)
  | push x h _ _ =>
    have hle := (h.bounds Nat.two_pos).1
    rw [pushed_push, popped_push, List.length_append, List.length_singleton] at hm
    omega
  | full x _ hfull _ =>
    rw [pushed_full, popped_push] at hm
    omega
  | @pop log x h hitem _ =>
    rw [pushed_pop, popped_pop, List.length_append, List.length_singleton] at hm
    refine ⟨log ++ [.push item false] ++ [.pop (some x)], .pop (.full item h ?_) ?_,
      sameResults_swap log item false (some x)⟩
    · rw [hm]
    · rwa [pushed_full, popped_push]
  | @empty log _ hempty ih =>
    rw [pushed_pop] at hn
    obtain ⟨log', h', hsame⟩ := ih hn hempty
    refine ⟨log' ++ [.pop none], .empty h' ?_,
      (hsame.append _).trans (sameResults_swap log item false none)⟩
    rw [hsame.pushed, hsame.popped, pushed_full, popped_push, hempty]

/-- **A pop that failed in the past**, in a ring with room for one item. -/
theorem Sequential.exists_empty (h : Sequential 2 log)
    (hm : (pushed log).length = (popped log).length + 1) :
    ∃ log', Sequential 2 log' ∧ SameResults log' (log ++ [.pop none]) := by
  induction h with
  | nil => cases hm
  | @push log x h hroom _ =>
    rw [pushed_push, popped_push, List.length_append, List.length_singleton] at hm
    refine ⟨log ++ [.pop none] ++ [.push x true], .push x (.empty h (Nat.succ_inj.mp hm)) ?_,
      (sameResults_swap log x true none).symm⟩
    rwa [pushed_pop, popped_empty]
  | @full log x _ hfull ih =>
    rw [pushed_full, popped_push] at hm
    obtain ⟨log', h', hsame⟩ := ih hm
    refine ⟨log' ++ [.push x false], .full x h' ?_,
      (hsame.append _).trans (sameResults_swap log x false none).symm⟩
    rw [hsame.pushed, hsame.popped, pushed_pop, popped_empty, hfull]
  | pop h _ _ =>
    have hlt := (h.bounds Nat.two_pos).2
    rw [pushed_pop, popped_pop, List.length_append, List.length_singleton] at hm
    omega
  | empty _ hempty _ =>
    rw [pushed_pop, popped_empty] at hm
    omega

end SPSCQueue
end MatchingEngine
