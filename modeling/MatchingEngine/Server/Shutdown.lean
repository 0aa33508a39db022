import MatchingEngine.Engine.Dispatch
import MatchingEngine.Queue.Fifo
import Mathlib.Algebra.Ring.Int.Defs
import Mathlib.Data.Int.Order.Basic

/-!
# The two threads of the server and their shutdown

`main` of `server.cpp` runs the event loop and parses lines into commands; the
matching thread pops them and dispatches them.  They share the ring and the flag
`running`, which the signal handler clears at any moment and `main` clears at the
end.  `server` is the machine that reads a schedule of their steps: a call of
`push` or `pop` is one step, as is a test of the flag.

`main` leaves its loop, pushes one `STATS` command without trying again when the
ring is full, clears the flag and joins.  The matching thread leaves its loop as
soon as it finds the flag cleared.

* `Inv`: what has been dispatched is what has been popped, in the order pushed.
* `nothing_lost_iff`: every run loses nothing exactly when the matching thread
  only leaves its loop with an empty ring and after that last push has
  succeeded.  Nothing in the program makes it wait for that.
-/

namespace MatchingEngine

variable {P : Type}

/-! ## The two threads -/

/-- Where `main` stands: at the test of `running`, in `epoll_wait`, pushing the
commands of the lines that have arrived, and in the shutdown sequence. -/
inductive Network (P : Type) where
  | test
  | wait
  | push (cmd : Command P) (rest : List (Command P))
  | finalPush
  | storeRunning
  | join
  | returned

/-- Where `matchingEngineThread` stands. -/
inductive Matching (P : Type) where
  | test
  | pop
  | dispatch (cmd : Command P)
  | returned

/-- The shared state, the exchange of the matching thread, and the two threads. -/
structure Server (P : Type) [LinearOrder P] where
  running : Bool
  queue : SPSCQueue (Command P)
  exchange : Exchange P
  network : Network P
  matching : Matching P

/-- Who takes the next step.  `arrive` ends an `epoll_wait`, with the commands of
the lines it completes, which may be none; `epollError` ends it with an error. -/
inductive Action (P : Type) where
  | signal
  | network
  | arrive (cmds : List (Command P))
  | epollError
  | matching

/-- What can be observed: a push of a parsed command has returned `true`, the
final push has returned, a command has been dispatched. -/
inductive Output (P : Type) where
  | pushed (cmd : Command P)
  | final (cmd : Command P) (ok : Bool)
  | dispatched (cmd : Command P)
  deriving DecidableEq

/-- The commands whose push has returned `true`. -/
def sent (log : List (Output P)) : List (Command P) :=
  log.filterMap fun o => match o with
    | .pushed cmd => some cmd
    | .final cmd true => some cmd
    | _ => none

/-- The commands that have been dispatched. -/
def handled (log : List (Output P)) : List (Command P) :=
  log.filterMap fun o => match o with
    | .dispatched cmd => some cmd
    | _ => none

theorem sent_append (log log' : List (Output P)) : sent (log ++ log') = sent log ++ sent log' :=
  List.filterMap_append

theorem handled_append (log log' : List (Output P)) :
    handled (log ++ log') = handled log ++ handled log' :=
  List.filterMap_append

/-- A successful final push sends its command. -/
theorem mem_sent_of_final {log : List (Output P)} {cmd : Command P}
    (h : .final cmd true ∈ log) : cmd ∈ sent log :=
  List.mem_filterMap.mpr ⟨.final cmd true, h, rfl⟩

/-- The command the matching thread has popped and not yet dispatched. -/
def Matching.inHand : Matching P → List (Command P)
  | .test => []
  | .pop => []
  | .dispatch cmd => [cmd]
  | .returned => []

/-- `main` has made its final push. -/
def Network.Closed : Network P → Prop
  | .storeRunning | .join | .returned => True
  | _ => False

/-- The command `main` builds for its final push: the type and two clock readings
over memory that is not initialised. -/
def shutdownCmd (memory : Command P) (recvTimestamp pushTimestamp : ℤ) : Command P :=
  { memory with type := .stats, tsNetworkRecv := recvTimestamp, tsQueuePush := pushTimestamp }

variable [LinearOrder P]

namespace Server

/-- The loop over the lines that have arrived. -/
def nextLine : List (Command P) → Network P
  | [] => .test
  | cmd :: rest => .push cmd rest

/-- A step of `main`. -/
def networkStep (final : Command P) (s : Server P) : Server P × List (Output P) :=
  match s.network with
  | .test =>
    if s.running then ({ s with network := .wait }, [])
    else ({ s with network := .finalPush }, [])
  | .wait => (s, [])
  | .push cmd rest =>
    -- `while (!spscQueue.push(cmd))`
    if (s.queue.push 1024 cmd).2 then
      ({ s with queue := (s.queue.push 1024 cmd).1, network := nextLine rest }, [.pushed cmd])
    else (s, [])
  | .finalPush =>
    ({ s with queue := (s.queue.push 1024 final).1, network := .storeRunning },
      [.final final (s.queue.push 1024 final).2])
  | .storeRunning => ({ s with running := false, network := .join }, [])
  | .join =>
    match s.matching with
    | .returned => ({ s with network := .returned }, [])
    | _ => (s, [])
  | .returned => (s, [])

/-- A step of `matchingEngineThread`. -/
def matchingStep (s : Server P) : Server P × List (Output P) :=
  match s.matching with
  | .test =>
    if s.running then ({ s with matching := .pop }, [])
    else ({ s with matching := .returned }, [])
  | .pop =>
    match (s.queue.pop 1024).2 with
    | some cmd => ({ s with queue := (s.queue.pop 1024).1, matching := .dispatch cmd }, [])
    | none => ({ s with matching := .test }, [])
  | .dispatch cmd =>
    ({ s with exchange := (dispatch s.exchange cmd).1, matching := .test }, [.dispatched cmd])
  | .returned => (s, [])

/-- One step of the server. -/
def step (final : Command P) (s : Server P) : Action P → Server P × List (Output P)
  | .signal => ({ s with running := false }, [])
  | .network => networkStep final s
  | .arrive cmds =>
    match s.network with
    | .wait => ({ s with network := nextLine cmds }, [])
    | _ => (s, [])
  | .epollError =>
    match s.network with
    | .wait => ({ s with network := .finalPush }, [])
    | _ => (s, [])
  | .matching => matchingStep s

end Server

/-- The server as a machine that reads a schedule. -/
def server (final : Command P) (buffer : ℕ → Command P) :
    Machine (Server P) (Action P) (Output P) :=
  ⟨⟨true, SPSCQueue.new buffer, Exchange.empty, .test, .test⟩, Server.step final⟩

namespace Server

/-! ## The invariant -/

/-- What holds at every moment. -/
structure Inv (log : List (Output P)) (s : Server P) : Prop where
  /-- The exchange is what the dispatched commands made of it. -/
  exchange : s.exchange = engine.run (handled log)
  /-- The ring holds what has been sent and not popped. -/
  holds : s.queue.Holds 1024 (sent log) (handled log ++ s.matching.inHand).length
  /-- What has been popped is the first of what has been sent. -/
  order : handled log ++ s.matching.inHand <+: sent log
  /-- The final push is the last. -/
  closed : ∀ cmd ok, .final cmd ok ∈ log → s.network.Closed

theorem inv_init (final : Command P) (buffer : ℕ → Command P) :
    Inv [] (server final buffer).init where
  exchange := rfl
  holds := SPSCQueue.holds_new (by decide) buffer
  order := List.prefix_rfl
  closed cmd ok h := absurd h List.not_mem_nil

/-- A step without output that leaves the queue, the exchange and the command in
hand, and does not reopen `main`. -/
theorem Inv.of_quiet {log : List (Output P)} {s s' : Server P} (h : Inv log s)
    (hexchange : s'.exchange = s.exchange) (hqueue : s'.queue = s.queue)
    (hhand : s'.matching.inHand = s.matching.inHand)
    (hclosed : s.network.Closed → s'.network.Closed) : Inv (log ++ []) s' := by
  rw [List.append_nil]
  refine ⟨hexchange.trans h.exchange, ?_, ?_, fun cmd ok hmem => hclosed (h.closed cmd ok hmem)⟩
  · rw [hqueue, hhand]
    exact h.holds
  · rw [hhand]
    exact h.order

/-- **A push that succeeds** puts its command behind everything sent so far. -/
theorem Inv.push {log : List (Output P)} {s s' : Server P} (h : Inv log s) {cmd : Command P}
    {o : Output P} (hsent : sent [o] = [cmd]) (hhandled : handled [o] = [])
    (hok : (s.queue.push 1024 cmd).2 = true) (hqueue : s'.queue = (s.queue.push 1024 cmd).1)
    (hexchange : s'.exchange = s.exchange) (hmatching : s'.matching = s.matching)
    (hclosed : ∀ c ok, .final c ok ∈ log ++ [o] → s'.network.Closed) : Inv (log ++ [o]) s' := by
  have h1 : sent (log ++ [o]) = sent log ++ [cmd] := by rw [sent_append, hsent]
  have h2 : handled (log ++ [o]) = handled log := by
    rw [handled_append, hhandled, List.append_nil]
  refine ⟨?_, ?_, ?_, hclosed⟩
  · rw [h2, hexchange]
    exact h.exchange
  · rw [h1, h2, hmatching, hqueue]
    rcases SPSCQueue.push_spec h.holds cmd with ⟨-, hfull⟩ | ⟨-, -, hholds⟩
    · rw [hfull] at hok
      exact absurd hok (by simp)
    · exact hholds
  · rw [h1, h2, hmatching]
    exact h.order.trans (List.prefix_append _ _)

/-- **A step of `main`** preserves the invariant. -/
theorem Inv.networkStep {log : List (Output P)} {s : Server P} (h : Inv log s)
    (final : Command P) :
    Inv (log ++ (networkStep final s).2) (networkStep final s).1 := by
  have hopen : ¬ s.network.Closed → ∀ c ok, .final c ok ∉ log :=
    fun hn c ok hmem => hn (h.closed c ok hmem)
  rw [Server.networkStep]
  cases hpc : s.network with
  | test =>
    rw [hpc] at hopen
    simp only
    split
    · exact h.of_quiet rfl rfl rfl fun hc => absurd hc (by rw [hpc]; exact id)
    · exact h.of_quiet rfl rfl rfl fun hc => absurd hc (by rw [hpc]; exact id)
  | wait => exact h.of_quiet rfl rfl rfl id
  | push cmd rest =>
    rw [hpc] at hopen
    simp only
    split
    · rename_i hok
      refine h.push rfl rfl hok rfl rfl rfl fun c ok hmem => ?_
      rcases List.mem_append.mp hmem with hmem | hmem
      · exact absurd hmem (hopen id c ok)
      · exact absurd (List.mem_singleton.mp hmem) (by simp)
    · exact h.of_quiet rfl rfl rfl id
  | finalPush =>
    simp only
    rcases SPSCQueue.push_spec h.holds final with ⟨-, hfull⟩ | ⟨-, hok, -⟩
    · rw [hfull]
      have h1 : sent (log ++ [.final final false]) = sent log := by
        rw [sent_append]
        exact List.append_nil _
      have h2 : handled (log ++ [.final final false]) = handled log := by
        rw [handled_append]
        exact List.append_nil _
      refine ⟨?_, ?_, ?_, fun c ok hmem => trivial⟩
      · rw [h2]
        exact h.exchange
      · rw [h1, h2]
        exact h.holds
      · rw [h1, h2]
        exact h.order
    · rw [hok]
      exact h.push rfl rfl hok rfl rfl rfl fun c ok hmem => trivial
  | storeRunning => exact h.of_quiet rfl rfl rfl fun _ => trivial
  | join =>
    cases hm : s.matching with
    | returned => exact h.of_quiet rfl rfl (by rw [hm]) fun _ => trivial
    | _ => exact h.of_quiet rfl rfl rfl id
  | returned => exact h.of_quiet rfl rfl rfl id

/-- **A step of the matching thread** preserves the invariant. -/
theorem Inv.matchingStep {log : List (Output P)} {s : Server P} (h : Inv log s) :
    Inv (log ++ (matchingStep s).2) (matchingStep s).1 := by
  have hholds := h.holds
  have horder := h.order
  rw [Server.matchingStep]
  cases hpc : s.matching with
  | test =>
    simp only
    split
    · exact h.of_quiet rfl rfl (by rw [hpc]; rfl) id
    · exact h.of_quiet rfl rfl (by rw [hpc]; rfl) id
  | pop =>
    rw [hpc, Matching.inHand, List.append_nil] at hholds horder
    rcases SPSCQueue.pop_spec hholds with ⟨-, hpop⟩ | ⟨hlt, cmd, hcmd, hpop, hholds'⟩
    · rw [hpop]
      exact h.of_quiet rfl rfl (by rw [hpc]; rfl) id
    · simp only [hpop, List.append_nil]
      refine ⟨h.exchange, ?_, ?_, h.closed⟩
      · rw [Matching.inHand, List.length_append, List.length_singleton]
        exact hholds'
      · -- the command popped is the next one that was sent
        have hnext : (sent log).take ((handled log).length + 1) = handled log ++ [cmd] := by
          rw [List.take_add_one, hcmd, ← List.prefix_iff_eq_take.mp horder, Option.toList_some]
        rw [Matching.inHand, ← hnext]
        exact List.take_prefix _ _
  | dispatch cmd =>
    rw [hpc, Matching.inHand] at hholds horder
    have h1 : sent (log ++ [.dispatched cmd]) = sent log := by
      rw [sent_append]
      exact List.append_nil _
    have h2 : handled (log ++ [.dispatched cmd]) = handled log ++ [cmd] := handled_append _ _
    refine ⟨?_, ?_, ?_, fun c ok hmem => ?_⟩
    · rw [h2, engine_run_concat, ← h.exchange]
    · rw [h1, h2]
      show s.queue.Holds 1024 (sent log) (handled log ++ [cmd] ++ []).length
      rw [List.append_nil]
      exact hholds
    · rw [h1, h2]
      show handled log ++ [cmd] ++ [] <+: sent log
      rw [List.append_nil]
      exact horder
    · rcases List.mem_append.mp hmem with hmem | hmem
      · exact h.closed c ok hmem
      · exact absurd (List.mem_singleton.mp hmem) (by simp)
  | returned => exact h.of_quiet rfl rfl rfl id

/-- **One step of the server** preserves the invariant. -/
theorem Inv.step {log : List (Output P)} {s : Server P} (h : Inv log s) (final : Command P)
    (a : Action P) : Inv (log ++ (step final s a).2) (step final s a).1 := by
  cases a with
  | signal => exact h.of_quiet rfl rfl rfl id
  | network => exact h.networkStep final
  | arrive cmds =>
    rw [Server.step]
    cases hpc : s.network with
    | wait => exact h.of_quiet rfl rfl rfl fun hc => absurd hc (by rw [hpc]; exact id)
    | _ => exact h.of_quiet rfl rfl rfl id
  | epollError =>
    rw [Server.step]
    cases hpc : s.network with
    | wait => exact h.of_quiet rfl rfl rfl fun hc => absurd hc (by rw [hpc]; exact id)
    | _ => exact h.of_quiet rfl rfl rfl id
  | matching => exact h.matchingStep

theorem inv_run (final : Command P) (buffer : ℕ → Command P) (steps : List (Action P)) :
    Inv ((server final buffer).log steps) ((server final buffer).run steps) := by
  induction steps using List.reverseRecOn with
  | nil => exact inv_init final buffer
  | append_singleton steps a ih =>
    rw [Machine.log_concat, Machine.run_concat]
    exact ih.step final a

/-! ## After the threads have left their loops -/

/-- A matching thread that has returned dispatches nothing more. -/
theorem returned_step (final : Command P) {s : Server P} (h : s.matching = .returned)
    (a : Action P) : (step final s a).1.matching = .returned ∧ handled (step final s a).2 = [] := by
  cases a with
  | signal => exact ⟨h, rfl⟩
  | network =>
    rw [step, networkStep]
    cases s.network with
    | test =>
      simp only
      split <;> exact ⟨h, rfl⟩
    | push cmd rest =>
      simp only
      split <;> exact ⟨h, rfl⟩
    | join =>
      simp only [h]
      exact ⟨trivial, rfl⟩
    | _ => exact ⟨h, rfl⟩
  | arrive cmds =>
    rw [step]
    cases s.network <;> exact ⟨h, rfl⟩
  | epollError =>
    rw [step]
    cases s.network <;> exact ⟨h, rfl⟩
  | matching =>
    rw [step, matchingStep, h]
    exact ⟨h, rfl⟩

/-- A `main` that has made its final push sends nothing more. -/
theorem closed_step (final : Command P) {s : Server P} (h : s.network.Closed) (a : Action P) :
    (step final s a).1.network.Closed ∧ sent (step final s a).2 = [] := by
  cases a with
  | signal => exact ⟨h, rfl⟩
  | network =>
    rw [step, networkStep]
    cases hpc : s.network with
    | storeRunning => exact ⟨trivial, rfl⟩
    | join =>
      rw [hpc] at h
      cases s.matching with
      | returned => exact ⟨trivial, rfl⟩
      | _ => exact ⟨by rw [hpc]; exact h, rfl⟩
    | returned => exact ⟨by rw [hpc]; trivial, rfl⟩
    | _ =>
      rw [hpc] at h
      exact absurd h id
  | arrive cmds =>
    rw [step]
    cases hpc : s.network with
    | wait =>
      rw [hpc] at h
      exact absurd h id
    | _ => exact ⟨h, rfl⟩
  | epollError =>
    rw [step]
    cases hpc : s.network with
    | wait =>
      rw [hpc] at h
      exact absurd h id
    | _ => exact ⟨h, rfl⟩
  | matching =>
    rw [step, matchingStep]
    cases s.matching with
    | test =>
      simp only
      split <;> exact ⟨h, rfl⟩
    | pop =>
      simp only
      split <;> exact ⟨h, rfl⟩
    | _ => exact ⟨h, rfl⟩

theorem returned_runFrom (final : Command P) (buffer : ℕ → Command P) (steps : List (Action P)) :
    ∀ {s : Server P}, s.matching = .returned →
      ((server final buffer).runFrom s steps).matching = .returned ∧
        handled ((server final buffer).logFrom s steps) = [] := by
  induction steps with
  | nil => exact fun h => ⟨h, rfl⟩
  | cons a steps ih =>
    intro s h
    obtain ⟨hstep, hlog⟩ := returned_step final h a
    obtain ⟨hrun, hlogs⟩ := ih hstep
    refine ⟨hrun, ?_⟩
    rw [Machine.logFrom_cons, handled_append]
    exact List.append_eq_nil_iff.mpr ⟨hlog, hlogs⟩

theorem closed_runFrom (final : Command P) (buffer : ℕ → Command P) (steps : List (Action P)) :
    ∀ {s : Server P}, s.network.Closed → sent ((server final buffer).logFrom s steps) = [] := by
  induction steps with
  | nil => exact fun _ => rfl
  | cons a steps ih =>
    intro s h
    obtain ⟨hstep, hlog⟩ := closed_step final h a
    rw [Machine.logFrom_cons, sent_append]
    exact List.append_eq_nil_iff.mpr ⟨hlog, ih hstep⟩

/-- The only way out of the loop of the matching thread. -/
theorem exit_step {final : Command P} {s : Server P} {a : Action P}
    (h : s.matching ≠ .returned) (h' : (step final s a).1.matching = .returned) :
    a = .matching ∧ s.matching = .test ∧ s.running = false := by
  cases a with
  | signal => exact absurd h' h
  | network =>
    rw [step, networkStep] at h'
    cases hpc : s.network with
    | test =>
      simp only [hpc] at h'
      split at h' <;> exact absurd h' h
    | push cmd rest =>
      simp only [hpc] at h'
      split at h' <;> exact absurd h' h
    | join =>
      simp only [hpc] at h'
      cases hm : s.matching with
      | returned => exact absurd hm h
      | _ =>
        simp only [hm] at h'
        exact absurd h' (by simp)
    | _ =>
      simp only [hpc] at h'
      exact absurd h' h
  | arrive cmds =>
    rw [step] at h'
    cases hpc : s.network <;> simp only [hpc] at h' <;> exact absurd h' h
  | epollError =>
    rw [step] at h'
    cases hpc : s.network <;> simp only [hpc] at h' <;> exact absurd h' h
  | matching =>
    rw [step, matchingStep] at h'
    cases hm : s.matching with
    | test =>
      simp only [hm] at h'
      cases hr : s.running with
      | false => exact ⟨rfl, rfl, rfl⟩
      | true =>
        simp only [hr, if_true] at h'
        exact absurd h' (by simp)
    | pop =>
      simp only [hm] at h'
      split at h' <;> exact absurd h' (by simp)
    | dispatch cmd =>
      simp only [hm] at h'
      exact absurd h' (by simp)
    | returned => exact absurd hm h

/-- A matching thread that has returned left its loop at some step. -/
theorem exists_exit {final : Command P} {buffer : ℕ → Command P} (steps : List (Action P))
    (h : ((server final buffer).run steps).matching = .returned) :
    ∃ before after, steps = before ++ .matching :: after ∧
      ((server final buffer).run before).matching = .test ∧
      ((server final buffer).run before).running = false := by
  induction steps using List.reverseRecOn with
  | nil => exact absurd h (by simp [server])
  | append_singleton steps a ih =>
    by_cases hold : ((server final buffer).run steps).matching = .returned
    · obtain ⟨before, after, rfl, htest, hrunning⟩ := ih hold
      exact ⟨before, after ++ [a], by simp, htest, hrunning⟩
    · rw [Machine.run_concat] at h
      obtain ⟨rfl, htest, hrunning⟩ := exit_step hold h
      exact ⟨steps, [], rfl, htest, hrunning⟩

/-! ## Shutdown -/

/-- Nothing is lost: everything sent has been dispatched, in the order sent, the
exchange is the fold of the dispatch over it, and the final `STATS` is among
it. -/
structure NothingLost (log : List (Output P)) (s : Server P) : Prop where
  order : handled log = sent log
  exchange : s.exchange = engine.run (sent log)
  final : ∃ cmd ∈ handled log, .final cmd true ∈ log

/-- Whenever the matching thread finds `running` cleared, the ring is empty and
the final push has returned `true`. -/
def CleanExit (final : Command P) (buffer : ℕ → Command P) (steps : List (Action P)) : Prop :=
  ∀ before after, steps = before ++ .matching :: after →
    ((server final buffer).run before).matching = .test →
    ((server final buffer).run before).running = false →
    ((server final buffer).run before).queue.head = ((server final buffer).run before).queue.tail ∧
      ∃ cmd, .final cmd true ∈ (server final buffer).log before

/-- What the rest of a run adds after the matching thread has found `running`
cleared: nothing is dispatched any more. -/
theorem run_exit {final : Command P} {buffer : ℕ → Command P} {before : List (Action P)}
    (after : List (Action P))
    (htest : ((server final buffer).run before).matching = .test)
    (hrunning : ((server final buffer).run before).running = false) :
    ((server final buffer).run (before ++ .matching :: after)).matching = .returned ∧
      handled ((server final buffer).log (before ++ .matching :: after)) =
        handled ((server final buffer).log before) := by
  have hexit : ((server final buffer).step ((server final buffer).run before) .matching).1.matching
      = .returned ∧ ((server final buffer).step ((server final buffer).run before) .matching).2 =
        [] := by
    show (matchingStep _).1.matching = .returned ∧ (matchingStep _).2 = []
    rw [matchingStep, htest]
    simp [hrunning]
  obtain ⟨hrun, hlog⟩ := returned_runFrom final buffer after hexit.1
  rw [Machine.run_append, Machine.log_append, Machine.runFrom_cons, Machine.logFrom_cons,
    hexit.2, List.nil_append, handled_append, hlog, List.append_nil]
  exact ⟨hrun, rfl⟩

/-- **When shutdown loses nothing.**  In a run of the server, the matching thread
having returned means that nothing is lost exactly when it leaves its loop with
an empty ring and after the final push has succeeded. -/
theorem nothing_lost_iff (final : Command P) (buffer : ℕ → Command P) (steps : List (Action P)) :
    (((server final buffer).run steps).matching = .returned →
      NothingLost ((server final buffer).log steps) ((server final buffer).run steps)) ↔
    CleanExit final buffer steps := by
  constructor
  · rintro hlost before after rfl htest hrunning
    obtain ⟨hreturned, hhandled⟩ := run_exit after htest hrunning
    obtain ⟨horder, -, cmd, -, hfinal⟩ := hlost hreturned
    have hinv := inv_run final buffer before
    have hlog := (server final buffer).log_append before (.matching :: after)
    rw [hlog] at hfinal
    rw [hhandled, hlog, sent_append] at horder
    have hprefix := hinv.order
    rw [htest, Matching.inHand, List.append_nil] at hprefix
    -- nothing is sent after the exit, for it would never be dispatched
    have hlen := hprefix.length_le
    have hlen' := congrArg List.length horder
    rw [List.length_append] at hlen'
    have hnil : sent ((server final buffer).logFrom ((server final buffer).run before)
        (.matching :: after)) = [] := List.eq_nil_of_length_eq_zero (by omega)
    constructor
    · have hholds := hinv.holds
      rw [htest, Matching.inHand, List.append_nil] at hholds
      exact (Ring.Rep.empty_iff hholds).mpr (by omega)
    · rcases List.mem_append.mp hfinal with hmem | hmem
      · exact ⟨cmd, hmem⟩
      · have hsent := mem_sent_of_final hmem
        rw [hnil] at hsent
        exact absurd hsent List.not_mem_nil
  · intro hclean hreturned
    obtain ⟨before, after, rfl, htest, hrunning⟩ := exists_exit steps hreturned
    obtain ⟨hempty, cmd, hfinal⟩ := hclean before after rfl htest hrunning
    obtain ⟨-, hhandled⟩ := run_exit after htest hrunning
    have hinv := inv_run final buffer before
    have hinv' := inv_run final buffer (before ++ .matching :: after)
    have hlog := (server final buffer).log_append before (.matching :: after)
    -- the final push has been made, so nothing is sent any more
    have hnil := closed_runFrom final buffer (.matching :: after)
      (hinv.closed cmd true hfinal)
    have hsent : sent ((server final buffer).log (before ++ .matching :: after)) =
        sent ((server final buffer).log before) := by
      rw [hlog, sent_append, hnil, List.append_nil]
    have horder : handled ((server final buffer).log before) =
        sent ((server final buffer).log before) := by
      have hprefix := hinv.order
      have hholds := hinv.holds
      rw [htest, Matching.inHand, List.append_nil] at hprefix hholds
      exact hprefix.eq_of_length ((Ring.Rep.empty_iff hholds).mp hempty)
    refine ⟨by rw [hhandled, hsent, horder], ?_, cmd, ?_, ?_⟩
    · rw [hinv'.exchange, hhandled, hsent, horder]
    · rw [hhandled, horder]
      exact mem_sent_of_final hfinal
    · rw [hlog]
      exact List.mem_append_left _ hfinal

/-- A signal right after a line has been pushed: the matching thread returns with
the command in the ring, and the final push succeeds for nobody. -/
theorem command_lost_at_signal :
    let cmd : Command ℤ := .newOrder 1 .buy ['A'] 5 10 1 0 0
    let final : Command ℤ := shutdownCmd cmd 0 0
    let steps : List (Action ℤ) := [.network, .arrive [cmd], .network, .signal, .matching,
      .network, .network, .network, .network]
    let m := server final fun _ => cmd
    (m.run steps).matching = .returned ∧ sent (m.log steps) = [cmd, final] ∧
      handled (m.log steps) = [] ∧ ¬ NothingLost (m.log steps) (m.run steps) :=
  ⟨rfl, by decide, by decide, fun h => absurd h.order (by decide)⟩

end Server
end MatchingEngine
