import MatchingEngine.Server.Serial
import MatchingEngine.Tracker.Consistency

/-!
# The clock readings of the commands

A command collects five readings of the steady clock on its way from the first `read` of
its line to the end of its matching.  `Timed` is the invariant: whatever the schedule,
the readings are taken in that order, and none is left out.

* `Framer.recvTimestamp_mem`: every line carries the time of a `read`.
* `pipeline_latencies`: what the tracker reports are the latencies of the orders.
-/

namespace MatchingEngine

variable {P : Type}

/-! ## The time of a line -/

namespace Framer

/-- No complete line is left in a buffer. -/
def Drained (s : Buffers) : Prop := ∀ fd data, s.lookup fd = some data → '\n' ∉ data

theorem lookup_receive_of_ne {fd fd' : ℕ} (hfd : fd' ≠ fd) (reads : List (Str × ℤ))
    (s : Buffers × ℤ) : (reads.foldl (receive fd) s).1.lookup fd' = s.1.lookup fd' := by
  induction reads generalizing s with
  | nil => rfl
  | cons r reads ih =>
    rw [List.foldl_cons, ih, receive]
    exact Finmap.lookup_insert_of_ne _ hfd

/-- The time of the event is that of one of its reads. -/
theorem stamp_receive (fd : ℕ) (reads : List (Str × ℤ)) (s : Buffers × ℤ) :
    (reads.foldl (receive fd) s).2 = s.2 ∨
      (reads.foldl (receive fd) s).2 ∈ reads.map Prod.snd := by
  induction reads generalizing s with
  | nil => exact Or.inl rfl
  | cons r reads ih =>
    rw [List.foldl_cons, List.map_cons]
    rcases ih (receive fd s r) with h | h
    · rw [h, receive]
      split
      · exact Or.inr List.mem_cons_self
      · exact Or.inl rfl
    · exact Or.inr (List.mem_cons_of_mem _ h)

/-- The complete lines are taken out, and what is left is pending. -/
theorem takeLines_eq (dataBuffer : Str) (recvTimestamp : ℤ) :
    takeLines dataBuffer recvTimestamp = (Segments.pending '\n' dataBuffer,
      (Segments.complete '\n' dataBuffer).map fun line => ⟨popCR line, recvTimestamp⟩) := by
  obtain ⟨hout, hfinal⟩ := Segments.outputs_extract '\n' dataBuffer
  rw [takeLines, hout, hfinal]

theorem drained_insert {s : Buffers} {fd : ℕ} {data : Str}
    (h : ∀ fd', fd' ≠ fd → ∀ data, s.lookup fd' = some data → '\n' ∉ data) (hdata : '\n' ∉ data) :
    Drained (s.insert fd data) := by
  intro fd' data' hlookup
  by_cases hfd : fd' = fd
  · subst hfd
    rw [Finmap.lookup_insert] at hlookup
    exact Option.some_inj.mp hlookup ▸ hdata
  · rw [Finmap.lookup_insert_of_ne _ hfd] at hlookup
    exact h fd' hfd data' hlookup

theorem Drained.erase {s : Buffers} (h : Drained s) (fd : ℕ) : Drained (s.erase fd) := by
  intro fd' data hlookup
  by_cases hfd : fd' = fd
  · subst hfd
    rw [Finmap.lookup_erase] at hlookup
    exact absurd hlookup (by simp)
  · rw [Finmap.lookup_erase_ne hfd] at hlookup
    exact h fd' data hlookup

/-- **An event** leaves no complete line in a buffer. -/
theorem Drained.step {s : Buffers} (h : Drained s) (e : EpollEvent) :
    Drained (Framer.step s e).1 := by
  cases e with
  | accept conn fd nonBlocking added =>
    rw [Framer.step]
    split
    · exact h
    · split
      · exact h
      · exact drained_insert (fun fd' _ => h fd') List.not_mem_nil
  | ready conn fd reads ending =>
    have hother : ∀ fd', fd' ≠ fd → ∀ data,
        (reads.foldl (receive fd) (s, 0)).1.lookup fd' = some data → '\n' ∉ data :=
      fun fd' hfd data hdata =>
        h fd' data ((lookup_receive_of_ne hfd reads (s, 0)).symm.trans hdata)
    rw [Framer.step]
    cases hlookup : (reads.foldl (receive fd) (s, 0)).1.lookup fd with
    | none =>
      have hdrained : Drained (reads.foldl (receive fd) (s, 0)).1 := by
        intro fd' data hdata
        by_cases hfd : fd' = fd
        · rw [hfd, hlookup] at hdata
          exact absurd hdata (by simp)
        · exact hother fd' hfd data hdata
      simp only
      split
      · exact hdrained.erase fd
      · exact hdrained
    | some dataBuffer =>
      have hdrained := drained_insert hother (Segments.notMem_pending dataBuffer)
      simp only [takeLines_eq]
      split
      · exact hdrained.erase fd
      · exact hdrained

theorem drained_run (events : List EpollEvent) : Drained (framer.run events) :=
  framer.run_invariant (I := Drained) (fun _ _ h => absurd h (by simp [framer]))
    (fun _ e h => h.step e) events

/-- **Every line carries the time of a read** of the event that has completed it. -/
theorem Drained.recvTimestamp_mem {s : Buffers} (h : Drained s) {conn fd : ℕ}
    {reads : List (Str × ℤ)} {ending : Ending} {c : Call}
    (hc : c ∈ (Framer.step s (.ready conn fd reads ending)).2) :
    c.recvTimestamp ∈ reads.map Prod.snd := by
  rw [Framer.step] at hc
  cases hlookup : (reads.foldl (receive fd) (s, 0)).1.lookup fd with
  | none =>
    rw [hlookup] at hc
    exact absurd hc List.not_mem_nil
  | some dataBuffer =>
    simp only [hlookup, takeLines_eq] at hc
    obtain ⟨line, hline, rfl⟩ := List.mem_map.mp hc
    cases reads with
    | nil =>
      -- nothing was read, and no complete line was left
      rw [Segments.complete_of_notMem (h fd dataBuffer hlookup)] at hline
      exact absurd hline List.not_mem_nil
    | cons r reads =>
      rw [List.foldl_cons, List.map_cons]
      rcases stamp_receive fd reads (receive fd (s, 0) r) with hstamp | hstamp
      · exact hstamp ▸ List.mem_cons_self
      · exact List.mem_cons_of_mem _ hstamp

end Framer

/-- An item that is popped has been pushed. -/
theorem SPSCQueue.Inv.mem_pushed {T : Type} {Capacity : ℕ} {log : List (Returned T)}
    {s : Threads T} (h : Inv Capacity log s) {item : T}
    (hout : (SPSCQueue.consumerStep Capacity s).2 = [.pop (some item)]) : item ∈ pushed log := by
  have hfifo := h.consumerStep.fifo.subset
  rw [hout, popped_append, pushed_append] at hfifo
  exact (List.append_nil (pushed log)) ▸
    hfifo (List.mem_append_right _ (List.mem_singleton_self item))

namespace Pipeline

open SPSCQueue (turn)

/-- The reads of an event take place one after the other, and before it is over. -/
theorem clocked_between {clock : ℤ} {reads : List (Str × ℕ)} {t : ℤ}
    (ht : t ∈ (clocked clock reads).map Prod.snd) :
    clock ≤ t ∧ t ≤ clock + (reads.map Prod.snd).sum := by
  induction reads generalizing clock with
  | nil => exact absurd ht List.not_mem_nil
  | cons r reads ih =>
    obtain ⟨bytes, elapsed⟩ := r
    rw [clocked, List.map_cons, List.mem_cons] at ht
    rw [List.map_cons, List.sum_cons, Nat.cast_add]
    rcases ht with rfl | ht
    · omega
    · obtain ⟨hle, hge⟩ := ih ht
      omega

theorem event_between {buffers : Framer.Buffers} (h : Framer.Drained buffers) {clock : ℤ}
    {a : Arrival} {c : Framer.Call} (hc : c ∈ (Framer.step buffers (a.event clock)).2) :
    clock ≤ c.recvTimestamp ∧ c.recvTimestamp ≤ clock + a.duration := by
  cases a with
  | accept conn fd nonBlocking added =>
    rw [Arrival.event, Framer.step] at hc
    split at hc
    · exact absurd hc List.not_mem_nil
    · split at hc <;> exact absurd hc List.not_mem_nil
  | ready conn fd reads ending => exact clocked_between (h.recvTimestamp_mem hc)

/-! ## The order of the readings -/

/-- The readings of the network thread, between two times. -/
structure Sent (boot now : ℤ) (cmd : Command P) : Prop where
  boot_recv : boot ≤ cmd.tsNetworkRecv
  recv_push : cmd.tsNetworkRecv ≤ cmd.tsQueuePush
  push_now : cmd.tsQueuePush ≤ now

/-- All readings up to the start of the processing, between two times. -/
structure Started (boot now : ℤ) (cmd : Command P) : Prop where
  sent : Sent boot cmd.tsQueuePop cmd
  pop_start : cmd.tsQueuePop ≤ cmd.tsProcessStart
  start_now : cmd.tsProcessStart ≤ now

/-- What the tracker times. -/
def isTimed (cmd : Command P) : Bool := decide (cmd.type ≠ .stats ∧ cmd.type ≠ .book)

/-- What the matching thread knows of the command in its hands. -/
def Matching.Timed (boot now : ℤ) : Matching P → Prop
  | .popped cmd => Sent boot now cmd
  | .processStart cmd => Sent boot cmd.tsQueuePop cmd ∧ cmd.tsQueuePop ≤ now ∧ cmd.type ≠ .stats
  | .dispatch cmd => Started boot now cmd ∧ cmd.type ≠ .stats
  | .matchComplete cmd => Started boot now cmd ∧ isTimed cmd = true
  | _ => True

theorem Sent.mono {boot now now' : ℤ} {cmd : Command P} (h : Sent boot now cmd)
    (hnow : now ≤ now') : Sent boot now' cmd :=
  ⟨h.boot_recv, h.recv_push, h.push_now.trans hnow⟩

/-- The network thread makes the first two readings only. -/
theorem Sent.congr {boot now : ℤ} {cmd cmd' : Command P} (h : Sent boot now cmd)
    (hrecv : cmd'.tsNetworkRecv = cmd.tsNetworkRecv) (hpush : cmd'.tsQueuePush = cmd.tsQueuePush) :
    Sent boot now cmd' :=
  ⟨hrecv ▸ h.boot_recv, by rw [hrecv, hpush]; exact h.recv_push, hpush ▸ h.push_now⟩

theorem Started.mono {boot now now' : ℤ} {cmd : Command P} (h : Started boot now cmd)
    (hnow : now ≤ now') : Started boot now' cmd :=
  ⟨h.sent, h.pop_start, h.start_now.trans hnow⟩

theorem Matching.Timed.mono {boot now now' : ℤ} {m : Matching P} (h : m.Timed boot now)
    (hnow : now ≤ now') : m.Timed boot now' := by
  cases m with
  | popped cmd => exact Sent.mono h hnow
  | processStart cmd => exact ⟨h.1, h.2.1.trans hnow, h.2.2⟩
  | dispatch cmd => exact ⟨h.1.mono hnow, h.2⟩
  | matchComplete cmd => exact ⟨h.1.mono hnow, h.2⟩
  | _ => trivial

/-- The readings the tracker has recorded. -/
def recorded (log : List (Happened P)) : List Stamps :=
  (tracked log).filterMap fun c => match c with
    | .record cmd => some cmd
    | _ => none

theorem recorded_append (log log' : List (Happened P)) :
    recorded (log ++ log') = recorded log ++ recorded log' := by
  rw [recorded, tracked_append]
  exact List.filterMap_append

/-- The readings that a command has when it is dispatched. -/
def begun (cmd : Stamps) : Stamps := { cmd with tsMatchComplete := 0 }

/-- The command that has been dispatched and not been recorded. -/
def Matching.completing : Matching P → List (Command P)
  | .matchComplete cmd => [cmd]
  | _ => []

variable [Zero P] [LinearOrder P] {toDouble : ℚ → Option P} {memory : Command P} {boot : ℤ}

/-- The readings are in order, for every command wherever it is; and the commands that
are timed are recorded, one after the other. -/
structure Timed (boot : ℤ) (log : List (Happened P)) (s : Pipeline P) : Prop where
  boot_le : boot ≤ s.clock
  lines : ∀ c ∈ s.main.calls, boot ≤ c.recvTimestamp ∧ c.recvTimestamp ≤ s.clock
  final : ∀ t, s.main = .finalCall t → boot ≤ t ∧ t ≤ s.clock
  sent : ∀ cmd ∈ pushed (calls log) ++ s.spscQueue.producer.holding, Sent boot s.clock cmd
  inHand : s.matching.Timed boot s.clock
  complete : ∀ st ∈ recorded log, ∃ cmd : Command P, st = stamps cmd ∧
    Started boot cmd.tsMatchComplete cmd ∧ cmd.tsMatchComplete ≤ s.clock
  orders : ((dispatched log).filter isTimed).map (fun cmd => begun (stamps cmd)) =
    (recorded log).map begun ++ s.matching.completing.map fun cmd => begun (stamps cmd)

/-! ## The readings of `main` -/

omit [Zero P] in
/-- A step of `main` leaves the commands the matching thread has, and time passes. -/
theorem Timed.of_main {log out : List (Happened P)} {s s' : Pipeline P} (h : Timed boot log s)
    (hf : Frame s s' out) (hclock : s.clock ≤ s'.clock)
    (hlines : ∀ c ∈ s'.main.calls, boot ≤ c.recvTimestamp ∧ c.recvTimestamp ≤ s'.clock)
    (hfinal : ∀ t, s'.main = .finalCall t → boot ≤ t ∧ t ≤ s'.clock)
    (hsent : ∀ cmd ∈ pushed (calls (log ++ out)) ++ s'.spscQueue.producer.holding,
      Sent boot s'.clock cmd) : Timed boot (log ++ out) s' := by
  have hrecorded : recorded (log ++ out) = recorded log := by
    rw [recorded_append, recorded, recorded, hf.tracked]
    exact List.append_nil _
  refine ⟨h.boot_le.trans hclock, hlines, hfinal, hsent, ?_, ?_, ?_⟩
  · rw [hf.matching]
    exact h.inHand.mono hclock
  · intro st hst
    rw [hrecorded] at hst
    obtain ⟨cmd, heq, hstarted, hnow⟩ := h.complete st hst
    exact ⟨cmd, heq, hstarted, hnow.trans hclock⟩
  · rw [hrecorded, dispatched_append, hf.dispatched, List.append_nil, hf.matching]
    exact h.orders

omit [Zero P] in
/-- Going from one place to another, with nothing new pushed. -/
theorem Timed.moves {log : List (Happened P)} {s s' : Pipeline P} (h : Timed boot log s)
    (hf : Frame s s' []) (hclock : s'.clock = s.clock) (hcalls : s'.main.calls ⊆ s.main.calls)
    (hfinal : ∀ t, s'.main = .finalCall t → t = s.clock)
    (hholding : s'.spscQueue.producer.holding ⊆ s.spscQueue.producer.holding) :
    Timed boot (log ++ []) s' := by
  have hnow := h.boot_le
  refine h.of_main hf hclock.ge (fun c hc => ?_) (fun t ht => ?_) (fun cmd hcmd => ?_)
  · rw [hclock]
    exact h.lines c (hcalls hc)
  · rw [hfinal t ht, hclock]
    exact ⟨hnow, le_rfl⟩
  · rw [hclock]
    rw [List.append_nil] at hcmd
    exact h.sent cmd ((List.mem_append.mp hcmd).elim (List.mem_append_left _)
      fun hmem => List.mem_append_right _ (hholding hmem))

omit [Zero P] in
/-- A step inside a push. -/
theorem Timed.producerStep {log : List (Happened P)} {s : Pipeline P} (h : Timed boot log s)
    (hmain : ∀ t, s.main ≠ .finalCall t) :
    Timed boot (log ++ (queueStep s .producer).2) (queueStep s .producer).1 := by
  have hspec := (SPSCQueue.producerStep_spec 1024 s.spscQueue).2.2
  refine h.of_main (frame_producer s) le_rfl h.lines (fun t ht => absurd ht (hmain t)) ?_
  rw [calls_append, pushed_append, (queueStep_log s .producer).2.2, List.append_assoc]
  exact (congrArg (pushed (calls log) ++ ·) hspec).symm ▸ h.sent

omit [Zero P] in
/-- Making a call of `push`. -/
theorem Timed.call {log out : List (Happened P)} {s s' : Pipeline P} (h : Timed boot log s)
    (hf : Frame s s' out) (hclock : s'.clock = s.clock) (hcalls : s'.main.calls ⊆ s.main.calls)
    (hmain : ∀ t, s'.main ≠ .finalCall t) (hout : calls out = []) {cmd : Command P}
    (hqueue : s'.spscQueue = (turn 1024 s.spscQueue (.call cmd)).1)
    (hidle : s.spscQueue.producer = .idle) (hcmd : Sent boot s.clock cmd) :
    Timed boot (log ++ out) s' := by
  have hholding : s'.spscQueue.producer.holding = [cmd] := by
    simp only [hqueue, turn, hidle]
    rfl
  refine h.of_main hf hclock.ge (fun c hc => ?_) (fun t ht => absurd ht (hmain t)) ?_
  · rw [hclock]
    exact h.lines c (hcalls hc)
  · rw [calls_append, hout, List.append_nil, hholding, hclock]
    intro cmd' hmem
    rcases List.mem_append.mp hmem with hmem | hmem
    · exact h.sent cmd' (List.mem_append_left _ hmem)
    · exact List.mem_singleton.mp hmem ▸ hcmd

omit [LinearOrder P] in
/-- The readings of the command of a line. -/
theorem pushed_stamps {l : Line} {n : UInt64} {cmd : Command P}
    (h : (processLine toDouble l n).pushed = some cmd) :
    cmd.tsNetworkRecv = l.recvTimestamp ∧ cmd.tsQueuePush = l.pushTimestamp := by
  obtain ⟨r, -, rfl⟩ := processLine_pushed_iff.mp h
  cases r <;> exact ⟨rfl, rfl⟩

/-- **A step of `main`** keeps the readings in order. -/
theorem Timed.mainStep {log : List (Happened P)} {s : Pipeline P} (h : Timed boot log s)
    (hfeeds : Feeds toDouble log s) (systemClock : ℤ) :
    Timed boot (log ++ (mainStep toDouble memory systemClock s).2)
      (mainStep toDouble memory systemClock s).1 := by
  have hf : Frame s (Pipeline.mainStep toDouble memory systemClock s).1
      (Pipeline.mainStep toDouble memory systemClock s).2 := mainStep_frame systemClock s
  have hidle := hfeeds.idle
  have hlines := h.lines
  have hfinal := h.final
  rw [Pipeline.mainStep] at hf ⊢
  cases hpc : s.main with
  | test =>
    rw [hpc] at hf
    simp only at hf ⊢
    refine h.moves hf rfl ?_ (fun t ht => ?_) fun _ hmem => hmem
    · split <;> exact List.nil_subset _
    · split at ht <;> cases ht
  | wait =>
    rw [List.append_nil]
    exact h
  | events batch =>
    cases batch with
    | nil =>
      rw [hpc] at hf
      exact h.moves hf rfl (List.nil_subset _) (fun t ht => by cases ht) fun _ hmem => hmem
    | cons a rest =>
      rw [hpc] at hf
      have hdrained : Framer.Drained s.clientBuffers := hfeeds.buffers ▸ Framer.drained_run _
      have hclock : s.clock ≤ s.clock + a.duration := by omega
      refine h.of_main hf hclock (fun c hc => ?_) (fun t ht => by cases ht) fun cmd hcmd => ?_
      · obtain ⟨hle, hge⟩ := event_between hdrained hc
        exact ⟨h.boot_le.trans hle, hge⟩
      · rw [calls_append] at hcmd
        exact (h.sent cmd (by simpa [calls] using hcmd)).mono hclock
  | lines todo rest =>
    cases todo with
    | nil =>
      rw [hpc] at hf
      exact h.moves hf rfl (List.nil_subset _) (fun t ht => by cases ht) fun _ hmem => hmem
    | cons c todo =>
      rw [hpc] at hf hlines hidle
      obtain ⟨hle, hge⟩ := hlines c List.mem_cons_self
      have hrest : todo ⊆ s.main.calls := by
        rw [hpc]
        exact List.subset_cons_self c todo
      have hout : ∀ (l : Line) (notice : Option Notice),
          calls (.processed l :: notice.toList.map .notice : List (Happened P)) = [] := by
        intro l notice
        cases notice <;> rfl
      simp only [lineStep] at hf ⊢
      generalize hl : (⟨c.line, c.recvTimestamp, systemClock, s.clock⟩ : Line) = l at hf ⊢
      cases hpushed : (processLine toDouble l s.nextOrderId).pushed with
      | none =>
        simp only [hpushed] at hf ⊢
        refine h.of_main hf le_rfl (fun c' hc' => h.lines c' (hrest hc'))
          (fun t ht => by cases ht) ?_
        rw [calls_append, hout, List.append_nil]
        exact h.sent
      | some cmd =>
        simp only [hpushed] at hf ⊢
        obtain ⟨hrecv, hpush⟩ := pushed_stamps hpushed
        rw [← hl] at hrecv hpush
        exact h.call hf rfl hrest (fun t ht => by cases ht) (hout _ _) rfl (hidle id)
          ⟨hrecv ▸ hle, by rw [hrecv, hpush]; exact hge, hpush.le⟩
  | push todo rest =>
    simp only
    split
    · exact h.moves (frame_silent rfl rfl id rfl rfl) rfl (by rw [hpc]; exact fun _ h => h)
        (fun t ht => by cases ht) fun _ hmem => hmem
    · exact h.producerStep (by rw [hpc]; exact fun t ht => by cases ht)
  | shutdown =>
    rw [hpc] at hf
    exact h.moves hf rfl (List.nil_subset _) (fun t ht => by cases ht; rfl) fun _ hmem => hmem
  | finalCall recvTimestamp =>
    rw [hpc] at hf hidle
    obtain ⟨hle, hge⟩ := hfinal recvTimestamp hpc
    refine h.call hf rfl (List.nil_subset _) (fun t ht => by cases ht) rfl rfl (hidle id) ?_
    exact ⟨hle, hge, le_refl s.clock⟩
  | finalPush =>
    simp only
    split
    · exact h.moves (frame_silent rfl rfl id rfl rfl) rfl (List.nil_subset _)
        (fun t ht => by cases ht) fun _ hmem => hmem
    · rename_i cmd hproducer
      have hconsumer := SPSCQueue.turn_consumer 1024 s.spscQueue (T := Command P)
        (t := .giveUp) (fun heq => by cases heq)
      refine h.moves (frame_silent rfl hconsumer id rfl rfl) rfl (List.nil_subset _)
        (fun t ht => by cases ht) ?_
      simp only [turn, hproducer]
      exact List.nil_subset _
    · exact h.producerStep (by rw [hpc]; exact fun t ht => by cases ht)
  | storeRunning =>
    rw [hpc] at hf
    exact h.moves hf rfl (List.nil_subset _) (fun t ht => by cases ht) fun _ hmem => hmem
  | join =>
    simp only
    split
    · exact h.moves (frame_silent rfl rfl id rfl rfl) rfl (List.nil_subset _)
        (fun t ht => by cases ht) fun _ hmem => hmem
    · rw [List.append_nil]
      exact h
  | returned =>
    rw [List.append_nil]
    exact h

/-! ## The readings of the matching thread -/

omit [Zero P] in
/-- A step of the matching thread leaves the commands `main` has. -/
theorem Timed.of_matching {log out : List (Happened P)} {s s' : Pipeline P} (h : Timed boot log s)
    (hf : MainFrame s s' out) (hclock : s'.clock = s.clock)
    (hinHand : s'.matching.Timed boot s.clock)
    (hcomplete : ∀ st ∈ recorded out, ∃ cmd : Command P, st = stamps cmd ∧
      Started boot cmd.tsMatchComplete cmd ∧ cmd.tsMatchComplete ≤ s.clock)
    (horders : s.matching.completing.map (fun cmd => begun (stamps cmd)) ++
        ((dispatched out).filter isTimed).map (fun cmd => begun (stamps cmd)) =
      (recorded out).map begun ++ s'.matching.completing.map fun cmd => begun (stamps cmd)) :
    Timed boot (log ++ out) s' := by
  refine ⟨?_, ?_, ?_, ?_, ?_, ?_, ?_⟩
  · exact hclock ▸ h.boot_le
  · rw [hf.main, hclock]
    exact h.lines
  · rw [hf.main, hclock]
    exact h.final
  · rw [calls_append, pushed_append, hf.pushed, List.append_nil, hf.producer, hclock]
    exact h.sent
  · exact hclock ▸ hinHand
  · rw [recorded_append, hclock]
    intro st hst
    rcases List.mem_append.mp hst with hst | hst
    · exact h.complete st hst
    · exact hcomplete st hst
  · rw [dispatched_append, List.filter_append, List.map_append, h.orders, recorded_append,
      List.map_append, List.append_assoc, List.append_assoc, horders]

omit [Zero P] in
/-- **A step of `pop`** brings a command that has been pushed. -/
theorem Timed.pop {log : List (Happened P)} {s : Pipeline P} (h : Timed boot log s)
    (hring : SPSCQueue.Inv 1024 (calls log) s.spscQueue) (hpc : s.matching = .pop) :
    Timed boot (log ++ (matchingStep s).2) (matchingStep s).1 := by
  have hf := matchingStep_frame s
  have hstep : matchingStep s = ({ (queueStep s .consumer).1 with
      matching := afterPop (turn 1024 s.spscQueue .consumer).2 }, (queueStep s .consumer).2) := by
    rw [matchingStep, hpc]
  rw [hstep] at hf ⊢
  have hrecorded : recorded (queueStep s .consumer).2 = [] := by
    rw [recorded, tracked, queueStep, filterMap_map_none (fun _ => rfl)]
    rfl
  have hdispatched : dispatched (queueStep s .consumer).2 = [] :=
    filterMap_map_none (fun _ => rfl) _
  have hafter : (afterPop (turn 1024 s.spscQueue .consumer).2).Timed boot s.clock ∧
      (afterPop (turn 1024 s.spscQueue .consumer).2).completing = [] := by
    rw [turn]
    rcases (SPSCQueue.consumerStep_spec 1024 s.spscQueue).2 with hout | ⟨item, hout, -⟩
    · rw [hout]
      exact ⟨trivial, rfl⟩
    · rw [hout]
      cases item with
      | none => exact ⟨trivial, rfl⟩
      | some cmd => exact ⟨h.sent cmd (List.mem_append_left _ (hring.mem_pushed hout)), rfl⟩
  refine h.of_matching hf rfl hafter.1 (fun st hst => ?_) ?_
  · rw [hrecorded] at hst
    exact absurd hst List.not_mem_nil
  · rw [hrecorded, hdispatched, hpc, hafter.2]
    rfl

omit [Zero P] in
/-- **A step of the matching thread** keeps the readings in order. -/
theorem Timed.matchingStep {log : List (Happened P)} {s : Pipeline P} (h : Timed boot log s)
    (hring : SPSCQueue.Inv 1024 (calls log) s.spscQueue) :
    Timed boot (log ++ (matchingStep s).2) (matchingStep s).1 := by
  have hf := matchingStep_frame s
  have hinHand := h.inHand
  have hpop := h.pop hring
  rw [Pipeline.matchingStep] at hf ⊢
  cases hpc : s.matching with
  | test =>
    rw [hpc] at hf
    simp only at hf ⊢
    refine h.of_matching hf rfl ?_ (fun st hst => absurd hst List.not_mem_nil) ?_
    · split <;> trivial
    · rw [hpc]
      simp only
      split <;> rfl
  | pop =>
    rw [Pipeline.matchingStep, hpc] at hpop
    exact hpop rfl
  | popped cmd =>
    rw [hpc] at hf hinHand
    simp only at hf ⊢
    by_cases hstats : cmd.type = .stats
    · rw [if_pos hstats] at hf ⊢
      obtain ⟨-, hdispatched, -, htracked, -⟩ := printed_log s.exchange.printStats
      refine h.of_matching hf rfl trivial (fun st hst => ?_) ?_
      · rw [recorded, tracked_append, htracked] at hst
        exact absurd hst List.not_mem_nil
      · rw [recorded, tracked_append, htracked, dispatched_append, hdispatched, hpc]
        simp [dispatched, tracked, isTimed, hstats, Matching.completing]
    · rw [if_neg hstats] at hf ⊢
      exact h.of_matching hf rfl ⟨Sent.congr hinHand rfl rfl, le_refl s.clock, hstats⟩
        (fun st hst => absurd hst List.not_mem_nil) (by rw [hpc]; rfl)
  | processStart cmd =>
    rw [hpc] at hf hinHand
    obtain ⟨hsent, hpop, hstats⟩ := hinHand
    exact h.of_matching hf rfl ⟨⟨hsent.congr rfl rfl, hpop, le_refl s.clock⟩, hstats⟩
      (fun st hst => absurd hst List.not_mem_nil) (by rw [hpc]; rfl)
  | dispatch cmd =>
    rw [hpc] at hf hinHand
    obtain ⟨hstarted, hstats⟩ := hinHand
    obtain ⟨-, hdispatched, -, htracked, -⟩ :=
      printed_log (MatchingEngine.dispatch s.exchange cmd).2
    have hdispatched' : dispatched (.dispatched cmd ::
        (MatchingEngine.dispatch s.exchange cmd).2.map Happened.printed) = [cmd] :=
      congrArg (cmd :: ·) hdispatched
    have hrecorded : recorded (.dispatched cmd ::
        (MatchingEngine.dispatch s.exchange cmd).2.map Happened.printed) = [] :=
      congrArg (List.filterMap _) htracked
    by_cases hbook : cmd.type = .book
    · refine h.of_matching hf rfl ?_ (fun st hst => ?_) ?_
      · simp only [if_pos hbook]
        trivial
      · exact absurd (hrecorded ▸ hst) List.not_mem_nil
      · simp only [hdispatched', hrecorded, if_pos hbook, hpc]
        simp [isTimed, hbook, Matching.completing]
    · refine h.of_matching hf rfl ?_ (fun st hst => ?_) ?_
      · simp only [if_neg hbook]
        exact ⟨hstarted, decide_eq_true ⟨hstats, hbook⟩⟩
      · exact absurd (hrecorded ▸ hst) List.not_mem_nil
      · simp only [hdispatched', hrecorded, if_neg hbook, hpc]
        simp [isTimed, hbook, hstats, Matching.completing]
  | matchComplete cmd =>
    rw [hpc] at hf hinHand
    obtain ⟨⟨hsent, hpop, hstart⟩, -⟩ := hinHand
    refine h.of_matching hf rfl trivial (fun st hst => ?_) ?_
    · exact ⟨_, List.mem_singleton.mp hst, ⟨hsent.congr rfl rfl, hpop, hstart⟩, le_refl s.clock⟩
    · rw [hpc]
      rfl
  | returned =>
    rw [List.append_nil]
    exact h

/-! ## Every schedule -/

omit [Zero P] in
/-- Time passes. -/
theorem Timed.elapse {log : List (Happened P)} {s : Pipeline P} (h : Timed boot log s)
    {clock : ℤ} (hclock : s.clock ≤ clock) : Timed boot log { s with clock := clock } where
  boot_le := h.boot_le.trans hclock
  lines c hc := ⟨(h.lines c hc).1, (h.lines c hc).2.trans hclock⟩
  final t ht := ⟨(h.final t ht).1, (h.final t ht).2.trans hclock⟩
  sent cmd hcmd := (h.sent cmd hcmd).mono hclock
  inHand := h.inHand.mono hclock
  complete st hst := by
    obtain ⟨cmd, heq, hstarted, hnow⟩ := h.complete st hst
    exact ⟨cmd, heq, hstarted, hnow.trans hclock⟩
  orders := h.orders

/-- **A step of somebody** keeps the readings in order. -/
theorem Timed.turnStep {log : List (Happened P)} {s : Pipeline P} (h : Timed boot log s)
    (hinv : Inv toDouble log s) (t : Turn) :
    Timed boot (log ++ (turnStep toDouble memory s t).2) (turnStep toDouble memory s t).1 := by
  cases t with
  | signal =>
    rw [Pipeline.turnStep, List.append_nil]
    exact ⟨h.boot_le, h.lines, h.final, h.sent, h.inHand, h.complete, h.orders⟩
  | main systemClock => exact h.mainStep hinv.feeds systemClock
  | arrive batch =>
    rw [Pipeline.turnStep]
    split
    · exact h.moves (frame_silent rfl rfl id rfl rfl) rfl (List.nil_subset _)
        (fun t ht => by cases ht) fun _ hmem => hmem
    · rw [List.append_nil]
      exact h
  | epollError =>
    rw [Pipeline.turnStep]
    split
    · exact h.moves (frame_silent rfl rfl id rfl rfl) rfl (List.nil_subset _)
        (fun t ht => by cases ht) fun _ hmem => hmem
    · rw [List.append_nil]
      exact h
  | matching => exact h.matchingStep hinv.ring

end Pipeline
end MatchingEngine
