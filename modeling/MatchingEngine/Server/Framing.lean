import MatchingEngine.Lib.Machine
import MatchingEngine.Lib.Segments
import MatchingEngine.Order
import Mathlib.Data.Finmap

/-!
# From bytes to lines

The event loop of `main` in `server.cpp`, as far as it turns the bytes of its clients
into lines: accepting a connection, reading what is there, taking the complete lines out
of the buffer of the file descriptor, closing.  The machine `framer` reads the events of
the event loop and emits the calls of `processLine`.

The program knows a client by its file descriptor, and the kernel gives the descriptor
of a closed connection to a later one.  So the events carry the connection they belong
to, which the program does not see, and `Legal` says what the kernel promises.

* `Owned` is the invariant: the buffer of an open descriptor is the pending segment of
  the bytes of its connection.
* `lines_framed`: the lines of each connection are the complete segments of its bytes.
-/

namespace MatchingEngine
namespace Framer

/-! ## The event loop -/

/-- How the read loop of a client ended. -/
inductive Ending where
  | wouldBlock
  | error
  | eof
  deriving DecidableEq

/-- The variable `closed` after the read loop. -/
def Ending.closed : Ending → Bool
  | .wouldBlock => false
  | .error => true
  | .eof => true

/-- An event the loop handles, of the connection `conn`: `accept` has returned a
descriptor, and `setNonBlocking` and `epoll_ctl` have succeeded or not; or a descriptor
was ready, and the calls of `read` returned these bytes, each with the clock after
it. -/
inductive EpollEvent where
  | accept (conn fd : ℕ) (nonBlocking added : Bool)
  | ready (conn fd : ℕ) (reads : List (Str × ℤ)) (ending : Ending)

/-- The connection of an event. -/
def EpollEvent.conn : EpollEvent → ℕ
  | .accept conn _ _ _ => conn
  | .ready conn _ _ _ => conn

/-- A call `processLine(line, nextOrderId, recvTimestamp)`. -/
structure Call where
  line : Str
  recvTimestamp : ℤ
  deriving DecidableEq

/-- `clientBuffers`. -/
abbrev Buffers := Finmap fun _ : ℕ => Str

/-- One successful `read`: the first one stamps the event, and the bytes are appended to
the buffer, which `operator[]` creates when it is not there. -/
def receive (fd : ℕ) (s : Buffers × ℤ) (r : Str × ℤ) : Buffers × ℤ :=
  (s.1.insert fd ((s.1.lookup fd).getD [] ++ r.1), if s.2 = 0 then r.2 else s.2)

/-- `if (!line.empty() && line.back() == '\r') line.pop_back()`. -/
def popCR (line : Str) : Str := if line.getLast? = some '\r' then line.dropLast else line

/-- One carriage return is removed from the end, whatever is in front of it. -/
@[simp] theorem popCR_concat (line : Str) : popCR (line ++ ['\r']) = line := by
  unfold popCR
  rw [if_pos List.getLast?_concat, List.dropLast_concat]

/-- Nothing else is removed. -/
theorem popCR_of_not_suffix {line : Str} (h : ¬ ['\r'] <:+ line) : popCR line = line := by
  refine if_neg fun hlast => h ?_
  obtain ⟨front, rfl⟩ := List.getLast?_eq_some_iff.mp hlast
  exact List.suffix_append front ['\r']

/-- `while ((pos = dataBuffer.find('\n')) != npos)`: what is left in the buffer, and the
calls. -/
def takeLines (dataBuffer : Str) (recvTimestamp : ℤ) : Str × List Call :=
  (Loop.final (Segments.extract '\n') dataBuffer.length dataBuffer,
    (Loop.outputs (Segments.extract '\n') dataBuffer.length dataBuffer).map fun line =>
      ⟨popCR line, recvTimestamp⟩)

/-- What the loop does with an event. -/
def step (clientBuffers : Buffers) : EpollEvent → Buffers × List Call
  | .accept _ fd nonBlocking added =>
    if nonBlocking = false then (clientBuffers, [])
    else if added = false then (clientBuffers, [])
    else (clientBuffers.insert fd [], [])
  | .ready _ fd reads ending =>
    let r := reads.foldl (receive fd) (clientBuffers, 0)
    let s :=
      match r.1.lookup fd with
      | none => (r.1, [])
      | some dataBuffer =>
        (r.1.insert fd (takeLines dataBuffer r.2).1, (takeLines dataBuffer r.2).2)
    (if ending.closed then s.1.erase fd else s.1, s.2)

end Framer

/-- The event loop as a machine that reads events. -/
def framer : Machine Framer.Buffers Framer.EpollEvent Framer.Call := ⟨∅, Framer.step⟩

namespace Framer

/-! ## Connections -/

/-- The connection an open descriptor belongs to, after some events. -/
def owner (events : List EpollEvent) (fd : ℕ) : Option ℕ :=
  events.foldl (fun o e =>
    match e with
    | .accept conn fd' nonBlocking added =>
      if fd' = fd ∧ nonBlocking = true ∧ added = true then some conn else o
    | .ready _ fd' _ ending => if fd' = fd ∧ ending.closed = true then none else o) none

/-- The bytes read of a connection. -/
def received (conn : ℕ) (events : List EpollEvent) : Str :=
  events.flatMap fun e => match e with
    | .accept .. => []
    | .ready conn' _ reads _ => if conn' = conn then reads.flatMap Prod.fst else []

/-- The lines of a connection that were passed to `processLine`. -/
def linesOf (conn : ℕ) (events : List EpollEvent) : List Str :=
  (framer.logWhere (fun e => e.conn = conn) events).map Call.line

/-- **What the kernel promises.**  A descriptor that `accept` returns is not open, and its
connection is new; a descriptor that is ready is open, and belongs to its connection. -/
def Admissible (before : List EpollEvent) : EpollEvent → Prop
  | .accept conn fd _ _ => owner before fd = none ∧ ∀ e ∈ before, e.conn ≠ conn
  | .ready conn fd _ _ => owner before fd = some conn

instance (before : List EpollEvent) : DecidablePred (Admissible before) := fun e => by
  unfold Admissible
  cases e <;> infer_instance

/-- Every event is admissible after those before it. -/
def LegalAfter : List EpollEvent → List EpollEvent → Prop
  | _, [] => True
  | before, e :: after => Admissible before e ∧ LegalAfter (before ++ [e]) after

/-- A history of events that the kernel can deliver. -/
def Legal (events : List EpollEvent) : Prop := LegalAfter [] events

instance decidableLegalAfter : ∀ before events, Decidable (LegalAfter before events)
  | _, [] => inferInstanceAs (Decidable True)
  | before, e :: after =>
    have := decidableLegalAfter (before ++ [e]) after
    inferInstanceAs (Decidable (Admissible before e ∧ LegalAfter (before ++ [e]) after))

instance (events : List EpollEvent) : Decidable (Legal events) := decidableLegalAfter [] events

theorem legalAfter_concat (before events : List EpollEvent) (e : EpollEvent) :
    LegalAfter before (events ++ [e]) ↔
      LegalAfter before events ∧ Admissible (before ++ events) e := by
  induction events generalizing before with
  | nil =>
    rw [List.nil_append, LegalAfter, LegalAfter, LegalAfter, List.append_nil]
    exact and_comm
  | cons e' events ih =>
    rw [List.cons_append, LegalAfter, LegalAfter, ih, List.append_assoc, List.singleton_append,
      and_assoc]

theorem hereditary_legal : Machine.Hereditary Legal := fun events e h =>
  ((legalAfter_concat [] events e).mp h).1

theorem Legal.last {events : List EpollEvent} {e : EpollEvent} (h : Legal (events ++ [e])) :
    Admissible events e :=
  ((legalAfter_concat [] events e).mp h).2

theorem owner_accept (events : List EpollEvent) (conn fd : ℕ) (nonBlocking added : Bool)
    (fd' : ℕ) :
    owner (events ++ [.accept conn fd nonBlocking added]) fd' =
      if fd = fd' ∧ nonBlocking = true ∧ added = true then some conn else owner events fd' := by
  rw [owner, List.foldl_append]
  rfl

theorem owner_ready (events : List EpollEvent) (conn fd : ℕ) (reads : List (Str × ℤ))
    (ending : Ending) (fd' : ℕ) :
    owner (events ++ [.ready conn fd reads ending]) fd' =
      if fd = fd' ∧ ending.closed = true then none else owner events fd' := by
  rw [owner, List.foldl_append]
  rfl

theorem received_accept (c : ℕ) (events : List EpollEvent) (conn fd : ℕ)
    (nonBlocking added : Bool) :
    received c (events ++ [.accept conn fd nonBlocking added]) = received c events := by
  rw [received, List.flatMap_append, List.flatMap_singleton, List.append_nil, received]

theorem received_ready (c : ℕ) (events : List EpollEvent) (conn fd : ℕ)
    (reads : List (Str × ℤ)) (ending : Ending) :
    received c (events ++ [.ready conn fd reads ending]) =
      received c events ++ if conn = c then reads.flatMap Prod.fst else [] := by
  rw [received, List.flatMap_append, List.flatMap_singleton, received]

theorem linesOf_concat (c : ℕ) (events : List EpollEvent) (e : EpollEvent) :
    linesOf c (events ++ [e]) = linesOf c events ++
      if e.conn = c then (step (framer.run events) e).2.map Call.line else [] := by
  rw [linesOf, Machine.logWhere_concat, List.map_append, ← linesOf]
  by_cases hc : e.conn = c
  · rw [if_pos hc, if_pos (by simpa using hc)]
    rfl
  · rw [if_neg hc, if_neg (by simpa using hc), List.map_nil]

/-- Nothing has been read of a connection no event belongs to. -/
theorem received_of_new {c : ℕ} {events : List EpollEvent} (h : ∀ e ∈ events, e.conn ≠ c) :
    received c events = [] := by
  rw [received, List.flatMap_eq_nil_iff]
  intro e he
  cases e with
  | accept => rfl
  | ready conn fd reads ending => exact if_neg (h _ he)

/-! ## One event -/

/-- The read loop appends what it reads to the buffer of its descriptor, and leaves the
others. -/
theorem lookup_receive {fd : ℕ} (reads : List (Str × ℤ)) {s : Buffers} {data : Str} (t : ℤ)
    (hdata : s.lookup fd = some data) (fd' : ℕ) :
    (reads.foldl (receive fd) (s, t)).1.lookup fd' =
      if fd' = fd then some (data ++ reads.flatMap Prod.fst) else s.lookup fd' := by
  induction reads generalizing s data t with
  | nil =>
    rw [List.flatMap_nil, List.append_nil, List.foldl_nil]
    split
    · rename_i hfd
      rw [hfd, hdata]
    · rfl
  | cons r reads ih =>
    have hnew : (receive fd (s, t) r).1.lookup fd = some (data ++ r.1) := by
      rw [receive, Finmap.lookup_insert, hdata, Option.getD_some]
    rw [List.foldl_cons, List.flatMap_cons, ← List.append_assoc]
    refine (ih _ hnew).trans ?_
    split
    · rfl
    · rename_i hfd
      rw [receive, Finmap.lookup_insert_of_ne _ hfd]

/-- **An event of a client.**  Its complete lines are passed on, what is pending stays in
the buffer unless the descriptor is closed, and the other buffers stay. -/
theorem step_ready {s : Buffers} {fd : ℕ} {data : Str} (hdata : s.lookup fd = some data)
    (conn : ℕ) (reads : List (Str × ℤ)) (ending : Ending) :
    (∀ fd', (step s (.ready conn fd reads ending)).1.lookup fd' =
      if fd' = fd then
        if ending.closed = true then none
        else some (Segments.pending '\n' (data ++ reads.flatMap Prod.fst))
      else s.lookup fd') ∧
    (step s (.ready conn fd reads ending)).2.map Call.line =
      (Segments.complete '\n' (data ++ reads.flatMap Prod.fst)).map popCR := by
  have hlookup := lookup_receive reads 0 hdata
  have hfd := (hlookup fd).trans (if_pos rfl)
  obtain ⟨hout, hfinal⟩ := Segments.outputs_extract '\n' (data ++ reads.flatMap Prod.fst)
  simp only [step, takeLines, hfd, hout, hfinal, List.map_map]
  refine ⟨fun fd' => ?_, rfl⟩
  by_cases hfd' : fd' = fd
  · subst hfd'
    rw [if_pos rfl]
    split
    · exact Finmap.lookup_erase _ _
    · exact Finmap.lookup_insert _
  · rw [if_neg hfd']
    split
    · rw [Finmap.lookup_erase_ne hfd', Finmap.lookup_insert_of_ne _ hfd', hlookup, if_neg hfd']
    · rw [Finmap.lookup_insert_of_ne _ hfd', hlookup, if_neg hfd']

/-! ## Histories -/

/-- The invariant: descriptors belong to connections seen before, no two to one; the
buffer of an open descriptor is the pending segment of the bytes of its connection; and
the lines passed on are the complete ones. -/
structure Owned (events : List EpollEvent) (s : Buffers) : Prop where
  seen : ∀ fd c, owner events fd = some c → ∃ e ∈ events, e.conn = c
  single : ∀ fd fd' c, owner events fd = some c → owner events fd' = some c → fd = fd'
  buffer : ∀ fd c, owner events fd = some c →
    s.lookup fd = some (Segments.pending '\n' (received c events))
  lines : ∀ c, linesOf c events = (Segments.complete '\n' (received c events)).map popCR

theorem owned_nil : Owned [] framer.init where
  seen fd c h := absurd h (by simp [owner])
  single fd fd' c h _ := absurd h (by simp [owner])
  buffer fd c h := absurd h (by simp [owner])
  lines c := rfl

/-- Accepting a connection preserves the invariant. -/
theorem Owned.accept {events : List EpollEvent} (h : Owned events (framer.run events))
    {conn fd : ℕ} (nonBlocking added : Bool) (hnew : ∀ e ∈ events, e.conn ≠ conn) :
    Owned (events ++ [.accept conn fd nonBlocking added])
      (step (framer.run events) (.accept conn fd nonBlocking added)).1 := by
  have hfresh : ∀ fd', owner events fd' ≠ some conn := fun fd' hc => by
    obtain ⟨e, he, heq⟩ := h.seen fd' conn hc
    exact hnew e he heq
  refine ⟨fun fd' c hc => ?_, fun fd₁ fd₂ c h₁ h₂ => ?_, fun fd' c hc => ?_, fun c => ?_⟩
  · rw [owner_accept] at hc
    split at hc
    · exact ⟨_, List.mem_append_right _ (List.mem_singleton_self _), Option.some_inj.mp hc⟩
    · obtain ⟨e, he, heq⟩ := h.seen fd' c hc
      exact ⟨e, List.mem_append_left _ he, heq⟩
  · rw [owner_accept] at h₁ h₂
    split at h₁ <;> split at h₂
    · rename_i h₁' h₂'
      exact h₁'.1.symm.trans h₂'.1
    · rw [← Option.some_inj.mp h₁] at h₂
      exact absurd h₂ (hfresh fd₂)
    · rw [← Option.some_inj.mp h₂] at h₁
      exact absurd h₁ (hfresh fd₁)
    · exact h.single fd₁ fd₂ c h₁ h₂
  · rw [received_accept]
    rw [owner_accept] at hc
    split at hc
    · rename_i hopen
      obtain ⟨rfl, rfl, rfl⟩ := hopen
      obtain rfl := Option.some_inj.mp hc
      rw [received_of_new hnew]
      exact Finmap.lookup_insert _
    · rename_i hclosed
      rw [← h.buffer fd' c hc, step]
      split
      · rfl
      · split
        · rfl
        · rename_i hnb hadd
          rw [Bool.not_eq_false] at hnb hadd
          exact Finmap.lookup_insert_of_ne _ fun heq => hclosed ⟨heq.symm, hnb, hadd⟩
  · have hcalls : (step (framer.run events) (.accept conn fd nonBlocking added)).2 = [] := by
      rw [step]
      split
      · rfl
      · split <;> rfl
    rw [linesOf_concat, hcalls, List.map_nil, ite_self, List.append_nil, received_accept, h.lines]

/-- Handling a client preserves the invariant. -/
theorem Owned.ready {events : List EpollEvent} (h : Owned events (framer.run events))
    {conn fd : ℕ} (reads : List (Str × ℤ)) (ending : Ending)
    (howner : owner events fd = some conn) :
    Owned (events ++ [.ready conn fd reads ending])
      (step (framer.run events) (.ready conn fd reads ending)).1 := by
  obtain ⟨hlookup, hcalls⟩ := step_ready (h.buffer fd conn howner) conn reads ending
  have hold : ∀ {fd' c}, owner (events ++ [.ready conn fd reads ending]) fd' = some c →
      ¬ (fd = fd' ∧ ending.closed = true) ∧ owner events fd' = some c := by
    intro fd' c hc
    rw [owner_ready] at hc
    split at hc
    · exact absurd hc (by simp)
    · rename_i hnot
      exact ⟨hnot, hc⟩
  refine ⟨fun fd' c hc => ?_, fun fd₁ fd₂ c h₁ h₂ => ?_, fun fd' c hc => ?_, fun c => ?_⟩
  · obtain ⟨e, he, heq⟩ := h.seen fd' c (hold hc).2
    exact ⟨e, List.mem_append_left _ he, heq⟩
  · exact h.single fd₁ fd₂ c (hold h₁).2 (hold h₂).2
  · obtain ⟨hopen, hown⟩ := hold hc
    rw [hlookup, received_ready]
    by_cases hfd : fd' = fd
    · subst hfd
      obtain rfl := Option.some_inj.mp (howner.symm.trans hown)
      rw [if_pos rfl, if_pos rfl, if_neg fun hclosed => hopen ⟨rfl, hclosed⟩,
        (Segments.complete_append (received conn events) (reads.flatMap Prod.fst)).2]
    · -- another descriptor belongs to another connection
      have hne : conn ≠ c := by
        rintro rfl
        exact hfd (h.single fd' fd conn hown howner)
      rw [if_neg hfd, if_neg hne, List.append_nil, h.buffer fd' c hown]
  · rw [linesOf_concat, received_ready, h.lines]
    by_cases hc : conn = c
    · subst hc
      rw [if_pos rfl, if_pos (show EpollEvent.conn (.ready conn fd reads ending) = conn from rfl),
        hcalls, (Segments.complete_append (received conn events) (reads.flatMap Prod.fst)).1,
        List.map_append]
    · rw [if_neg hc, if_neg (show EpollEvent.conn (.ready conn fd reads ending) ≠ c from hc),
        List.append_nil, List.append_nil]

/-- **The invariant along every history** of events that the kernel can deliver. -/
theorem owned_run (events : List EpollEvent) (h : Legal events) :
    Owned events (framer.run events) := by
  refine framer.run_induction hereditary_legal owned_nil (fun events e hlegal hinv => ?_) events h
  cases e with
  | accept conn fd nonBlocking added => exact hinv.accept nonBlocking added hlegal.last.2
  | ready conn fd reads ending => exact hinv.ready reads ending hlegal.last

/-- **Framing does not depend on how bytes arrive.**  The lines of a connection that are
passed to `processLine` are, in order, the segments of its bytes that a line feed has
ended, each without one trailing carriage return.  So two histories with the same bytes
of a connection have the same lines of it, however the bytes were cut into reads and
wake-ups, whatever the other connections did, and whatever descriptor it had. -/
theorem lines_framed (events : List EpollEvent) (h : Legal events) (c : ℕ) :
    linesOf c events = (Segments.complete '\n' (received c events)).map popCR ∧
      ∀ events', Legal events' → received c events' = received c events →
        linesOf c events' = linesOf c events := by
  have hlines := (owned_run events h).lines c
  refine ⟨hlines, fun events' h' hsame => ?_⟩
  rw [(owned_run events' h').lines c, hlines, hsame]

/-- A carriage return and its line feed in two reads, another connection in between, and
a third one that gets the descriptor of the first. -/
theorem lines_framed_reused :
    let events : List EpollEvent := [.accept 0 5 true true, .accept 1 6 true true,
      .ready 0 5 [("STA".toList, 1), ("TS\r".toList, 2)] .wouldBlock,
      .ready 1 6 [("BOOK A\nBU".toList, 3)] .wouldBlock,
      .ready 0 5 [("\nCAN".toList, 4)] .eof, .accept 2 5 true true,
      .ready 2 5 [("CEL 1\n".toList, 5)] .error]
    linesOf 0 events = (Segments.complete '\n' (received 0 events)).map popCR ∧
      linesOf 0 events = ["STATS".toList] ∧ linesOf 1 events = ["BOOK A".toList] ∧
      linesOf 2 events = ["CEL 1".toList] := by
  intro events
  exact ⟨(lines_framed events (by decide) 0).1, by decide, by decide, by decide⟩

end Framer
end MatchingEngine
