import MatchingEngine.Server.Feeds

/-!
# No event is lost

`epoll_wait` returns a batch of events, and `main` handles them one after the other before
it waits again.  So what has been handled is what has arrived, in the same order, but for
the rest of the batch at hand.

* `Handled`: the events that have arrived, and those that have been handled.
* `mainStep_pending`: a step of `main` handles the next event, or none.
* `handled_run`: the account is kept along every schedule, and `Handled.of_wait` reads it
  when `main` waits.
-/

namespace MatchingEngine

variable {P : Type}

namespace Pipeline

/-- The events that are left of the batch at hand. -/
def Main.pending : Main → List Arrival
  | .events rest => rest
  | .lines _ rest => rest
  | .push _ rest => rest
  | _ => []

/-- The event is this arrival, handled at some time. -/
def Arrival.HandledAs (a : Arrival) (e : Framer.EpollEvent) : Prop := ∃ clock, e = a.event clock

variable [LinearOrder P]

/-- The events that a step brings in: `epoll_wait` returns when `main` waits in it. -/
def incoming (s : Pipeline P) (a : Action) : List Arrival :=
  match a.turn, s.main with
  | .arrive batch, .wait => batch
  | _, _ => []

/-- What has arrived has been handled, in the order in which it came, but for the rest of
the batch at hand. -/
def Handled (arrived : List Arrival) (log : List (Happened P)) (s : Pipeline P) : Prop :=
  ∃ done, arrived = done ++ s.main.pending ∧ List.Forall₂ Arrival.HandledAs done (events log)

variable {arrived : List Arrival} {log : List (Happened P)} {s s' : Pipeline P}

/-- A step that handles no event. -/
theorem Handled.moves {out : List (Happened P)} (h : Handled arrived log s)
    (hpending : s'.main.pending = s.main.pending) (hout : events out = []) :
    Handled arrived (log ++ out) s' := by
  obtain ⟨done, harrived, hdone⟩ := h
  refine ⟨done, hpending ▸ harrived, ?_⟩
  rw [events_append, hout, List.append_nil]
  exact hdone

/-- A step that handles the next event. -/
theorem Handled.next {out : List (Happened P)} (h : Handled arrived log s) {a : Arrival}
    {clock : ℤ} (hpending : s.main.pending = a :: s'.main.pending)
    (hout : events out = [a.event clock]) : Handled arrived (log ++ out) s' := by
  obtain ⟨done, harrived, hdone⟩ := h
  refine ⟨done ++ [a], ?_, ?_⟩
  · rw [harrived, hpending, List.append_assoc]
    rfl
  · rw [events_append, hout]
    exact List.rel_append hdone (.cons ⟨clock, rfl⟩ .nil)

/-- **When `main` waits, everything that has arrived has been handled.** -/
theorem Handled.of_wait (h : Handled arrived log s) (hwait : s.main = .wait) :
    List.Forall₂ Arrival.HandledAs arrived (events log) := by
  obtain ⟨done, harrived, hdone⟩ := h
  rw [hwait] at harrived
  rw [harrived, show Main.wait.pending = [] from rfl, List.append_nil]
  exact hdone

variable [Zero P] {toDouble : ℚ → Option P} {memory : Command P}

variable (toDouble memory) in
/-- **A step of `main`** handles the next event of its batch, or none. -/
theorem mainStep_pending (systemClock : ℤ) (s : Pipeline P) :
    ((mainStep toDouble memory systemClock s).1.main.pending = s.main.pending ∧
        events (mainStep toDouble memory systemClock s).2 = []) ∨
      ∃ a, s.main.pending = a :: (mainStep toDouble memory systemClock s).1.main.pending ∧
        events (mainStep toDouble memory systemClock s).2 = [a.event s.clock] := by
  have hqueue : events (queueStep s .producer).2 = [] := filterMap_map_none (fun _ => rfl) _
  rw [mainStep]
  cases hpc : s.main with
  | test =>
    left
    simp only
    split <;> exact ⟨rfl, rfl⟩
  | wait => exact Or.inl ⟨congrArg Main.pending hpc, rfl⟩
  | events batch =>
    cases batch with
    | nil => exact Or.inl ⟨rfl, rfl⟩
    | cons a rest => exact Or.inr ⟨a, rfl, rfl⟩
  | lines calls rest =>
    left
    cases calls with
    | nil => exact ⟨rfl, rfl⟩
    | cons c calls =>
      simp only [lineStep]
      cases processLine toDouble ⟨c.line, c.recvTimestamp, systemClock, s.clock⟩ s.nextOrderId with
      | mk pushed nextOrderId notice =>
        cases pushed with
        | none => cases notice <;> exact ⟨rfl, rfl⟩
        | some cmd => cases notice <;> exact ⟨rfl, rfl⟩
  | push calls rest =>
    left
    simp only
    split
    · exact ⟨rfl, rfl⟩
    · exact ⟨congrArg Main.pending hpc, hqueue⟩
  | shutdown => exact Or.inl ⟨rfl, rfl⟩
  | finalCall recvTimestamp => exact Or.inl ⟨rfl, rfl⟩
  | finalPush =>
    left
    simp only
    split
    · exact ⟨rfl, rfl⟩
    · exact ⟨rfl, rfl⟩
    · exact ⟨congrArg Main.pending hpc, hqueue⟩
  | storeRunning => exact Or.inl ⟨rfl, rfl⟩
  | join =>
    left
    simp only
    split
    · exact ⟨rfl, rfl⟩
    · exact ⟨congrArg Main.pending hpc, rfl⟩
  | returned => exact Or.inl ⟨congrArg Main.pending hpc, rfl⟩

/-- A step of somebody keeps the account. -/
theorem Handled.step (h : Handled arrived log s) (a : Action) :
    Handled (arrived ++ incoming s a) (log ++ (Pipeline.step toDouble memory s a).2)
      (Pipeline.step toDouble memory s a).1 := by
  have hnil : arrived ++ [] = arrived := List.append_nil _
  unfold Pipeline.step incoming
  cases a.turn with
  | signal =>
    rw [hnil]
    exact h.moves rfl rfl
  | main systemClock =>
    rw [hnil]
    rcases mainStep_pending toDouble memory systemClock
      { s with clock := s.clock + a.elapsed } with ⟨hpending, hout⟩ | ⟨b, hpending, hout⟩
    · exact h.moves hpending hout
    · exact h.next hpending hout
  | arrive batch =>
    simp only [turnStep]
    cases hpc : s.main with
    | wait =>
      -- `main` only waits when the last batch is done with
      obtain ⟨done, harrived, hdone⟩ := h
      refine ⟨done, ?_, ?_⟩
      · rw [harrived, hpc]
        exact congrArg (· ++ batch) (List.append_nil done)
      · rw [List.append_nil]
        exact hdone
    | _ =>
      rw [hnil]
      exact h.moves (congrArg Main.pending hpc).symm rfl
  | epollError =>
    rw [hnil, turnStep]
    cases hpc : s.main with
    | wait => exact h.moves (congrArg Main.pending hpc).symm rfl
    | _ => exact h.moves (congrArg Main.pending hpc).symm rfl
  | matching =>
    rw [hnil]
    have hf := matchingStep_frame { s with clock := s.clock + a.elapsed }
    exact h.moves (congrArg Main.pending hf.main) hf.events

/-- The events that have arrived along a schedule. -/
def arrivals (toDouble : ℚ → Option P) (memory : Command P) (buffer : ℕ → Command P) (boot : ℤ)
    (acts : List Action) : List Arrival :=
  (pipeline toDouble memory buffer boot).points incoming acts

theorem arrivals_concat (toDouble : ℚ → Option P) (memory : Command P) (buffer : ℕ → Command P)
    (boot : ℤ) (acts : List Action) (a : Action) :
    arrivals toDouble memory buffer boot (acts ++ [a]) =
      arrivals toDouble memory buffer boot acts ++
        incoming ((pipeline toDouble memory buffer boot).run acts) a := by
  unfold arrivals
  rw [Machine.points_append, Machine.pointsFrom, Machine.pointsFrom, List.append_nil]

/-- **The account is kept** along every schedule. -/
theorem handled_run (toDouble : ℚ → Option P) (memory : Command P) (buffer : ℕ → Command P)
    (boot : ℤ) (acts : List Action) :
    Handled (arrivals toDouble memory buffer boot acts)
      ((pipeline toDouble memory buffer boot).log acts)
      ((pipeline toDouble memory buffer boot).run acts) := by
  induction acts using List.reverseRecOn with
  | nil => exact ⟨[], rfl, .nil⟩
  | append_singleton acts a ih =>
    rw [arrivals_concat, Machine.log_concat, Machine.run_concat]
    exact ih.step a

end Pipeline
end MatchingEngine
