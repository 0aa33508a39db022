import MatchingEngine.Server.Shutdown

/-!
# A producer that nobody serves

The retry loop around `push` ends when the consumer makes room, and the consumer leaves
for good when it finds `running` cleared.  `main` does not look at `running` between two
lines.  So a matching thread that leaves while `main` has more commands in hand than the
ring has room for leaves it in that loop for ever (`Wedged`).

* `SPSCQueue.size`: the number of items in the ring, from its indices.
* `wedged_forever`: no step of anybody ends the loop.
* `Safe`: once the matching thread has returned, what `main` has in hand fits into the
  ring.  Every step preserves it but the two that `Fits` is about.
* `wedge_iff`: a run leads to no wedged state exactly when all its steps fit.
-/

namespace MatchingEngine

variable {P : Type}

/-- The number of items in the ring. -/
def SPSCQueue.size (Capacity : ℕ) {T : Type} (q : SPSCQueue T) : ℕ :=
  (q.tail + Capacity - q.head) % Capacity

/-- The commands of the lines that have arrived which are not in the ring yet. -/
def Network.unsent : Network P → List (Command P)
  | .push cmd rest => cmd :: rest
  | _ => []

variable [LinearOrder P]

namespace Server

omit [LinearOrder P] in
theorem unsent_nextLine (cmds : List (Command P)) : (nextLine cmds).unsent = cmds := by
  cases cmds <;> rfl

omit [LinearOrder P] in
/-- Only in a push is there something in hand. -/
theorem exists_push (network : Network P) (h : 0 < network.unsent.length) :
    ∃ cmd rest, network = .push cmd rest := by
  cases network with
  | push cmd rest => exact ⟨cmd, rest, rfl⟩
  | _ => exact absurd h (by simp [Network.unsent])

/-- The matching thread has returned, and `main` is in a push that fails. -/
def Wedged (s : Server P) : Prop :=
  s.matching = .returned ∧ ∃ cmd rest, s.network = .push cmd rest ∧
    (s.queue.push 1024 cmd).2 = false

/-- **What a step asks of the ring.**  When the matching thread leaves its loop, and
when lines arrive after that, the commands in hand fit into the ring. -/
def Fits (s : Server P) : Action P → Prop
  | .matching => s.matching = .test → s.running = false →
      s.queue.size 1024 + s.network.unsent.length ≤ 1023
  | .arrive cmds => s.matching = .returned → s.network = .wait →
      s.queue.size 1024 + cmds.length ≤ 1023
  | _ => True

/-! ## The loop never ends -/

/-- No step of anybody ends a failing push when the matching thread has returned. -/
theorem Wedged.step {s : Server P} (h : Wedged s) (final : Command P) (a : Action P) :
    Wedged (Server.step final s a).1 := by
  obtain ⟨hm, cmd, rest, hn, hpush⟩ := h
  cases a with
  | signal => exact ⟨hm, cmd, rest, hn, hpush⟩
  | network =>
    rw [Server.step, networkStep, hn]
    simp only [hpush]
    exact ⟨hm, cmd, rest, hn, hpush⟩
  | arrive cmds =>
    rw [Server.step, hn]
    exact ⟨hm, cmd, rest, hn, hpush⟩
  | epollError =>
    rw [Server.step, hn]
    exact ⟨hm, cmd, rest, hn, hpush⟩
  | matching =>
    rw [Server.step, matchingStep, hm]
    exact ⟨hm, cmd, rest, hn, hpush⟩

theorem wedged_forever (final : Command P) (buffer : ℕ → Command P) {s : Server P}
    (h : Wedged s) (steps : List (Action P)) : Wedged ((server final buffer).runFrom s steps) := by
  induction steps generalizing s with
  | nil => exact h
  | cons a steps ih => exact ih (h.step final a)

/-! ## Room -/

/-- The indices count what has been sent and not popped. -/
theorem Inv.size_eq {log : List (Output P)} {s : Server P} (h : Inv log s) :
    s.queue.size 1024 = (sent log).length - (handled log ++ s.matching.inHand).length :=
  Ring.Rep.size_eq h.holds

theorem Inv.size_le {log : List (Output P)} {s : Server P} (h : Inv log s) :
    s.queue.size 1024 ≤ 1023 := by
  have hroom := Ring.Rep.room h.holds
  have hle := h.order.length_le
  rw [h.size_eq]
  omega

/-- A push fails when the ring holds 1023 items, and otherwise adds one. -/
theorem Inv.push_size {log : List (Output P)} {s : Server P} (h : Inv log s) (cmd : Command P) :
    (s.queue.size 1024 = 1023 ∧ s.queue.push 1024 cmd = (s.queue, false)) ∨
      (s.queue.size 1024 < 1023 ∧ (s.queue.push 1024 cmd).2 = true ∧
        (s.queue.push 1024 cmd).1.size 1024 = s.queue.size 1024 + 1) := by
  have hle := h.order.length_le
  rcases SPSCQueue.push_spec h.holds cmd with ⟨hfull, hpush⟩ | ⟨hlt, hok, hholds⟩
  · refine Or.inl ⟨?_, hpush⟩
    rw [h.size_eq]
    omega
  · refine Or.inr ⟨?_, hok, ?_⟩
    · rw [h.size_eq]
      omega
    rw [show (s.queue.push 1024 cmd).1.size 1024 = _ from Ring.Rep.size_eq hholds, h.size_eq,
      List.length_append, List.length_singleton]
    omega

/-- When the matching thread has returned, what `main` has in hand fits. -/
def Safe (s : Server P) : Prop :=
  s.matching = .returned → s.queue.size 1024 + s.network.unsent.length ≤ 1023

theorem Safe.not_wedged {log : List (Output P)} {s : Server P} (hsafe : Safe s)
    (h : Inv log s) : ¬ Wedged s := by
  rintro ⟨hm, cmd, rest, hn, hpush⟩
  have hfits := hsafe hm
  rw [hn, Network.unsent, List.length_cons] at hfits
  rcases h.push_size cmd with ⟨hfull, -⟩ | ⟨-, hok, -⟩
  · omega
  · rw [hpush] at hok
    exact absurd hok (by simp)

/-- **One step**: what `main` has in hand goes on to fit. -/
theorem Safe.step {log : List (Output P)} {s : Server P} (hsafe : Safe s) (h : Inv log s)
    (final : Command P) {a : Action P} (hfits : Fits s a) : Safe (Server.step final s a).1 := by
  have hsize := (h.step final a).size_le
  cases a with
  | signal => exact hsafe
  | network =>
    rw [Server.step, networkStep] at hsize ⊢
    cases hpc : s.network with
    | test =>
      simp only
      split
      · exact fun hm => (hsafe hm).trans' (by rw [hpc]; rfl)
      · exact fun hm => (hsafe hm).trans' (by rw [hpc]; rfl)
    | wait => exact hsafe
    | push cmd rest =>
      rcases h.push_size cmd with ⟨-, hpush⟩ | ⟨-, hok, hgrow⟩
      · simp only [hpush]
        exact hsafe
      · simp only [hok, if_true]
        intro hm
        have hold := hsafe hm
        rw [hpc, Network.unsent, List.length_cons] at hold
        show (s.queue.push 1024 cmd).1.size 1024 + (nextLine rest).unsent.length ≤ 1023
        rw [unsent_nextLine]
        omega
    | finalPush =>
      rw [hpc] at hsize
      exact fun _ => hsize
    | storeRunning => exact fun hm => (hsafe hm).trans' (by rw [hpc]; rfl)
    | join =>
      cases hm : s.matching with
      | returned => exact fun _ => (hsafe hm).trans' (by rw [hpc]; rfl)
      | _ => exact hsafe
    | returned => exact hsafe
  | arrive cmds =>
    rw [Server.step]
    cases hpc : s.network with
    | wait =>
      intro hm
      show s.queue.size 1024 + (nextLine cmds).unsent.length ≤ 1023
      rw [unsent_nextLine]
      exact hfits hm hpc
    | _ => exact hsafe
  | epollError =>
    rw [Server.step]
    cases hpc : s.network with
    | wait => exact fun hm => (hsafe hm).trans' (by rw [hpc]; rfl)
    | _ => exact hsafe
  | matching =>
    rw [Server.step, matchingStep]
    cases hm : s.matching with
    | test =>
      simp only
      split
      · exact fun hr => absurd hr (by simp)
      · rename_i hrunning
        exact fun _ => hfits hm (by simpa using hrunning)
    | pop =>
      simp only
      split <;> exact fun hr => absurd hr (by simp)
    | dispatch cmd => exact fun hr => absurd hr (by simp)
    | returned => exact hsafe

/-- All steps of the run fit. -/
def Roomy (final : Command P) (buffer : ℕ → Command P) (steps : List (Action P)) : Prop :=
  ∀ before a after, steps = before ++ a :: after → Fits ((server final buffer).run before) a

theorem safe_run {final : Command P} {buffer : ℕ → Command P} {steps : List (Action P)}
    (h : Roomy final buffer steps) : Safe ((server final buffer).run steps) := by
  induction steps using List.reverseRecOn with
  | nil => exact fun hm => absurd hm (by simp [server])
  | append_singleton steps a ih =>
    have hprev : Roomy final buffer steps := fun before b after hsplit =>
      h before b (after ++ [a]) (by rw [hsplit, List.append_assoc, List.cons_append])
    rw [Machine.run_concat]
    exact (ih hprev).step (inv_run final buffer steps) final (h steps a [] rfl)

/-! ## No room -/

/-- **Too many commands in hand.**  When the matching thread has returned, `main` fills
the ring and then stands before it. -/
theorem wedged_of_over (final : Command P) (buffer : ℕ → Command P) {log : List (Output P)}
    {s : Server P} (h : Inv log s) (hm : s.matching = .returned)
    (hover : 1023 < s.queue.size 1024 + s.network.unsent.length) :
    Wedged ((server final buffer).runFrom s
      (List.replicate (1023 - s.queue.size 1024) .network)) := by
  obtain ⟨k, hk⟩ : ∃ k, 1023 - s.queue.size 1024 = k := ⟨_, rfl⟩
  rw [hk]
  induction k generalizing s log with
  | zero =>
    have hle := h.size_le
    obtain ⟨cmd, rest, hpc⟩ := exists_push s.network (by omega)
    rcases h.push_size cmd with ⟨-, hpush⟩ | ⟨hlt, -⟩
    · exact ⟨hm, cmd, rest, hpc, congrArg Prod.snd hpush⟩
    · omega
  | succ k ih =>
    have hle := h.size_le
    obtain ⟨cmd, rest, hpc⟩ := exists_push s.network (by omega)
    rw [hpc, Network.unsent, List.length_cons] at hover
    rcases h.push_size cmd with ⟨hfull, -⟩ | ⟨hlt, hok, hgrow⟩
    · omega
    have hstep : (Server.step final s .network).1 =
        { s with queue := (s.queue.push 1024 cmd).1, network := nextLine rest } := by
      rw [Server.step, networkStep, hpc]
      simp only [hok, if_true]
    have hinv := h.step final .network
    rw [hstep] at hinv
    rw [List.replicate_succ, Machine.runFrom_cons]
    show Wedged ((server final buffer).runFrom (Server.step final s .network).1 _)
    rw [hstep]
    refine ih hinv hm ?_ ?_
    · show 1023 < (s.queue.push 1024 cmd).1.size 1024 + (nextLine rest).unsent.length
      rw [unsent_nextLine]
      omega
    · show 1023 - (s.queue.push 1024 cmd).1.size 1024 = k
      omega

/-- After a step that does not fit. -/
theorem over_of_not_fits (final : Command P) {s : Server P} {a : Action P} (h : ¬ Fits s a) :
    (Server.step final s a).1.matching = .returned ∧
      1023 < (Server.step final s a).1.queue.size 1024 +
        (Server.step final s a).1.network.unsent.length := by
  cases a with
  | matching =>
    simp only [Fits, Classical.not_imp, not_le] at h
    obtain ⟨htest, hrunning, hover⟩ := h
    rw [Server.step, matchingStep, htest]
    simp only [hrunning]
    exact ⟨rfl, hover⟩
  | arrive cmds =>
    simp only [Fits, Classical.not_imp, not_le] at h
    obtain ⟨hm, hwait, hover⟩ := h
    rw [Server.step, hwait]
    refine ⟨hm, ?_⟩
    show 1023 < s.queue.size 1024 + (nextLine cmds).unsent.length
    rwa [unsent_nextLine]
  | signal => exact absurd trivial h
  | network => exact absurd trivial h
  | epollError => exact absurd trivial h

/-- **When shutdown wedges the producer.**  Neither the states of a run nor those that
`main` reaches from them on its own are wedged, if and only if at every step at which
the matching thread leaves its loop, and at every step at which lines arrive after
that, the commands `main` has in hand fit into the ring. -/
theorem wedge_iff (final : Command P) (buffer : ℕ → Command P) (steps : List (Action P)) :
    (∀ k, k <+: steps → ∀ n,
      ¬ Wedged ((server final buffer).run (k ++ List.replicate n .network))) ↔
    Roomy final buffer steps := by
  constructor
  · rintro hno before a after rfl
    by_contra hfits
    obtain ⟨hm, hover⟩ := over_of_not_fits final hfits
    have hinv := (inv_run final buffer before).step final a
    refine hno (before ++ [a]) ⟨after, by simp⟩
      (1023 - (Server.step final ((server final buffer).run before) a).1.queue.size 1024) ?_
    rw [Machine.run_append, Machine.run_concat]
    exact wedged_of_over final buffer hinv hm hover
  · rintro h k ⟨rest, rfl⟩ n
    have hk : Roomy final buffer k := fun before a after hsplit =>
      h before a (after ++ rest) (by rw [hsplit, List.append_assoc, List.cons_append])
    -- a step of `main` cannot fail to fit
    have hsafe : Safe ((server final buffer).run (k ++ List.replicate n .network)) := by
      induction n with
      | zero => simpa using safe_run hk
      | succ n ih =>
        rw [List.replicate_succ', ← List.append_assoc, Machine.run_concat]
        exact ih.step (inv_run final buffer _) final trivial
    exact hsafe.not_wedged (inv_run final buffer _)

/-- Lines that are more than the ring holds, and a matching thread that leaves before any
of them is pushed. -/
theorem wedged_of_batch (final : Command P) (buffer : ℕ → Command P) {cmds : List (Command P)}
    (h : 1023 < cmds.length) :
    Wedged ((server final buffer).run ([.network, .arrive cmds, .signal, .matching] ++
      List.replicate 1023 .network)) := by
  have hinv := inv_run final buffer [.network, .arrive cmds, .signal, .matching]
  have hm : ((server final buffer).run [.network, .arrive cmds, .signal, .matching]).matching =
      .returned := rfl
  have hsize : ((server final buffer).run
      [.network, .arrive cmds, .signal, .matching]).queue.size 1024 = 0 := by
    show (0 + 1024 - 0) % 1024 = 0
    decide
  have hunsent : ((server final buffer).run
      [.network, .arrive cmds, .signal, .matching]).network.unsent = cmds := unsent_nextLine cmds
  rw [Machine.run_append]
  generalize (server final buffer).run [.network, .arrive cmds, .signal, .matching] = s at *
  have hwedged := wedged_of_over final buffer hinv hm (by rw [hsize, hunsent]; omega)
  rwa [hsize, Nat.sub_zero] at hwedged

/-- **A batch larger than the ring.**  1024 lines arrive at once, the signal comes, and
the matching thread leaves before `main` has pushed any of them: the last push never
ends. -/
theorem wedged_by_batch :
    let cmd : Command ℤ := .newOrder 1 .buy ['A'] 5 10 1 0 0
    let steps : List (Action ℤ) :=
      [.network, .arrive (List.replicate 1024 cmd), .signal, .matching] ++
        List.replicate 1023 .network
    let m := server (shutdownCmd cmd 0 0) fun _ => cmd
    Wedged (m.run steps) ∧ ∀ more, Wedged (m.run (steps ++ more)) := by
  intro cmd steps m
  have hwedged : Wedged (m.run steps) :=
    wedged_of_batch _ _ (by rw [List.length_replicate]; decide)
  refine ⟨hwedged, fun more => ?_⟩
  rw [Machine.run_append]
  exact wedged_forever _ _ hwedged more

end Server
end MatchingEngine
