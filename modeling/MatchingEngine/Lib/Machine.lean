import Mathlib.Data.List.Infix

/-!
# Machines and their histories

A deterministic machine reads inputs one at a time; each changes the state and
emits a list of outputs.  A *history* is the list of inputs read so far, oldest
first.  Facts about runs are proved by induction on the history, from the right:
what holds after `h` and is preserved by reading `i` holds after `h ++ [i]`.

Histories are often restricted (identifiers are not reused, a clock does not run
backwards), and the restriction is inherited by initial segments; `run_induction`
carries such a restriction along, and `simulation` does for two machines at once.
Where one machine takes several steps for what another does at once, `points_induction`
compares them at the steps at which the operations take effect.
-/

namespace MatchingEngine

variable {σ ι ω : Type*}

/-- A deterministic machine with output. -/
structure Machine (σ ι ω : Type*) where
  /-- The state before anything is read. -/
  init : σ
  /-- Read one input. -/
  step : σ → ι → σ × List ω

namespace Machine

variable (M : Machine σ ι ω)

/-- The state after reading a list of inputs from state `s`. -/
def runFrom (s : σ) (h : List ι) : σ := h.foldl (fun s i => (M.step s i).1) s

/-- The state after a history. -/
def run (h : List ι) : σ := M.runFrom M.init h

/-- Everything emitted while reading a list of inputs from state `s`. -/
def logFrom (s : σ) : List ι → List ω
  | [] => []
  | i :: h => (M.step s i).2 ++ logFrom (M.step s i).1 h

/-- Everything emitted along a history. -/
def log (h : List ι) : List ω := M.logFrom M.init h

@[simp] theorem runFrom_nil (s : σ) : M.runFrom s [] = s := rfl

@[simp] theorem runFrom_cons (s : σ) (i : ι) (h : List ι) :
    M.runFrom s (i :: h) = M.runFrom (M.step s i).1 h := rfl

theorem runFrom_append (s : σ) (h k : List ι) :
    M.runFrom s (h ++ k) = M.runFrom (M.runFrom s h) k := by
  rw [runFrom, List.foldl_append]
  rfl

@[simp] theorem run_nil : M.run [] = M.init := rfl

theorem run_concat (h : List ι) (i : ι) : M.run (h ++ [i]) = (M.step (M.run h) i).1 := by
  rw [run, runFrom_append]
  rfl

@[simp] theorem logFrom_nil (s : σ) : M.logFrom s [] = [] := rfl

@[simp] theorem logFrom_cons (s : σ) (i : ι) (h : List ι) :
    M.logFrom s (i :: h) = (M.step s i).2 ++ M.logFrom (M.step s i).1 h := rfl

theorem logFrom_append (s : σ) (h k : List ι) :
    M.logFrom s (h ++ k) = M.logFrom s h ++ M.logFrom (M.runFrom s h) k := by
  induction h generalizing s with
  | nil => rfl
  | cons i h ih =>
    rw [List.cons_append, logFrom_cons, logFrom_cons, ih, List.append_assoc, runFrom_cons]

theorem run_append (h k : List ι) : M.run (h ++ k) = M.runFrom (M.run h) k :=
  M.runFrom_append M.init h k

theorem log_append (h k : List ι) : M.log (h ++ k) = M.log h ++ M.logFrom (M.run h) k :=
  M.logFrom_append M.init h k

@[simp] theorem log_nil : M.log [] = [] := rfl

theorem log_concat (h : List ι) (i : ι) :
    M.log (h ++ [i]) = M.log h ++ (M.step (M.run h) i).2 := by
  rw [log, logFrom_append, logFrom_cons, logFrom_nil, List.append_nil]
  rfl

/-- Where an output was emitted. -/
theorem exists_split {β : Type*} {f : ω → Option β}
    (hone : ∀ s i, ∃ r, (M.step s i).2 = [r]) {h : List ι} {l l' : List β} {b : β}
    (hl : (M.log h).filterMap f = l ++ b :: l') :
    ∃ h₁ i r, h₁ ++ [i] <+: h ∧ (M.log h₁).filterMap f = l ∧ (M.step (M.run h₁) i).2 = [r] ∧
      f r = some b := by
  induction h using List.reverseRecOn generalizing l' with
  | nil => exact absurd hl (by simp)
  | append_singleton h i ih =>
    obtain ⟨r, hr⟩ := hone (M.run h) i
    rw [log_concat, hr, List.filterMap_append] at hl
    have hmore : ∀ {l''}, (M.log h).filterMap f = l ++ b :: l'' →
        ∃ h₁ j r, h₁ ++ [j] <+: h ++ [i] ∧ (M.log h₁).filterMap f = l ∧
          (M.step (M.run h₁) j).2 = [r] ∧ f r = some b := by
      intro l'' h''
      obtain ⟨h₁, j, r, hpre, hrest⟩ := ih h''
      exact ⟨h₁, j, r, hpre.trans (List.prefix_append _ _), hrest⟩
    cases hf : f r with
    | none =>
      rw [List.filterMap_cons_none hf, List.filterMap_nil, List.append_nil] at hl
      exact hmore hl
    | some b' =>
      rw [List.filterMap_cons_some hf, List.filterMap_nil] at hl
      rcases List.eq_nil_or_concat l' with rfl | ⟨l'', c, rfl⟩
      · obtain ⟨hl, hb⟩ := List.append_inj_left' hl rfl, List.append_inj_right' hl rfl
        exact ⟨h, i, r, List.prefix_rfl, hl, hr, hf.trans (congrArg some (List.cons.inj hb).1)⟩
      · rw [List.concat_eq_append, ← List.cons_append, ← List.append_assoc] at hl
        exact hmore (List.append_inj_left' hl rfl)

/-- A machine that does not see what `f` changes in its inputs. -/
theorem run_map {f : ι → ι} (hf : ∀ s i, M.step s (f i) = M.step s i) (h : List ι) :
    M.run (h.map f) = M.run h := by
  induction h using List.reverseRecOn with
  | nil => rfl
  | append_singleton h i ih =>
    rw [List.map_append, List.map_singleton, run_concat, run_concat, ih, hf]

theorem log_map {f : ι → ι} (hf : ∀ s i, M.step s (f i) = M.step s i) (h : List ι) :
    M.log (h.map f) = M.log h := by
  induction h using List.reverseRecOn with
  | nil => rfl
  | append_singleton h i ih =>
    rw [List.map_append, List.map_singleton, log_concat, log_concat, ih, M.run_map hf, hf]

/-- Everything emitted from state `s` while reading the inputs that satisfy `p`. -/
def logWhereFrom (p : ι → Bool) (s : σ) : List ι → List ω
  | [] => []
  | i :: h => (if p i then (M.step s i).2 else []) ++ logWhereFrom p (M.step s i).1 h

/-- Everything emitted along a history while reading the inputs that satisfy
`p`. -/
def logWhere (p : ι → Bool) (h : List ι) : List ω := M.logWhereFrom p M.init h

@[simp] theorem logWhere_nil (p : ι → Bool) : M.logWhere p [] = [] := rfl

theorem logWhereFrom_concat (p : ι → Bool) (s : σ) (h : List ι) (i : ι) :
    M.logWhereFrom p s (h ++ [i]) = M.logWhereFrom p s h ++
      if p i then (M.step (M.runFrom s h) i).2 else [] := by
  induction h generalizing s with
  | nil => exact List.append_nil _
  | cons j h ih =>
    rw [List.cons_append, logWhereFrom, ih, logWhereFrom, List.append_assoc, runFrom_cons]

theorem logWhere_concat (p : ι → Bool) (h : List ι) (i : ι) :
    M.logWhere p (h ++ [i]) = M.logWhere p h ++
      if p i then (M.step (M.run h) i).2 else [] :=
  M.logWhereFrom_concat p M.init h i

/-- A condition on histories that is inherited by initial segments. -/
def Hereditary (ok : List ι → Prop) : Prop := ∀ h i, ok (h ++ [i]) → ok h

/-- **Induction along histories.**  A relation between histories and states that
holds at the start and is preserved by every admissible input holds after every
admissible history. -/
theorem run_induction {ok : List ι → Prop} (hok : Hereditary ok) {I : List ι → σ → Prop}
    (h0 : I [] M.init)
    (hstep : ∀ h i, ok (h ++ [i]) → I h (M.run h) → I (h ++ [i]) (M.step (M.run h) i).1) :
    ∀ h, ok h → I h (M.run h) := by
  intro h
  induction h using List.reverseRecOn with
  | nil => exact fun _ => h0
  | append_singleton h i ih =>
    intro hh
    rw [run_concat]
    exact hstep h i hh (ih (hok h i hh))

/-- An invariant of the states, whatever is read. -/
theorem run_invariant {I : σ → Prop} (h0 : I M.init)
    (hstep : ∀ s i, I s → I (M.step s i).1) (h : List ι) : I (M.run h) :=
  have hok : Hereditary fun _ : List ι => True := fun _ _ _ => trivial
  M.run_induction hok (I := fun _ s => I s) h0 (fun h i _ hs => hstep (M.run h) i hs) h trivial

/-- **Simulation.**  Two machines that read the same inputs emit the same outputs, when
a relation between their states holds at the start and every admissible input makes
related states emit the same and leads to related states. -/
theorem simulation {τ : Type*} (M' : Machine τ ι ω) {ok : List ι → Prop} (hok : Hereditary ok)
    {R : List ι → σ → τ → Prop} (h0 : R [] M.init M'.init)
    (hstep : ∀ h i t, ok (h ++ [i]) → R h (M.run h) t →
      (M.step (M.run h) i).2 = (M'.step t i).2 ∧
        R (h ++ [i]) (M.step (M.run h) i).1 (M'.step t i).1) :
    ∀ h, ok h → M.log h = M'.log h ∧ R h (M.run h) (M'.run h) := by
  intro h
  induction h using List.reverseRecOn with
  | nil => exact fun _ => ⟨rfl, h0⟩
  | append_singleton h i ih =>
    intro hh
    obtain ⟨hlog, hrel⟩ := ih (hok h i hh)
    obtain ⟨hout, hrel'⟩ := hstep h i _ hh hrel
    rw [log_concat, log_concat, run_concat, run_concat, hlog, hout]
    exact ⟨rfl, hrel'⟩

/-! ## Operations that take effect at a step

A machine whose operations take several steps is compared with one that performs each
operation at once.  `p` says which operations take effect at a step. -/

section Points

variable {τ κ ω' : Type*} (p : σ → ι → List κ)

/-- The operations that take effect while reading a list of inputs from state `s`. -/
def pointsFrom (s : σ) : List ι → List κ
  | [] => []
  | i :: h => p s i ++ pointsFrom (M.step s i).1 h

/-- The operations that take effect along a history. -/
def points (h : List ι) : List κ := M.pointsFrom p M.init h

theorem pointsFrom_append (s : σ) (h k : List ι) :
    M.pointsFrom p s (h ++ k) = M.pointsFrom p s h ++ M.pointsFrom p (M.runFrom s h) k := by
  induction h generalizing s with
  | nil => rfl
  | cons i h ih =>
    rw [List.cons_append, pointsFrom, pointsFrom, ih, List.append_assoc, runFrom_cons]

/-- An operation that has taken effect keeps its place. -/
theorem points_append (h k : List ι) :
    M.points p (h ++ k) = M.points p h ++ M.pointsFrom p (M.run h) k :=
  M.pointsFrom_append p M.init h k

variable {M p}

/-- **Operations at once.**  A relation between the two machines and what they have
emitted holds after every history, when it holds at the start and every step is matched
by the operations that take effect at it. -/
theorem points_induction {S : Machine τ κ ω'} {R : List ω → σ → List ω' → τ → Prop}
    (h0 : R [] M.init [] S.init)
    (hstep : ∀ log s log' t i, R log s log' t →
      R (log ++ (M.step s i).2) (M.step s i).1 (log' ++ S.logFrom t (p s i))
        (S.runFrom t (p s i))) (h : List ι) :
    R (M.log h) (M.run h) (S.log (M.points p h)) (S.run (M.points p h)) := by
  induction h using List.reverseRecOn with
  | nil => exact h0
  | append_singleton h i ih =>
    have hpoints : M.points p (h ++ [i]) = M.points p h ++ p (M.run h) i := by
      rw [points_append, pointsFrom, pointsFrom, List.append_nil]
    rw [hpoints, log_concat, run_concat, log_append, run_append]
    exact hstep _ _ _ _ i ih

end Points

theorem Hereditary.of_append {ok : List ι → Prop} (hok : Hereditary ok) {h k : List ι}
    (hh : ok (h ++ k)) : ok h := by
  induction k using List.reverseRecOn with
  | nil => rwa [List.append_nil] at hh
  | append_singleton k i ih =>
    rw [← List.append_assoc] at hh
    exact ih (hok (h ++ k) i hh)

end Machine
end MatchingEngine
