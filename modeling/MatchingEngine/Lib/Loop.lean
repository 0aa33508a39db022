import Mathlib.Data.List.Infix
import Mathlib.Data.List.Chain
import Mathlib.Data.List.Forall2

/-!
# Loops that produce output

A `while` loop whose body may stop is a partial step function
`step : σ → Option (ω × σ)`: `none` is the exit, `some (o, s')` is one iteration
that emits `o` and continues from `s'`.  This file runs such a step with a bound
on the number of iterations and proves the facts every such loop is used
through.

* `trace`, `outputs`, `final`: the iterations, what they emit, where they end.
* `step_final_eq_none`: when a measure decreases, a bound at least the measure is
  never what stops the loop.
* `length_trace_le`: the measure counts the iterations.
* `loop_induction`: induction on what is left of a loop that ends.
* `final_of_le`: a loop that has stopped is not run on by a larger bound.
* `final_invariant`, `trace_invariant`: what one iteration preserves, the loop
  preserves, and every iteration of the trace is a genuine one.
* `simulation`: two loops whose steps correspond emit corresponding outputs and
  end in corresponding states.
* `projection`: the same for a function of the states that only a run with admissible
  outputs respects.
-/

namespace MatchingEngine
namespace Loop

variable {σ τ ω ψ : Type*}

/-- The iterations of the loop, at most `n` of them: the state before, the
output, the state after. -/
def trace (step : σ → Option (ω × σ)) : ℕ → σ → List (σ × ω × σ)
  | 0, _ => []
  | n + 1, s =>
    match step s with
    | none => []
    | some (o, s') => (s, o, s') :: trace step n s'

/-- The state in which at most `n` iterations end. -/
def final (step : σ → Option (ω × σ)) : ℕ → σ → σ
  | 0, s => s
  | n + 1, s =>
    match step s with
    | none => s
    | some (_, s') => final step n s'

/-- What the iterations emit, in order. -/
def outputs (step : σ → Option (ω × σ)) (n : ℕ) (s : σ) : List ω :=
  (trace step n s).map fun x => x.2.1

variable {step : σ → Option (ω × σ)}

@[simp] theorem trace_zero (s : σ) : trace step 0 s = [] := rfl

@[simp] theorem final_zero (s : σ) : final step 0 s = s := rfl

@[simp] theorem outputs_zero (s : σ) : outputs step 0 s = [] := rfl

theorem trace_succ_of_some {s s' : σ} {o : ω} (h : step s = some (o, s')) (n : ℕ) :
    trace step (n + 1) s = (s, o, s') :: trace step n s' := by
  rw [trace, h]

theorem final_succ_of_some {s s' : σ} {o : ω} (h : step s = some (o, s')) (n : ℕ) :
    final step (n + 1) s = final step n s' := by
  rw [final, h]

theorem outputs_succ_of_some {s s' : σ} {o : ω} (h : step s = some (o, s')) (n : ℕ) :
    outputs step (n + 1) s = o :: outputs step n s' := by
  rw [outputs, trace_succ_of_some h, List.map_cons, outputs]

theorem trace_of_none {s : σ} (h : step s = none) (n : ℕ) : trace step n s = [] := by
  cases n with
  | zero => rfl
  | succ n => rw [trace, h]

theorem final_of_none {s : σ} (h : step s = none) (n : ℕ) : final step n s = s := by
  cases n with
  | zero => rfl
  | succ n => rw [final, h]

theorem outputs_of_none {s : σ} (h : step s = none) (n : ℕ) : outputs step n s = [] := by
  rw [outputs, trace_of_none h, List.map_nil]

/-- **A decreasing measure bounds the loop.**  With at least `μ s` iterations
allowed, the loop ends because its step says so. -/
theorem step_final_eq_none (μ : σ → ℕ)
    (hμ : ∀ s o s', step s = some (o, s') → μ s' < μ s) :
    ∀ (n : ℕ) (s : σ), μ s ≤ n → step (final step n s) = none := by
  intro n
  induction n with
  | zero =>
    intro s hs
    cases h : step s with
    | none => rw [final_of_none h, h]
    | some r =>
      obtain ⟨o, s'⟩ := r
      have hlt := hμ s o s' h
      omega
  | succ n ih =>
    intro s hs
    cases h : step s with
    | none => rw [final_of_none h, h]
    | some r =>
      obtain ⟨o, s'⟩ := r
      have hlt := hμ s o s' h
      rw [final_succ_of_some h]
      exact ih s' (by omega)

/-- **A decreasing measure counts the iterations**, whatever bound the loop is run
with. -/
theorem length_trace_le (μ : σ → ℕ) (hμ : ∀ s o s', step s = some (o, s') → μ s' < μ s) :
    ∀ (n : ℕ) (s : σ), (trace step n s).length ≤ μ s := by
  intro n
  induction n with
  | zero =>
    intro s
    rw [trace_zero, List.length_nil]
    exact Nat.zero_le _
  | succ n ih =>
    intro s
    cases h : step s with
    | none =>
      rw [trace_of_none h, List.length_nil]
      exact Nat.zero_le _
    | some r =>
      obtain ⟨o, s'⟩ := r
      have hlt := hμ s o s' h
      have hrest := ih s'
      rw [trace_succ_of_some h, List.length_cons]
      omega

/-- **Induction on a loop that ends.**  A relation between a state, what the loop
emits from it and where it ends holds when it holds of a state that stops, and is
carried back over an iteration. -/
theorem loop_induction (μ : σ → ℕ) (hμ : ∀ s o s', step s = some (o, s') → μ s' < μ s)
    {C : σ → List ω → σ → Prop} (hstop : ∀ s, step s = none → C s [] s)
    (hstep : ∀ s o s' os f, step s = some (o, s') → C s' os f → C s (o :: os) f) :
    ∀ (n : ℕ) (s : σ), μ s ≤ n → C s (outputs step n s) (final step n s) := by
  intro n
  induction n with
  | zero =>
    intro s hs
    cases h : step s with
    | none => exact hstop s h
    | some r =>
      obtain ⟨o, s'⟩ := r
      have hlt := hμ s o s' h
      omega
  | succ n ih =>
    intro s hs
    cases h : step s with
    | none =>
      rw [outputs_of_none h, final_of_none h]
      exact hstop s h
    | some r =>
      obtain ⟨o, s'⟩ := r
      have hlt := hμ s o s' h
      rw [outputs_succ_of_some h,
        final_succ_of_some h]
      exact hstep s o s' _ _ h (ih s' (by omega))

/-- What one iteration preserves, the loop preserves. -/
theorem final_invariant {I : σ → Prop}
    (hI : ∀ s o s', I s → step s = some (o, s') → I s') :
    ∀ (n : ℕ) (s : σ), I s → I (final step n s) := by
  intro n
  induction n with
  | zero => exact fun s hs => hs
  | succ n ih =>
    intro s hs
    cases h : step s with
    | none => rwa [final_of_none h]
    | some r =>
      obtain ⟨o, s'⟩ := r
      rw [final_succ_of_some h]
      exact ih s' (hI s o s' hs h)

/-- Every entry of the trace is an iteration of the loop, started in a state
where the invariant holds. -/
theorem trace_invariant {I : σ → Prop}
    (hI : ∀ s o s', I s → step s = some (o, s') → I s') :
    ∀ (n : ℕ) (s : σ), I s → ∀ x ∈ trace step n s, I x.1 ∧ step x.1 = some x.2 := by
  intro n
  induction n with
  | zero => exact fun s _ x hx => absurd hx (List.not_mem_nil)
  | succ n ih =>
    intro s hs x hx
    cases h : step s with
    | none =>
      rw [trace_of_none h] at hx
      exact absurd hx (List.not_mem_nil)
    | some r =>
      obtain ⟨o, s'⟩ := r
      rw [trace_succ_of_some h, List.mem_cons] at hx
      rcases hx with rfl | hx
      · exact ⟨hs, h⟩
      · exact ih s' (hI s o s' hs h) x hx

/-- After an iteration of its trace a loop goes on from where that iteration led. -/
theorem final_of_mem_trace (n : ℕ) {s : σ} {x : σ × ω × σ} (hx : x ∈ trace step n s) :
    ∃ m, final step n s = final step m x.2.2 := by
  induction n generalizing s with
  | zero => exact absurd hx List.not_mem_nil
  | succ n ih =>
    cases h : step s with
    | none =>
      rw [trace_of_none h] at hx
      exact absurd hx List.not_mem_nil
    | some r =>
      obtain ⟨o, s'⟩ := r
      rw [trace_succ_of_some h, List.mem_cons] at hx
      rw [final_succ_of_some h]
      rcases hx with rfl | hx
      · exact ⟨n, rfl⟩
      · exact ih hx

/-- A loop that has stopped is not run on by a larger bound. -/
theorem final_of_le {n m : ℕ} (hnm : n ≤ m) {s : σ} (h : step (final step n s) = none) :
    final step m s = final step n s ∧ outputs step m s = outputs step n s := by
  induction n generalizing m s with
  | zero => exact ⟨final_of_none h m, outputs_of_none h m⟩
  | succ n ih =>
    cases m with
    | zero => exact absurd hnm (Nat.not_succ_le_zero n)
    | succ m =>
      cases hs : step s with
      | none =>
        rw [final_of_none hs, final_of_none hs, outputs_of_none hs, outputs_of_none hs]
        exact ⟨rfl, rfl⟩
      | some r =>
        obtain ⟨o, s'⟩ := r
        rw [final_succ_of_some hs] at h
        obtain ⟨hfinal, hout⟩ := ih (Nat.le_of_succ_le_succ hnm) h
        rw [final_succ_of_some hs, final_succ_of_some hs, outputs_succ_of_some hs,
          outputs_succ_of_some hs, hfinal, hout]
        exact ⟨rfl, rfl⟩

/-- **Simulation of loops.**  If related states stop together, and otherwise
step to related states emitting outputs related by `Q`, then the loops emit
related outputs and end in related states. -/
theorem simulation {step' : τ → Option (ψ × τ)} {Q : ω → ψ → Prop} {R : σ → τ → Prop}
    (hnone : ∀ s t, R s t → step s = none → step' t = none)
    (hsome : ∀ s t o s', R s t → step s = some (o, s') →
      ∃ o' t', step' t = some (o', t') ∧ Q o o' ∧ R s' t') :
    ∀ (n : ℕ) (s : σ) (t : τ), R s t →
      List.Forall₂ Q (outputs step n s) (outputs step' n t) ∧
        R (final step n s) (final step' n t) := by
  intro n
  induction n with
  | zero => exact fun s t hst => ⟨List.Forall₂.nil, hst⟩
  | succ n ih =>
    intro s t hst
    cases h : step s with
    | none =>
      have h' := hnone s t hst h
      rw [outputs_of_none h, outputs_of_none h', final_of_none h, final_of_none h']
      exact ⟨List.Forall₂.nil, hst⟩
    | some r =>
      obtain ⟨o, s'⟩ := r
      obtain ⟨o', t', ht', hq, hr⟩ := hsome s t o s' hst h
      obtain ⟨hout, hfin⟩ := ih s' t' hr
      rw [outputs_succ_of_some h, outputs_succ_of_some ht',
        final_succ_of_some h, final_succ_of_some ht']
      exact ⟨List.Forall₂.cons hq hout, hfin⟩

/-- **Projection of a loop.**  A function of the states under which every iteration with
an admissible output is an iteration of another loop, and every exit an exit, carries a
loop whose outputs are all admissible over to the other one. -/
theorem projection {step' : τ → Option (ω × τ)} {f : σ → τ} {ok : ω → Prop}
    (hnone : ∀ s, step s = none → step' (f s) = none)
    (hsome : ∀ s o s', step s = some (o, s') → ok o → step' (f s) = some (o, f s')) :
    ∀ (n : ℕ) (s : σ), (∀ o ∈ outputs step n s, ok o) →
      outputs step' n (f s) = outputs step n s ∧ final step' n (f s) = f (final step n s) := by
  intro n
  induction n with
  | zero => exact fun s _ => ⟨rfl, rfl⟩
  | succ n ih =>
    intro s hok
    cases h : step s with
    | none =>
      have h' := hnone s h
      rw [outputs_of_none h, outputs_of_none h', final_of_none h, final_of_none h']
      exact ⟨rfl, rfl⟩
    | some r =>
      obtain ⟨o, s'⟩ := r
      rw [outputs_succ_of_some h, List.forall_mem_cons] at hok
      have h' := hsome s o s' h hok.1
      obtain ⟨hout, hfin⟩ := ih s' hok.2
      rw [outputs_succ_of_some h, outputs_succ_of_some h', final_succ_of_some h,
        final_succ_of_some h', hout, hfin]
      exact ⟨rfl, rfl⟩

end Loop
end MatchingEngine
