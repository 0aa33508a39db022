import Mathlib.Data.Prod.Lex
import Mathlib.Order.WellFounded

/-!
# Fair schedules

A sequence of states in which every step is one of some thread, or one of nobody: of a
thread that can only wait.  Fairness promises no more than that every thread takes
infinitely many steps.  To show that a goal is reached, name in every state a thread that
helps and give a rank: the steps of that thread lower the rank, and those of the others
lower it or leave it and the name alone.

`Handover` is the rank of two threads of which one hands its work to the other through a
buffer: the consumer helps as long as it is busy, and the producer when it is not.
-/

namespace MatchingEngine
namespace Fairness

variable {σ κ α : Type*}

/-- Every thread takes infinitely many steps. -/
def Fair (turn : ℕ → Option κ) : Prop := ∀ t k, ∃ j, k ≤ j ∧ turn j = some t

/-- A step of `t` lowers the rank, or leaves it to the helpful thread. -/
def Descends [LT α] (rank : σ → α) (helpful : σ → κ) (t : Option κ) (s s' : σ) : Prop :=
  rank s' < rank s ∨ t ≠ some (helpful s) ∧ rank s' = rank s ∧ helpful s' = helpful s

section Eventually

variable [Preorder α] [WellFoundedLT α] {x : ℕ → σ} {turn : ℕ → Option κ}
  {rank : σ → α} {helpful : σ → κ}

omit [WellFoundedLT α] in
/-- As long as the rank is not lowered, neither it nor the helpful thread changes. -/
theorem eq_of_not_lt (hstep : ∀ k, Descends rank helpful (turn k) (x k) (x (k + 1))) {k : ℕ}
    (hnot : ∀ j, k ≤ j → ¬ rank (x j) < rank (x k)) (d : ℕ) :
    rank (x (k + d)) = rank (x k) ∧ helpful (x (k + d)) = helpful (x k) := by
  induction d with
  | zero => exact ⟨rfl, rfl⟩
  | succ d ih =>
    obtain ⟨hrank, hhelpful⟩ := ih
    rcases hstep (k + d) with hlt | ⟨-, hrank', hhelpful'⟩
    · exact absurd (hrank ▸ hlt) (hnot (k + d + 1) (by omega))
    · exact ⟨hrank'.trans hrank, hhelpful'.trans hhelpful⟩

/-- **A fair schedule reaches the goal**, from every point on. -/
theorem eventually (rank : σ → α) (helpful : σ → κ) (goal : σ → Prop) (hfair : Fair turn)
    (hstep : ∀ k, ¬ goal (x k) → Descends rank helpful (turn k) (x k) (x (k + 1))) (k : ℕ) :
    ∃ j, k ≤ j ∧ goal (x j) := by
  by_contra hnever
  have hno : ∀ j, k ≤ j → ¬ goal (x j) := fun j hj hgoal => hnever ⟨j, hj, hgoal⟩
  -- the states from `k` on, of which one has the least rank
  have hstep' : ∀ d, Descends rank helpful (turn (k + d)) (x (k + d)) (x (k + d + 1)) :=
    fun d => hstep (k + d) (hno (k + d) (by omega))
  obtain ⟨d, hd⟩ : ∃ d, ∀ d', ¬ rank (x (k + d')) < rank (x (k + d)) := by
    obtain ⟨-, ⟨d, rfl⟩, hmin⟩ := WellFounded.has_min (wellFounded_lt (α := α))
      (Set.range fun d => rank (x (k + d))) ⟨_, 0, rfl⟩
    exact ⟨d, fun d' => hmin _ ⟨d', rfl⟩⟩
  obtain ⟨j, hj, hturn⟩ := hfair (helpful (x (k + d))) (k + d)
  obtain ⟨e, rfl⟩ := Nat.exists_eq_add_of_le hj
  have hsame : rank (x (k + (d + e))) = rank (x (k + d)) ∧
      helpful (x (k + (d + e))) = helpful (x (k + d)) :=
    eq_of_not_lt (x := fun d => x (k + d)) hstep' (fun j _ => hd j) e
  rw [Nat.add_assoc] at hturn
  rcases hstep' (d + e) with hlt | ⟨hne, -, -⟩
  · exact hd (d + e + 1) (hsame.1 ▸ hlt)
  · exact hne (hturn.trans (congrArg some hsame.2.symm))

end Eventually

/-- Two threads that take turns. -/
theorem fair_alternating {turn : ℕ → Option κ} {a b : κ} (hall : ∀ t, t = a ∨ t = b)
    (hturn : ∀ k, turn k = some (if k % 2 = 0 then a else b)) : Fair turn := by
  intro t k
  rcases hall t with rfl | rfl
  · refine ⟨2 * k, by omega, ?_⟩
    rw [hturn, if_pos (by omega)]
  · refine ⟨2 * k + 1, by omega, ?_⟩
    rw [hturn, if_neg (by omega)]

/-! ## Work that is handed over -/

/-- A producer hands its work to a consumer.  `left` is what the producer has left to hand
over, `drain` what the consumer has to do as long as it is busy, and `free` the steps that
are left of the call in which the producer is. -/
structure Handover (σ κ α : Type*) where
  producer : κ
  consumer : κ
  left : σ → α
  busy : σ → Bool
  drain : σ → ℕ
  free : σ → ℕ

namespace Handover

variable (H : Handover σ κ α)

/-- The thread whose steps count: the consumer as long as it is busy, since the producer
may have to wait for it. -/
def helpful (x : σ) : κ := if H.busy x then H.consumer else H.producer

/-- What is left: work to hand over, then work of the consumer, then steps of a call. -/
def rank (x : σ) : α ×ₗ ℕ ×ₗ ℕ :=
  toLex (H.left x, toLex (if H.busy x then H.drain x else 0, if H.busy x then 0 else H.free x))

variable {H} [Preorder α] {x y : σ}

/-- Something has been handed over. -/
theorem descends_of_left (t : Option κ) (h : H.left y < H.left x) :
    Descends H.rank H.helpful t x y :=
  Or.inl (Prod.Lex.toLex_lt_toLex.mpr (Or.inl h))

/-- A step that nobody takes. -/
theorem descends_none (x : σ) : Descends H.rank H.helpful none x x :=
  Or.inr ⟨(fun heq => nomatch heq), rfl, rfl⟩

/-- **A step of the producer inside a call** brings the call on, once the consumer is not
busy. -/
theorem descends_producer (hne : H.producer ≠ H.consumer) (hleft : H.left y = H.left x)
    (hbusy : H.busy y = H.busy x) (hdrain : H.drain y = H.drain x)
    (hfree : H.busy x = false → H.free y < H.free x) :
    Descends H.rank H.helpful (some H.producer) x y := by
  cases h : H.busy x with
  | true =>
    refine Or.inr ⟨?_, ?_, ?_⟩
    · rw [helpful, h, if_pos rfl]
      exact fun heq => hne (Option.some_inj.mp heq)
    · simp only [rank, hleft, hbusy, hdrain, h, if_true]
    · rw [helpful, helpful, hbusy]
  | false =>
    refine Or.inl (Prod.Lex.toLex_lt_toLex.mpr (Or.inr ⟨hleft, Prod.Lex.toLex_lt_toLex.mpr
      (Or.inr ?_)⟩))
    simp only [hbusy, h, Bool.false_eq_true, if_false]
    exact ⟨trivial, hfree h⟩

/-- **A step of the consumer** brings its work on when it is busy, and otherwise leaves
everything to the producer. -/
theorem descends_consumer (hne : H.producer ≠ H.consumer) (hleft : H.left y = H.left x)
    (hfree : H.free y = H.free x) (hwork : H.busy x = true → H.drain y < H.drain x)
    (hidle : H.busy x = false → H.busy y = false) :
    Descends H.rank H.helpful (some H.consumer) x y := by
  cases h : H.busy x with
  | true =>
    refine Or.inl (Prod.Lex.toLex_lt_toLex.mpr (Or.inr ⟨hleft, Prod.Lex.toLex_lt_toLex.mpr
      (Or.inl ?_)⟩))
    have hlt := hwork h
    simp only [h, if_true]
    split <;> omega
  | false =>
    refine Or.inr ⟨?_, ?_, ?_⟩
    · rw [helpful, h, if_neg Bool.false_ne_true]
      exact fun heq => hne (Option.some_inj.mp heq).symm
    · simp only [rank, hleft, hfree, hidle h, h, Bool.false_eq_true, if_false]
    · rw [helpful, helpful, hidle h, h]

end Handover

end Fairness
end MatchingEngine
