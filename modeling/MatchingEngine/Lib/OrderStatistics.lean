import Mathlib.Algebra.Order.Floor.Semiring
import Mathlib.Data.List.Sort
import Mathlib.Data.Rat.Floor
import Mathlib.Order.Bounds.Basic

/-!
# Order statistics of lists

`IsRank r v l` says that `v` is an element of rank `r` of the list `l`, counted from
one: at least `r` entries are at most `v`, and fewer than `r` are below it.  This is a
statement about the entries and not about their order, which is what makes it useful
for a list that is sorted again and again between its uses.

* `isRank_insertionSort`: the sorted list has the ranks in order.
* `IsRank.mono`: an element of a higher rank is not below one of a lower.
* `running_mem`, `not_rel_running`: the best entry of a list, kept while the list is
  read.
-/

namespace MatchingEngine

/-! ## Ranks -/

section Rank

variable {α : Type*} [LinearOrder α]

/-- `v` is an element of rank `r` of `l`. -/
structure IsRank (r : ℕ) (v : α) (l : List α) : Prop where
  mem : v ∈ l
  le_count : r ≤ l.countP fun x => decide (x ≤ v)
  count_lt : (l.countP fun x => decide (x < v)) < r

variable {r r' : ℕ} {v v' : α} {l l' : List α}

/-- Ranks do not depend on the order of the entries. -/
theorem IsRank.perm (h : IsRank r v l) (hl : l.Perm l') : IsRank r v l' where
  mem := hl.mem_iff.mp h.mem
  le_count := by rw [← hl.countP_eq]; exact h.le_count
  count_lt := by rw [← hl.countP_eq]; exact h.count_lt

/-- **Ranks are monotone.** -/
theorem IsRank.mono (h : IsRank r v l) (h' : IsRank r' v' l) (hr : r ≤ r') : v ≤ v' := by
  rw [← not_lt]
  intro hlt
  have hcount : (l.countP fun x => decide (x ≤ v')) ≤ l.countP fun x => decide (x < v) := by
    refine List.countP_mono_left fun x _ hx => ?_
    rw [decide_eq_true_eq] at hx ⊢
    exact lt_of_le_of_lt hx hlt
  have h₁ := h.count_lt
  have h₂ := h'.le_count
  omega

/-- In a sorted list, the entries up to a position are at most the one there. -/
theorem lt_countP_le {i : ℕ} (hl : l.Pairwise (· ≤ ·)) (hi : i < l.length) :
    i < l.countP fun x => decide (x ≤ l[i]) := by
  have hall : ∀ x ∈ l.take (i + 1), decide (x ≤ l[i]) = true := by
    intro x hx
    obtain ⟨j, hj, rfl⟩ := List.mem_take_iff_getElem.mp hx
    rw [decide_eq_true_eq]
    rcases Nat.lt_or_ge j i with hlt | hge
    · exact List.pairwise_iff_getElem.mp hl j i _ hi hlt
    · have hji : j = i := by omega
      exact le_of_eq (by simp only [hji])
  have hlen : (l.take (i + 1)).countP (fun x => decide (x ≤ l[i])) = i + 1 := by
    rw [List.countP_eq_length.mpr hall, List.length_take]
    omega
  have hsub := (List.take_sublist (i + 1) l).countP_le (p := fun x => decide (x ≤ l[i]))
  omega

/-- In a sorted list, only the entries before a position are below the one there. -/
theorem countP_lt_le {i : ℕ} (hl : l.Pairwise (· ≤ ·)) (hi : i < l.length) :
    (l.countP fun x => decide (x < l[i])) ≤ i := by
  have hnone : (l.drop i).countP (fun x => decide (x < l[i])) = 0 := by
    refine List.countP_eq_zero.mpr fun x hx => ?_
    obtain ⟨j, hj, rfl⟩ := List.mem_drop_iff_getElem.mp hx
    rw [decide_eq_true_eq, not_lt]
    rcases Nat.eq_zero_or_pos j with rfl | hpos
    · exact le_of_eq (by simp only [Nat.add_zero])
    · exact List.pairwise_iff_getElem.mp hl i _ hi _ (by omega)
  have hsplit := congrArg (List.countP fun x => decide (x < l[i])) (List.take_append_drop i l)
  rw [List.countP_append, hnone, Nat.add_zero] at hsplit
  have hle := List.countP_le_length (p := fun x => decide (x < l[i])) (l := l.take i)
  rw [List.length_take] at hle
  omega

theorem isRank_getElem {i : ℕ} (hl : l.Pairwise (· ≤ ·)) (hi : i < l.length) :
    IsRank (i + 1) l[i] l where
  mem := List.getElem_mem hi
  le_count := lt_countP_le hl hi
  count_lt := Nat.lt_succ_of_le (countP_lt_le hl hi)

/-- **Sorting puts the ranks in order.** -/
theorem isRank_insertionSort {i : ℕ} (hi : i < (l.insertionSort (· ≤ ·)).length) :
    IsRank (i + 1) (l.insertionSort (· ≤ ·))[i] l :=
  (isRank_getElem (List.pairwise_insertionSort (· ≤ ·) l) hi).perm
    (List.perm_insertionSort (· ≤ ·) l)

/-- Lists with the same entries have the same sorted list. -/
theorem insertionSort_eq_of_perm (h : l.Perm l') :
    l.insertionSort (· ≤ ·) = l'.insertionSort (· ≤ ·) :=
  List.Perm.eq_of_pairwise (fun _ _ _ _ => le_antisymm) (List.pairwise_insertionSort (· ≤ ·) l)
    (List.pairwise_insertionSort (· ≤ ·) l')
    ((List.perm_insertionSort (· ≤ ·) l).trans
      (h.trans (List.perm_insertionSort (· ≤ ·) l').symm))

/-- The nearest rank of a positive proportion is the rank of an entry. -/
theorem nearestRank_bounds {p : ℚ} (hp : 0 < p) (hp' : p ≤ 1) {n : ℕ} (hn : 0 < n) :
    0 < ⌈p * n⌉₊ ∧ ⌈p * n⌉₊ ≤ n := by
  have hn' : (0 : ℚ) < n := Nat.cast_pos.mpr hn
  constructor
  · exact Nat.ceil_pos.mpr (mul_pos hp hn')
  · exact Nat.ceil_le.mpr (mul_le_of_le_one_left hn'.le hp')

end Rank

/-! ## The best entry so far -/

section Running

variable {α : Type*} (r : α → α → Prop) [DecidableRel r]

/-- Read a list and keep the entry that is before all others. -/
def running (a : α) (l : List α) : α := l.foldl (fun m x => if r x m then x else m) a

variable {r}

theorem running_concat (a : α) (l : List α) (x : α) :
    running r a (l ++ [x]) = if r x (running r a l) then x else running r a l := by
  rw [running, List.foldl_append]
  rfl

theorem running_mem (a : α) (l : List α) : running r a l ∈ a :: l := by
  induction l generalizing a with
  | nil => exact List.mem_cons_self
  | cons x l ih =>
    have h := ih (if r x a then x else a)
    rcases List.mem_cons.mp h with h | h
    · rw [running, List.foldl_cons, ← running, h]
      split
      · exact List.mem_cons_of_mem _ List.mem_cons_self
      · exact List.mem_cons_self
    · exact List.mem_cons_of_mem _ (List.mem_cons_of_mem _ h)

/-- **Nothing read is before the entry kept.** -/
theorem not_rel_running [IsStrictTotalOrder α r] (a : α) (l : List α) :
    ∀ x ∈ a :: l, ¬ r x (running r a l) := by
  induction l generalizing a with
  | nil =>
    intro x hx
    obtain rfl := List.mem_singleton.mp hx
    exact irrefl x
  | cons y l ih =>
    intro x hx
    rw [running, List.foldl_cons, ← running]
    by_cases hy : r y a
    · rw [if_pos hy]
      have hkept := ih y y List.mem_cons_self
      rcases List.mem_cons.mp hx with rfl | hx
      · exact fun hr => hkept (trans_of r hy hr)
      · exact ih y x hx
    · rw [if_neg hy]
      have hkept := ih a a List.mem_cons_self
      rcases List.mem_cons.mp hx with rfl | hx
      · exact hkept
      rcases List.mem_cons.mp hx with rfl | hx
      · -- the entry that was not kept is not before the one that was
        intro hr
        rcases trichotomous_of r x a with hlt | rfl | hgt
        · exact hy hlt
        · exact hkept hr
        · exact hkept (trans_of r hgt hr)
      · exact ih a x (List.mem_cons_of_mem _ hx)

/-- When no entry is behind the start, the entry kept is one of the list. -/
theorem running_mem_of_ne_nil [IsStrictTotalOrder α r] {a : α} {l : List α} (hne : l ≠ [])
    (h : ∀ x ∈ l, x = a ∨ r x a) : running r a l ∈ l := by
  rcases List.mem_cons.mp (running_mem a l (r := r)) with hstart | hmem
  · obtain ⟨x, hx⟩ := List.exists_mem_of_ne_nil l hne
    have hkept := not_rel_running (r := r) a l x (List.mem_cons_of_mem _ hx)
    rw [hstart] at hkept ⊢
    rcases h x hx with rfl | hr
    · exact hx
    · exact absurd hr hkept
  · exact hmem

end Running

end MatchingEngine
