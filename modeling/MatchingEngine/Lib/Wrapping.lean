import Mathlib.Algebra.Order.BigOperators.Group.List
import Mathlib.Algebra.Order.Ring.Int

/-!
# Sums of machine integers

A type of machine integers is known here by how it is read as integers, `toInt`, and
by the width at which its addition wraps around (`Wraps`).  Adding up a list in such a
type gives the exact sum modulo the width (`Wraps.toInt_foldl`), so it gives the exact
sum as soon as that is one the type can hold (`Wraps.toInt_foldl_eq`), whatever the
partial sums were.
-/

namespace MatchingEngine

variable {M α : Type*} [Add M]

/-- Read as integers by `toInt`, the elements of `M` are residues of `w`, the balanced
ones, and are added as such. -/
structure Wraps (toInt : M → ℤ) (w : ℕ) : Prop where
  add : ∀ x y, toInt (x + y) = (toInt x + toInt y).bmod w
  bmod : ∀ x, (toInt x).bmod w = toInt x

theorem wraps_int32 : Wraps Int32.toInt (2 ^ 32) := ⟨Int32.toInt_add, Int32.toInt_bmod⟩

theorem wraps_int64 : Wraps Int64.toInt (2 ^ 64) := ⟨Int64.toInt_add, Int64.toInt_bmod⟩

variable {toInt : M → ℤ} {w : ℕ}

/-- **The accumulator holds the exact sum modulo the width.** -/
theorem Wraps.toInt_foldl (h : Wraps toInt w) (f : α → M) (l : List α) (a : M) :
    toInt (l.foldl (fun acc x => acc + f x) a) =
      (toInt a + (l.map fun x => toInt (f x)).sum).bmod w := by
  induction l generalizing a with
  | nil => rw [List.foldl_nil, List.map_nil, List.sum_nil, Int.add_zero, h.bmod]
  | cons x l ih =>
    rw [List.foldl_cons, ih, h.add, Int.bmod_add_bmod, List.map_cons, List.sum_cons,
      Int.add_assoc]

/-- **A sum that fits is exact.** -/
theorem Wraps.toInt_foldl_eq (h : Wraps toInt w) (f : α → M) (l : List α) {a : M} {n : ℤ}
    (hn : toInt a + (l.map fun x => toInt (f x)).sum = n) (hlo : -((w : ℤ) / 2) ≤ n)
    (hhi : n < ((w : ℤ) + 1) / 2) : toInt (l.foldl (fun acc x => acc + f x) a) = n := by
  rw [h.toInt_foldl, hn]
  exact Int.bmod_eq_of_le hlo hhi

end MatchingEngine
