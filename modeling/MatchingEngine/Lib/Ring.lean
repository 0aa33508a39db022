import Mathlib.Data.Nat.ModEq
import Mathlib.Logic.Function.Basic

/-!
# Ring buffers and their histories

A ring of `C` slots with a read index and a write index, seen from its history:
`l` is everything ever written, `m` the number of items read.  Item number `k` of
the history lives in slot `k % C`, and the two indices are the two counters
modulo `C` (`Rep`).

The counters are never more than `C - 1` apart, and that one slot of slack is
what makes the indices unambiguous: `full_iff` and `empty_iff` read the two tests
of a ring buffer off the counters.  The other lemmas are the elementary updates:
a write into the free slot, the advance of either index, and the read.
-/

namespace MatchingEngine
namespace Ring

variable {α : Type*}

/-- Two counters less than a turn apart are equal when they agree modulo `C`. -/
theorem eq_of_mod_eq {C a b : ℕ} (hle : a ≤ b) (hlt : b < a + C) (h : a % C = b % C) : a = b := by
  have hdvd : C ∣ b - a := (Nat.modEq_iff_dvd' hle).mp h
  have hzero : b - a = 0 := Nat.eq_zero_of_dvd_of_lt hdvd (by omega)
  omega

/-- The ring holds the items from number `m` on of the history `l`. -/
structure Rep (C : ℕ) (buffer : ℕ → α) (head tail : ℕ) (l : List α) (m : ℕ) : Prop where
  head_eq : head = m % C
  tail_eq : tail = l.length % C
  le : m ≤ l.length
  room : l.length < m + C
  slots : ∀ k x, m ≤ k → l[k]? = some x → buffer (k % C) = x

variable {C head tail m : ℕ} {buffer : ℕ → α} {l : List α}

theorem rep_empty (hC : 0 < C) (buffer : ℕ → α) : Rep C buffer 0 0 [] 0 where
  head_eq := (Nat.zero_mod C).symm
  tail_eq := (Nat.zero_mod C).symm
  le := le_refl 0
  room := by rw [List.length_nil]; omega
  slots k x _ h := by rw [List.getElem?_nil] at h; exact absurd h (by simp)

/-- `(tail + 1) % C == head`: there is no room left. -/
theorem Rep.full_iff (h : Rep C buffer head tail l m) :
    (tail + 1) % C = head ↔ l.length + 1 = m + C := by
  have hle := h.le
  have hroom := h.room
  rw [h.head_eq, h.tail_eq, Nat.mod_add_mod]
  constructor
  · intro heq
    have hmod : (l.length + 1) % C = (m + C) % C := by rw [heq, Nat.add_mod_right]
    exact eq_of_mod_eq (by omega) (by omega) hmod
  · intro heq
    rw [heq, Nat.add_mod_right]

/-- `head == tail`: there is nothing to read. -/
theorem Rep.empty_iff (h : Rep C buffer head tail l m) : head = tail ↔ m = l.length := by
  rw [h.head_eq, h.tail_eq]
  exact ⟨eq_of_mod_eq h.le h.room, fun heq => by rw [heq]⟩

theorem Rep.head_lt (h : Rep C buffer head tail l m) : head < C := by
  have hle := h.le
  have hroom := h.room
  rw [h.head_eq]
  exact Nat.mod_lt _ (by omega)

theorem Rep.tail_lt (h : Rep C buffer head tail l m) : tail < C := by
  have hle := h.le
  have hroom := h.room
  rw [h.tail_eq]
  exact Nat.mod_lt _ (by omega)

/-- The distance of the indices is the number of unread items. -/
theorem Rep.size_eq (h : Rep C buffer head tail l m) : (tail + C - head) % C = l.length - m := by
  have hle := h.le
  have hroom := h.room
  have hhead := h.head_lt
  have hcong : (tail + C - head) + m ≡ (l.length - m) + m [MOD C] := by
    calc (tail + C - head) + m ≡ (tail + C - head) + head [MOD C] := by
          rw [h.head_eq]
          exact (Nat.mod_modEq m C).symm.add_left _
      _ = tail + C := by omega
      _ ≡ tail [MOD C] := Nat.add_modEq_right
      _ ≡ l.length [MOD C] := by
          rw [h.tail_eq]
          exact Nat.mod_modEq _ _
      _ = (l.length - m) + m := by omega
  have hmod : (tail + C - head) % C = (l.length - m) % C := Nat.ModEq.add_right_cancel' m hcong
  rw [hmod, Nat.mod_eq_of_lt (by omega)]

/-- The slot of the next write holds no unread item. -/
theorem Rep.free (h : Rep C buffer head tail l m) {k : ℕ} (hk : m ≤ k) (hk' : k < l.length) :
    k % C ≠ tail := by
  have hroom := h.room
  rw [h.tail_eq]
  intro heq
  have hkl := eq_of_mod_eq (le_of_lt hk') (by omega) heq
  omega

/-- A write into the slot of the write index disturbs nothing. -/
theorem Rep.write (h : Rep C buffer head tail l m) (x : α) :
    Rep C (Function.update buffer tail x) head tail l m where
  head_eq := h.head_eq
  tail_eq := h.tail_eq
  le := h.le
  room := h.room
  slots k y hk hy := by
    have hlt : k < l.length := (List.getElem?_eq_some_iff.mp hy).1
    rw [Function.update_of_ne (h.free hk hlt)]
    exact h.slots k y hk hy

/-- Advancing the write index appends the item in its slot. -/
theorem Rep.advance_tail (h : Rep C buffer head tail l m) {x : α} (hx : buffer tail = x)
    (hroom : l.length + 1 < m + C) : Rep C buffer head ((tail + 1) % C) (l ++ [x]) m where
  head_eq := h.head_eq
  tail_eq := by
    rw [h.tail_eq, Nat.mod_add_mod, List.length_append, List.length_singleton]
  le := by
    have hle := h.le
    rw [List.length_append, List.length_singleton]
    omega
  room := by
    rw [List.length_append, List.length_singleton]
    exact hroom
  slots k y hk hy := by
    rcases lt_or_ge k l.length with hlt | hge
    · rw [List.getElem?_append_left hlt] at hy
      exact h.slots k y hk hy
    · rw [List.getElem?_append_right hge, List.getElem?_singleton] at hy
      split at hy
      · rename_i hzero
        have hkl : k = l.length := by omega
        rw [hkl, ← h.tail_eq, hx]
        exact Option.some_inj.mp hy
      · exact absurd hy (by simp)

/-- The slot of the read index holds the oldest unread item. -/
theorem Rep.read (h : Rep C buffer head tail l m) (hlt : m < l.length) :
    l[m]? = some (buffer head) := by
  have hget : l[m]? = some l[m] := List.getElem?_eq_getElem hlt
  rw [hget, h.head_eq, h.slots m l[m] (le_refl m) hget]

/-- Advancing the read index drops the oldest unread item. -/
theorem Rep.advance_head (h : Rep C buffer head tail l m) (hlt : m < l.length) :
    Rep C buffer ((head + 1) % C) tail l (m + 1) where
  head_eq := by rw [h.head_eq, Nat.mod_add_mod]
  tail_eq := h.tail_eq
  le := hlt
  room := by
    have hroom := h.room
    omega
  slots k x hk hx := h.slots k x (by omega) hx

/-- A successful read and a write that has room are about different slots. -/
theorem Rep.head_ne_tail (h : Rep C buffer head tail l m) (hlt : m < l.length) : head ≠ tail :=
  fun heq => absurd (h.empty_iff.mp heq) (by omega)

end Ring
end MatchingEngine
