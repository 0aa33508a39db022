import MatchingEngine.Tracker.Basic
import Mathlib.Tactic.NormNum

/-!
# Percentiles are order statistics

The index `percentile` computes is the nearest rank less one, which is in bounds for a
positive proportion, so the clamp behind it is never used.  The value is then the entry
of that rank, and since ranks do not depend on the order of the entries, neither does
it (`percentile_congr`): a percentile may sort the samples in place without any later
percentile noticing.
-/

namespace MatchingEngine
namespace LatencyTracker

theorem percentile_snd (samples : List Int64) (p : ℚ) :
    (percentile samples p).2 = samples.insertionSort (· ≤ ·) := by
  rw [percentile]
  split
  · rename_i h
    rw [List.isEmpty_iff] at h
    rw [h]
    rfl
  · rfl

/-- A percentile leaves the samples a permutation of what they were. -/
theorem percentile_perm (samples : List Int64) (p : ℚ) :
    (percentile samples p).2.Perm samples := by
  rw [percentile_snd]
  exact List.perm_insertionSort (· ≤ ·) samples

/-- A percentile depends on the samples as a multiset. -/
theorem percentile_congr {samples samples' : List Int64} (h : samples.Perm samples') (p : ℚ) :
    percentile samples p = percentile samples' p := by
  have hempty : samples.isEmpty = samples'.isEmpty := by
    rw [Bool.eq_iff_iff, List.isEmpty_iff, List.isEmpty_iff]
    exact ⟨fun hs => (hs ▸ h).symm.eq_nil, fun hs => (hs ▸ h).eq_nil⟩
  rw [percentile, percentile, hempty, insertionSort_eq_of_perm h]
  split
  · rename_i hs
    rw [List.isEmpty_iff] at hs
    rw [hs] at h ⊢
    rw [h.eq_nil]
  · rfl

/-- The index of a positive proportion is in bounds. -/
theorem rankIndex_spec {p : ℚ} (hp : 0 < p) (hp' : p ≤ 1) {n : ℕ} (hn : 0 < n) :
    rankIndex p n < n ∧ rankIndex p n + 1 = ⌈p * n⌉₊ := by
  obtain ⟨hpos, hle⟩ := nearestRank_bounds hp hp' hn
  rw [rankIndex, if_neg (by omega)]
  omega

/-- **A percentile is the entry of its nearest rank.** -/
theorem isRank_percentile {samples : List Int64} (hne : samples ≠ []) {p : ℚ} (hp : 0 < p)
    (hp' : p ≤ 1) : IsRank ⌈p * samples.length⌉₊ (percentile samples p).1 samples := by
  have hlen : (samples.insertionSort (· ≤ ·)).length = samples.length :=
    List.length_insertionSort (· ≤ ·) samples
  obtain ⟨hlt, hrank⟩ := rankIndex_spec hp hp' (List.length_pos_iff.mpr hne)
  have hidx : rankIndex p samples.length < (samples.insertionSort (· ≤ ·)).length := by
    rwa [hlen]
  have hvalue : (percentile samples p).1 =
      (samples.insertionSort (· ≤ ·))[rankIndex p samples.length] := by
    rw [percentile, if_neg (by rwa [List.isEmpty_iff])]
    simp only [hlen, if_neg (not_le.mpr hlt)]
    rw [List.getD_eq_getElem?_getD, List.getElem?_eq_getElem hidx, Option.getD_some]
  rw [hvalue, ← hrank]
  exact isRank_insertionSort hidx

/-- A larger percentile is a larger value. -/
theorem percentile_mono {samples : List Int64} (hne : samples ≠ []) {p p' : ℚ} (hp : 0 < p)
    (hpp : p ≤ p') (hp' : p' ≤ 1) : (percentile samples p).1 ≤ (percentile samples p').1 :=
  (isRank_percentile hne hp (hpp.trans hp')).mono (isRank_percentile hne (hp.trans_le hpp) hp')
    (Nat.ceil_mono (mul_le_mul_of_nonneg_right hpp (Nat.cast_nonneg _)))

/-- **Latency percentiles are exact nearest-rank statistics**: for every list of samples,
and for each of the three percentiles the tracker reports, the index is in bounds as it
is computed, and the value is a sample, at least `⌈p * n⌉` samples are at most it and
fewer are below it.  The samples are rearranged. -/
theorem percentile_nearestRank (samples : List Int64) (hne : samples ≠ []) (p : ℚ)
    (hp : p = 1 / 2 ∨ p = 19 / 20 ∨ p = 99 / 100) :
    rankIndex p samples.length < samples.length ∧
      (percentile samples p).1 ∈ samples ∧
      ⌈p * samples.length⌉₊ ≤
        samples.countP (fun x => decide (x ≤ (percentile samples p).1)) ∧
      samples.countP (fun x => decide (x < (percentile samples p).1)) <
        ⌈p * samples.length⌉₊ ∧
      (percentile samples p).2.Perm samples := by
  have hbounds : 0 < p ∧ p ≤ 1 := by
    rcases hp with rfl | rfl | rfl <;> norm_num
  have hrank := isRank_percentile hne hbounds.1 hbounds.2
  exact ⟨(rankIndex_spec hbounds.1 hbounds.2 (List.length_pos_iff.mpr hne)).1, hrank.mem,
    hrank.le_count, hrank.count_lt, percentile_perm samples p⟩

/-- Of five samples with a repeated value, the middle one. -/
theorem percentile_nearestRank_middle :
    (percentile [7, 3, 9, 3, 8] (1 / 2)).1 = 7 ∧
      ⌈(1 / 2 : ℚ) * ([7, 3, 9, 3, 8] : List Int64).length⌉₊ ≤
        ([7, 3, 9, 3, 8] : List Int64).countP
          fun x => decide (x ≤ (percentile [7, 3, 9, 3, 8] (1 / 2)).1) :=
  ⟨by decide +kernel,
    (percentile_nearestRank [7, 3, 9, 3, 8] (by decide) (1 / 2) (Or.inl rfl)).2.2.1⟩

end LatencyTracker
end MatchingEngine
