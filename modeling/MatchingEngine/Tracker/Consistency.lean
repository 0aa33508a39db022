import MatchingEngine.Tracker.Reports

/-!
# The reports are those of the latencies

As long as the exact sums fit in the machine (`Fits`), every wrap-around of the tracker
is invisible: a latency is the difference of its clock readings, the aggregates are the
exact count, least, greatest and sum, and the order of the percentiles is that of their
ranks.
-/

namespace MatchingEngine
namespace LatencyTracker

/-- The clock readings are in order, and the machine can hold their number and the sum
of their end-to-end latencies. -/
structure Fits (ss : List Stamps) : Prop where
  ordered : ∀ s ∈ ss, s.Ordered
  count : ss.length < 2 ^ 63
  sum : (ss.map Stamps.exactE2E).sum < 2 ^ 63

variable {ss : List Stamps} {t : LatencyTracker}

/-! ## Latencies -/

theorem Fits.exactE2E_nonneg (h : Fits ss) {s : Stamps} (hs : s ∈ ss) : 0 ≤ s.exactE2E := by
  obtain ⟨h₁, h₂, h₃, h₄⟩ := (h.ordered s hs).categories
  omega

theorem Fits.exactE2E_lt (h : Fits ss) {s : Stamps} (hs : s ∈ ss) : s.exactE2E < 2 ^ 63 := by
  refine lt_of_le_of_lt (List.single_le_sum (fun x hx => ?_) _ (List.mem_map_of_mem hs)) h.sum
  obtain ⟨s', hs', rfl⟩ := List.mem_map.mp hx
  exact h.exactE2E_nonneg hs'

/-- A difference that fits is exact. -/
theorem toInt_sub_eq {a b : Int64} (h : 0 ≤ a.toInt - b.toInt)
    (h' : a.toInt - b.toInt < 2 ^ 63) : (a - b).toInt = a.toInt - b.toInt := by
  rw [Int64.toInt_sub]
  exact Int.bmod_eq_of_le (by omega) (by omega)

theorem Fits.toInt_lats (h : Fits ss) {s : Stamps} (hs : s ∈ ss) :
    s.netLat.toInt = s.exactNet ∧ s.qLat.toInt = s.exactQueue ∧
      s.matchLat.toInt = s.exactMatch ∧ s.e2eLat.toInt = s.exactE2E := by
  obtain ⟨h₁, h₂, h₃, h₄⟩ := (h.ordered s hs).categories
  have h₅ := h.exactE2E_lt hs
  exact ⟨toInt_sub_eq h₁ (by rw [← Stamps.exactNet]; omega),
    toInt_sub_eq h₂ (by rw [← Stamps.exactQueue]; omega),
    toInt_sub_eq h₃ (by rw [← Stamps.exactMatch]; omega),
    toInt_sub_eq (h.exactE2E_nonneg hs) h₅⟩

/-- The exact latencies are those of the samples. -/
theorem Fits.map_exactE2E (h : Fits ss) :
    ss.map Stamps.exactE2E = (ss.map Stamps.e2eLat).map Int64.toInt := by
  rw [List.map_map]
  exact List.map_congr_left fun s hs => (h.toInt_lats hs).2.2.2.symm

/-! ## Sums -/

/-- **A total is exact** when no latency is negative and the exact total fits. -/
theorem toInt_total {f : Stamps → Int64} {g : Stamps → ℤ} (hfg : ∀ s ∈ ss, (f s).toInt = g s)
    (hg : ∀ s ∈ ss, 0 ≤ g s) (hsum : (ss.map g).sum < 2 ^ 63) :
    (ss.foldl (fun acc s => acc + f s) 0).toInt = (ss.map g).sum := by
  have hnonneg : 0 ≤ (ss.map g).sum := by
    refine List.sum_nonneg fun x hx => ?_
    obtain ⟨s, hs, rfl⟩ := List.mem_map.mp hx
    exact hg s hs
  refine wraps_int64.toInt_foldl_eq f ss ?_ (by omega) (by omega)
  rw [List.map_congr_left hfg, show (0 : Int64).toInt = 0 from rfl, Int.zero_add]

/-- The categories take no longer than the whole. -/
theorem Fits.sum_categories (h : Fits ss) :
    0 ≤ (ss.map Stamps.exactNet).sum ∧ 0 ≤ (ss.map Stamps.exactQueue).sum ∧
      0 ≤ (ss.map Stamps.exactMatch).sum ∧
      (ss.map Stamps.exactNet).sum + (ss.map Stamps.exactQueue).sum +
        (ss.map Stamps.exactMatch).sum ≤ (ss.map Stamps.exactE2E).sum := by
  have hord := h.ordered
  clear h
  induction ss with
  | nil => simp
  | cons s ss ih =>
    obtain ⟨h₁, h₂, h₃, h₄⟩ := ih fun s' hs' => hord s' (List.mem_cons_of_mem _ hs')
    obtain ⟨g₁, g₂, g₃, g₄⟩ := (hord s List.mem_cons_self).categories
    simp only [List.map_cons, List.sum_cons]
    omega

theorem Tracks.toInt_totalCount (ht : Tracks ss t) (h : Fits ss) :
    t.totalCount.toInt = ss.length := by
  have hcount := h.count
  rw [ht.totalCount]
  refine wraps_int64.toInt_foldl_eq (fun _ => 1) ss ?_ (by omega) (by omega)
  rw [show (0 : Int64).toInt = 0 from rfl, show (1 : Int64).toInt = 1 from rfl, Int.zero_add,
    List.map_const', List.sum_replicate, nsmul_eq_mul, mul_one]

theorem Tracks.totalCount_pos (ht : Tracks ss t) (h : Fits ss) (hne : ss ≠ []) :
    t.totalCount > 0 := by
  rw [gt_iff_lt, Int64.lt_iff_toInt_lt, ht.toInt_totalCount h]
  exact Int.natCast_pos.mpr (List.length_pos_iff.mpr hne)

theorem Tracks.toInt_sumE2E (ht : Tracks ss t) (h : Fits ss) :
    t.sumE2E.toInt = (ss.map Stamps.exactE2E).sum := by
  rw [ht.sumE2E]
  exact toInt_total (fun s hs => (h.toInt_lats hs).2.2.2) (fun s hs => h.exactE2E_nonneg hs) h.sum

/-- **The categories take at most the time of the whole.** -/
theorem Tracks.times_le (ht : Tracks ss t) (h : Fits ss) :
    t.timeNetwork.toInt + t.timeQueue.toInt + t.timeOrderbook.toInt ≤ t.sumE2E.toInt := by
  obtain ⟨h₁, h₂, h₃, h₄⟩ := h.sum_categories
  have hsum := h.sum
  have hcat := fun s hs => (h.ordered s hs).categories
  rw [ht.toInt_sumE2E h, ht.timeNetwork, ht.timeQueue, ht.timeOrderbook,
    toInt_total (fun s hs => (h.toInt_lats hs).1) (fun s hs => (hcat s hs).1) (by omega),
    toInt_total (fun s hs => (h.toInt_lats hs).2.1) (fun s hs => (hcat s hs).2.1) (by omega),
    toInt_total (fun s hs => (h.toInt_lats hs).2.2.1) (fun s hs => (hcat s hs).2.2.1) (by omega)]
  exact h₄

/-! ## Extremes -/

/-- The least sample. -/
theorem Tracks.isLeast_minE2E (ht : Tracks ss t) (hne : ss ≠ []) :
    t.minE2E ∈ t.e2eSamples ∧ ∀ x ∈ t.e2eSamples, t.minE2E ≤ x := by
  have hmin := ht.minE2E
  constructor
  · rw [ht.e2eSamples.mem_iff, hmin]
    refine running_mem_of_ne_nil (by simpa using hne) fun x _ => ?_
    exact (Int64.le_iff_toInt_le.mpr x.toInt_le : x ≤ Int64.maxValue).eq_or_lt
  · intro x hx
    rw [hmin, ← not_lt]
    exact not_rel_running _ _ x (List.mem_cons_of_mem _ (ht.e2eSamples.mem_iff.mp hx))

/-- The greatest sample.  The tracker starts from zero, which no latency is below. -/
theorem Tracks.isGreatest_maxE2E (ht : Tracks ss t) (h : Fits ss) (hne : ss ≠ []) :
    t.maxE2E ∈ t.e2eSamples ∧ ∀ x ∈ t.e2eSamples, x ≤ t.maxE2E := by
  have hmax := ht.maxE2E
  constructor
  · rw [ht.e2eSamples.mem_iff, hmax]
    refine running_mem_of_ne_nil (by simpa using hne) fun x hx => ?_
    obtain ⟨s, hs, rfl⟩ := List.mem_map.mp hx
    have hnonneg : (0 : Int64) ≤ s.e2eLat := by
      rw [Int64.le_iff_toInt_le, (h.toInt_lats hs).2.2.2]
      exact h.exactE2E_nonneg hs
    exact hnonneg.eq_or_lt.imp_left Eq.symm
  · intro x hx
    rw [hmax, ← not_lt]
    exact not_rel_running (r := (· > ·)) _ _ x
      (List.mem_cons_of_mem _ (ht.e2eSamples.mem_iff.mp hx))

/-- The samples, read as integers, are the exact latencies. -/
theorem Tracks.map_toInt_perm (ht : Tracks ss t) (h : Fits ss) :
    (t.e2eSamples.map Int64.toInt).Perm (ss.map Stamps.exactE2E) := by
  rw [h.map_exactE2E]
  exact ht.e2eSamples.map _

theorem Tracks.mem_exactE2E (ht : Tracks ss t) (h : Fits ss) {x : ℤ} :
    x ∈ ss.map Stamps.exactE2E ↔ ∃ y ∈ t.e2eSamples, y.toInt = x := by
  rw [← (ht.map_toInt_perm h).mem_iff, List.mem_map]

/-- The least latency. -/
theorem Tracks.isLeast_exact (ht : Tracks ss t) (h : Fits ss) (hne : ss ≠ []) :
    IsLeast {x | x ∈ ss.map Stamps.exactE2E} t.minE2E.toInt := by
  obtain ⟨hmem, hle⟩ := ht.isLeast_minE2E hne
  refine ⟨(ht.mem_exactE2E h).mpr ⟨_, hmem, rfl⟩, fun x hx => ?_⟩
  obtain ⟨y, hy, rfl⟩ := (ht.mem_exactE2E h).mp hx
  exact Int64.le_iff_toInt_le.mp (hle y hy)

/-- The greatest latency. -/
theorem Tracks.isGreatest_exact (ht : Tracks ss t) (h : Fits ss) (hne : ss ≠ []) :
    IsGreatest {x | x ∈ ss.map Stamps.exactE2E} t.maxE2E.toInt := by
  obtain ⟨hmem, hle⟩ := ht.isGreatest_maxE2E h hne
  refine ⟨(ht.mem_exactE2E h).mpr ⟨_, hmem, rfl⟩, fun x hx => ?_⟩
  obtain ⟨y, hy, rfl⟩ := (ht.mem_exactE2E h).mp hx
  exact Int64.le_iff_toInt_le.mp (hle y hy)

/-! ## The average -/

/-- The average of numbers that are not negative lies between their extremes. -/
theorem average_between {lats : List ℤ} (hne : lats ≠ []) (hnonneg : 0 ≤ lats.sum) {a b : ℤ}
    (ha : ∀ x ∈ lats, a ≤ x) (hb : ∀ x ∈ lats, x ≤ b) :
    a ≤ lats.sum.tdiv lats.length ∧ lats.sum.tdiv lats.length ≤ b := by
  have hlen : (0 : ℤ) < lats.length := by
    exact_mod_cast List.length_pos_iff.mpr hne
  have hlow := List.card_nsmul_le_sum lats a ha
  have hhigh := List.sum_le_card_nsmul lats b hb
  rw [nsmul_eq_mul] at hlow hhigh
  rw [Int.tdiv_eq_ediv_of_nonneg hnonneg]
  constructor
  · exact Int.le_ediv_of_mul_le hlen (by rw [mul_comm]; exact hlow)
  · exact Int.ediv_le_of_le_mul hlen (by rw [mul_comm]; exact hhigh)

theorem Tracks.toInt_getAvgE2E (ht : Tracks ss t) (h : Fits ss) (hne : ss ≠ []) :
    t.getAvgE2E.toInt = (ss.map Stamps.exactE2E).sum.tdiv ss.length := by
  have hpos := ht.totalCount_pos h hne
  have hneg : t.totalCount ≠ -1 := by
    intro heq
    rw [heq] at hpos
    exact absurd hpos (by decide)
  rw [getAvgE2E, if_pos hpos, Int64.toInt_div_of_ne_right _ _ hneg, ht.toInt_sumE2E h,
    ht.toInt_totalCount h]

theorem Tracks.avg_between (ht : Tracks ss t) (h : Fits ss) (hne : ss ≠ []) :
    t.minE2E ≤ t.getAvgE2E ∧ t.getAvgE2E ≤ t.maxE2E := by
  have hlats : ss.map Stamps.exactE2E ≠ [] := by simpa using hne
  have hnonneg : 0 ≤ (ss.map Stamps.exactE2E).sum := by
    obtain ⟨h₁, h₂, h₃, h₄⟩ := h.sum_categories
    omega
  obtain ⟨hlow, hhigh⟩ := average_between hlats hnonneg
    (fun _ hx => (ht.isLeast_exact h hne).2 hx) (fun _ hx => (ht.isGreatest_exact h hne).2 hx)
  rw [List.length_map, ← ht.toInt_getAvgE2E h hne] at hlow hhigh
  exact ⟨Int64.le_iff_toInt_le.mpr hlow, Int64.le_iff_toInt_le.mpr hhigh⟩

/-! ## The percentiles -/

/-- The percentiles lie between the extremes, in the order of their ranks. -/
theorem Tracks.percentiles_between (ht : Tracks ss t) (h : Fits ss) (hne : ss ≠ []) :
    t.minE2E ≤ t.getP50E2E.2 ∧ t.getP50E2E.2 ≤ t.getP95E2E.2 ∧
      t.getP95E2E.2 ≤ t.getP99E2E.2 ∧ t.getP99E2E.2 ≤ t.maxE2E := by
  obtain ⟨hmin, hmin_le⟩ := ht.isLeast_minE2E hne
  obtain ⟨-, hle_max⟩ := ht.isGreatest_maxE2E h hne
  have hsamples : t.e2eSamples ≠ [] := List.ne_nil_of_mem hmin
  have hmem : ∀ {p : ℚ}, 0 < p → p ≤ 1 → (percentile t.e2eSamples p).1 ∈ t.e2eSamples :=
    fun hp hp' => (isRank_percentile hsamples hp hp').mem
  refine ⟨?_, ?_, ?_, ?_⟩
  · exact hmin_le _ (hmem (by norm_num) (by norm_num))
  · exact percentile_mono hsamples (by norm_num) (by norm_num) (by norm_num)
  · exact percentile_mono hsamples (by norm_num) (by norm_num) (by norm_num)
  · exact hle_max _ (hmem (by norm_num) (by norm_num))

/-! ## The reports -/

/-- What the tracker reports is what the end-to-end latencies `lats` are. -/
structure Consistent (lats : List ℤ) (t : LatencyTracker) : Prop where
  count : t.getCount.toInt = lats.length
  sum : t.sumE2E.toInt = lats.sum
  min : IsLeast {x | x ∈ lats} t.getMinE2E.toInt
  max : IsGreatest {x | x ∈ lats} t.getMaxE2E.toInt
  average : t.getAvgE2E.toInt = lats.sum.tdiv lats.length
  /-- The end-to-end samples are the latencies, and the other vectors are as long. -/
  samples : (t.e2eSamples.map Int64.toInt).Perm lats ∧ t.e2eSamples.length = lats.length ∧
    t.queueSamples.length = lats.length ∧ t.matchSamples.length = lats.length ∧
    t.networkSamples.length = lats.length
  times : t.timeNetwork.toInt + t.timeQueue.toInt + t.timeOrderbook.toInt ≤ t.sumE2E.toInt
  percentiles : t.getMinE2E ≤ t.getP50E2E.2 ∧ t.getP50E2E.2 ≤ t.getP95E2E.2 ∧
    t.getP95E2E.2 ≤ t.getP99E2E.2 ∧ t.getP99E2E.2 ≤ t.getMaxE2E
  between : t.getMinE2E ≤ t.getAvgE2E ∧ t.getAvgE2E ≤ t.getMaxE2E
  /-- `printStats` prints what the accessors return. -/
  printed : ∃ s, t.printStats.2 = .stats s ∧ s.ordersProcessed = t.getCount ∧
    s.average = t.getAvgE2E ∧ s.min = t.getMinE2E ∧ s.max = t.getMaxE2E ∧
    s.p50 = t.getP50E2E.2 ∧ s.p95 = t.getP95E2E.2 ∧ s.p99 = t.getP99E2E.2

/-- The accessors and `printStats` read the same numbers. -/
theorem printed_of_pos (h : t.totalCount > 0) :
    ∃ s, t.printStats.2 = .stats s ∧ s.ordersProcessed = t.getCount ∧
      s.average = t.getAvgE2E ∧ s.min = t.getMinE2E ∧ s.max = t.getMaxE2E ∧
      s.p50 = t.getP50E2E.2 ∧ s.p95 = t.getP95E2E.2 ∧ s.p99 = t.getP99E2E.2 := by
  refine ⟨t.stats, ?_, rfl, ?_, rfl, rfl, rfl, rfl, rfl⟩
  · rw [printStats_snd, if_neg (ne_of_gt h)]
  · rw [getAvgE2E, if_pos h]
    rfl

/-- **What is tracked is what is reported.** -/
theorem Tracks.consistent (ht : Tracks ss t) (h : Fits ss) (hne : ss ≠ []) :
    Consistent (ss.map Stamps.exactE2E) t := by
  refine ⟨?_, ht.toInt_sumE2E h, ht.isLeast_exact h hne, ht.isGreatest_exact h hne, ?_,
    ⟨ht.map_toInt_perm h, ?_, ?_, ?_, ?_⟩, ht.times_le h, ht.percentiles_between h hne,
    ht.avg_between h hne, printed_of_pos (ht.totalCount_pos h hne)⟩
  · rw [List.length_map]
    exact ht.toInt_totalCount h
  · rw [List.length_map]
    exact ht.toInt_getAvgE2E h hne
  · rw [ht.e2eSamples.length_eq, List.length_map, List.length_map]
  · rw [ht.queueSamples.length_eq, List.length_map, List.length_map]
  · rw [ht.matchSamples.length_eq, List.length_map, List.length_map]
  · rw [ht.networkSamples.length_eq, List.length_map, List.length_map]

/-- **The reports of the tracker are consistent, and reading them is harmless.**  After
any calls, once something has been recorded since the last reset, the reports are those
of the latencies recorded since then; and whatever reads are left out of any sequence of
calls, the other calls report what they reported. -/
theorem tracker_reports :
    (∀ calls : List Call, Fits (sinceReset calls) → sinceReset calls ≠ [] →
      Consistent ((sinceReset calls).map Stamps.exactE2E) (tracker.run calls)) ∧
    ∀ marked : List (Call × Bool), (∀ c ∈ marked, c.2 = false → c.1.reads = true) →
      tracker.log (kept marked) = markedTracker.logWhere (fun c => c.2) marked :=
  ⟨fun calls h hne => (tracks_run calls).consistent h hne, fun _ h => log_kept h⟩

/-- Two latencies of 10 and 0 after a reset, with a percentile read between them that
may be left out. -/
theorem tracker_reports_between :
    Consistent [10, 0] (tracker.run [.reset, .record ⟨0, 1, 2, 3, 10⟩, .getP99E2E,
      .record ⟨5, 5, 5, 5, 5⟩]) ∧
    tracker.log [.record ⟨0, 1, 2, 3, 10⟩, .record ⟨5, 5, 5, 5, 5⟩, .printStats] =
      markedTracker.logWhere (fun c => c.2) [(.record ⟨0, 1, 2, 3, 10⟩, true),
        (.getP99E2E, false), (.record ⟨5, 5, 5, 5, 5⟩, true), (.printStats, true)] := by
  refine ⟨tracker_reports.1 [.reset, .record ⟨0, 1, 2, 3, 10⟩, .getP99E2E,
    .record ⟨5, 5, 5, 5, 5⟩] ⟨?_, by decide, by decide⟩ (by decide),
    tracker_reports.2 [(.record ⟨0, 1, 2, 3, 10⟩, true), (.getP99E2E, false),
      (.record ⟨5, 5, 5, 5, 5⟩, true), (.printStats, true)] ?_⟩
  · exact List.forall_mem_cons.mpr ⟨⟨by decide, by decide, by decide, by decide⟩,
      List.forall_mem_singleton.mpr ⟨by decide, by decide, by decide, by decide⟩⟩
  · intro c hc hmark
    simp only [List.mem_cons, List.not_mem_nil, or_false] at hc
    rcases hc with rfl | rfl | rfl | rfl
    · exact absurd hmark (by decide)
    · rfl
    · exact absurd hmark (by decide)
    · exact absurd hmark (by decide)

end LatencyTracker
end MatchingEngine
