import MatchingEngine.Lib.Wrapping
import MatchingEngine.Tracker.Percentile
import Mathlib.Algebra.Order.BigOperators.Group.List
import Mathlib.Algebra.Order.Ring.Int

/-!
# What the tracker reports

A tracker is determined, but for the order of its samples, by the clock readings
recorded since the last reset (`Tracks`).  Every call keeps this, the ones that sort in
place included, and a report depends on nothing else (`Tracks.reports_eq`).  Both halves
of the main theorem follow.  A read that is left out changes no later report, since it
adds no clock reading; and the numbers reported are those of the latencies recorded, as
soon as the sums fit in the machine (`Fits`).
-/

namespace MatchingEngine

/-! ## Exact latencies -/

namespace Stamps

def exactNet (s : Stamps) : ℤ := s.tsQueuePush.toInt - s.tsNetworkRecv.toInt

def exactQueue (s : Stamps) : ℤ := s.tsQueuePop.toInt - s.tsQueuePush.toInt

def exactMatch (s : Stamps) : ℤ := s.tsMatchComplete.toInt - s.tsProcessStart.toInt

def exactE2E (s : Stamps) : ℤ := s.tsMatchComplete.toInt - s.tsNetworkRecv.toInt

/-- The clock does not run backwards while a command is on its way. -/
structure Ordered (s : Stamps) : Prop where
  recv_push : s.tsNetworkRecv ≤ s.tsQueuePush
  push_pop : s.tsQueuePush ≤ s.tsQueuePop
  pop_start : s.tsQueuePop ≤ s.tsProcessStart
  start_complete : s.tsProcessStart ≤ s.tsMatchComplete

/-- The three categories are stretches of the whole, and none is negative. -/
theorem Ordered.categories {s : Stamps} (h : s.Ordered) :
    0 ≤ s.exactNet ∧ 0 ≤ s.exactQueue ∧ 0 ≤ s.exactMatch ∧
      s.exactNet + s.exactQueue + s.exactMatch ≤ s.exactE2E := by
  have h₁ := Int64.le_iff_toInt_le.mp h.recv_push
  have h₂ := Int64.le_iff_toInt_le.mp h.push_pop
  have h₃ := Int64.le_iff_toInt_le.mp h.pop_start
  have h₄ := Int64.le_iff_toInt_le.mp h.start_complete
  rw [exactNet, exactQueue, exactMatch, exactE2E]
  omega

end Stamps

namespace LatencyTracker

/-! ## The epoch -/

/-- The clock readings recorded since the last reset, after one more call. -/
def Call.epoch (ss : List Stamps) : Call → List Stamps
  | .record s => ss ++ [s]
  | .reset => []
  | _ => ss

/-- The clock readings recorded since the last reset. -/
def sinceReset (calls : List Call) : List Stamps := calls.foldl Call.epoch []

theorem sinceReset_concat (calls : List Call) (c : Call) :
    sinceReset (calls ++ [c]) = c.epoch (sinceReset calls) := by
  rw [sinceReset, List.foldl_append]
  rfl

theorem Call.epoch_of_reads {c : Call} (h : c.reads = true) (ss : List Stamps) :
    c.epoch ss = ss := by
  cases c with
  | record s => exact absurd h (by simp [Call.reads])
  | reset => exact absurd h (by simp [Call.reads])
  | _ => rfl

/-! ## What a tracker keeps -/

/-- The tracker holds the samples and the aggregates of the clock readings `ss`, in the
arithmetic of the machine; the samples may have been sorted. -/
structure Tracks (ss : List Stamps) (t : LatencyTracker) : Prop where
  e2eSamples : t.e2eSamples.Perm (ss.map Stamps.e2eLat)
  queueSamples : t.queueSamples.Perm (ss.map Stamps.qLat)
  matchSamples : t.matchSamples.Perm (ss.map Stamps.matchLat)
  networkSamples : t.networkSamples.Perm (ss.map Stamps.netLat)
  totalCount : t.totalCount = ss.foldl (fun acc _ => acc + 1) 0
  minE2E : t.minE2E = running (· < ·) Int64.maxValue (ss.map Stamps.e2eLat)
  maxE2E : t.maxE2E = running (· > ·) 0 (ss.map Stamps.e2eLat)
  sumE2E : t.sumE2E = ss.foldl (fun acc s => acc + s.e2eLat) 0
  timeNetwork : t.timeNetwork = ss.foldl (fun acc s => acc + s.netLat) 0
  timeQueue : t.timeQueue = ss.foldl (fun acc s => acc + s.qLat) 0
  timeOrderbook : t.timeOrderbook = ss.foldl (fun acc s => acc + s.matchLat) 0

theorem tracks_nil : Tracks [] {} :=
  ⟨List.Perm.nil, List.Perm.nil, List.Perm.nil, List.Perm.nil, rfl, rfl, rfl, rfl, rfl, rfl, rfl⟩

variable {ss : List Stamps} {t t' : LatencyTracker}

theorem Tracks.record (h : Tracks ss t) (s : Stamps) : Tracks (ss ++ [s]) (t.record s) where
  e2eSamples := by rw [List.map_append]; exact h.e2eSamples.append_right _
  queueSamples := by rw [List.map_append]; exact h.queueSamples.append_right _
  matchSamples := by rw [List.map_append]; exact h.matchSamples.append_right _
  networkSamples := by rw [List.map_append]; exact h.networkSamples.append_right _
  totalCount := by rw [List.foldl_concat, ← h.totalCount]; rfl
  minE2E := by rw [List.map_append, List.map_singleton, running_concat, ← h.minE2E]; rfl
  maxE2E := by rw [List.map_append, List.map_singleton, running_concat, ← h.maxE2E]; rfl
  sumE2E := by rw [List.foldl_concat, ← h.sumE2E]; rfl
  timeNetwork := by rw [List.foldl_concat, ← h.timeNetwork]; rfl
  timeQueue := by rw [List.foldl_concat, ← h.timeQueue]; rfl
  timeOrderbook := by rw [List.foldl_concat, ← h.timeOrderbook]; rfl

/-- Sorting samples leaves a tracker what it is. -/
theorem Tracks.resort (h : Tracks ss t) {e2e queue match' network : List Int64}
    (he : e2e.Perm t.e2eSamples) (hq : queue.Perm t.queueSamples)
    (hm : match'.Perm t.matchSamples) (hn : network.Perm t.networkSamples) :
    Tracks ss { t with
      e2eSamples := e2e, queueSamples := queue, matchSamples := match',
      networkSamples := network } :=
  { h with
    e2eSamples := he.trans h.e2eSamples
    queueSamples := hq.trans h.queueSamples
    matchSamples := hm.trans h.matchSamples
    networkSamples := hn.trans h.networkSamples }

theorem Tracks.printStats (h : Tracks ss t) : Tracks ss t.printStats.1 := by
  have htwice : ∀ (l : List Int64) (p p' : ℚ), (percentile (percentile l p).2 p').2.Perm l :=
    fun l p p' => (percentile_perm _ p').trans (percentile_perm l p)
  rw [LatencyTracker.printStats]
  split
  · exact h
  · exact h.resort ((percentile_perm _ _).trans (htwice _ _ _)) (htwice _ _ _) (htwice _ _ _)
      (htwice _ _ _)

theorem Tracks.getPercentileE2E (h : Tracks ss t) (p : ℚ) :
    Tracks ss (t.getPercentileE2E p).1 :=
  h.resort (percentile_perm _ p) (List.Perm.refl _) (List.Perm.refl _) (List.Perm.refl _)

/-- **One call.** -/
theorem Tracks.call (h : Tracks ss t) (c : Call) : Tracks (c.epoch ss) (t.call c).1 := by
  cases c with
  | record s => exact h.record s
  | reset => exact tracks_nil
  | printStats => exact h.printStats
  | getCount => exact h
  | getAvgE2E => exact h
  | getMinE2E => exact h
  | getMaxE2E => exact h
  | getP50E2E => exact h.getPercentileE2E _
  | getP95E2E => exact h.getPercentileE2E _
  | getP99E2E => exact h.getPercentileE2E _

/-- **A tracker tracks what was recorded since the last reset.** -/
theorem tracks_run (calls : List Call) : Tracks (sinceReset calls) (tracker.run calls) := by
  induction calls using List.reverseRecOn with
  | nil => exact tracks_nil
  | append_singleton calls c ih =>
    rw [sinceReset_concat, Machine.run_concat]
    exact ih.call c

/-- The numbers of the report, each read off the tracker as it is before the call. -/
def stats (t : LatencyTracker) : Stats where
  ordersProcessed := t.totalCount
  average := t.sumE2E / t.totalCount
  min := t.minE2E
  max := t.maxE2E
  p50 := (percentile t.e2eSamples (1 / 2)).1
  p95 := (percentile t.e2eSamples (19 / 20)).1
  p99 := (percentile t.e2eSamples (99 / 100)).1
  p50Net := (percentile t.networkSamples (1 / 2)).1
  p99Net := (percentile t.networkSamples (99 / 100)).1
  p50Queue := (percentile t.queueSamples (1 / 2)).1
  p99Queue := (percentile t.queueSamples (99 / 100)).1
  p50Match := (percentile t.matchSamples (1 / 2)).1
  p99Match := (percentile t.matchSamples (99 / 100)).1
  breakdown := t.breakdown

/-- The percentiles of a report do not notice that the ones before them sorted. -/
theorem printStats_snd (t : LatencyTracker) :
    t.printStats.2 = if t.totalCount = 0 then .noOrders else .stats t.stats := by
  have hsorted : ∀ (l : List Int64) (p p' : ℚ),
      percentile (percentile l p).2 p' = percentile l p' := fun l p p' =>
    percentile_congr (percentile_perm l p) p'
  rw [printStats]
  split
  · rfl
  · simp only [hsorted]
    rfl

/-- **A report depends on what is tracked**, and not on the order of the samples. -/
theorem Tracks.reports_eq (h : Tracks ss t) (h' : Tracks ss t') (c : Call) :
    (t.call c).2 = (t'.call c).2 := by
  have hcount : t.totalCount = t'.totalCount := h.totalCount.trans h'.totalCount.symm
  have hsum : t.sumE2E = t'.sumE2E := h.sumE2E.trans h'.sumE2E.symm
  have hmin : t.minE2E = t'.minE2E := h.minE2E.trans h'.minE2E.symm
  have hmax : t.maxE2E = t'.maxE2E := h.maxE2E.trans h'.maxE2E.symm
  have he := percentile_congr (h.e2eSamples.trans h'.e2eSamples.symm)
  have hq := percentile_congr (h.queueSamples.trans h'.queueSamples.symm)
  have hm := percentile_congr (h.matchSamples.trans h'.matchSamples.symm)
  have hn := percentile_congr (h.networkSamples.trans h'.networkSamples.symm)
  have hbreakdown : t.breakdown = t'.breakdown := by
    rw [breakdown, breakdown, h.timeNetwork, h.timeQueue, h.timeOrderbook, h'.timeNetwork,
      h'.timeQueue, h'.timeOrderbook]
  have hstats : t.stats = t'.stats := by
    rw [stats, stats, hcount, hsum, hmin, hmax, he, he, he, hn, hn, hq, hq, hm, hm, hbreakdown]
  cases c with
  | record s => rfl
  | reset => rfl
  | printStats =>
    show [t.printStats.2] = [t'.printStats.2]
    rw [printStats_snd, printStats_snd, hcount, hstats]
  | getCount => exact congrArg (fun v => [Report.value v]) hcount
  | getAvgE2E =>
    show [Report.value t.getAvgE2E] = [Report.value t'.getAvgE2E]
    rw [getAvgE2E, getAvgE2E, hcount, hsum]
  | getMinE2E => exact congrArg (fun v => [Report.value v]) hmin
  | getMaxE2E => exact congrArg (fun v => [Report.value v]) hmax
  | getP50E2E => exact congrArg (fun r => [Report.value r.1]) (he _)
  | getP95E2E => exact congrArg (fun r => [Report.value r.1]) (he _)
  | getP99E2E => exact congrArg (fun r => [Report.value r.1]) (he _)

/-! ## Leaving reads out -/

/-- The calls that carry the mark. -/
def kept (marked : List (Call × Bool)) : List Call :=
  (marked.filter fun c => c.2).map Prod.fst

theorem kept_concat (marked : List (Call × Bool)) (c : Call × Bool) :
    kept (marked ++ [c]) = kept marked ++ if c.2 then [c.1] else [] := by
  rw [kept, List.filter_append, List.map_append, kept]
  obtain ⟨c, b⟩ := c
  cases b <;> rfl

/-- Reads record nothing, so leaving them out leaves what is tracked. -/
theorem sinceReset_kept {marked : List (Call × Bool)}
    (h : ∀ c ∈ marked, c.2 = false → c.1.reads = true) :
    sinceReset (kept marked) = sinceReset (marked.map Prod.fst) := by
  induction marked using List.reverseRecOn with
  | nil => rfl
  | append_singleton marked c ih =>
    have ih := ih fun c' hc' => h c' (List.mem_append_left _ hc')
    rw [kept_concat, List.map_append, List.map_singleton, sinceReset_concat]
    cases hmark : c.2 with
    | true =>
      rw [if_pos rfl, sinceReset_concat, ih]
    | false =>
      have hreads := h c (List.mem_append_right _ (List.mem_singleton_self c)) hmark
      rw [if_neg (by simp), List.append_nil, ih, Call.epoch_of_reads hreads]

theorem run_markedTracker (marked : List (Call × Bool)) :
    markedTracker.run marked = tracker.run (marked.map Prod.fst) := by
  induction marked using List.reverseRecOn with
  | nil => rfl
  | append_singleton marked c ih =>
    rw [List.map_append, List.map_singleton, Machine.run_concat, Machine.run_concat, ih]
    rfl

/-- **Leaving out reads changes no report of the other calls.** -/
theorem log_kept {marked : List (Call × Bool)}
    (h : ∀ c ∈ marked, c.2 = false → c.1.reads = true) :
    tracker.log (kept marked) = markedTracker.logWhere (fun c => c.2) marked := by
  induction marked using List.reverseRecOn with
  | nil => rfl
  | append_singleton marked c ih =>
    have hmarked : ∀ c' ∈ marked, c'.2 = false → c'.1.reads = true :=
      fun c' hc' => h c' (List.mem_append_left _ hc')
    rw [kept_concat, Machine.logWhere_concat, ← ih hmarked]
    cases hmark : c.2 with
    | true =>
      have hkept := tracks_run (kept marked)
      rw [sinceReset_kept hmarked] at hkept
      rw [if_pos rfl, if_pos rfl, Machine.log_concat, run_markedTracker]
      exact congrArg _ (hkept.reports_eq (tracks_run _) c.1)
    | false =>
      rw [if_neg (by simp), if_neg (by simp), List.append_nil, List.append_nil]

end LatencyTracker
end MatchingEngine
