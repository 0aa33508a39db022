import MatchingEngine.Lib.Loop
import Mathlib.Data.List.Basic

/-!
# Segments of a stream

A stream of characters in which a separator ends each segment.  Of what has been read so
far some segments are complete, and the rest is pending.

* `complete_append`: reading on only adds to the complete segments, and what it adds
  depends on what was pending and on what is new.
* `extract`, `outputs_extract`: a loop that finds the separator, takes the segment before
  it out of a buffer, and starts again, takes out the complete segments and leaves what
  is pending.
-/

namespace MatchingEngine
namespace Segments

variable {α : Type*} [DecidableEq α] (sep : α)

/-- The segments that a separator ends, without it. -/
def complete (s : List α) : List (List α) := (s.splitOn sep).dropLast

/-- What follows the last separator. -/
def pending (s : List α) : List α := (s.splitOn sep).getLastD []

variable {sep}

theorem complete_of_notMem {s : List α} (h : sep ∉ s) : complete sep s = [] := by
  rw [complete, List.splitOn_eq_singleton h]
  rfl

theorem pending_of_notMem {s : List α} (h : sep ∉ s) : pending sep s = s := by
  rw [pending, List.splitOn_eq_singleton h]
  rfl

theorem complete_append_cons (s t : List α) :
    complete sep (s ++ sep :: t) = s.splitOn sep ++ complete sep t := by
  rw [complete, List.splitOn_append_cons_self, complete,
    List.dropLast_append_of_ne_nil (List.splitOn_ne_nil sep t)]

theorem pending_append_cons (s t : List α) : pending sep (s ++ sep :: t) = pending sep t := by
  rw [pending, List.splitOn_append_cons_self, pending, List.getLastD_eq_getLast?,
    List.getLastD_eq_getLast?, List.getLast?_append_of_ne_nil _ (List.splitOn_ne_nil sep t)]

omit [DecidableEq α] in
/-- A list that holds the separator, cut at the last one. -/
theorem exists_last {s : List α} (h : sep ∈ s) :
    ∃ before after, s = before ++ sep :: after ∧ sep ∉ after := by
  obtain ⟨as, bs, hsplit, hnot⟩ := List.eq_append_cons_of_mem (List.mem_reverse.mpr h)
  refine ⟨bs.reverse, as.reverse, ?_, by rwa [List.mem_reverse]⟩
  rw [← List.reverse_reverse s, hsplit]
  simp

/-- What is pending holds no separator. -/
theorem notMem_pending (s : List α) : sep ∉ pending sep s := by
  by_cases h : sep ∈ s
  · obtain ⟨before, after, rfl, hnot⟩ := exists_last h
    rw [pending_append_cons, pending_of_notMem hnot]
    exact hnot
  · rw [pending_of_notMem h]
    exact h

/-- **Reading on.**  The segments that are complete stay, and the pending one goes on
with what is new. -/
theorem complete_append (s t : List α) :
    complete sep (s ++ t) = complete sep s ++ complete sep (pending sep s ++ t) ∧
      pending sep (s ++ t) = pending sep (pending sep s ++ t) := by
  by_cases h : sep ∈ s
  · obtain ⟨before, after, rfl, hnot⟩ := exists_last h
    rw [List.append_assoc, List.cons_append, complete_append_cons, complete_append_cons,
      pending_append_cons, pending_append_cons, complete_of_notMem hnot, pending_of_notMem hnot,
      List.append_nil]
    exact ⟨rfl, rfl⟩
  · rw [complete_of_notMem h, pending_of_notMem h]
    exact ⟨rfl, rfl⟩

/-! ## Taking the segments out of a buffer -/

/-- Find the separator, and take out what is before it. -/
def extract (sep : α) (data : List α) : Option (List α × List α) :=
  (data.findIdx? fun c => decide (c = sep)).map fun pos => (data.take pos, data.drop (pos + 1))

theorem extract_eq_none {data : List α} : extract sep data = none ↔ sep ∉ data := by
  rw [extract, Option.map_eq_none_iff, List.findIdx?_eq_none_iff]
  constructor
  · exact fun h hmem => absurd (h sep hmem) (by simp)
  · intro h c hc
    simp only [decide_eq_false_iff_not]
    rintro rfl
    exact h hc

/-- What is taken out holds no separator, and stood at the front. -/
theorem extract_eq_some {data line rest : List α} (h : extract sep data = some (line, rest)) :
    sep ∉ line ∧ data = line ++ sep :: rest := by
  obtain ⟨pos, hpos, heq⟩ := Option.map_eq_some_iff.mp h
  obtain ⟨rfl, rfl⟩ := Prod.mk.inj heq
  obtain ⟨hlt, hsep, hfirst⟩ := List.findIdx?_eq_some_iff_getElem.mp hpos
  rw [decide_eq_true_eq] at hsep
  refine ⟨fun hmem => ?_, ?_⟩
  · obtain ⟨j, hj, heq⟩ := List.getElem_of_mem hmem
    rw [List.length_take] at hj
    rw [List.getElem_take] at heq
    exact absurd heq (by simpa using hfirst j (by omega))
  · rw [← hsep, ← List.drop_eq_getElem_cons hlt, List.take_append_drop]

variable (sep) in
/-- **The loop takes out the complete segments**, in order, and leaves what is
pending. -/
theorem outputs_extract (data : List α) :
    Loop.outputs (extract sep) data.length data = complete sep data ∧
      Loop.final (extract sep) data.length data = pending sep data := by
  have hdecr : ∀ (data line rest : List α), extract sep data = some (line, rest) →
      rest.length < data.length := by
    intro data line rest h
    rw [(extract_eq_some h).2, List.length_append, List.length_cons]
    omega
  refine Loop.loop_induction List.length hdecr
    (C := fun data lines rest => lines = complete sep data ∧ rest = pending sep data)
    (fun data hnone => ?_) (fun data line rest lines tail hsome ih => ?_) _ _ le_rfl
  · have hnot := extract_eq_none.mp hnone
    exact ⟨(complete_of_notMem hnot).symm, (pending_of_notMem hnot).symm⟩
  · obtain ⟨hnot, rfl⟩ := extract_eq_some hsome
    rw [complete_append_cons, pending_append_cons, List.splitOn_eq_singleton hnot, ih.1, ih.2]
    exact ⟨rfl, rfl⟩

end Segments
end MatchingEngine
