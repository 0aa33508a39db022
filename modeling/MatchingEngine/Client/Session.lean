import MatchingEngine.Client.Line
import MatchingEngine.Engine.Dispatch

/-!
# From lines to books

The network thread as a machine that reads lines: its state is `nextOrderId`, and
it emits the commands it pushes, one at most for each line.  The queue between the
threads keeps their order, so `exchangeAfter` is the state of the matching thread
when it has dispatched what was pushed for some lines.
-/

namespace MatchingEngine

variable {P : Type}

/-! ## The network thread -/

section Network

variable [Zero P] (toDouble : ℚ → Option P)

/-- The network thread as a machine that reads lines. -/
def network : Machine UInt64 Line (Command P) where
  init := 1
  step n l := ((processLine toDouble l n).nextOrderId, (processLine toDouble l n).pushed.toList)

/-- `nextOrderId` after some lines. -/
def nextIdAfter (lines : List Line) : UInt64 := (network toDouble).run lines

/-- The commands pushed for some lines. -/
def commandsOf (lines : List Line) : List (Command P) := (network toDouble).log lines

/-- The command pushed for the line after `lines`. -/
def pushedAfter (lines : List Line) (l : Line) : Option (Command P) :=
  (processLine toDouble l (nextIdAfter toDouble lines)).pushed

theorem commandsOf_concat (lines : List Line) (l : Line) :
    commandsOf toDouble (lines ++ [l]) =
      commandsOf toDouble lines ++ (pushedAfter toDouble lines l).toList :=
  (network toDouble).log_concat lines l

/-- A command that was pushed was pushed for one of the lines. -/
theorem mem_commandsOf {lines : List Line} {cmd : Command P} :
    cmd ∈ commandsOf toDouble lines ↔
      ∃ k l, k ++ [l] <+: lines ∧ pushedAfter toDouble k l = some cmd := by
  induction lines using List.reverseRecOn with
  | nil =>
    constructor
    · exact fun h => absurd h List.not_mem_nil
    · rintro ⟨k, l, hpre, -⟩
      exact absurd (List.prefix_nil.mp hpre) (by simp)
  | append_singleton lines l ih =>
    rw [commandsOf_concat, List.mem_append, ih, Option.mem_toList]
    constructor
    · rintro (⟨k, l', hpre, h⟩ | h)
      · exact ⟨k, l', hpre.trans (List.prefix_append _ _), h⟩
      · exact ⟨lines, l, List.prefix_refl _, h⟩
    · rintro ⟨k, l', hpre, h⟩
      rcases List.prefix_concat_iff.mp hpre with heq | hpre'
      · obtain ⟨rfl, hl⟩ := List.append_inj' heq rfl
        obtain rfl : l' = l := List.cons.inj hl |>.1
        exact Or.inr h
      · exact Or.inl ⟨k, l', hpre', h⟩

variable {toDouble} in
theorem pushedAfter_iff {lines : List Line} {l : Line}
    {cmd : Command P} : pushedAfter toDouble lines l = some cmd ↔
      ∃ r, readRequest toDouble l.text = .ok r ∧
        cmd = r.command l (nextIdAfter toDouble lines) :=
  processLine_pushed_iff

end Network

variable [Zero P] [LinearOrder P]

/-- The exchange after the commands pushed for some lines have been dispatched. -/
def exchangeAfter (toDouble : ℚ → Option P) (lines : List Line) : Exchange P :=
  engine.run (commandsOf toDouble lines)

theorem exchangeAfter_nil (toDouble : ℚ → Option P) :
    exchangeAfter toDouble [] = Exchange.empty := rfl

theorem exchangeAfter_pushed {toDouble : ℚ → Option P} {lines : List Line} {l : Line}
    {cmd : Command P} (h : pushedAfter toDouble lines l = some cmd) :
    exchangeAfter toDouble (lines ++ [l]) = (dispatch (exchangeAfter toDouble lines) cmd).1 := by
  unfold exchangeAfter
  rw [commandsOf_concat, h, Option.toList_some, engine_run_concat]

theorem exchangeAfter_rejected {toDouble : ℚ → Option P} {lines : List Line} {l : Line}
    (h : pushedAfter toDouble lines l = none) :
    exchangeAfter toDouble (lines ++ [l]) = exchangeAfter toDouble lines := by
  unfold exchangeAfter
  rw [commandsOf_concat, h, Option.toList_none, List.append_nil]

theorem linked_exchangeAfter (toDouble : ℚ → Option P) (lines : List Line) :
    (exchangeAfter toDouble lines).Linked := linked_engine _

theorem uncrossed_exchangeAfter (toDouble : ℚ → Option P) (lines : List Line) :
    (exchangeAfter toDouble lines).Uncrossed := uncrossed_engine _

end MatchingEngine
