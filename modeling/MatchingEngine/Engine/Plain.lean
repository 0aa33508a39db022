import MatchingEngine.Engine.Ledger
import MatchingEngine.Exchange.Plain

/-!
# The engine without books

The `switch` of the matching thread over the plain exchange: `plainEngine` reads the same
commands as `engine` and keeps one list.

* `engine_refines_plain`: in every run in which identifiers are not reused the engine
  prints, line by line, what the plain engine prints.
-/

namespace MatchingEngine

variable {P : Type} [LinearOrder P]

/-- The `switch` of the matching thread, over the plain exchange. -/
def plainDispatch (pl : PlainExchange P) (cmd : Command P) : PlainExchange P × List (Event P) :=
  match cmd.type with
  | .stats => (pl, pl.printStats)
  | .new =>
    let r := pl.addOrder cmd.symbolStr cmd.order
    let r' := r.1.matchOrders cmd.symbolStr
    (r'.1, r.2 ++ r'.2)
  | .cancel => pl.cancelOrder cmd.orderId
  | .modify =>
    let r := pl.modifyOrder cmd.orderId cmd.symbolStr cmd.quantity cmd.price cmd.timestamp
    let r' := r.1.matchOrders cmd.symbolStr
    (r'.1, r.2 ++ r'.2)
  | .book => (pl, pl.printBook cmd.symbolStr)

/-- The plain engine as a machine that reads commands. -/
def plainEngine : Machine (PlainExchange P) (Command P) (Event P) :=
  ⟨PlainExchange.empty, plainDispatch⟩

theorem plainEngine_run_concat (cmds : List (Command P)) (cmd : Command P) :
    plainEngine.run (cmds ++ [cmd]) = (plainDispatch (plainEngine.run cmds) cmd).1 :=
  Machine.run_concat _ _ _

theorem plainEngine_log_concat (cmds : List (Command P)) (cmd : Command P) :
    plainEngine.log (cmds ++ [cmd]) =
      plainEngine.log cmds ++ (plainDispatch (plainEngine.run cmds) cmd).2 :=
  Machine.log_concat _ _ _

theorem housed_engine (cmds : List (Command P)) : (engine.run cmds).Housed := by
  rw [engine_run]
  exact Exchange.housed_run _

/-- What a command does before the orders of its symbol are matched. -/
def plainUpdate (pl : PlainExchange P) (cmd : Command P) : PlainExchange P × List (Event P) :=
  match cmd.type with
  | .stats => (pl, pl.printStats)
  | .new => pl.addOrder cmd.symbolStr cmd.order
  | .cancel => pl.cancelOrder cmd.orderId
  | .modify => pl.modifyOrder cmd.orderId cmd.symbolStr cmd.quantity cmd.price cmd.timestamp
  | .book => (pl, pl.printBook cmd.symbolStr)

/-- The first half of a command. -/
theorem refines_update {cmds : List (Command P)} {cmd : Command P} {pl : PlainExchange P}
    (hr : (engine.run cmds).Refines pl) (hfresh : FreshNew (cmds ++ [cmd])) :
    (update (engine.run cmds) cmd).2 = (plainUpdate pl cmd).2 ∧
      (update (engine.run cmds) cmd).1.Refines (plainUpdate pl cmd).1 := by
  have hw := wf_engine (hereditary_freshNew cmds cmd hfresh)
  have hh := housed_engine cmds
  rw [update, plainUpdate]
  cases htype : cmd.type with
  | stats => exact ⟨hr.printStats, hr⟩
  | new => exact hr.addOrder fun s => not_rests_of_new hfresh htype s
  | cancel => exact hr.cancelOrder hw.linked hw.routed hh _
  | modify => exact hr.modifyOrder hw.linked hw.routed hh _ _ _ _ _
  | book => exact ⟨hr.printBook hw.linked cmd.symbolStr, hr⟩

/-- A command that does not match leaves the list uncrossed. -/
theorem matchStep_plainUpdate {cmds : List (Command P)} {cmd : Command P} {pl : PlainExchange P}
    (hr : (engine.run cmds).Refines pl) (hfresh : FreshNew (cmds ++ [cmd]))
    (hnew : cmd.type ≠ .new) (hmodify : cmd.type ≠ .modify) (s : Str) :
    (plainUpdate pl cmd).1.orders.matchStep s = none := by
  have hl := linked_engine cmds
  have hwhole : (dispatch (engine.run cmds) cmd).1 = (update (engine.run cmds) cmd).1 := by
    rw [dispatch, update]
    cases htype : cmd.type with
    | stats => rfl
    | new => exact absurd htype hnew
    | cancel => rfl
    | modify => exact absurd htype hmodify
    | book => rfl
  refine (refines_update hr hfresh).2.matchStep_none (linked_update hl cmd) ?_
  rw [← hwhole]
  exact uncrossed_dispatch hl (uncrossed_engine cmds) cmd s

/-- **A command in two halves**, on the list. -/
theorem plainDispatch_eq {cmds : List (Command P)} {cmd : Command P} {pl : PlainExchange P}
    (hr : (engine.run cmds).Refines pl) (hfresh : FreshNew (cmds ++ [cmd])) :
    plainDispatch pl cmd = (((plainUpdate pl cmd).1.matchOrders cmd.symbolStr).1,
      (plainUpdate pl cmd).2 ++ ((plainUpdate pl cmd).1.matchOrders cmd.symbolStr).2) := by
  have hnone := fun hnew hmodify =>
    PlainExchange.matchOrders_of_none (matchStep_plainUpdate hr hfresh hnew hmodify cmd.symbolStr)
  rw [plainDispatch]
  rw [plainUpdate] at hnone ⊢
  cases htype : cmd.type with
  | stats =>
    simp only [htype] at hnone
    simp only [hnone (by simp) (by simp), List.append_nil]
  | new => rfl
  | cancel =>
    simp only [htype] at hnone
    simp only [hnone (by simp) (by simp), List.append_nil]
  | modify => rfl
  | book =>
    simp only [htype] at hnone
    simp only [hnone (by simp) (by simp), List.append_nil]

/-- **One command.**  Related exchanges print the same and stay related. -/
theorem refines_dispatch {cmds : List (Command P)} {cmd : Command P} {pl : PlainExchange P}
    (hr : (engine.run cmds).Refines pl) (hfresh : FreshNew (cmds ++ [cmd])) :
    (dispatch (engine.run cmds) cmd).2 = (plainDispatch pl cmd).2 ∧
      (dispatch (engine.run cmds) cmd).1.Refines (plainDispatch pl cmd).1 := by
  have hl := linked_engine cmds
  obtain ⟨hout, hupd⟩ := refines_update hr hfresh
  obtain ⟨hout', hmatch⟩ :=
    hupd.matchOrders (linked_update hl cmd) (routed_update hfresh) cmd.symbolStr
  rw [dispatch_eq hl (uncrossed_engine cmds), plainDispatch_eq hr hfresh, hout, hout']
  exact ⟨rfl, hmatch⟩

/-- The two engines along a run. -/
theorem refines_engine {cmds : List (Command P)} (hfresh : FreshNew cmds) :
    engine.log cmds = plainEngine.log cmds ∧
      (engine.run cmds : Exchange P).Refines (plainEngine.run cmds) :=
  engine.simulation plainEngine hereditary_freshNew (R := fun _ ex pl => ex.Refines pl)
    Exchange.refines_empty (fun _ _ _ hf hr => refines_dispatch hr hf) cmds hfresh

/-- **The engine is its plain form.**  In every run without a reused identifier the
engine prints what one list of orders prints: the same lines for the orders, the same
trades, the same rejections, the same books and the same counters, in the same order.
At every moment the queues of its books are those of the list. -/
theorem engine_refines_plain (cmds : List (Command P)) (hfresh : FreshNew cmds) :
    engine.log cmds = plainEngine.log cmds ∧
      ∀ s side k, (((engine.run cmds).book s).queue side k).map Node.order =
        (plainEngine.run cmds).orders.queue s side k := by
  obtain ⟨hlog, hrefines⟩ := refines_engine hfresh
  exact ⟨hlog, fun s side k => hrefines.groups s side k⟩

/-- A modify that loses its place, a sweep of the level, and a cancel that comes too
late. -/
theorem engine_refines_plain_mixed :
    let cmds : List (Command ℤ) :=
      [.newOrder 1 .buy ['A'] 5 10 1 0 0, .newOrder 2 .buy ['A'] 5 10 2 0 0,
        .newOrder 3 .buy ['B'] 4 11 3 0 0, .modifyOrder 1 ['A'] 8 10 4 0 0,
        .newOrder 4 .sell ['A'] 7 9 5 0 0, .cancelOrder 2 6 0 0, .bookOf ['A'] 0 0]
    engine.log cmds = plainEngine.log cmds ∧
      (plainEngine.log cmds).drop 5 = [.trade ⟨10, 5, 2, 4⟩, .trade ⟨10, 2, 1, 4⟩,
        .cancelNotFound 2, .book ['A'] [⟨10, 6, 1⟩] []] :=
  ⟨(engine_refines_plain _ (by decide)).1, by decide⟩

end MatchingEngine
