import MatchingEngine.Engine.Ledger

/-!
# Books of different symbols

A command concerns the book of a symbol when it is a `NEW` for the symbol, a
`MODIFY` that carries it, or a `CANCEL` of an identifier that a `NEW` has given to
an order of the symbol.  A `CANCEL` carries no symbol and is routed by a map that all
books share, so that it leaves the other books alone is a fact about runs: a route
to a symbol is that of a `NEW` for the symbol (`entered_of_route`).

`books_independent`: the book of a symbol and the trades in it are those of the run
of the commands that concern it, and so commands that concern different symbols can
change places.
-/

namespace MatchingEngine

variable {P : Type}

/-- The command concerns the book of `s`, in a run of commands that gives out the
identifiers of its `NEW`s. -/
def Concerns (cmds : List (Command P)) (s : Str) (cmd : Command P) : Prop :=
  match cmd.type with
  | .new => cmd.symbolStr = s
  | .modify => cmd.symbolStr = s
  | .cancel => ∃ c ∈ cmds, c.type = .new ∧ c.symbolStr = s ∧ c.orderId = cmd.orderId
  | .stats => False
  | .book => False

instance (cmds : List (Command P)) (s : Str) : DecidablePred (Concerns cmds s) := fun cmd => by
  unfold Concerns
  cases cmd.type <;> infer_instance

/-- The commands of a run that concern the book of `s`. -/
def concerning (cmds : List (Command P)) (s : Str) : List (Command P) :=
  cmds.filter fun cmd => Concerns cmds s cmd

variable [LinearOrder P]

/-! ## Two exchanges that agree on a symbol -/

/-- The exchanges have the same book of `s`, and route the same identifiers to it. -/
structure Agree (s : Str) (ex ex' : Exchange P) : Prop where
  book : ex.book s = ex'.book s
  routes : ∀ i, ex.orderSymbolMap.lookup i = some s ↔ ex'.orderSymbolMap.lookup i = some s

theorem Agree.refl (s : Str) (ex : Exchange P) : Agree s ex ex := ⟨rfl, fun _ => Iff.rfl⟩

theorem Agree.symm {s : Str} {ex ex' : Exchange P} (h : Agree s ex ex') : Agree s ex' ex :=
  ⟨h.book.symm, fun i => (h.routes i).symm⟩

theorem Agree.trans {s : Str} {ex ex' ex'' : Exchange P} (h : Agree s ex ex')
    (h' : Agree s ex' ex'') : Agree s ex ex'' :=
  ⟨h.book.trans h'.book, fun i => (h.routes i).trans (h'.routes i)⟩

/-- Both exchanges perform the first half of a command. -/
theorem Agree.update {s : Str} {ex ex' : Exchange P} (h : Agree s ex ex') (cmd : Command P) :
    Agree s (update ex cmd).1 (update ex' cmd).1 := by
  rw [MatchingEngine.update, MatchingEngine.update]
  cases cmd.type with
  | stats => exact h
  | book => exact h
  | new =>
    refine ⟨?_, fun i => ?_⟩
    · rw [Exchange.book_addOrder, Exchange.book_addOrder]
      split
      · rename_i hs
        rw [← hs, h.book]
      · exact h.book
    · simp only [Exchange.orderSymbolMap_addOrder]
      by_cases hi : i = cmd.order.orderId
      · rw [hi, Finmap.lookup_insert, Finmap.lookup_insert]
      · rw [Finmap.lookup_insert_of_ne _ hi, Finmap.lookup_insert_of_ne _ hi, h.routes]
  | cancel =>
    refine ⟨?_, fun i => ?_⟩
    · simp only [Exchange.book_cancelOrder, h.routes, h.book]
    · simp only [Exchange.lookup_cancelOrder]
      split
      · exact Iff.rfl
      · exact h.routes i
  | modify =>
    refine ⟨?_, fun i => ?_⟩
    · simp only [Exchange.book_modifyOrder]
      by_cases hs : s = cmd.symbolStr
      · rw [← hs]
        simp only [h.routes, h.book]
      · rw [if_neg fun hc => hs hc.1, if_neg fun hc => hs hc.1, h.book]
    · simp only [Exchange.orderSymbolMap_modifyOrder, h.routes]

/-- **The first half of a command that does not concern the symbol.**  What it does to
the map of routes is to routes that lead elsewhere. -/
theorem agree_update {cmds : List (Command P)} {s : Str} {ex : Exchange P} {cmd : Command P}
    (hno : ¬ Concerns cmds s cmd)
    (hnew : cmd.type = .new → ex.orderSymbolMap.lookup cmd.orderId ≠ some s)
    (hcancel : cmd.type = .cancel → ex.orderSymbolMap.lookup cmd.orderId ≠ some s) :
    Agree s ex (update ex cmd).1 := by
  rw [Concerns] at hno
  rw [update]
  cases htype : cmd.type with
  | stats => exact Agree.refl s ex
  | book => exact Agree.refl s ex
  | new =>
    rw [htype] at hno
    simp only at hno
    refine ⟨?_, fun i => ?_⟩
    · rw [Exchange.book_addOrder, if_neg fun h => hno h.symm]
    · simp only [Exchange.orderSymbolMap_addOrder]
      by_cases hi : i = cmd.order.orderId
      · subst hi
        rw [Finmap.lookup_insert]
        exact ⟨fun h => absurd h (hnew htype), fun h => absurd (Option.some_inj.mp h) hno⟩
      · rw [Finmap.lookup_insert_of_ne _ hi]
  | cancel =>
    refine ⟨?_, fun i => ?_⟩
    · rw [Exchange.book_cancelOrder, if_neg (hcancel htype)]
    · simp only [Exchange.lookup_cancelOrder]
      split
      · rename_i hi
        subst hi
        exact ⟨fun h => absurd h (hcancel htype), fun h => absurd h (by simp)⟩
      · exact Iff.rfl
  | modify =>
    rw [htype] at hno
    simp only at hno
    refine ⟨?_, fun i => ?_⟩
    · simp only [Exchange.book_modifyOrder]
      rw [if_neg fun h => hno h.1.symm]
    · simp only [Exchange.orderSymbolMap_modifyOrder]

/-- A whole command, on two exchanges that agree. -/
theorem Agree.step {s : Str} {ex ex' : Exchange P} (h : Agree s ex ex') (hl : ex.Linked)
    (hu : ex.Uncrossed) (hl' : ex'.Linked) (hu' : ex'.Uncrossed) (cmd : Command P) :
    Agree s (dispatch ex cmd).1 (dispatch ex' cmd).1 := by
  have hupd := h.update cmd
  rw [dispatch_eq hl hu, dispatch_eq hl' hu']
  refine ⟨?_, fun i => ?_⟩
  · simp only [Exchange.book_matchOrders]
    by_cases hs : s = cmd.symbolStr
    · rw [if_pos hs, if_pos hs, ← hs, hupd.book]
    · rw [if_neg hs, if_neg hs, hupd.book]
  · simp only [Exchange.orderSymbolMap_matchOrders, hupd.routes]

/-- The trades of a command are those of the book of its symbol. -/
theorem Agree.trades_dispatch {s : Str} {ex ex' : Exchange P} (h : Agree s ex ex')
    (hl : ex.Linked) (hu : ex.Uncrossed) (hl' : ex'.Linked) (hu' : ex'.Uncrossed)
    {cmd : Command P} (hs : cmd.symbolStr = s) :
    trades (dispatch ex cmd).2 = trades (dispatch ex' cmd).2 := by
  rw [MatchingEngine.trades_dispatch hl hu, MatchingEngine.trades_dispatch hl' hu', hs,
    (h.update cmd).book]

/-- **A whole command that does not concern the symbol** leaves its book alone and
trades nothing in it. -/
theorem agree_dispatch {cmds : List (Command P)} {s : Str} {ex : Exchange P} {cmd : Command P}
    (hl : ex.Linked) (hu : ex.Uncrossed) (hno : ¬ Concerns cmds s cmd)
    (hnew : cmd.type = .new → ex.orderSymbolMap.lookup cmd.orderId ≠ some s)
    (hcancel : cmd.type = .cancel → ex.orderSymbolMap.lookup cmd.orderId ≠ some s) :
    Agree s ex (dispatch ex cmd).1 ∧
      (cmd.symbolStr = s → trades (dispatch ex cmd).2 = []) := by
  have hupd := agree_update hno hnew hcancel
  have huncrossed : ((update ex cmd).1.book s).Uncrossed := by
    rw [← hupd.book]
    exact hu s
  refine ⟨⟨?_, fun i => ?_⟩, fun hs => ?_⟩
  · rw [dispatch_eq hl hu, Exchange.book_matchOrders]
    split
    · rename_i hs
      rw [← hs, OrderBook.matchOrders_of_uncrossed (linked_update hl cmd s) huncrossed, hupd.book]
    · exact hupd.book
  · rw [dispatch_eq hl hu]
    simp only [Exchange.orderSymbolMap_matchOrders, hupd.routes]
  · rw [trades_dispatch hl hu, hs]
    exact Loop.outputs_of_none
      (Ladder.step_eq_none_of_lt (L := ((update ex cmd).1.book s).ladder) huncrossed) _

/-! ## Routes come from `NEW`s -/

/-- **A route to a symbol is that of a `NEW` for the symbol.** -/
theorem entered_of_route (cmds : List (Command P)) {i : UInt64} {s : Str}
    (h : (engine.run cmds).orderSymbolMap.lookup i = some s) :
    ∃ c ∈ cmds, c.type = .new ∧ c.symbolStr = s ∧ c.orderId = i := by
  induction cmds using List.reverseRecOn with
  | nil =>
    rw [Machine.run_nil, show (engine (P := P)).init = Exchange.empty from rfl, Exchange.empty,
      Finmap.lookup_empty] at h
    exact absurd h (by simp)
  | append_singleton cmds cmd ih =>
    have hold : (engine.run cmds).orderSymbolMap.lookup i = some s →
        ∃ c ∈ cmds ++ [cmd], c.type = .new ∧ c.symbolStr = s ∧ c.orderId = i := by
      intro h
      obtain ⟨c, hc, hcases⟩ := ih h
      exact ⟨c, List.mem_append_left _ hc, hcases⟩
    rw [engine_run_concat, dispatch_eq (linked_engine cmds) (uncrossed_engine cmds),
      Exchange.orderSymbolMap_matchOrders, update] at h
    cases htype : cmd.type with
    | stats =>
      rw [htype] at h
      exact hold h
    | book =>
      rw [htype] at h
      exact hold h
    | new =>
      rw [htype] at h
      simp only [Exchange.orderSymbolMap_addOrder] at h
      by_cases hi : i = cmd.order.orderId
      · rw [hi, Finmap.lookup_insert] at h
        exact ⟨cmd, List.mem_append_right _ (List.mem_singleton_self cmd), htype,
          Option.some_inj.mp h, hi.symm⟩
      · rw [Finmap.lookup_insert_of_ne _ hi] at h
        exact hold h
    | cancel =>
      rw [htype] at h
      simp only [Exchange.lookup_cancelOrder] at h
      split at h
      · exact absurd h (by simp)
      · exact hold h
    | modify =>
      rw [htype] at h
      simp only [Exchange.orderSymbolMap_modifyOrder] at h
      exact hold h

/-! ## Runs -/

/-- The runs have the same book of `s` at the end, and the same trades in it. -/
structure SameIn (s : Str) (cmds cmds' : List (Command P)) : Prop where
  book : (engine.run cmds).book s = (engine.run cmds').book s
  trades : tradesIn s cmds = tradesIn s cmds'

/-- Along a run the exchange agrees on a symbol with that of the commands that
concern the symbol, and has made the same trades in it. -/
theorem agree_concerning {cmds : List (Command P)} (hfresh : FreshNew cmds) (s : Str)
    {k : List (Command P)} (hk : k <+: cmds) :
    Agree s (engine.run k) (engine.run (k.filter fun cmd => Concerns cmds s cmd)) ∧
      tradesIn s k = tradesIn s (k.filter fun cmd => Concerns cmds s cmd) := by
  induction k using List.reverseRecOn with
  | nil => exact ⟨Agree.refl s _, rfl⟩
  | append_singleton k cmd ih =>
    have hk' := (List.prefix_append k [cmd]).trans hk
    obtain ⟨hagree, htrades⟩ := ih hk'
    have hl := linked_engine k
    have hu := uncrossed_engine k
    have hfreshk : FreshNew (k ++ [cmd]) := by
      obtain ⟨rest, rfl⟩ := hk
      exact hereditary_freshNew.of_append hfresh
    rw [List.filter_append, engine_run_concat, tradesIn_concat]
    by_cases hc : Concerns cmds s cmd
    · rw [List.filter_cons_of_pos (by simpa using hc), List.filter_nil, engine_run_concat,
        tradesIn_concat, htrades]
      refine ⟨hagree.step hl hu (linked_engine _) (uncrossed_engine _) cmd, ?_⟩
      split
      · rename_i hs
        rw [hagree.trades_dispatch hl hu (linked_engine _) (uncrossed_engine _) hs]
      · rfl
    · rw [List.filter_cons_of_neg (by simpa using hc), List.filter_nil, List.append_nil]
      obtain ⟨hstep, hnil⟩ := agree_dispatch hl hu hc
        (fun hnew hroute => by
          obtain ⟨c, hck, hcnew, -, hid⟩ := entered_of_route k hroute
          exact not_mem_newIds hfreshk hnew (List.mem_filterMap.mpr ⟨c, hck, by
            rw [Command.newId, hcnew, hid]⟩))
        (fun hcancel hroute => by
          obtain ⟨c, hck, hcnew, hsym, hid⟩ := entered_of_route k hroute
          refine hc ?_
          rw [Concerns, hcancel]
          exact ⟨c, hk'.subset hck, hcnew, hsym, hid⟩)
      refine ⟨hstep.symm.trans hagree, ?_⟩
      rw [← htrades]
      split
      · rename_i hs
        rw [hnil hs, List.append_nil]
      · exact List.append_nil _

theorem sameIn_concerning {cmds : List (Command P)} (hfresh : FreshNew cmds) (s : Str) :
    SameIn s cmds (concerning cmds s) := by
  obtain ⟨hagree, htrades⟩ := agree_concerning hfresh s (List.prefix_refl cmds)
  exact ⟨hagree.book, htrades⟩

omit [LinearOrder P] in
/-- What a command concerns does not depend on the order of the run. -/
theorem concerns_perm {cmds cmds' : List (Command P)} (h : cmds.Perm cmds') (s : Str)
    (cmd : Command P) : Concerns cmds s cmd ↔ Concerns cmds' s cmd := by
  rw [Concerns, Concerns]
  cases cmd.type <;> simp only [h.mem_iff]

/-- Runs of the same commands, in which those that concern a symbol stand in the same
order. -/
theorem sameIn_of_concerning_eq {cmds cmds' : List (Command P)} (hfresh : FreshNew cmds)
    (hperm : cmds.Perm cmds') {s : Str} (h : concerning cmds s = concerning cmds' s) :
    SameIn s cmds cmds' := by
  have hfresh' : FreshNew cmds' := (hperm.filterMap _).nodup_iff.mp hfresh
  have h₁ := sameIn_concerning hfresh s
  have h₂ := sameIn_concerning hfresh' s
  rw [h] at h₁
  exact ⟨h₁.book.trans h₂.book.symm, h₁.trades.trans h₂.trades.symm⟩

omit [LinearOrder P] in
/-- Two commands in a row that do not concern one symbol both. -/
theorem concerning_swap {before after : List (Command P)} {c c' : Command P} {s : Str}
    (h : ¬ (Concerns (before ++ c :: c' :: after) s c ∧
      Concerns (before ++ c :: c' :: after) s c')) :
    concerning (before ++ c :: c' :: after) s = concerning (before ++ c' :: c :: after) s := by
  have hperm : (before ++ c :: c' :: after).Perm (before ++ c' :: c :: after) :=
    (List.Perm.swap c' c after).append_left before
  have hfilter : concerning (before ++ c' :: c :: after) s =
      (before ++ c' :: c :: after).filter
        fun cmd => Concerns (before ++ c :: c' :: after) s cmd :=
    List.filter_congr fun cmd _ => by simp only [concerns_perm hperm s cmd]
  rw [hfilter, concerning, List.filter_append, List.filter_append]
  congr 1
  by_cases hc : Concerns (before ++ c :: c' :: after) s c
  · have hc' : ¬ Concerns (before ++ c :: c' :: after) s c' := fun hc' => h ⟨hc, hc'⟩
    rw [List.filter_cons_of_pos (by simpa using hc), List.filter_cons_of_neg (by simpa using hc'),
      List.filter_cons_of_neg (by simpa using hc'), List.filter_cons_of_pos (by simpa using hc)]
  · rw [List.filter_cons_of_neg (by simpa using hc), List.filter_cons, List.filter_cons,
      List.filter_cons_of_neg (by simpa using hc)]

/-- **Books of different symbols are independent.**  In a run without reused
identifiers the book of a symbol and the trades in it are those of the run of the
commands that concern it.  So a reordering that keeps, for each symbol, the order of
the commands that concern it changes no book and no trades of any book; in
particular two commands in a row that concern no symbol both can change places. -/
theorem books_independent (cmds : List (Command P)) (hfresh : FreshNew cmds) :
    (∀ s, SameIn s cmds (concerning cmds s)) ∧
    (∀ cmds', cmds.Perm cmds' → (∀ s, concerning cmds s = concerning cmds' s) →
      ∀ s, SameIn s cmds cmds') ∧
    ∀ before c c' after, cmds = before ++ c :: c' :: after →
      (∀ s, ¬ (Concerns cmds s c ∧ Concerns cmds s c')) →
      ∀ s, SameIn s cmds (before ++ c' :: c :: after) := by
  refine ⟨sameIn_concerning hfresh,
    fun cmds' hperm h s => sameIn_of_concerning_eq hfresh hperm (h s), ?_⟩
  rintro before c c' after rfl hno s
  exact sameIn_of_concerning_eq hfresh ((List.Perm.swap c' c after).append_left before)
    (concerning_swap (hno s))

/-- Two symbols; a cancel of a filled order, and a modify under the wrong symbol. -/
theorem books_independent_two :
    let cmds : List (Command ℤ) :=
      [.newOrder 1 .buy ['A'] 5 10 1 0 0, .newOrder 2 .buy ['B'] 5 20 2 0 0,
        .newOrder 3 .sell ['A'] 5 9 3 0 0, .cancelOrder 1 4 0 0, .modifyOrder 2 ['A'] 7 21 5 0 0]
    SameIn ['A'] cmds (concerning cmds ['A']) ∧
      concerning cmds ['A'] = [.newOrder 1 .buy ['A'] 5 10 1 0 0,
        .newOrder 3 .sell ['A'] 5 9 3 0 0, .cancelOrder 1 4 0 0, .modifyOrder 2 ['A'] 7 21 5 0 0] ∧
      tradesIn ['A'] cmds = [⟨10, 5, 1, 3⟩] :=
  ⟨(books_independent _ (by decide)).1 ['A'], by decide, by decide⟩

end MatchingEngine
