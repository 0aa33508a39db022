import MatchingEngine.Engine.Entries
import MatchingEngine.Engine.TradePrice
import MatchingEngine.OrderBook.Accounts

/-!
# Conservation of quantity

The accounts of `OrderBook/Accounts.lean`, kept over whole runs.  The account of a
resting order is open for exactly the quantity the order still has, and the account
of an identifier that rests nowhere is balanced (`Ledger`).  The first half of a
command keeps this (`Ledger.update`), the matching of its book keeps it
(`Ledger.matchOrders`), and so it holds after every run (`ledger_run`).

`conservation` adds the counters: per symbol they are the numbers of `NEW` commands
and of trades and the traded units, modulo `2 ^ 64`, and the units traded are the
units bought by the symbol's buy orders and those sold by its sell orders.
-/

namespace MatchingEngine

variable {P : Type} [LinearOrder P]

/-! ## The exchange -/

/-- The accounts of the resting orders are open, those of the other identifiers
are balanced. -/
structure Ledger (A : UInt64 → Account) (ex : Exchange P) : Prop where
  opened : ∀ s, Open A (ex.book s)
  closed : ∀ i, (∀ s, ¬ (ex.book s).Rests i) → (A i).left = 0

theorem ledger_empty : Ledger (fun _ => {}) (Exchange.empty : Exchange P) where
  opened s side e he := by
    rw [Exchange.book_empty, OrderBook.resting_empty] at he
    exact absurd he List.not_mem_nil
  closed _ _ := rfl

/-- Matching a book of the exchange. -/
theorem Ledger.matchOrders {A : UInt64 → Account} {ex : Exchange P} (hA : Ledger A ex)
    (hl : ex.Linked) (hr : ex.Routed) (symbol : Str) :
    Ledger (posted A (ex.matchOrders symbol).2) (ex.matchOrders symbol).1 ∧
      Covered A (ex.matchOrders symbol).2 := by
  have hloop := posted_matchOrders (hA.opened symbol) (hl symbol) (hr.indexed symbol)
  rw [Exchange.events_matchOrders]
  refine ⟨⟨fun s => ?_, fun i hgone => ?_⟩, hloop.covered⟩
  · rw [Exchange.book_matchOrders]
    split
    · exact hloop.opened
    · rename_i hs
      intro side e he
      -- an order of another book has no part in these trades
      have hno : ¬ (ex.book symbol).Rests e.2.order.orderId :=
        fun h => hs (hr.symbol_unique ⟨side, e, he, rfl⟩ h)
      unfold OpenFor
      rw [hloop.untouched _ hno]
      exact hA.opened s side e he
  · have hself := hgone symbol
    rw [Exchange.book_matchOrders, if_pos rfl] at hself
    by_cases hi : (ex.book symbol).Rests i
    · exact hloop.settled i hi hself
    · rw [hloop.untouched i hi]
      refine hA.closed i fun s hs => ?_
      by_cases hsym : s = symbol
      · rw [hsym] at hs
        exact hi hs
      · have hother := hgone s
        rw [Exchange.book_matchOrders, if_neg hsym] at hother
        exact hother hs

/-! ## The first half of a command -/

/-- What the line `ev` of a command's first half is worth on the accounts: it opens
the command's account, it takes what is left from it, or it is silent. -/
inductive Worth (ex : Exchange P) (cmd : Command P) (ev : Event P) : Prop
  | opens (sets : Sets ex cmd) (post : ∀ i a, Account.post i a ev =
      if cmd.orderId = i then Account.opened cmd.quantity else a)
  | removes (cancel : cmd.type = .cancel) (s : Str) (side : Side) (e : P × Node P)
      (rests : e ∈ (ex.book s).resting side) (id : e.2.order.orderId = cmd.orderId)
      (post : ∀ i a, Account.post i a ev =
        if cmd.orderId = i then { a with removed := a.removed + e.2.order.quantity.toInt } else a)
  | silent (sets : ¬ Sets ex cmd)
      (same : ∀ s side, ((update ex cmd).1.book s).resting side = (ex.book s).resting side)
      (post : ∀ i a, Account.post i a ev = a)

/-- **The line the first half of a command prints**: it is no trade, and it is worth
on the accounts what the command does to the books. -/
theorem update_line {ex : Exchange P} (hl : ex.Linked) (cmd : Command P) :
    ∃ ev, (update ex cmd).2 = [ev] ∧ ev.trade? = none ∧ Worth ex cmd ev := by
  have hnot : cmd.type ≠ .new → cmd.type ≠ .modify → ¬ Sets ex cmd := by
    rintro h h' (hs | ⟨hs, -⟩)
    · exact h hs
    · exact h' hs
  cases htype : cmd.type with
  | stats =>
    have hno := hnot (by simp [htype]) (by simp [htype])
    have hupdate : update ex cmd = (ex, ex.printStats) := by rw [update, htype]
    rw [hupdate]
    exact ⟨_, rfl, rfl, .silent hno (fun s side => by rw [hupdate]) fun _ _ => rfl⟩
  | book =>
    have hno := hnot (by simp [htype]) (by simp [htype])
    have hupdate : update ex cmd = (ex, ex.printBook cmd.symbolStr) := by rw [update, htype]
    have hsame : ∀ s side,
        ((update ex cmd).1.book s).resting side = (ex.book s).resting side := by
      intro s side
      rw [hupdate]
    rw [hupdate]
    unfold Exchange.printBook
    cases ex.books.lookup cmd.symbolStr with
    | none => exact ⟨_, rfl, rfl, .silent hno hsame fun _ _ => rfl⟩
    | some b => exact ⟨_, rfl, rfl, .silent hno hsame fun _ _ => rfl⟩
  | new =>
    rw [update, htype]
    exact ⟨_, rfl, rfl, .opens (Or.inl htype) fun _ _ => rfl⟩
  | modify =>
    rcases modify_cases hl htype with ⟨hrej, hbook, e, hev, he⟩ |
      ⟨hacc, -, loc, n, -, -, -, -, -, ⟨-, -, -, hev⟩ | ⟨-, -, hev⟩⟩
    · have hno : ¬ Sets ex cmd := by
        rintro (hs | ⟨-, hs⟩)
        · exact absurd (htype.symm.trans hs) (by simp)
        · exact hs hrej
      have hsame : ∀ s side,
          ((update ex cmd).1.book s).resting side = (ex.book s).resting side := by
        intro s side
        rw [hbook]
      -- three reasons to reject, and none of them is worth anything
      rcases he with ⟨i, rfl⟩ | ⟨i, rfl⟩ | ⟨i, s, s', rfl⟩
      · exact ⟨_, hev, rfl, .silent hno hsame fun _ _ => rfl⟩
      · exact ⟨_, hev, rfl, .silent hno hsame fun _ _ => rfl⟩
      · exact ⟨_, hev, rfl, .silent hno hsame fun _ _ => rfl⟩
    · exact ⟨_, hev, rfl, .opens (Or.inr ⟨htype, hacc⟩) fun _ _ => rfl⟩
    · exact ⟨_, hev, rfl, .opens (Or.inr ⟨htype, hacc⟩) fun _ _ => rfl⟩
  | cancel =>
    have hno := hnot (by simp [htype]) (by simp [htype])
    have hupdate : update ex cmd = ex.cancelOrder cmd.orderId := by rw [update, htype]
    rcases Exchange.cancelOrder_cases ex cmd.orderId with ⟨-, h⟩ | ⟨symbol, -, hbook, -, hev⟩
    · rw [← hupdate] at h
      exact ⟨_, by rw [h], rfl, .silent hno (fun s side => by rw [h]) fun _ _ => rfl⟩
    rw [← hupdate] at hbook hev
    rcases OrderBook.cancelOrder_cases (hl symbol) cmd.orderId with
      ⟨-, h⟩ | ⟨loc, n, -, hn, -, hid, h⟩
    · rw [h] at hev hbook
      refine ⟨_, hev, rfl, .silent hno (fun s side => ?_) fun _ _ => rfl⟩
      rw [hbook]
      split
      · rename_i hs
        rw [hs]
      · rfl
    · rw [h] at hev
      exact ⟨_, hev, rfl, .removes htype symbol loc.side _ hn hid fun _ _ => rfl⟩

/-- Identifiers other than the command's are not moved by the first half. -/
theorem rests_update_of_ne {ex : Exchange P} (hl : ex.Linked) (hr : ex.Routed)
    {cmd : Command P} {i : UInt64} (hi : i ≠ cmd.orderId) (s : Str) :
    ((update ex cmd).1.book s).Rests i ↔ (ex.book s).Rests i := by
  cases htype : cmd.type with
  | stats => rw [update, htype]
  | book => rw [update, htype]
  | new =>
    rw [book_update_new ex htype]
    split
    · rename_i hs
      rw [OrderBook.rests_addOrder, hs]
      exact or_iff_right hi
    · exact Iff.rfl
  | cancel =>
    rw [update, htype]
    simp only [Exchange.book_cancelOrder]
    split
    · rw [OrderBook.rests_cancelOrder (hl s) (hr.indexed s)]
      exact and_iff_left hi
    · exact Iff.rfl
  | modify =>
    rw [update, htype]
    simp only [Exchange.book_modifyOrder]
    split
    · rename_i hs
      rw [OrderBook.rests_modifyOrder (hl _) (hr.indexed _), hs.1]
    · exact Iff.rfl

/-- A cancelled identifier rests nowhere. -/
theorem not_rests_update_cancel {ex : Exchange P} (hl : ex.Linked) (hr : ex.Routed)
    {cmd : Command P} (hcancel : cmd.type = .cancel) (s : Str) :
    ¬ ((update ex cmd).1.book s).Rests cmd.orderId := by
  rw [update, hcancel]
  simp only [Exchange.book_cancelOrder]
  split
  · rw [OrderBook.rests_cancelOrder (hl s) (hr.indexed s)]
    exact fun h => h.2 rfl
  · rename_i hs
    exact fun hrests => hs (hr.routed s _ hrests)

theorem routed_update {cmds : List (Command P)} {cmd : Command P}
    (hfresh : FreshNew (cmds ++ [cmd])) : (update (engine.run cmds) cmd).1.Routed := by
  have hw := wf_engine hfresh.initial
  cases htype : cmd.type with
  | stats => rw [update, htype]; exact hw.routed
  | book => rw [update, htype]; exact hw.routed
  | new => rw [update, htype]; exact hw.routed.addOrder (not_rests_of_new hfresh htype)
  | cancel => rw [update, htype]; exact hw.routed.cancelOrder hw.linked _
  | modify => rw [update, htype]; exact hw.routed.modifyOrder hw.linked _ _ _ _ _

/-- A line that opens the account of the command's order: all other orders are as
before. -/
theorem Ledger.opens {A : UInt64 → Account} {cmds : List (Command P)} {cmd : Command P}
    {ev : Event P} (hA : Ledger A (engine.run cmds)) (hfresh : FreshNew (cmds ++ [cmd]))
    (hsets : Sets (engine.run cmds) cmd) (hpos : 0 < cmd.quantity)
    (hpost : ∀ i a, Account.post i a ev =
      if cmd.orderId = i then Account.opened cmd.quantity else a) :
    Ledger (posted A [ev]) (update (engine.run cmds) cmd).1 := by
  have hw := wf_engine hfresh.initial
  have hl := hw.linked
  have hl' := linked_update hl cmd
  have hr' := routed_update hfresh
  obtain ⟨sideₙ, eₙ, heₙ, hidₙ, hqₙ⟩ := hsets.rests hl
  refine ⟨fun s side e he => ?_, fun i hgone => ?_⟩
  · unfold OpenFor
    rw [posted_singleton, hpost]
    by_cases hid : cmd.orderId = e.2.order.orderId
    · have hs : s = cmd.symbolStr :=
        hr'.symbol_unique ⟨side, e, he, hid.symm⟩ ⟨sideₙ, eₙ, heₙ, hidₙ⟩
      subst hs
      have heq := ((hr'.indexed _).id_inj (hl' _) he heₙ (hid.symm.trans hidₙ.symm)).2
      rw [if_pos hid, heq, hqₙ]
      exact ⟨hpos, rfl, (zero_add _).symm⟩
    · rw [if_neg hid]
      rcases mem_of_mem_update hl he with he | ⟨-, -, hid', -⟩
      · exact hA.opened s side e he
      · exact absurd hid'.symm hid
  · have hne : i ≠ cmd.orderId := by
      rintro rfl
      exact hgone cmd.symbolStr ⟨sideₙ, eₙ, heₙ, hidₙ⟩
    rw [posted_singleton, hpost, if_neg hne.symm]
    exact hA.closed i fun s hs => hgone s ((rests_update_of_ne hl hw.routed hne s).mpr hs)

/-- A line that takes an order off: it leaves with what it had left. -/
theorem Ledger.removes {A : UInt64 → Account} {ex : Exchange P} {cmd : Command P} {ev : Event P}
    (hA : Ledger A ex) (hl : ex.Linked) (hr : ex.Routed) (hcancel : cmd.type = .cancel)
    {s₀ : Str} {side₀ : Side} {e₀ : P × Node P} (he₀ : e₀ ∈ (ex.book s₀).resting side₀)
    (hid₀ : e₀.2.order.orderId = cmd.orderId)
    (hpost : ∀ i a, Account.post i a ev =
      if cmd.orderId = i then { a with removed := a.removed + e₀.2.order.quantity.toInt } else a) :
    Ledger (posted A [ev]) (update ex cmd).1 := by
  have hgone' := not_rests_update_cancel hl hr hcancel
  refine ⟨fun s side e he => ?_, fun i hgone => ?_⟩
  · have hne : cmd.orderId ≠ e.2.order.orderId := fun h => hgone' s ⟨side, e, he, h.symm⟩
    unfold OpenFor
    rw [posted_singleton, hpost, if_neg hne]
    rcases mem_of_mem_update hl he with he | ⟨hsets, -⟩
    · exact hA.opened s side e he
    · exact absurd hcancel hsets.not_cancel
  · rw [posted_singleton, hpost]
    by_cases hi : cmd.orderId = i
    · rw [if_pos hi]
      have hleft := (hA.opened s₀ side₀ e₀ he₀).left
      rw [hid₀, hi] at hleft
      unfold Account.left at hleft ⊢
      show (A i).set - (A i).filled - ((A i).removed + e₀.2.order.quantity.toInt) = 0
      omega
    · rw [if_neg hi]
      exact hA.closed i fun s hs => hgone s ((rests_update_of_ne hl hr (Ne.symm hi) s).mpr hs)

/-- A silent line, when the books stay as they are. -/
theorem Ledger.silent {A : UInt64 → Account} {ex ex' : Exchange P} {ev : Event P}
    (hA : Ledger A ex)
    (hsame : ∀ s side, (ex'.book s).resting side = (ex.book s).resting side)
    (hpost : ∀ i a, Account.post i a ev = a) : Ledger (posted A [ev]) ex' := by
  have hrests : ∀ s i, (ex'.book s).Rests i ↔ (ex.book s).Rests i := by
    intro s i
    unfold OrderBook.Rests
    simp only [hsame]
  refine ⟨fun s side e he => ?_, fun i hgone => ?_⟩
  · unfold OpenFor
    rw [posted_singleton, hpost]
    rw [hsame] at he
    exact hA.opened s side e he
  · rw [posted_singleton, hpost]
    exact hA.closed i fun s hs => hgone s ((hrests s i).mpr hs)

/-- **The first half of a command keeps the ledger**, when the quantity it sets is
positive. -/
theorem Ledger.update {A : UInt64 → Account} {cmds : List (Command P)} {cmd : Command P}
    (hA : Ledger A (engine.run cmds)) (hfresh : FreshNew (cmds ++ [cmd]))
    (hpos : Sets (engine.run cmds) cmd → 0 < cmd.quantity) :
    Ledger (posted A (update (engine.run cmds) cmd).2) (update (engine.run cmds) cmd).1 := by
  have hw := wf_engine hfresh.initial
  obtain ⟨ev, hev, -, hworth⟩ := update_line hw.linked cmd
  rw [hev]
  cases hworth with
  | opens hsets hpost => exact hA.opens hfresh hsets (hpos hsets) hpost
  | removes hcancel s side e he hid hpost =>
    exact hA.removes hw.linked hw.routed hcancel he hid hpost
  | silent _ hsame hpost => exact hA.silent hsame hpost

/-! ## Runs -/

/-- Every quantity a `NEW` or a `MODIFY` names is positive. -/
def PositiveOrders (cmds : List (Command P)) : Prop :=
  ∀ cmd ∈ cmds, cmd.type = .new ∨ cmd.type = .modify → 0 < cmd.quantity

instance (cmds : List (Command P)) : Decidable (PositiveOrders cmds) :=
  inferInstanceAs (Decidable (∀ cmd ∈ cmds, _ → _))

omit [LinearOrder P] in
theorem PositiveOrders.initial {cmds : List (Command P)} {cmd : Command P}
    (h : PositiveOrders (cmds ++ [cmd])) : PositiveOrders cmds :=
  fun c hc => h c (List.mem_append_left _ hc)

theorem PositiveOrders.sets {cmds : List (Command P)} {cmd : Command P}
    (h : PositiveOrders (cmds ++ [cmd])) (hsets : Sets (engine.run cmds) cmd) :
    0 < cmd.quantity :=
  h cmd (List.mem_append_right _ (List.mem_singleton_self cmd)) (hsets.imp_right And.left)

/-- **The ledger holds after every run**, and every trade on the way was covered. -/
theorem ledger_run (cmds : List (Command P)) (hfresh : FreshNew cmds)
    (hpos : PositiveOrders cmds) :
    Ledger (account (engine.log cmds)) (engine.run cmds) ∧
      Covered (fun _ => {}) (engine.log cmds) := by
  induction cmds using List.reverseRecOn with
  | nil => exact ⟨ledger_empty, covered_nil _⟩
  | append_singleton cmds cmd ih =>
    obtain ⟨hA, hcov⟩ := ih hfresh.initial hpos.initial
    have hl := linked_engine cmds
    have hupd := hA.update hfresh hpos.sets
    have hmatch := hupd.matchOrders (linked_update hl cmd) (routed_update hfresh) cmd.symbolStr
    obtain ⟨ev, hev, hno, -⟩ := update_line hl cmd
    have hcov' : Covered (account (engine.log cmds)) (update (engine.run cmds) cmd).2 := by
      rw [hev]
      refine covered_singleton fun t ht => ?_
      rw [ht] at hno
      exact absurd hno (by simp [Event.trade?])
    rw [engine_run_concat, Machine.log_concat, account_append]
    show Ledger (posted _ (dispatch (engine.run cmds) cmd).2) _ ∧
      Covered _ (_ ++ (dispatch (engine.run cmds) cmd).2)
    rw [dispatch_eq hl (uncrossed_engine cmds)]
    simp only [posted_append]
    exact ⟨hmatch.1, hcov.append (hcov'.append hmatch.2)⟩

/-! ## What a command posts -/

/-- A command prints the line of its first half and then its trades. -/
theorem events_dispatch {ex : Exchange P} (hl : ex.Linked) (hu : ex.Uncrossed)
    (cmd : Command P) :
    (dispatch ex cmd).2 =
      (update ex cmd).2 ++ (trades (dispatch ex cmd).2).map Event.trade := by
  have hmatch := ((update ex cmd).1.book cmd.symbolStr).matchOrders_events
  rw [dispatch_eq hl hu, trades_append, trades_update hl, List.nil_append,
    Exchange.events_matchOrders, ← hmatch]

/-- What a command does to the account of `i`, which is `a` before and `a'` after. -/
structure PostedBy (ex : Exchange P) (cmd : Command P) (i : UInt64) (a a' : Account) :
    Prop where
  /-- Setting a quantity starts the account again. -/
  sets : Sets ex cmd → cmd.orderId = i →
    a' = { set := cmd.quantity.toInt, filled := fillsOf (trades (dispatch ex cmd).2) i }
  keeps : ¬ (Sets ex cmd ∧ cmd.orderId = i) → a'.set = a.set ∧
    a'.filled = a.filled + fillsOf (trades (dispatch ex cmd).2) i ∧
    (¬ (cmd.type = .cancel ∧ cmd.orderId = i) → a'.removed = a.removed)

theorem postedBy_dispatch {ex : Exchange P} (hl : ex.Linked) (hu : ex.Uncrossed)
    (cmd : Command P) (A : UInt64 → Account) (i : UInt64) :
    PostedBy ex cmd i (A i) (posted A (dispatch ex cmd).2 i) := by
  have hpost : posted A (dispatch ex cmd).2 i =
      { posted A (update ex cmd).2 i with
        filled := (posted A (update ex cmd).2 i).filled +
          fillsOf (trades (dispatch ex cmd).2) i } := by
    conv_lhs => rw [events_dispatch hl hu, posted_append, posted_trades]
  rw [hpost]
  obtain ⟨ev, hev, -, hworth⟩ := update_line hl cmd
  rw [hev, posted_singleton]
  cases hworth with
  | opens hsets hline =>
    rw [hline]
    refine ⟨fun _ hi => ?_, fun hc => ?_⟩
    · rw [if_pos hi]
      show (⟨_, 0 + _, 0⟩ : Account) = ⟨_, _, 0⟩
      rw [zero_add]
      rfl
    · rw [if_neg fun hi => hc ⟨hsets, hi⟩]
      exact ⟨rfl, rfl, fun _ => rfl⟩
  | removes hcancel s side e _ _ hline =>
    rw [hline]
    refine ⟨fun hsets => absurd hcancel hsets.not_cancel, fun _ => ?_⟩
    by_cases hi : cmd.orderId = i
    · rw [if_pos hi]
      exact ⟨rfl, rfl, fun hc => absurd ⟨hcancel, hi⟩ hc⟩
    · rw [if_neg hi]
      exact ⟨rfl, rfl, fun _ => rfl⟩
  | silent hno _ hline =>
    rw [hline]
    exact ⟨fun hsets => absurd hsets hno, fun _ => ⟨rfl, rfl, fun _ => rfl⟩⟩

/-! ## The counters -/

/-- The trades of a symbol's book: those made by the commands that carry the
symbol. -/
def tradesIn (symbol : Str) (cmds : List (Command P)) : List (Trade P) :=
  trades (engine.logWhere (fun cmd => cmd.symbolStr = symbol) cmds)

/-- The units traded. -/
def volumeOf (ts : List (Trade P)) : ℕ := (ts.map Trade.units).sum

omit [LinearOrder P] in
/-- The `NEW` commands for a symbol. -/
def newOrders (symbol : Str) (cmds : List (Command P)) : List (Command P) :=
  cmds.filter fun cmd => cmd.type = .new ∧ cmd.symbolStr = symbol

theorem tradesIn_concat (symbol : Str) (cmds : List (Command P)) (cmd : Command P) :
    tradesIn symbol (cmds ++ [cmd]) = tradesIn symbol cmds ++
      if cmd.symbolStr = symbol then trades (dispatch (engine.run cmds) cmd).2 else [] := by
  rw [tradesIn, Machine.logWhere_concat, trades_append, ← tradesIn]
  simp only [decide_eq_true_eq]
  split <;> rfl

/-- Only a `NEW` for its symbol touches a counter in the first half of a command. -/
theorem stats_update {ex : Exchange P} (hl : ex.Linked) (cmd : Command P) (s : Str) :
    ((update ex cmd).1.book s).stats =
      if cmd.type = .new ∧ cmd.symbolStr = s then
        { (ex.book s).stats with totalOrders := (ex.book s).stats.totalOrders + 1 }
      else (ex.book s).stats := by
  cases htype : cmd.type with
  | stats => rw [update, htype]; rfl
  | book => rw [update, htype]; rfl
  | new =>
    rw [book_update_new ex htype]
    by_cases hs : s = cmd.symbolStr
    · rw [if_pos hs, if_pos ⟨rfl, hs.symm⟩, hs]
      show { ((ex.book cmd.symbolStr).insertOrder cmd.order).stats with
        totalOrders := ((ex.book cmd.symbolStr).insertOrder cmd.order).stats.totalOrders + 1 } = _
      rw [OrderBook.stats_insertOrder]
    · rw [if_neg hs, if_neg fun h => hs h.2.symm]
  | cancel =>
    rw [if_neg (by simp), update, htype]
    simp only [Exchange.book_cancelOrder]
    split
    · exact OrderBook.stats_cancelOrder (hl s) cmd.orderId
    · rfl
  | modify =>
    rw [if_neg (by simp)]
    rcases modify_cases hl htype with ⟨-, hbook, -⟩ | ⟨-, hother, loc, n, -, -, -, -, -, hcase⟩
    · rw [hbook]
    · by_cases hs : s = cmd.symbolStr
      · rw [hs]
        rcases hcase with ⟨-, -, h, -⟩ | ⟨-, h, -⟩
        · rw [h, OrderBook.stats_setQuantity]
        · rw [h, OrderBook.stats_insertOrder, OrderBook.stats_unlink]
      · rw [hother s hs]

/-- The counters of a symbol, in the arithmetic of the machine. -/
structure Counted (symbol : Str) (cmds : List (Command P)) (st : SymbolStats) : Prop where
  totalOrders : st.totalOrders = UInt64.ofNat (newOrders symbol cmds).length
  totalTrades : st.totalTrades = UInt64.ofNat (tradesIn symbol cmds).length
  totalVolume : st.totalVolume = UInt64.ofNat (volumeOf (tradesIn symbol cmds))

omit [LinearOrder P] in
theorem volumeOf_append (ts ts' : List (Trade P)) :
    volumeOf (ts ++ ts') = volumeOf ts + volumeOf ts' := by
  rw [volumeOf, List.map_append, List.sum_append, ← volumeOf, ← volumeOf]

omit [LinearOrder P] in
theorem newOrders_concat (symbol : Str) (cmds : List (Command P)) (cmd : Command P) :
    (newOrders symbol (cmds ++ [cmd])).length = (newOrders symbol cmds).length +
      if cmd.type = .new ∧ cmd.symbolStr = symbol then 1 else 0 := by
  rw [newOrders, List.filter_append, List.length_append, ← newOrders, List.filter_cons,
    List.filter_nil]
  simp only [decide_eq_true_eq]
  split <;> rfl

/-- **One command advances the counters by what it does.** -/
theorem Counted.dispatch {symbol : Str} {cmds : List (Command P)} {cmd : Command P}
    (hc : Counted symbol cmds ((engine.run cmds).book symbol).stats)
    (hpos : ∀ t ∈ trades (dispatch (engine.run cmds) cmd).2, 0 < t.quantity) :
    Counted symbol (cmds ++ [cmd]) ((engine.run (cmds ++ [cmd])).book symbol).stats := by
  have hl := linked_engine cmds
  have hu := uncrossed_engine cmds
  have hupd := stats_update hl cmd symbol
  have hord : ((update (engine.run cmds) cmd).1.book symbol).stats.totalOrders =
      UInt64.ofNat (newOrders symbol (cmds ++ [cmd])).length := by
    rw [hupd, newOrders_concat, UInt64.ofNat_add, ← hc.totalOrders]
    split
    · rfl
    · exact (UInt64.add_zero _).symm
  have htrd : ((update (engine.run cmds) cmd).1.book symbol).stats.totalTrades =
      ((engine.run cmds).book symbol).stats.totalTrades := by
    rw [hupd]
    split <;> rfl
  have hvol : ((update (engine.run cmds) cmd).1.book symbol).stats.totalVolume =
      ((engine.run cmds).book symbol).stats.totalVolume := by
    rw [hupd]
    split <;> rfl
  have hbook : (engine.run (cmds ++ [cmd])).book symbol =
      if symbol = cmd.symbolStr then
        ((update (engine.run cmds) cmd).1.book cmd.symbolStr).matchOrders.1
      else (update (engine.run cmds) cmd).1.book symbol := by
    rw [engine_run_concat, dispatch_eq hl hu, Exchange.book_matchOrders]
  by_cases hs : cmd.symbolStr = symbol
  · subst hs
    obtain ⟨hmo, hmt, hmv, -⟩ :=
      ((update (engine.run cmds) cmd).1.book cmd.symbolStr).stats_matchOrders
    have hts : trades ((update (engine.run cmds) cmd).1.book cmd.symbolStr).matchOrders.2 =
        trades (MatchingEngine.dispatch (engine.run cmds) cmd).2 := by
      rw [dispatch_eq hl hu, trades_append, trades_update hl, List.nil_append,
        Exchange.events_matchOrders]
    rw [hts] at hmt hmv
    rw [hbook, if_pos rfl]
    refine ⟨hmo.trans hord, ?_, ?_⟩
    · rw [hmt, htrd, hc.totalTrades, tradesIn_concat, if_pos rfl, List.length_append,
        UInt64.ofNat_add]
    · rw [hmv, hvol, hc.totalVolume, OrderBook.sum_ofInt_quantity hpos, tradesIn_concat,
        if_pos rfl, volumeOf_append, UInt64.ofNat_add]
      rfl
  · rw [hbook, if_neg (Ne.symm hs)]
    refine ⟨hord, ?_, ?_⟩
    · rw [htrd, hc.totalTrades, tradesIn_concat, if_neg hs, List.append_nil]
    · rw [hvol, hc.totalVolume, tradesIn_concat, if_neg hs, List.append_nil]

/-! ## Bought and sold -/

omit [LinearOrder P] in
/-- The units an identifier has traded on a side. -/
def tradedBy (side : Side) (ts : List (Trade P)) (i : UInt64) : ℕ :=
  (ts.map fun t => if t.party side = i then t.units else 0).sum

/-- The identifiers of the orders entered on a side of the book of a symbol. -/
def ordersOf (symbol : Str) (side : Side) (cmds : List (Command P)) : List UInt64 :=
  ((newOrders symbol cmds).filter fun cmd => cmd.side = side).map Command.orderId

omit [LinearOrder P] in
theorem mem_ordersOf {symbol : Str} {side : Side} {cmds : List (Command P)} {i : UInt64} :
    i ∈ ordersOf symbol side cmds ↔ Entered cmds symbol side i := by
  unfold ordersOf newOrders Entered
  simp only [List.mem_map, List.mem_filter, decide_eq_true_eq]
  constructor
  · rintro ⟨c, ⟨⟨hc, hnew, hsym⟩, hside⟩, hid⟩
    exact ⟨c, hc, hnew, hid, hside, hsym⟩
  · rintro ⟨c, hc, hnew, hid, hside, hsym⟩
    exact ⟨c, ⟨⟨hc, hnew, hsym⟩, hside⟩, hid⟩

omit [LinearOrder P] in
theorem nodup_ordersOf {cmds : List (Command P)} (hfresh : FreshNew cmds) (symbol : Str)
    (side : Side) : (ordersOf symbol side cmds).Nodup := by
  -- they are some of the new identifiers, in their order
  have hids : newIds cmds = (cmds.filter fun c => c.type = .new).map Command.orderId := by
    clear hfresh
    induction cmds with
    | nil => rfl
    | cons c cmds ih =>
      rw [newIds, List.filterMap_cons, ← newIds, ih, List.filter_cons, Command.newId]
      cases c.type <;> rfl
  rw [FreshNew, hids] at hfresh
  refine hfresh.sublist (List.Sublist.map _ (List.filter_sublist.trans ?_))
  refine List.monotone_filter_right cmds fun c hc => ?_
  rw [decide_eq_true_eq] at hc ⊢
  exact hc.1

omit [LinearOrder P] in
/-- When the parties of a side are among `ids`, what the trades amount to is what
these have traded. -/
theorem sum_tradedBy {side : Side} {ids : List UInt64} (hids : ids.Nodup)
    {ts : List (Trade P)} (h : ∀ t ∈ ts, t.party side ∈ ids) :
    (ids.map (tradedBy side ts)).sum = volumeOf ts := by
  induction ts with
  | nil =>
    show (ids.map fun _ => 0).sum = 0
    rw [List.map_const', List.sum_replicate, nsmul_zero]
  | cons t ts ih =>
    have hcons : ∀ i, tradedBy side (t :: ts) i =
        (if t.party side = i then t.units else 0) + tradedBy side ts i := fun _ => rfl
    have hone : (ids.map fun i => if t.party side = i then t.units else 0).sum = t.units := by
      rw [List.sum_map_eq_nsmul_single (t.party side), if_pos rfl,
        List.count_eq_one_of_mem hids (h t List.mem_cons_self), one_nsmul]
      exact fun i hi _ => if_neg (Ne.symm hi)
    rw [List.map_congr_left fun i _ => hcons i, List.sum_map_add, hone,
      ih fun u hu => h u (List.mem_cons_of_mem _ hu)]
    rfl

/-- The parties of the trades of a symbol were entered under that symbol. -/
theorem party_mem_ordersOf (symbol : Str) (side : Side) (cmds : List (Command P)) :
    ∀ t ∈ tradesIn symbol cmds, t.party side ∈ ordersOf symbol side cmds := by
  induction cmds using List.reverseRecOn with
  | nil => exact fun t ht => absurd ht List.not_mem_nil
  | append_singleton cmds cmd ih =>
    intro t ht
    rw [mem_ordersOf]
    rw [tradesIn_concat, List.mem_append] at ht
    rcases ht with ht | ht
    · exact (mem_ordersOf.mp (ih t ht)).mono (List.subset_append_left _ _)
    · split at ht
      · rename_i hs
        rw [← hs]
        have h := entered_of_trade ht
        cases side with
        | buy => exact h.1
        | sell => exact h.2
      · exact absurd ht List.not_mem_nil

/-! ## Conservation -/

/-- The books balance after the commands `cmds`. -/
structure Conserved (cmds : List (Command P)) : Prop where
  /-- What an order has left is what was set less what has been filled. -/
  resting : ∀ s side, ∀ e ∈ ((engine.run cmds).book s).resting side,
    (account (engine.log cmds) e.2.order.orderId).set =
        (account (engine.log cmds) e.2.order.orderId).filled + e.2.order.quantity.toInt ∧
      (account (engine.log cmds) e.2.order.orderId).removed = 0
  /-- What rests nowhere was filled, but for what a cancel removed. -/
  gone : ∀ i, (∀ s, ¬ ((engine.run cmds).book s).Rests i) →
    (account (engine.log cmds) i).set =
      (account (engine.log cmds) i).filled + (account (engine.log cmds) i).removed
  /-- The accounts are those of the commands. -/
  posted : ∀ k cmd, k ++ [cmd] = cmds → ∀ i,
    PostedBy (engine.run k) cmd i (account (engine.log k) i) (account (engine.log cmds) i)
  /-- No trade fills more than is left of its parties. -/
  covered : Covered (fun _ => {}) (engine.log cmds)
  /-- The counters of a symbol. -/
  totalOrders : ∀ s, ((engine.run cmds).book s).stats.totalOrders.toNat =
    (newOrders s cmds).length % 2 ^ 64
  totalTrades : ∀ s, ((engine.run cmds).book s).stats.totalTrades.toNat =
    (tradesIn s cmds).length % 2 ^ 64
  totalVolume : ∀ s, ((engine.run cmds).book s).stats.totalVolume.toNat =
    volumeOf (tradesIn s cmds) % 2 ^ 64
  /-- What was bought under a symbol, and what was sold, is what was traded. -/
  traded : ∀ s side, ((ordersOf s side cmds).map (tradedBy side (tradesIn s cmds))).sum =
    volumeOf (tradesIn s cmds)

/-- In a run of positive orders every trade is of a positive quantity. -/
theorem counted_run (cmds : List (Command P)) (hpos : PositiveOrders cmds) :
    (engine.run cmds).Positive ∧
      ∀ s, Counted s cmds ((engine.run cmds).book s).stats := by
  induction cmds using List.reverseRecOn with
  | nil =>
    refine ⟨Exchange.positive_empty, fun s => ?_⟩
    rw [Machine.run_nil, show (engine (P := P)).init = Exchange.empty from rfl,
      Exchange.book_empty]
    exact ⟨rfl, rfl, rfl⟩
  | append_singleton cmds cmd ih =>
    obtain ⟨hp, hc⟩ := ih hpos.initial
    obtain ⟨htrades, hp'⟩ := (positive_dispatch_iff (linked_engine cmds) (uncrossed_engine cmds)
      hp cmd).mpr hpos.sets
    refine ⟨?_, fun s => (hc s).dispatch htrades⟩
    rw [engine_run_concat]
    exact hp'

/-- **Conservation of quantity.**  At every point of every run with fresh
identifiers and positive quantities the books balance. -/
theorem conservation (cmds : List (Command P)) (hfresh : FreshNew cmds)
    (hpos : PositiveOrders cmds) : ∀ k, k <+: cmds → Conserved k := by
  rintro k ⟨rest, rfl⟩
  have hfresh' : FreshNew k := hereditary_freshNew.of_append hfresh
  have hpos' : PositiveOrders k := fun c hc => hpos c (List.mem_append_left _ hc)
  obtain ⟨hledger, hcov⟩ := ledger_run k hfresh' hpos'
  have hc := (counted_run k hpos').2
  refine ⟨fun s side e he => ?_, fun i hi => ?_, ?_, hcov, fun s => ?_, fun s => ?_, fun s => ?_,
    fun s side => sum_tradedBy (nodup_ordersOf hfresh' s side) (party_mem_ordersOf s side k)⟩
  · obtain ⟨-, hremoved, hset⟩ := hledger.opened s side e he
    exact ⟨hset, hremoved⟩
  · have hleft := hledger.closed i hi
    unfold Account.left at hleft
    omega
  · rintro k cmd rfl i
    rw [Machine.log_concat, account_append]
    exact postedBy_dispatch (linked_engine k) (uncrossed_engine k) cmd _ i
  · rw [(hc s).totalOrders, UInt64.toNat_ofNat']
  · rw [(hc s).totalTrades, UInt64.toNat_ofNat']
  · rw [(hc s).totalVolume, UInt64.toNat_ofNat']

/-- A run with a partial fill, a modify in place, a reinserting modify that trades,
and a cancel. -/
theorem conservation_mixed :
    let cmds : List (Command ℤ) :=
      [.newOrder 1 .buy ['A'] 10 5 1 0 0, .newOrder 2 .sell ['A'] 4 5 2 0 0,
        .modifyOrder 1 ['A'] 3 5 3 0 0, .newOrder 3 .sell ['A'] 6 9 4 0 0,
        .modifyOrder 1 ['A'] 7 9 5 0 0, .cancelOrder 1 6 0 0]
    Conserved cmds ∧ account (engine.log cmds) 1 = { set := 7, filled := 6, removed := 1 } ∧
      volumeOf (tradesIn ['A'] cmds) = 10 :=
  ⟨conservation _ (by decide) (by decide) _ (List.prefix_refl _), by decide, by decide⟩

end MatchingEngine
