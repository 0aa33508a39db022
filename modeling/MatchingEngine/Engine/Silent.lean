import MatchingEngine.Engine.Plain

/-!
# Orders that never trade

An order that never trades leaves no trace: the run without it makes the same trades and
answers every other request with the same line.  The orders are given by a condition `p`
on their identifiers, and `hide p` is the list without them.

* `PlainOrders.best_hide`: an order that is shown and is the best of all is the best of
  what is shown.
* `matchStep_hide_some`, `matchStep_hide_none`: a trade of shown orders is a trade of what
  is shown, and what is shown crosses only where everything does.
* `Hides` relates the two exchanges; `Hides.update`, `Hides.update_of_hidden` and
  `Hides.matchOrders` keep it over the halves of a command.
* `silent_orders_invisible`: the two runs of the engine.
-/

namespace MatchingEngine

variable {P : Type}

/-- The command creates, takes out or changes an order of `p`. -/
def Command.concerns (p : UInt64 → Bool) (cmd : Command P) : Bool :=
  match cmd.type with
  | .new => p cmd.orderId
  | .cancel => p cmd.orderId
  | .modify => p cmd.orderId
  | .stats => false
  | .book => false

/-- The lines apart from the displays and from those about an order of `p`. -/
def Event.apartFrom (p : UInt64 → Bool) : Event P → Bool
  | .new i _ _ _ => !p i
  | .cancel i _ _ _ => !p i
  | .cancelNotFound i => !p i
  | .cancelNotFoundInAnyBook i => !p i
  | .modifyInPlace i _ _ => !p i
  | .modifyReinsert i _ _ _ _ => !p i
  | .modifyNotFound i => !p i
  | .modifyNotFoundInAnyBook i => !p i
  | .modifyWrongSymbol i _ _ => !p i
  | .trade _ => true
  | .book _ _ _ => false
  | .bookNotFound _ => false
  | .stats _ => false
  | .undefinedBehaviour => true

theorem ne_of_shown {p : UInt64 → Bool} {i j : UInt64} (hi : p i = true) (hj : p j = false) :
    j ≠ i := by
  rintro rfl
  rw [hi] at hj
  exact absurd hj (by simp)

/-- The parties of the trade are shown. -/
def Trade.Shown (p : UInt64 → Bool) (t : Trade P) : Prop := p t.buyer = false ∧ p t.seller = false

namespace PlainOrders

variable {p : UInt64 → Bool}

/-! ## The list without the hidden orders -/

/-- The list without the orders of `p`. -/
def hide (p : UInt64 → Bool) (orders : PlainOrders P) : PlainOrders P :=
  orders.filter fun e => !p e.2.orderId

theorem mem_hide {orders : PlainOrders P} {e : Str × Order P} :
    e ∈ orders.hide p ↔ e ∈ orders ∧ p e.2.orderId = false := by
  rw [hide, List.mem_filter, Bool.not_eq_true']

theorem hide_append (orders orders' : PlainOrders P) :
    hide p (orders ++ orders') = orders.hide p ++ orders'.hide p :=
  List.filter_append ..

theorem hide_singleton_of_shown {s : Str} {o : Order P} (h : p o.orderId = false) :
    hide p [(s, o)] = [(s, o)] := by
  rw [hide, List.filter_cons_of_pos (by simpa using h), List.filter_nil]

theorem hide_singleton_of_hidden {s : Str} {o : Order P} (h : p o.orderId = true) :
    hide p [(s, o)] = [] := by
  rw [hide, List.filter_cons_of_neg (by simpa using h), List.filter_nil]

/-- Changing the orders and hiding some of them are independent. -/
theorem hide_amend {g : Order P → Option (Order P)}
    (hg : ∀ o o', g o = some o' → o'.orderId = o.orderId) (orders : PlainOrders P) :
    hide p (orders.amend g) = (orders.hide p).amend g := by
  induction orders with
  | nil => rfl
  | cons e orders ih =>
    have hone : hide p ((g e.2).map fun o => (e.1, o)).toList = amend (hide p [e]) g := by
      cases hp : p e.2.orderId with
      | true =>
        rw [hide_singleton_of_hidden hp]
        cases ho : g e.2 with
        | none => rfl
        | some o => exact hide_singleton_of_hidden ((hg e.2 o ho).symm ▸ hp)
      | false =>
        rw [hide_singleton_of_shown hp, amend_cons]
        cases ho : g e.2 with
        | none => rfl
        | some o => exact hide_singleton_of_shown ((hg e.2 o ho).symm ▸ hp)
    have happ : ∀ l l' : PlainOrders P, amend (l ++ l') g = l.amend g ++ l'.amend g :=
      fun _ _ => List.filterMap_append
    rw [amend_cons, hide_append, hone, ih, ← happ, ← hide_append, List.singleton_append]

theorem hide_remove (orders : PlainOrders P) (i : UInt64) :
    hide p (orders.remove i) = (orders.hide p).remove i :=
  hide_amend (fun o o' ho => (keeps_without i o o' ho).1) orders

theorem hide_setQuantity (orders : PlainOrders P) (i : UInt64) (q : Int32) :
    hide p (orders.setQuantity i q) = (orders.hide p).setQuantity i q :=
  hide_amend (fun o o' ho => (keeps_withQuantity i q o o' ho).1) orders

theorem hide_fill (orders : PlainOrders P) (i : UInt64) (q : Int32) :
    hide p (orders.fill i q) = (orders.hide p).fill i q :=
  hide_amend (fun o o' ho => (keeps_filled i q o o' ho).1) orders

/-- A change that touches only hidden orders is not seen. -/
theorem amend_hide_of_hidden {g : Order P → Option (Order P)}
    (hg : ∀ o : Order P, p o.orderId = false → g o = some o) (orders : PlainOrders P) :
    (orders.hide p).amend g = orders.hide p :=
  amend_eq_self fun e he => hg e.2 (mem_hide.mp he).2

theorem lookup_hide (orders : PlainOrders P) {i : UInt64} (hi : p i = false) :
    (orders.hide p).lookup i = orders.lookup i := by
  rw [lookup, lookup, hide, List.find?_filter]
  refine List.find?_congr fun e _ => ?_
  by_cases he : e.2.orderId = i
  · simp [he, hi]
  · simp [he]

variable [LinearOrder P]

theorem queue_hide (orders : PlainOrders P) (s : Str) (side : Side) (k : P) :
    (orders.hide p).queue s side k = (orders.queue s side k).filter fun o => !p o.orderId := by
  rw [queue, queue, hide, List.filter_filter, List.filter_map, List.filter_filter]
  refine congrArg _ (List.filter_congr fun e _ => ?_)
  exact Bool.and_comm _ _

/-! ## Matching what is shown -/

/-- **The best of all, if it is shown,** is the best of what is shown. -/
theorem best_hide {orders : PlainOrders P} {s : Str} {side : Side} {o : Order P}
    (h : orders.best s side = some o) (ho : p o.orderId = false) :
    (orders.hide p).best s side = some o := by
  obtain ⟨l, r, rfl, hside, hl, hr⟩ := best_eq_some_iff.mp h
  refine best_eq_some_iff.mpr ⟨hide p l, hide p r, ?_, hside, fun e he => hl e (mem_hide.mp he).1,
    fun e he => hr e (mem_hide.mp he).1⟩
  rw [hide_append, ← List.singleton_append, hide_append, hide_singleton_of_shown ho,
    List.singleton_append]

/-- What is shown crosses only where everything does. -/
theorem matchStep_hide_none {orders : PlainOrders P} {s : Str} (h : orders.matchStep s = none) :
    (orders.hide p).matchStep s = none := by
  rw [matchStep_eq_none_iff] at h ⊢
  intro e he hon e' he' hon'
  exact h e (mem_hide.mp he).1 hon e' (mem_hide.mp he').1 hon'

/-- A trade of shown orders is a trade of what is shown. -/
theorem matchStep_hide_some {orders orders' : PlainOrders P} {s : Str} {t : Trade P}
    (h : orders.matchStep s = some (t, orders')) (ht : t.Shown p) :
    (orders.hide p).matchStep s = some (t, orders'.hide p) := by
  obtain ⟨bid, ask, hbid, hask, hcross, rfl, rfl⟩ := matchStep_eq_some h
  rw [matchStep, best_hide hbid ht.1, best_hide hask ht.2]
  simp only [if_neg hcross, hide_fill]

/-- **The loop over what is shown**, when the loop over everything trades shown orders
only. -/
theorem matchOrders_hide {orders : PlainOrders P} {s : Str}
    (h : ∀ t ∈ (orders.matchOrders s).2, t.Shown p) :
    (orders.hide p).matchOrders s =
      ((orders.matchOrders s).1.hide p, (orders.matchOrders s).2) := by
  obtain ⟨hout, hfinal⟩ := Loop.projection (f := hide p)
    (fun _ (h : matchStep s _ = none) => matchStep_hide_none h)
    (fun _ _ _ (h : matchStep s _ = some _) => matchStep_hide_some h) orders.length orders h
  have hlen : (orders.hide p).length ≤ orders.length := List.length_filter_le _ _
  rw [matchOrders_of_le s hlen, hout, hfinal]
  rfl

/-- When what is shown does not cross and only shown orders trade, nothing trades. -/
theorem matchStep_none_of_hide {orders : PlainOrders P} {s : Str}
    (h : (orders.hide p).matchStep s = none) (ht : ∀ t ∈ (orders.matchOrders s).2, t.Shown p) :
    orders.matchStep s = none := by
  cases hstep : orders.matchStep s with
  | none => rfl
  | some r =>
    obtain ⟨t, orders'⟩ := r
    have hlen := Nat.zero_lt_of_lt (length_matchStep hstep)
    obtain ⟨n, hn⟩ := Nat.exists_eq_add_one.mpr hlen
    have hmem : t ∈ (orders.matchOrders s).2 := by
      rw [PlainOrders.matchOrders, hn, Loop.outputs_succ_of_some hstep]
      exact List.mem_cons_self
    rw [matchStep_hide_some hstep (ht t hmem)] at h
    exact absurd h (by simp)

end PlainOrders

/-! ## Two exchanges -/

/-- The same trades and the same volume, whatever the number of orders. -/
def SymbolStats.TradesAs (st st' : SymbolStats) : Prop :=
  st'.totalTrades = st.totalTrades ∧ st'.totalVolume = st.totalVolume

theorem SymbolStats.TradesAs.symm {st st' : SymbolStats} (h : st.TradesAs st') :
    st'.TradesAs st := ⟨h.1.symm, h.2.symm⟩

theorem SymbolStats.TradesAs.trans {st st' st'' : SymbolStats} (h : st.TradesAs st')
    (h' : st'.TradesAs st'') : st.TradesAs st'' := ⟨h'.1.trans h.1, h'.2.trans h.2⟩

/-- The second exchange holds what the first one does, without the orders of `p`: the same
routes of the other identifiers, and the same trades and volumes in the counters. -/
structure PlainExchange.Hides (p : UInt64 → Bool) (pl pl' : PlainExchange P) : Prop where
  orders : pl'.orders = pl.orders.hide p
  routes : ∀ i, p i = false → pl'.routes.lookup i = pl.routes.lookup i
  stats : ∀ s, (pl.counters s).TradesAs (pl'.counters s)

namespace PlainExchange

section Update

variable {p : UInt64 → Bool} {pl pl' : PlainExchange P}

theorem hides_empty : Hides p (empty : PlainExchange P) empty where
  orders := rfl
  routes _ _ := rfl
  stats _ := ⟨rfl, rfl⟩

/-- An order is counted, and no trade. -/
theorem tradesAs_addOrder (pl : PlainExchange P) (symbol : Str) (o : Order P) (s : Str) :
    (pl.counters s).TradesAs ((pl.addOrder symbol o).1.counters s) := by
  rw [counters, counters, addOrder]
  by_cases hs : s = symbol
  · subst hs
    rw [Finmap.lookup_insert, Option.getD_some]
    exact ⟨rfl, rfl⟩
  · rw [Finmap.lookup_insert_of_ne _ hs]
    exact ⟨rfl, rfl⟩

/-- A shown order, entered in both. -/
theorem Hides.addOrder (h : Hides p pl pl') {o : Order P} (ho : p o.orderId = false)
    (symbol : Str) :
    Hides p (pl.addOrder symbol o).1 (pl'.addOrder symbol o).1 where
  orders := by
    simp only [PlainExchange.addOrder, PlainOrders.hide_append,
      PlainOrders.hide_singleton_of_shown ho, h.orders]
  routes i hi := by
    simp only [PlainExchange.addOrder]
    by_cases hio : i = o.orderId
    · rw [hio, Finmap.lookup_insert, Finmap.lookup_insert]
    · rw [Finmap.lookup_insert_of_ne _ hio, Finmap.lookup_insert_of_ne _ hio, h.routes i hi]
  stats s :=
    (tradesAs_addOrder pl symbol o s).symm.trans
      ((h.stats s).trans (tradesAs_addOrder pl' symbol o s))

/-- A hidden order, entered in the first only. -/
theorem Hides.addOrder_of_hidden (h : Hides p pl pl') {o : Order P} (ho : p o.orderId = true)
    (symbol : Str) : Hides p (pl.addOrder symbol o).1 pl' where
  orders := by
    simp only [PlainExchange.addOrder, PlainOrders.hide_append,
      PlainOrders.hide_singleton_of_hidden ho, h.orders, List.append_nil]
  routes i hi := by
    simp only [PlainExchange.addOrder, Finmap.lookup_insert_of_ne _ (ne_of_shown ho hi),
      h.routes i hi]
  stats s := (tradesAs_addOrder pl symbol o s).symm.trans (h.stats s)

/-- A shown order is taken out of both, with the same answer. -/
theorem Hides.cancelOrder (h : Hides p pl pl') {i : UInt64} (hi : p i = false) :
    (pl'.cancelOrder i).2 = (pl.cancelOrder i).2 ∧
      Hides p (pl.cancelOrder i).1 (pl'.cancelOrder i).1 := by
  rw [PlainExchange.cancelOrder, PlainExchange.cancelOrder, h.routes i hi]
  cases hroute : pl.routes.lookup i with
  | none => exact ⟨rfl, h⟩
  | some symbol =>
    refine ⟨?_, ?_, fun j hj => ?_, h.stats⟩
    · simp only [h.orders, PlainOrders.lookup_hide _ hi]
    · simp only [h.orders, PlainOrders.hide_remove]
    · by_cases hij : j = i
      · subst hij
        simp only [Finmap.lookup_erase]
      · simp only [Finmap.lookup_erase_ne hij, h.routes j hj]

/-- A hidden order is taken out of the first only. -/
theorem Hides.cancelOrder_of_hidden (h : Hides p pl pl') {i : UInt64} (hi : p i = true) :
    Hides p (pl.cancelOrder i).1 pl' := by
  rw [PlainExchange.cancelOrder]
  cases hroute : pl.routes.lookup i with
  | none => exact h
  | some symbol =>
    refine ⟨?_, fun j hj => ?_, h.stats⟩
    · simp only [h.orders, PlainOrders.hide_remove]
      exact (PlainOrders.amend_hide_of_hidden (fun o ho => if_neg (ne_of_shown hi ho)) _).symm
    · simp only [Finmap.lookup_erase_ne (ne_of_shown hi hj), h.routes j hj]

variable [LinearOrder P]

/-- A shown order is changed in both, with the same answer. -/
theorem Hides.modifyOrder (h : Hides p pl pl') {i : UInt64} (hi : p i = false) (symbol : Str)
    (q : Int32) (price : P) (ts : ℤ) :
    (pl'.modifyOrder i symbol q price ts).2 = (pl.modifyOrder i symbol q price ts).2 ∧
      Hides p (pl.modifyOrder i symbol q price ts).1 (pl'.modifyOrder i symbol q price ts).1 := by
  rw [PlainExchange.modifyOrder, PlainExchange.modifyOrder, h.routes i hi]
  cases hroute : pl.routes.lookup i with
  | none => exact ⟨rfl, h⟩
  | some actual =>
    by_cases hsymbol : actual ≠ symbol
    · simp only [if_pos hsymbol]
      exact ⟨trivial, h⟩
    simp only [if_neg hsymbol, h.orders, PlainOrders.lookup_hide _ hi]
    cases hlookup : pl.orders.lookup i with
    | none => exact ⟨rfl, h⟩
    | some e =>
      by_cases hin : price = e.2.price ∧ q < e.2.quantity
      · simp only [if_pos hin]
        exact ⟨trivial, (PlainOrders.hide_setQuantity _ _ _).symm, h.routes, h.stats⟩
      · simp only [if_neg hin]
        refine ⟨trivial, ?_, h.routes, h.stats⟩
        rw [PlainOrders.hide_append, PlainOrders.hide_remove,
          PlainOrders.hide_singleton_of_shown hi]

/-- A hidden order is changed in the first only. -/
theorem Hides.modifyOrder_of_hidden (h : Hides p pl pl') {i : UInt64} (hi : p i = true)
    (symbol : Str) (q : Int32) (price : P) (ts : ℤ) :
    Hides p (pl.modifyOrder i symbol q price ts).1 pl' := by
  rw [PlainExchange.modifyOrder]
  cases hroute : pl.routes.lookup i with
  | none => exact h
  | some actual =>
    by_cases hsymbol : actual ≠ symbol
    · simp only [if_pos hsymbol]
      exact h
    simp only [if_neg hsymbol]
    cases hlookup : pl.orders.lookup i with
    | none => exact h
    | some e =>
      by_cases hin : price = e.2.price ∧ q < e.2.quantity
      · simp only [if_pos hin]
        refine ⟨?_, h.routes, h.stats⟩
        rw [PlainOrders.hide_setQuantity, h.orders]
        refine (PlainOrders.amend_hide_of_hidden (fun o ho => ?_) _).symm
        rw [PlainOrders.withQuantity, if_neg (ne_of_shown hi ho)]
      · simp only [if_neg hin]
        refine ⟨?_, h.routes, h.stats⟩
        rw [PlainOrders.hide_append, PlainOrders.hide_singleton_of_hidden hi, List.append_nil,
          PlainOrders.hide_remove, h.orders]
        exact (PlainOrders.amend_hide_of_hidden (fun o ho => if_neg (ne_of_shown hi ho)) _).symm

/-! ## One command -/

/-- Two matchings, when the first one trades shown orders only. -/
theorem Hides.matchOrders (h : Hides p pl pl') (hh : pl.Housed) (hh' : pl'.Housed) {symbol : Str}
    (ht : ∀ t ∈ trades (pl.matchOrders symbol).2, t.Shown p) :
    (pl'.matchOrders symbol).2 = (pl.matchOrders symbol).2 ∧
      Hides p (pl.matchOrders symbol).1 (pl'.matchOrders symbol).1 := by
  obtain ⟨hout, horders, hroutes, hstats⟩ := hh.matchOrders symbol
  obtain ⟨hout', horders', hroutes', hstats'⟩ := hh'.matchOrders symbol
  rw [hout, OrderBook.trades_map_trade] at ht
  have hmatch := PlainOrders.matchOrders_hide ht
  rw [← h.orders] at hmatch
  rw [hmatch] at hout' horders' hstats'
  refine ⟨hout'.trans hout.symm, ?_, fun i hi => ?_, fun s => ?_⟩
  · rw [horders, horders']
  · rw [hroutes, hroutes', h.routes i hi]
  · rw [hstats, hstats']
    split
    · obtain ⟨htrades, hvolume⟩ := h.stats symbol
      simp only [SymbolStats.TradesAs, SymbolStats.traded, htrades, hvolume, and_self]
    · exact h.stats s

omit [LinearOrder P] in
theorem filter_cancelOrder (pl : PlainExchange P) {i : UInt64} (hi : p i = true) :
    (pl.cancelOrder i).2.filter (Event.apartFrom p) = [] := by
  rw [PlainExchange.cancelOrder]
  cases pl.routes.lookup i with
  | none => simp [Event.apartFrom, hi]
  | some symbol => cases pl.orders.lookup i <;> simp [Event.apartFrom, hi]

theorem filter_modifyOrder (pl : PlainExchange P) {i : UInt64} (hi : p i = true) (symbol : Str)
    (q : Int32) (price : P) (ts : ℤ) :
    (pl.modifyOrder i symbol q price ts).2.filter (Event.apartFrom p) = [] := by
  rw [PlainExchange.modifyOrder]
  cases pl.routes.lookup i with
  | none => simp [Event.apartFrom, hi]
  | some actual =>
    by_cases hsymbol : actual ≠ symbol
    · simp [hsymbol, Event.apartFrom, hi]
    simp only [if_neg hsymbol]
    cases pl.orders.lookup i with
    | none => simp [Event.apartFrom, hi]
    | some e =>
      by_cases hin : price = e.2.price ∧ q < e.2.quantity
      · simp [if_pos hin, Event.apartFrom, hi]
      · simp [if_neg hin, Event.apartFrom, hi]

/-- A command about a hidden order: the answer is about it, and the second exchange does
not need to be told. -/
theorem Hides.update_of_hidden (h : Hides p pl pl') {cmd : Command P}
    (hcmd : cmd.concerns p = true) :
    (plainUpdate pl cmd).2.filter (Event.apartFrom p) = [] ∧
      Hides p (plainUpdate pl cmd).1 pl' := by
  rw [Command.concerns] at hcmd
  rw [plainUpdate]
  cases htype : cmd.type with
  | stats => simp [htype] at hcmd
  | book => simp [htype] at hcmd
  | new =>
    simp only [htype] at hcmd
    refine ⟨?_, h.addOrder_of_hidden hcmd _⟩
    simp [PlainExchange.addOrder, Event.apartFrom, Command.order, hcmd]
  | cancel =>
    simp only [htype] at hcmd
    exact ⟨filter_cancelOrder pl hcmd, h.cancelOrder_of_hidden hcmd⟩
  | modify =>
    simp only [htype] at hcmd
    exact ⟨filter_modifyOrder pl hcmd _ _ _ _, h.modifyOrder_of_hidden hcmd _ _ _ _⟩

/-- Any other command, given to both: the answers differ in the displays only. -/
theorem Hides.update (h : Hides p pl pl') {cmd : Command P} (hcmd : cmd.concerns p = false) :
    (plainUpdate pl' cmd).2.filter (Event.apartFrom p) =
        (plainUpdate pl cmd).2.filter (Event.apartFrom p) ∧
      Hides p (plainUpdate pl cmd).1 (plainUpdate pl' cmd).1 := by
  rw [Command.concerns] at hcmd
  rw [plainUpdate, plainUpdate]
  cases htype : cmd.type with
  | stats => exact ⟨rfl, h⟩
  | new =>
    simp only [htype] at hcmd
    exact ⟨rfl, h.addOrder hcmd _⟩
  | cancel =>
    simp only [htype] at hcmd
    obtain ⟨hout, hhides⟩ := h.cancelOrder hcmd
    exact ⟨by rw [hout], hhides⟩
  | modify =>
    simp only [htype] at hcmd
    obtain ⟨hout, hhides⟩ := h.modifyOrder hcmd cmd.symbolStr cmd.quantity cmd.price cmd.timestamp
    exact ⟨by rw [hout], hhides⟩
  | book =>
    refine ⟨?_, h⟩
    have hnone : ∀ pl : PlainExchange P,
        (pl.printBook cmd.symbolStr).filter (Event.apartFrom p) = [] := by
      intro pl
      rw [PlainExchange.printBook]
      split <;> rfl
    rw [hnone, hnone]

end Update

end PlainExchange
/-! ## Two runs -/

/-- The commands that are not about the orders of `p`. -/
def shownCommands (p : UInt64 → Bool) (cmds : List (Command P)) : List (Command P) :=
  cmds.filter fun cmd => !cmd.concerns p

theorem freshNew_shownCommands {cmds : List (Command P)} (h : FreshNew cmds)
    (p : UInt64 → Bool) : FreshNew (shownCommands p cmds) :=
  h.sublist (List.filter_sublist.filterMap _)

variable [LinearOrder P]

/-- The list of a run crosses nowhere. -/
theorem matchStep_plainEngine {cmds : List (Command P)} (h : FreshNew cmds) (s : Str) :
    (plainEngine.run cmds).orders.matchStep s = none :=
  (refines_engine h).2.matchStep_none (linked_engine cmds) (uncrossed_engine cmds s)

/-- The two runs, on the lists. -/
theorem hides_run (p : UInt64 → Bool) (cmds : List (Command P)) (hfresh : FreshNew cmds)
    (hsilent : ∀ t ∈ trades (plainEngine.log cmds), t.Shown p) :
    (plainEngine.log (shownCommands p cmds)).filter (Event.apartFrom p) =
        (plainEngine.log cmds).filter (Event.apartFrom p) ∧
      (plainEngine.run cmds).Hides p (plainEngine.run (shownCommands p cmds)) := by
  induction cmds using List.reverseRecOn with
  | nil => exact ⟨rfl, PlainExchange.hides_empty⟩
  | append_singleton cmds cmd ih =>
    have hinit := hereditary_freshNew cmds cmd hfresh
    have hrefines := (refines_engine hinit).2
    have hhoused := (refines_update hrefines hfresh).2.housed
    have hcmd := plainDispatch_eq hrefines hfresh
    rw [plainEngine_log_concat, trades_append] at hsilent
    obtain ⟨hlog, hhides⟩ := ih hinit fun t ht => hsilent t (List.mem_append_left _ ht)
    have hmatched : ∀ t ∈ trades ((plainUpdate (plainEngine.run cmds) cmd).1.matchOrders
        cmd.symbolStr).2, t.Shown p := by
      intro t ht
      refine hsilent t (List.mem_append_right _ ?_)
      rw [hcmd, trades_append]
      exact List.mem_append_right _ ht
    rw [plainEngine_log_concat, plainEngine_run_concat, shownCommands, List.filter_append,
      List.filter_append, ← shownCommands, hcmd, List.filter_append]
    cases hconcerns : cmd.concerns p with
    | true =>
      obtain ⟨hnone, hupd⟩ := hhides.update_of_hidden hconcerns
      -- what is shown was uncrossed before, so the hidden order crosses nothing
      have hidle : (plainUpdate (plainEngine.run cmds) cmd).1.orders.matchStep cmd.symbolStr =
          none := by
        have hshown := matchStep_plainEngine (freshNew_shownCommands hinit p) cmd.symbolStr
        rw [hupd.orders] at hshown
        refine PlainOrders.matchStep_none_of_hide hshown ?_
        rw [(hhoused.matchOrders cmd.symbolStr).1, OrderBook.trades_map_trade] at hmatched
        exact hmatched
      rw [List.filter_cons_of_neg (by simpa using hconcerns), List.filter_nil, List.append_nil,
        PlainExchange.matchOrders_of_none hidle, hnone]
      exact ⟨by simpa using hlog, hupd⟩
    | false =>
      obtain ⟨hout, hupd⟩ := hhides.update hconcerns
      have hfresh' : FreshNew (shownCommands p cmds ++ [cmd]) := by
        have h := freshNew_shownCommands hfresh p
        rwa [shownCommands, List.filter_append, List.filter_cons_of_pos (by simpa using hconcerns),
          List.filter_nil] at h
      have hrefines' := (refines_engine (freshNew_shownCommands hinit p)).2
      obtain ⟨hout', hmatch⟩ := hupd.matchOrders hhoused
        (refines_update hrefines' hfresh').2.housed hmatched
      rw [List.filter_cons_of_pos (by simpa using hconcerns), List.filter_nil,
        plainEngine_log_concat, plainEngine_run_concat, List.filter_append, hlog,
        plainDispatch_eq hrefines' hfresh', List.filter_append, hout, hout']
      exact ⟨rfl, hmatch⟩

/-- **Orders that never trade leave no trace.**  In a run without reused identifiers, take
any orders that are in none of its trades, and drop every command about them.  The engine
makes the same trades and answers the other requests with the same lines, displays apart;
its queues are those of the full run without these orders; and the counters show the same
trades and volumes. -/
theorem silent_orders_invisible (p : UInt64 → Bool) (cmds : List (Command P))
    (hfresh : FreshNew cmds) (hsilent : ∀ t ∈ trades (engine.log cmds), t.Shown p) :
    (engine.log (shownCommands p cmds)).filter (Event.apartFrom p) =
        (engine.log cmds).filter (Event.apartFrom p) ∧
      (∀ s side k, (((engine.run (shownCommands p cmds)).book s).queue side k).map Node.order =
        ((((engine.run cmds).book s).queue side k).map Node.order).filter
          fun o => !p o.orderId) ∧
      ∀ s, ((engine.run cmds).book s).stats.TradesAs
        ((engine.run (shownCommands p cmds)).book s).stats := by
  obtain ⟨hlog, hrefines⟩ := refines_engine hfresh
  obtain ⟨hlog', hrefines'⟩ := refines_engine (freshNew_shownCommands hfresh p)
  rw [hlog] at hsilent
  obtain ⟨hsame, hhides⟩ := hides_run p cmds hfresh hsilent
  refine ⟨by rw [hlog, hlog', hsame], fun s side k => ?_, fun s => ?_⟩
  · rw [hrefines'.groups, hrefines.groups, hhides.orders, PlainOrders.queue_hide]
  · rw [← hrefines.stats_getD, ← hrefines'.stats_getD]
    exact hhides.stats s

/-- A bid below the market that is raised, overtaken and withdrawn. -/
theorem silent_orders_invisible_withdrawn :
    let cmds : List (Command ℤ) :=
      [.newOrder 1 .sell ['A'] 5 10 1 0 0, .newOrder 2 .buy ['A'] 5 8 2 0 0,
        .modifyOrder 2 ['A'] 6 9 3 0 0, .newOrder 3 .buy ['A'] 3 10 4 0 0,
        .bookOf ['A'] 0 0, .cancelOrder 2 5 0 0, .newOrder 4 .buy ['A'] 4 11 6 0 0,
        .cancelOrder 3 7 0 0]
    shownCommands (· = 2) cmds =
        [.newOrder 1 .sell ['A'] 5 10 1 0 0, .newOrder 3 .buy ['A'] 3 10 4 0 0,
          .bookOf ['A'] 0 0, .newOrder 4 .buy ['A'] 4 11 6 0 0, .cancelOrder 3 7 0 0] ∧
      (engine.log (shownCommands (· = 2) cmds)).filter (Event.apartFrom (· = 2)) =
        (engine.log cmds).filter (Event.apartFrom (· = 2)) ∧
      trades (engine.log cmds) = [⟨10, 3, 3, 1⟩, ⟨10, 2, 4, 1⟩] := by
  intro cmds
  have hsilent : ∀ t ∈ trades (engine.log cmds), t.Shown (fun i => decide (i = 2)) := by
    have htrades : trades (engine.log cmds) = [⟨10, 3, 3, 1⟩, ⟨10, 2, 4, 1⟩] := by decide
    rw [htrades]
    simp [Trade.Shown]
  exact ⟨by decide, (silent_orders_invisible _ cmds (by decide) hsilent).1, by decide⟩

end MatchingEngine
