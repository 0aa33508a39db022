import MatchingEngine.Engine.Plain
import Mathlib.Data.Int.ConditionallyCompleteOrder
import Mathlib.Order.ConditionallyCompleteLattice.Basic

/-!
# What the engine knows of prices, identifiers and times

The engine compares prices, tells identifiers apart, and looks at times when it prices a
trade.  So a run is the same run when the prices are read in another order type by a
strictly monotone function, the identifiers are exchanged for others and the times are
replaced by any others: every line corresponds, and so does the state.  Only the price of
a trade depends on the order of the times.

* `Relabelling`: the three functions.
* `PlainOrders.best_relabel`, `matchOrders_relabel`, `depth_relabel`: what the list shows.
* `PlainExchange.Relabels` relates the two exchanges, and `Relabels.dispatch` keeps it over
  one command.
* `run_relabel`: the two runs of the engine.
-/

namespace MatchingEngine

variable {P Q : Type}

/-- Other prices in the same order, other identifiers, and other times. -/
structure Relabelling (P Q : Type) [LinearOrder P] [LinearOrder Q] where
  price : P → Q
  orderId : UInt64 → UInt64
  time : ℤ → ℤ
  price_strictMono : StrictMono price
  orderId_injective : Function.Injective orderId

variable [LinearOrder P] [LinearOrder Q]

/-! ## Records and lines -/

def Order.relabel (m : Relabelling P Q) (o : Order P) : Order Q where
  orderId := m.orderId o.orderId
  side := o.side
  price := m.price o.price
  quantity := o.quantity
  timestamp := m.time o.timestamp

/-- The clock readings of the command stay. -/
def Command.relabel (m : Relabelling P Q) (cmd : Command P) : Command Q where
  type := cmd.type
  orderId := m.orderId cmd.orderId
  side := cmd.side
  price := m.price cmd.price
  quantity := cmd.quantity
  timestamp := m.time cmd.timestamp
  symbol := cmd.symbol
  tsNetworkRecv := cmd.tsNetworkRecv
  tsQueuePush := cmd.tsQueuePush
  tsQueuePop := cmd.tsQueuePop
  tsProcessStart := cmd.tsProcessStart
  tsMatchComplete := cmd.tsMatchComplete

def Trade.relabel (m : Relabelling P Q) (t : Trade P) : Trade Q where
  price := m.price t.price
  quantity := t.quantity
  buyer := m.orderId t.buyer
  seller := m.orderId t.seller

def DepthLine.relabel (m : Relabelling P Q) (l : DepthLine P) : DepthLine Q where
  price := m.price l.price
  totalQty := l.totalQty
  orders := l.orders

def Event.relabel (m : Relabelling P Q) : Event P → Event Q
  | .new i side q p => .new (m.orderId i) side q (m.price p)
  | .cancel i side q p => .cancel (m.orderId i) side q (m.price p)
  | .cancelNotFound i => .cancelNotFound (m.orderId i)
  | .cancelNotFoundInAnyBook i => .cancelNotFoundInAnyBook (m.orderId i)
  | .modifyInPlace i q q' => .modifyInPlace (m.orderId i) q q'
  | .modifyReinsert i q p q' p' => .modifyReinsert (m.orderId i) q (m.price p) q' (m.price p')
  | .modifyNotFound i => .modifyNotFound (m.orderId i)
  | .modifyNotFoundInAnyBook i => .modifyNotFoundInAnyBook (m.orderId i)
  | .modifyWrongSymbol i actual given => .modifyWrongSymbol (m.orderId i) actual given
  | .trade t => .trade (t.relabel m)
  | .book symbol bids asks =>
    .book symbol (bids.map (DepthLine.relabel m)) (asks.map (DepthLine.relabel m))
  | .bookNotFound symbol => .bookNotFound symbol
  | .stats rows => .stats rows
  | .undefinedBehaviour => .undefinedBehaviour

/-- Corresponding trades.  The price is that of the older party, and who is older is known
only when the times keep their order. -/
structure Trade.Relabels (m : Relabelling P Q) (t : Trade P) (t' : Trade Q) : Prop where
  quantity : t'.quantity = t.quantity
  buyer : t'.buyer = m.orderId t.buyer
  seller : t'.seller = m.orderId t.seller
  price : StrictMono m.time → t'.price = m.price t.price

/-- Corresponding lines. -/
inductive Event.Relabels (m : Relabelling P Q) : Event P → Event Q → Prop
  | trade {t : Trade P} {t' : Trade Q} (h : t.Relabels m t') : Relabels m (.trade t) (.trade t')
  | line (e : Event P) : Relabels m e (e.relabel m)

variable {m : Relabelling P Q}

theorem Trade.Relabels.eq {t : Trade P} {t' : Trade Q} (h : t.Relabels m t')
    (ht : StrictMono m.time) : t' = t.relabel m := by
  cases t'
  simp only [Trade.relabel, Trade.mk.injEq]
  exact ⟨h.price ht, h.quantity, h.buyer, h.seller⟩

theorem Event.Relabels.eq {e : Event P} {e' : Event Q} (h : e.Relabels m e')
    (ht : StrictMono m.time) : e' = e.relabel m := by
  cases h with
  | trade h => rw [h.eq ht, Event.relabel]
  | line => rfl

/-- Lines that are the same but for the labels. -/
theorem forall₂_relabel (l : List (Event P)) :
    List.Forall₂ (Event.Relabels m) l (l.map (Event.relabel m)) := by
  rw [List.forall₂_map_right_iff]
  exact List.forall₂_same.mpr fun e _ => .line e

theorem relabels_tradeOf (bid ask : Order P) :
    (tradeOf bid ask).Relabels m (tradeOf (bid.relabel m) (ask.relabel m)) where
  quantity := rfl
  buyer := rfl
  seller := rfl
  price ht := by
    simp only [tradeOf, Order.relabel, ht.le_iff_le, apply_ite m.price]

theorem before_relabel (side : Side) (p q : P) :
    before side (m.price p) (m.price q) ↔ before side p q := by
  cases side with
  | buy => exact m.price_strictMono.lt_iff_lt
  | sell => exact m.price_strictMono.lt_iff_lt

/-! ## The list -/

namespace PlainOrders

/-- One entry of the list with the other labels. -/
def relabelEntry (m : Relabelling P Q) (e : Str × Order P) : Str × Order Q := (e.1, e.2.relabel m)

def relabel (m : Relabelling P Q) (orders : PlainOrders P) : PlainOrders Q :=
  orders.map (relabelEntry m)

theorem on_relabel {s : Str} {side : Side} {e : Str × Order P} :
    On s side (relabelEntry m e) ↔ On s side e := Iff.rfl

theorem relabel_append (orders orders' : PlainOrders P) :
    relabel m (orders ++ orders') = orders.relabel m ++ orders'.relabel m :=
  List.map_append

/-- Corresponding changes of the orders are corresponding changes of the lists. -/
theorem relabel_amend {g : Order P → Option (Order P)} {g' : Order Q → Option (Order Q)}
    (hg : ∀ o : Order P, g' (o.relabel m) = (g o).map (Order.relabel m))
    (orders : PlainOrders P) : (orders.relabel m).amend g' = (orders.amend g).relabel m := by
  rw [relabel, amend, List.filterMap_map, relabel, amend, List.map_filterMap]
  refine List.filterMap_congr fun e _ => ?_
  simp only [Function.comp_apply, relabelEntry, hg, Option.map_map]
  rfl

theorem relabel_remove (orders : PlainOrders P) (i : UInt64) :
    (orders.relabel m).remove (m.orderId i) = (orders.remove i).relabel m := by
  refine relabel_amend (fun o => ?_) orders
  simp only [without, Order.relabel, m.orderId_injective.eq_iff]
  split <;> rfl

theorem relabel_setQuantity (orders : PlainOrders P) (i : UInt64) (q : Int32) :
    (orders.relabel m).setQuantity (m.orderId i) q = (orders.setQuantity i q).relabel m := by
  refine relabel_amend (fun o => ?_) orders
  simp only [withQuantity, Order.relabel, m.orderId_injective.eq_iff]
  split <;> rfl

theorem relabel_fill (orders : PlainOrders P) (i : UInt64) (q : Int32) :
    (orders.relabel m).fill (m.orderId i) q = (orders.fill i q).relabel m := by
  refine relabel_amend (fun o => ?_) orders
  have hid : (o.relabel m).orderId = m.orderId i ↔ o.orderId = i := m.orderId_injective.eq_iff
  have hquantity : (o.relabel m).quantity = o.quantity := rfl
  rw [filled, filled, hquantity]
  by_cases hi : o.orderId = i
  · rw [if_pos hi, if_pos (hid.mpr hi)]
    split <;> rfl
  · rw [if_neg hi, if_neg (mt hid.mp hi)]
    rfl

theorem lookup_relabel (orders : PlainOrders P) (i : UInt64) :
    (orders.relabel m).lookup (m.orderId i) = (orders.lookup i).map (relabelEntry m) := by
  rw [lookup, relabel, List.find?_map, lookup]
  refine congrArg _ (List.find?_congr fun e _ => ?_)
  exact decide_eq_decide.mpr m.orderId_injective.eq_iff

theorem queue_relabel (orders : PlainOrders P) (s : Str) (side : Side) (k : P) :
    (orders.relabel m).queue s side (m.price k) =
      (orders.queue s side k).map (Order.relabel m) := by
  rw [queue, relabel, List.filter_map, queue, List.map_map, List.map_map]
  have hfilter : orders.filter ((fun e => decide (On s side e ∧ e.2.price = m.price k)) ∘
      relabelEntry m) = orders.filter fun e => decide (On s side e ∧ e.2.price = k) := by
    refine List.filter_congr fun e _ => decide_eq_decide.mpr ?_
    exact and_congr Iff.rfl m.price_strictMono.injective.eq_iff
  rw [hfilter]
  rfl

theorem best_relabel (orders : PlainOrders P) (s : Str) (side : Side) :
    (orders.relabel m).best s side = (orders.best s side).map (Order.relabel m) := by
  rw [best, relabel, List.find?_map, best, Option.map_map, Option.map_map]
  have hfind : orders.find? ((fun e => decide (Unbeaten (orders.map (relabelEntry m)) s side e)) ∘
      relabelEntry m) = orders.find? fun e => decide (orders.Unbeaten s side e) := by
    refine List.find?_congr fun e _ => decide_eq_decide.mpr (and_congr Iff.rfl ?_)
    rw [List.forall_mem_map]
    refine forall₂_congr fun e' _ => imp_congr Iff.rfl (not_congr ?_)
    exact before_relabel side _ _
  rw [hfind]
  rfl

/-! ## Matching and display -/

theorem matchStep_relabel_none {orders : PlainOrders P} {s : Str} (h : orders.matchStep s = none) :
    (orders.relabel m).matchStep s = none := by
  rw [matchStep_eq_none_iff] at h ⊢
  simp only [relabel, List.forall_mem_map, on_relabel]
  exact fun e he hon e' he' hon' => m.price_strictMono (h e he hon e' he' hon')

/-- One trade and its counterpart. -/
theorem matchStep_relabel_some {orders orders' : PlainOrders P} {s : Str} {t : Trade P}
    (h : orders.matchStep s = some (t, orders')) :
    ∃ t', (orders.relabel m).matchStep s = some (t', orders'.relabel m) ∧ t.Relabels m t' := by
  obtain ⟨bid, ask, hbid, hask, hcross, rfl, rfl⟩ := matchStep_eq_some h
  refine ⟨tradeOf (bid.relabel m) (ask.relabel m), ?_, relabels_tradeOf bid ask⟩
  have hcross' : ¬ (bid.relabel m).price < (ask.relabel m).price :=
    fun hlt => hcross (m.price_strictMono.lt_iff_lt.mp hlt)
  rw [matchStep, best_relabel, best_relabel, hbid, hask]
  simp only [Option.map_some, if_neg hcross', ← relabel_fill]
  rfl

/-- **The two loops make corresponding trades.** -/
theorem matchOrders_relabel (orders : PlainOrders P) (s : Str) :
    List.Forall₂ (Trade.Relabels m) (orders.matchOrders s).2
        ((orders.relabel m).matchOrders s).2 ∧
      ((orders.relabel m).matchOrders s).1 = (orders.matchOrders s).1.relabel m := by
  have hlen : (orders.relabel m).length = orders.length := List.length_map _
  rw [PlainOrders.matchOrders, PlainOrders.matchOrders, hlen]
  refine Loop.simulation (R := fun l l' => l' = relabel m l) ?_ ?_ orders.length orders _ rfl
  · rintro l _ rfl h
    exact matchStep_relabel_none h
  · rintro l _ t l' rfl h
    obtain ⟨t', hstep, ht⟩ := matchStep_relabel_some (m := m) h
    exact ⟨t', _, hstep, ht, rfl⟩

theorem prices_relabel (orders : PlainOrders P) (s : Str) (side : Side) :
    (orders.relabel m).prices s side = (orders.prices s side).map m.price := by
  have hsort : ∀ p q, notAfter side p q ↔ notAfter side (m.price p) (m.price q) :=
    fun p q => not_congr (before_relabel (m := m) side q p).symm
  rw [prices, prices, List.map_insertionSort _ (notAfter side) _ _ fun p _ q _ => hsort p q,
    ← List.dedup_map_of_injective m.price_strictMono.injective, List.map_map, relabel,
    List.filter_map, List.map_map]
  rfl

theorem depth_relabel (orders : PlainOrders P) (s : Str) (side : Side) :
    (orders.relabel m).depth s side = (orders.depth s side).map (DepthLine.relabel m) := by
  rw [depth, depth, prices_relabel, ← List.map_take, List.map_map, List.map_map]
  refine List.map_congr_left fun k _ => ?_
  simp only [Function.comp_apply, queue_relabel, List.foldl_map, List.length_map,
    DepthLine.relabel, Order.relabel]

end PlainOrders

/-! ## Two exchanges -/

/-- Corresponding trades count the same. -/
theorem traded_relabels (st : SymbolStats) {ts : List (Trade P)} {ts' : List (Trade Q)}
    (h : List.Forall₂ (Trade.Relabels m) ts ts') : st.traded ts' = st.traded ts := by
  have hquantity : (ts'.map fun t => UInt64.ofInt t.quantity.toInt) =
      ts.map fun t => UInt64.ofInt t.quantity.toInt := by
    induction h with
    | nil => rfl
    | cons ht _ ih => rw [List.map_cons, List.map_cons, ht.quantity, ih]
  rw [SymbolStats.traded, SymbolStats.traded, h.length_eq, hquantity]

/-- The second exchange is the first one under other labels. -/
structure PlainExchange.Relabels (m : Relabelling P Q) (pl : PlainExchange P)
    (pl' : PlainExchange Q) : Prop where
  orders : pl'.orders = pl.orders.relabel m
  routes : ∀ i, pl'.routes.lookup (m.orderId i) = pl.routes.lookup i
  stats : pl'.stats = pl.stats

namespace PlainExchange

variable {pl : PlainExchange P} {pl' : PlainExchange Q}

theorem relabels_empty : Relabels m empty empty where
  orders := rfl
  routes _ := rfl
  stats := rfl

theorem Relabels.addOrder (h : Relabels m pl pl') (symbol : Str) (o : Order P) :
    (pl'.addOrder symbol (o.relabel m)).2 = (pl.addOrder symbol o).2.map (Event.relabel m) ∧
      Relabels m (pl.addOrder symbol o).1 (pl'.addOrder symbol (o.relabel m)).1 := by
  refine ⟨rfl, ?_, fun i => ?_, ?_⟩
  · simp only [PlainExchange.addOrder, PlainOrders.relabel_append, h.orders]
    rfl
  · simp only [PlainExchange.addOrder, Order.relabel]
    by_cases hi : i = o.orderId
    · rw [hi, Finmap.lookup_insert, Finmap.lookup_insert]
    · rw [Finmap.lookup_insert_of_ne _ hi,
        Finmap.lookup_insert_of_ne _ (m.orderId_injective.ne hi), h.routes]
  · simp only [PlainExchange.addOrder, h.stats]

theorem Relabels.cancelOrder (h : Relabels m pl pl') (i : UInt64) :
    (pl'.cancelOrder (m.orderId i)).2 = (pl.cancelOrder i).2.map (Event.relabel m) ∧
      Relabels m (pl.cancelOrder i).1 (pl'.cancelOrder (m.orderId i)).1 := by
  rw [PlainExchange.cancelOrder, PlainExchange.cancelOrder, h.routes]
  cases hroute : pl.routes.lookup i with
  | none => exact ⟨rfl, h⟩
  | some symbol =>
    refine ⟨?_, ?_, fun j => ?_, h.stats⟩
    · simp only [h.orders, PlainOrders.lookup_relabel]
      cases pl.orders.lookup i <;> rfl
    · simp only [h.orders, PlainOrders.relabel_remove]
    · by_cases hij : j = i
      · subst hij
        simp only [Finmap.lookup_erase]
      · simp only [Finmap.lookup_erase_ne hij,
          Finmap.lookup_erase_ne (m.orderId_injective.ne hij), h.routes]

theorem Relabels.modifyOrder (h : Relabels m pl pl') (i : UInt64) (symbol : Str) (q : Int32)
    (p : P) (ts : ℤ) :
    (pl'.modifyOrder (m.orderId i) symbol q (m.price p) (m.time ts)).2 =
        (pl.modifyOrder i symbol q p ts).2.map (Event.relabel m) ∧
      Relabels m (pl.modifyOrder i symbol q p ts).1
        (pl'.modifyOrder (m.orderId i) symbol q (m.price p) (m.time ts)).1 := by
  rw [PlainExchange.modifyOrder, PlainExchange.modifyOrder, h.routes]
  cases hroute : pl.routes.lookup i with
  | none => exact ⟨rfl, h⟩
  | some actual =>
    by_cases hsymbol : actual ≠ symbol
    · simp only [if_pos hsymbol]
      exact ⟨rfl, h⟩
    simp only [if_neg hsymbol, h.orders, PlainOrders.lookup_relabel]
    cases hlookup : pl.orders.lookup i with
    | none => exact ⟨rfl, h⟩
    | some e =>
      have hin : (m.price p = (e.2.relabel m).price ∧ q < (e.2.relabel m).quantity) ↔
          (p = e.2.price ∧ q < e.2.quantity) :=
        and_congr m.price_strictMono.injective.eq_iff Iff.rfl
      simp only [Option.map_some, PlainOrders.relabelEntry, hin]
      by_cases hc : p = e.2.price ∧ q < e.2.quantity
      · simp only [if_pos hc]
        exact ⟨rfl, PlainOrders.relabel_setQuantity _ _ _, h.routes, h.stats⟩
      · simp only [if_neg hc]
        refine ⟨rfl, ?_, h.routes, h.stats⟩
        rw [PlainOrders.relabel_append, PlainOrders.relabel_remove]
        rfl

theorem Relabels.matchOrders (h : Relabels m pl pl') (symbol : Str) :
    List.Forall₂ (Event.Relabels m) (pl.matchOrders symbol).2 (pl'.matchOrders symbol).2 ∧
      Relabels m (pl.matchOrders symbol).1 (pl'.matchOrders symbol).1 := by
  obtain ⟨htrades, horders⟩ := PlainOrders.matchOrders_relabel (m := m) pl.orders symbol
  rw [PlainExchange.matchOrders, PlainExchange.matchOrders, h.stats]
  cases hst : pl.stats.lookup symbol with
  | none => exact ⟨List.Forall₂.nil, h⟩
  | some st =>
    rw [← h.orders] at htrades horders
    have hcounters := traded_relabels st htrades
    refine ⟨?_, horders, h.routes, ?_⟩
    · rw [List.forall₂_map_left_iff, List.forall₂_map_right_iff]
      exact htrades.imp fun _ _ ht => .trade ht
    · simp only [hcounters]

theorem Relabels.printBook (h : Relabels m pl pl') (symbol : Str) :
    pl'.printBook symbol = (pl.printBook symbol).map (Event.relabel m) := by
  rw [PlainExchange.printBook, PlainExchange.printBook, h.stats]
  cases pl.stats.lookup symbol with
  | none => rfl
  | some st =>
    simp only [h.orders, PlainOrders.depth_relabel]
    rfl

theorem Relabels.printStats (h : Relabels m pl pl') :
    pl'.printStats = pl.printStats.map (Event.relabel m) := by
  rw [PlainExchange.printStats, PlainExchange.printStats, h.stats]
  rfl

/-- **One command under other labels.** -/
theorem Relabels.dispatch (h : Relabels m pl pl') (cmd : Command P) :
    List.Forall₂ (Event.Relabels m) (plainDispatch pl cmd).2
        (plainDispatch pl' (cmd.relabel m)).2 ∧
      Relabels m (plainDispatch pl cmd).1 (plainDispatch pl' (cmd.relabel m)).1 := by
  have htype : (cmd.relabel m).type = cmd.type := rfl
  rw [plainDispatch, plainDispatch, htype]
  cases cmd.type with
  | stats =>
    refine ⟨?_, h⟩
    simp only [h.printStats]
    exact forall₂_relabel _
  | new =>
    obtain ⟨hout, hadd⟩ := h.addOrder cmd.symbolStr cmd.order
    obtain ⟨hout', hmatch⟩ := hadd.matchOrders cmd.symbolStr
    exact ⟨List.rel_append (hout ▸ forall₂_relabel _) hout', hmatch⟩
  | cancel =>
    obtain ⟨hout, hcancel⟩ := h.cancelOrder cmd.orderId
    exact ⟨hout ▸ forall₂_relabel _, hcancel⟩
  | modify =>
    obtain ⟨hout, hmod⟩ :=
      h.modifyOrder cmd.orderId cmd.symbolStr cmd.quantity cmd.price cmd.timestamp
    obtain ⟨hout', hmatch⟩ := hmod.matchOrders cmd.symbolStr
    exact ⟨List.rel_append (hout ▸ forall₂_relabel _) hout', hmatch⟩
  | book =>
    refine ⟨?_, h⟩
    simp only [show (cmd.relabel m).symbolStr = cmd.symbolStr from rfl, h.printBook]
    exact forall₂_relabel _

end PlainExchange
/-! ## Two runs -/

/-- Other identifiers are as fresh. -/
theorem freshNew_relabel {cmds : List (Command P)} (h : FreshNew cmds) :
    FreshNew (cmds.map (Command.relabel m)) := by
  have hids : newIds (cmds.map (Command.relabel m)) = (newIds cmds).map m.orderId := by
    rw [newIds, List.filterMap_map, newIds, List.map_filterMap]
    refine List.filterMap_congr fun cmd _ => ?_
    simp only [Function.comp_apply, Command.newId, Command.relabel]
    cases cmd.type <;> rfl
  rw [FreshNew, hids]
  exact h.map m.orderId_injective

/-- The two runs, on the lists. -/
theorem relabels_run (m : Relabelling P Q) (cmds : List (Command P)) :
    List.Forall₂ (Event.Relabels m) (plainEngine.log cmds)
        (plainEngine.log (cmds.map (Command.relabel m))) ∧
      (plainEngine.run cmds).Relabels m (plainEngine.run (cmds.map (Command.relabel m))) := by
  induction cmds using List.reverseRecOn with
  | nil => exact ⟨List.Forall₂.nil, PlainExchange.relabels_empty⟩
  | append_singleton cmds cmd ih =>
    obtain ⟨hout, hrel⟩ := ih.2.dispatch cmd
    rw [List.map_append, List.map_singleton, plainEngine_log_concat, plainEngine_log_concat,
      plainEngine_run_concat, plainEngine_run_concat]
    exact ⟨List.rel_append ih.1 hout, hrel⟩

/-- **The run under other labels is the run.**  Read the prices in another order type by a
strictly monotone function, exchange the identifiers one by one for others, and take any
other times: the engine prints line by line the same under the new labels, but for the
prices of the trades, and the queues of its books hold the same orders.  When the times
keep their order the prices of the trades are the same, too. -/
theorem run_relabel (m : Relabelling P Q) (cmds : List (Command P)) (hfresh : FreshNew cmds) :
    List.Forall₂ (Event.Relabels m) (engine.log cmds)
        (engine.log (cmds.map (Command.relabel m))) ∧
      (StrictMono m.time → engine.log (cmds.map (Command.relabel m)) =
        (engine.log cmds).map (Event.relabel m)) ∧
      ∀ s side k,
        (((engine.run (cmds.map (Command.relabel m))).book s).queue side (m.price k)).map
            Node.order =
          ((((engine.run cmds).book s).queue side k).map Node.order).map (Order.relabel m) := by
  obtain ⟨hlog, hrefines⟩ := refines_engine hfresh
  obtain ⟨hlog', hrefines'⟩ := refines_engine (freshNew_relabel (m := m) hfresh)
  obtain ⟨hout, hrel⟩ := relabels_run m cmds
  rw [← hlog, ← hlog'] at hout
  refine ⟨hout, fun ht => ?_, fun s side k => ?_⟩
  · have heq : List.Forall₂ Eq ((engine.log cmds).map (Event.relabel m))
        (engine.log (cmds.map (Command.relabel m))) :=
      List.forall₂_map_left_iff.mpr (hout.imp fun _ _ he => (he.eq ht).symm)
    rw [List.forall₂_eq_eq_eq] at heq
    exact heq.symm
  · rw [hrefines'.groups, hrefines.groups, hrel.orders, PlainOrders.queue_relabel]

/-- Prices in hundredths, identifiers from a hundred on, and time the other way round. -/
def Relabelling.hundredths : Relabelling ℤ ℤ where
  price p := 100 * p
  orderId i := i + 100
  time t := -t
  price_strictMono _ _ h := by
    have hpos : (0 : ℤ) < 100 := by decide
    exact Int.mul_lt_mul_of_pos_left h hpos
  orderId_injective _ _ h := UInt64.add_left_inj 100 |>.mp h

/-- A modify, and a trade whose older party is the younger one when time is reversed. -/
theorem run_relabel_hundredths :
    let cmds : List (Command ℤ) :=
      [.newOrder 1 .sell ['A'] 5 9 1 0 0, .modifyOrder 1 ['A'] 4 10 2 0 0,
        .newOrder 2 .buy ['A'] 3 12 3 0 0]
    let cmds' := cmds.map (Command.relabel Relabelling.hundredths)
    List.Forall₂ (Event.Relabels Relabelling.hundredths) (engine.log cmds) (engine.log cmds') ∧
      engine.log cmds = [.new 1 .sell 5 9, .modifyReinsert 1 5 9 4 10, .new 2 .buy 3 12,
        .trade ⟨10, 3, 2, 1⟩] ∧
      engine.log cmds' = [.new 101 .sell 5 900, .modifyReinsert 101 5 900 4 1000,
        .new 102 .buy 3 1200, .trade ⟨1200, 3, 102, 101⟩] :=
  ⟨(run_relabel _ _ (by decide)).1, by decide, by decide⟩

end MatchingEngine
