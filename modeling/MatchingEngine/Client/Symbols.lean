import MatchingEngine.Client.Session
import MatchingEngine.Engine.Entries
import Mathlib.Data.List.GetD
import Mathlib.Data.Set.Function

/-!
# Symbols

A symbol is a token of a line, then a field of sixteen characters, then a string
again, by which the exchange looks for a book.  The field keeps fifteen characters,
and what is read back ends at the first `NUL` (`read_copy`), while the parser takes
tokens of any length.  Two tokens that the field does not distinguish share a book.

`isolated_iff` is the exact law: over a set of tokens, orders of different tokens
never trade with each other and are never modified under one another's name, in any
run of lines, if and only if no two tokens of the set agree in what the field keeps
of them.
-/

namespace MatchingEngine

open IStream

variable {P : Type}

/-- What the field of a command keeps of a token. -/
def kept (s : Str) : Str := (cStr s).take 15

theorem ne_nul_of_mem_kept {s : Str} {c : Char} (h : c ∈ kept s) : (c != nul) = true := by
  have hc : c ∈ s.takeWhile fun c => c != nul := List.mem_of_mem_take h
  exact (List.mem_takeWhile_imp (p := fun c => c != nul) hc)

theorem getElem_copy (s : Str) (i : ℕ) (hi : i < (SymbolField.copy s).toList.length) :
    (SymbolField.copy s).toList[i] = if i < 15 then (cStr s).getD i nul else nul := by
  simp [SymbolField.copy]

/-- The field: what is kept, and terminators. -/
theorem toList_copy (s : Str) :
    (SymbolField.copy s).toList = kept s ++ List.replicate (16 - (kept s).length) nul := by
  have hlen : (kept s).length ≤ 15 := by
    unfold kept
    rw [List.length_take]
    exact min_le_left _ _
  refine List.ext_getElem ?_ fun i hi hi' => ?_
  · rw [Vector.length_toList, List.length_append, List.length_replicate]
    omega
  rw [getElem_copy s i hi, List.getElem_append]
  rw [Vector.length_toList] at hi
  unfold kept at hlen ⊢
  rw [List.length_take] at hlen
  simp only [List.length_take, List.getElem_replicate]
  by_cases hw : i < min 15 (cStr s).length
  · rw [dif_pos hw, if_pos (by omega), List.getElem_take, List.getD_eq_getElem _ _ (by omega)]
  · rw [dif_neg hw]
    split
    · exact List.getD_eq_default _ _ (by omega)
    · rfl

/-- **What is read back from the field** is the token up to its fifteenth character
or its first `NUL`. -/
theorem read_copy (s : Str) : (SymbolField.copy s).read = kept s := by
  unfold SymbolField.read cStr
  rw [toList_copy, List.takeWhile_append_of_pos fun c hc => ne_nul_of_mem_kept hc]
  have hnul : (List.replicate (16 - (kept s).length) nul).takeWhile (fun c => c != nul) = [] := by
    cases 16 - (kept s).length with
    | zero => rfl
    | succ n => rfl
  rw [hnul, List.append_nil]

/-! ## Tokens of lines -/

/-- The symbol a request trades or modifies under. -/
def Request.symbol? : Request P → Option Str
  | .order _ symbol _ _ => some symbol
  | .modify _ symbol _ _ => some symbol
  | _ => none

variable [Zero P] (toDouble : ℚ → Option P)

/-- The token names a symbol in an accepted `BUY`, `SELL` or `MODIFY` line. -/
def NamedIn (lines : List Line) (s : Str) : Prop :=
  ∃ l ∈ lines, ∃ r, readRequest toDouble l.text = .ok r ∧ r.symbol? = some s

/-- An order was entered on a side with the symbol token `s`, and its line was given
the identifier `i`. -/
def EnteredAs (lines : List Line) (side : Side) (i : UInt64) (s : Str) : Prop :=
  ∃ k l quantity price, k ++ [l] <+: lines ∧ nextIdAfter toDouble k = i ∧
    readRequest toDouble l.text = .ok (.order side s quantity price)

variable {toDouble}

theorem EnteredAs.named {lines : List Line} {side : Side} {i : UInt64} {s : Str}
    (h : EnteredAs toDouble lines side i s) : NamedIn toDouble lines s := by
  obtain ⟨k, l, quantity, price, hpre, -, hr⟩ := h
  have hl : l ∈ lines := hpre.subset (List.mem_append_right _ (List.mem_singleton_self l))
  exact ⟨l, hl, _, hr, rfl⟩

theorem EnteredAs.mono {lines lines' : List Line} {side : Side} {i : UInt64} {s : Str}
    (h : EnteredAs toDouble lines side i s) (hpre : lines <+: lines') :
    EnteredAs toDouble lines' side i s := by
  obtain ⟨k, l, quantity, price, hk, h⟩ := h
  exact ⟨k, l, quantity, price, hk.trans hpre, h⟩

/-- Behind the `NEW` command that entered an order is a line, whose token the field
of the command keeps. -/
theorem enteredAs_of_entered {lines : List Line} {symbol : Str} {side : Side} {i : UInt64}
    (h : Entered (commandsOf toDouble lines) symbol side i) :
    ∃ s, EnteredAs toDouble lines side i s ∧ kept s = symbol := by
  obtain ⟨c, hc, hnew, hid, hside, hsym⟩ := h
  obtain ⟨k, l, hpre, hpush⟩ := (mem_commandsOf toDouble).mp hc
  obtain ⟨r, hr, rfl⟩ := pushedAfter_iff.mp hpush
  cases r with
  | order side' s quantity price =>
    obtain rfl : side' = side := hside
    exact ⟨s, ⟨k, l, quantity, price, hpre, hid, hr⟩, (read_copy s).symm.trans hsym⟩
  | cancel orderId => exact absurd hnew (show CommandType.cancel ≠ .new by simp)
  | modify orderId s quantity price => exact absurd hnew (show CommandType.modify ≠ .new by simp)
  | book s => exact absurd hnew (show CommandType.book ≠ .new by simp)
  | stats => exact absurd hnew (show CommandType.stats ≠ .new by simp)

/-! ## Identifiers of lines -/

/-- The line is an accepted `BUY` or `SELL`. -/
def assignsId (toDouble : ℚ → Option P) (l : Line) : Bool :=
  match readRequest toDouble l.text with
  | .ok (.order ..) => true
  | _ => false

/-- Identifiers are counted from one, modulo `2 ^ 64`. -/
theorem nextIdAfter_eq (lines : List Line) :
    nextIdAfter toDouble lines = 1 + UInt64.ofNat (lines.countP (assignsId toDouble)) := by
  induction lines using List.reverseRecOn with
  | nil => rfl
  | append_singleton lines l ih =>
    have hstep : nextIdAfter toDouble (lines ++ [l]) =
        (processLine toDouble l (nextIdAfter toDouble lines)).nextOrderId :=
      (network toDouble).run_concat lines l
    rw [hstep, List.countP_append, List.countP_singleton, UInt64.ofNat_add, ← UInt64.add_assoc,
      ← ih]
    unfold assignsId
    cases hr : readRequest toDouble l.text with
    | error e =>
      rw [(processLine_rejected hr).2]
      exact (UInt64.add_zero _).symm
    | ok r =>
      rw [(processLine_accepted hr).2]
      cases r with
      | order side s quantity price => rfl
      | cancel orderId => exact (UInt64.add_zero _).symm
      | modify orderId s quantity price => exact (UInt64.add_zero _).symm
      | book s => exact (UInt64.add_zero _).symm
      | stats => exact (UInt64.add_zero _).symm

/-- **An identifier names one line** as long as there are fewer than `2 ^ 64`. -/
theorem EnteredAs.unique {lines : List Line} (hlen : lines.length < 2 ^ 64) {side side' : Side}
    {i : UInt64} {s s' : Str} (h : EnteredAs toDouble lines side i s)
    (h' : EnteredAs toDouble lines side' i s') : side = side' ∧ s = s' := by
  obtain ⟨k, l, quantity, price, hpre, hi, hr⟩ := h
  obtain ⟨k', l', quantity', price', hpre', hi', hr'⟩ := h'
  have hl : assignsId toDouble l = true := by rw [assignsId, hr]
  have hl' : assignsId toDouble l' = true := by rw [assignsId, hr']
  -- the identifiers are the numbers of orders entered before
  have hcount : k.countP (assignsId toDouble) = k'.countP (assignsId toDouble) := by
    have hk : k.countP (assignsId toDouble) ≤ k.length := List.countP_le_length
    have hk' : k'.countP (assignsId toDouble) ≤ k'.length := List.countP_le_length
    have hlt := hpre.length_le
    have hlt' := hpre'.length_le
    rw [List.length_append, List.length_singleton] at hlt hlt'
    have heq : UInt64.ofNat (k.countP (assignsId toDouble)) =
        UInt64.ofNat (k'.countP (assignsId toDouble)) := by
      rw [nextIdAfter_eq] at hi hi'
      exact (UInt64.add_right_inj 1).mp (hi.trans hi'.symm)
    have hnat := congrArg UInt64.toNat heq
    rw [UInt64.toNat_ofNat', UInt64.toNat_ofNat', Nat.mod_eq_of_lt (by omega),
      Nat.mod_eq_of_lt (by omega)] at hnat
    exact hnat
  -- so neither line comes before the other
  have hnot : ∀ {k k' : List Line} {l : Line}, assignsId toDouble l = true → k ++ [l] <+: k' →
      k.countP (assignsId toDouble) < k'.countP (assignsId toDouble) := by
    rintro k _ l hl ⟨rest, rfl⟩
    rw [List.append_assoc, List.countP_append, List.countP_append, List.countP_singleton, if_pos hl]
    omega
  have hsame : k ++ [l] = k' ++ [l'] := by
    rcases List.prefix_or_prefix_of_prefix hpre hpre' with h | h
    · rcases List.prefix_concat_iff.mp h with h | h
      · exact h
      · exact absurd hcount (Nat.ne_of_lt (hnot hl h))
    · rcases List.prefix_concat_iff.mp h with h | h
      · exact h.symm
      · exact absurd hcount.symm (Nat.ne_of_lt (hnot hl' h))
  obtain ⟨-, heq⟩ := List.append_inj' hsame rfl
  rw [(List.cons.inj heq).1, hr'] at hr
  cases hr
  exact ⟨rfl, rfl⟩

/-- The identifiers of the commands of some lines are the first numbers. -/
theorem newIds_commandsOf (lines : List Line) :
    newIds (commandsOf toDouble lines) =
      (List.range (lines.countP (assignsId toDouble))).map fun n => 1 + UInt64.ofNat n := by
  induction lines using List.reverseRecOn with
  | nil => rfl
  | append_singleton lines l ih =>
    rw [commandsOf_concat, newIds_append, ih, List.countP_append, List.countP_singleton, assignsId,
      pushedAfter]
    cases hr : readRequest toDouble l.text with
    | error e =>
      rw [(processLine_rejected hr).1]
      exact List.append_nil _
    | ok r =>
      rw [(processLine_accepted hr).1]
      cases r with
      | order side s quantity price =>
        rw [if_pos rfl, List.range_succ, List.map_append, List.map_singleton, ← nextIdAfter_eq]
        rfl
      | cancel orderId => exact List.append_nil _
      | modify orderId s quantity price => exact List.append_nil _
      | book s => exact List.append_nil _
      | stats => exact List.append_nil _

/-- **No identifier is assigned twice** to fewer than `2 ^ 64` lines. -/
theorem freshNew_commandsOf {lines : List Line} (hlen : lines.length < 2 ^ 64) :
    FreshNew (commandsOf toDouble lines) := by
  have hcount : lines.countP (assignsId toDouble) ≤ lines.length := List.countP_le_length
  rw [FreshNew, newIds_commandsOf]
  refine List.Nodup.map_on (fun n hn n' hn' heq => ?_) List.nodup_range
  rw [List.mem_range] at hn hn'
  have hnat := congrArg UInt64.toNat ((UInt64.add_right_inj 1).mp heq)
  rwa [UInt64.toNat_ofNat', UInt64.toNat_ofNat', Nat.mod_eq_of_lt (by omega),
    Nat.mod_eq_of_lt (by omega)] at hnat

/-! ## Isolation -/

variable [LinearOrder P]

/-- Orders are kept apart by the tokens they were entered with. -/
structure Isolated (toDouble : ℚ → Option P) (lines : List Line) : Prop where
  /-- The parties of a trade were entered with one token. -/
  trade : ∀ k l cmd, k ++ [l] <+: lines → pushedAfter toDouble k l = some cmd →
    ∀ t ∈ trades (dispatch (exchangeAfter toDouble k) cmd).2,
      ∃ s, EnteredAs toDouble (k ++ [l]) .buy t.buyer s ∧
        EnteredAs toDouble (k ++ [l]) .sell t.seller s
  /-- An accepted `MODIFY` line modifies the order of its identifier, which was entered
  with the line's token. -/
  accepted : ∀ k l cmd i s quantity price, k ++ [l] <+: lines →
    readRequest toDouble l.text = .ok (.modify i s quantity price) →
    pushedAfter toDouble k l = some cmd →
    ∀ j ∈ (update (exchangeAfter toDouble k) cmd).2.filterMap Event.modified?,
      j = i ∧ ∃ side, EnteredAs toDouble k side i s
  /-- A `MODIFY` line leaves a queue as it is, node by node, or the order of its
  identifier was entered on this side with the line's token, and the nodes of all other
  orders stay as they are, in their order. -/
  modify : ∀ k l cmd i s quantity price, k ++ [l] <+: lines →
    readRequest toDouble l.text = .ok (.modify i s quantity price) →
    pushedAfter toDouble k l = some cmd →
    ∀ symbol side,
      ((update (exchangeAfter toDouble k) cmd).1.book symbol).resting side =
          ((exchangeAfter toDouble k).book symbol).resting side ∨
        (EnteredAs toDouble k side i s ∧
          ((update (exchangeAfter toDouble k) cmd).1.book symbol).others i side =
            ((exchangeAfter toDouble k).book symbol).others i side)
  /-- There is no doubt about the token of an identifier before identifiers wrap. -/
  unique : lines.length < 2 ^ 64 → ∀ side side' i s s', EnteredAs toDouble lines side i s →
    EnteredAs toDouble lines side' i s' → side = side' ∧ s = s'

omit [LinearOrder P] in
/-- The command of an accepted `MODIFY` line. -/
theorem command_of_modify {k : List Line} {l : Line} {cmd : Command P} {i : UInt64} {s : Str}
    {quantity : Int32} {price : P}
    (hr : readRequest toDouble l.text = .ok (.modify i s quantity price))
    (hpush : pushedAfter toDouble k l = some cmd) :
    cmd.type = .modify ∧ cmd.orderId = i ∧ cmd.symbolStr = kept s := by
  obtain ⟨r, hr', rfl⟩ := pushedAfter_iff.mp hpush
  obtain rfl := Except.ok.inj (hr'.symm.trans hr)
  exact ⟨rfl, rfl, read_copy s⟩

/-- Where the field tells the tokens apart, the order that a `MODIFY` line finds under
its symbol was entered with the line's token. -/
theorem enteredAs_of_reached {lines k : List Line} {l : Line}
    (hinj : Set.InjOn kept {s | NamedIn toDouble lines s}) (hpre : k ++ [l] <+: lines)
    {i : UInt64} {s : Str} {quantity : Int32} {price : P}
    (hr : readRequest toDouble l.text = .ok (.modify i s quantity price)) {side : Side}
    {e : P × Node P} (he : e ∈ ((exchangeAfter toDouble k).book (kept s)).resting side)
    (hid : e.2.order.orderId = i) : EnteredAs toDouble k side i s := by
  obtain ⟨s', hs', hks'⟩ := enteredAs_of_entered (entered_of_rests _ _ side e he)
  rw [hid] at hs'
  have hl : l ∈ lines := hpre.subset (List.mem_append_right _ (List.mem_singleton_self l))
  have hnamed : NamedIn toDouble lines s := ⟨l, hl, _, hr, rfl⟩
  obtain rfl : s' = s :=
    hinj (hs'.mono ((List.prefix_append _ _).trans hpre)).named hnamed hks'
  exact hs'

/-- Lines whose tokens the field tells apart are isolated. -/
theorem isolated_of_injOn {lines : List Line}
    (hinj : Set.InjOn kept {s | NamedIn toDouble lines s}) : Isolated toDouble lines where
  trade k l cmd hpre hpush t ht := by
    have hcmds : commandsOf toDouble (k ++ [l]) = commandsOf toDouble k ++ [cmd] := by
      rw [commandsOf_concat, hpush, Option.toList_some]
    have hent := entered_of_trade ht
    rw [← hcmds] at hent
    obtain ⟨s, hs, hks⟩ := enteredAs_of_entered hent.1
    obtain ⟨s', hs', hks'⟩ := enteredAs_of_entered hent.2
    obtain rfl : s = s' := hinj (hs.mono hpre).named (hs'.mono hpre).named (hks.trans hks'.symm)
    exact ⟨s, hs, hs'⟩
  accepted k l cmd i s quantity price hpre hr hpush j hj := by
    obtain ⟨hmod, rfl, hsym⟩ := command_of_modify hr hpush
    obtain ⟨hji, side, e, he, hid⟩ := modify_accepted (linked_exchangeAfter _ _) hmod hj
    rw [hsym] at he
    exact ⟨hji, side, enteredAs_of_reached hinj hpre hr he hid⟩
  modify k l cmd i s quantity price hpre hr hpush symbol side := by
    obtain ⟨hmod, rfl, hsym⟩ := command_of_modify hr hpush
    rcases modify_changes (linked_exchangeAfter toDouble k) hmod symbol side with
      h | ⟨rfl, ⟨e, he, hid⟩, hothers⟩
    · exact Or.inl h
    · rw [hsym] at he
      exact Or.inr ⟨enteredAs_of_reached hinj hpre hr he hid, hothers⟩
  unique hlen _ _ _ _ _ h h' := h.unique hlen h'

/-! ## Lines that meet -/

section Meet

omit [Zero P] [LinearOrder P]

/-- A line that orders one unit at the price one. -/
def unitLine (cmdStr s : Str) : Line := ⟨cmdStr ++ ' ' :: (s ++ ' ' :: "1 1".toList), 0, 0, 0⟩

variable {s : Str} {p : P}

theorem readOrder_unit (hs : IsToken s) (hp : toDouble 1 = some p) :
    readOrder toDouble (' ' :: (s ++ ' ' :: "1 1".toList)) = some (s, 1, p) := by
  have hqty : readInt32 (' ' :: "1 1".toList) = some (1, " 1".toList) := by decide
  have hprice : readDecimal " 1".toList = some (1, []) := by decide +kernel
  unfold readOrder
  rw [readString_space (by decide), readString_append hs (by decide)]
  simp only [Option.bind_eq_bind, Option.bind_some, hqty, readDouble, hprice, hp, Option.map_some]

theorem readRequest_buy (hs : IsToken s) (hp : toDouble 1 = some p) :
    readRequest toDouble (unitLine "BUY".toList s).text = .ok (.order .buy s 1 p) := by
  unfold readRequest unitLine
  rw [readString_append (by decide) (by decide), Option.getD_some]
  simp only [readOrder_unit hs hp]
  rfl

theorem readRequest_sell (hs : IsToken s) (hp : toDouble 1 = some p) :
    readRequest toDouble (unitLine "SELL".toList s).text = .ok (.order .sell s 1 p) := by
  unfold readRequest unitLine
  rw [readString_append (by decide) (by decide), Option.getD_some]
  simp only [readOrder_unit hs hp]
  rfl

end Meet

omit [Zero P] in
/-- A bid that finds no asks rests. -/
theorem rests_after_new {ex : Exchange P} (hl : ex.Linked) (hu : ex.Uncrossed) {cmd : Command P}
    (hnew : cmd.type = .new) (hside : cmd.side = .buy)
    (hempty : (ex.book cmd.symbolStr).resting .sell = []) :
    ∃ e ∈ ((dispatch ex cmd).1.book cmd.symbolStr).resting .buy, e.1 = cmd.price := by
  have hbook := book_update_new ex hnew cmd.symbolStr
  rw [if_pos rfl] at hbook
  have hoside : cmd.order.side = .buy := hside
  have hsell : ((update ex cmd).1.book cmd.symbolStr).resting .sell = [] := by
    rw [hbook, OrderBook.resting_addOrder, OrderBook.resting_insertOrder, hoside, hempty]
    rfl
  have huncrossed : ((update ex cmd).1.book cmd.symbolStr).Uncrossed := by
    intro e he e' he'
    rw [hsell] at he'
    exact absurd he' List.not_mem_nil
  rw [dispatch_eq hl hu, Exchange.book_matchOrders, if_pos rfl,
    OrderBook.matchOrders_of_uncrossed (linked_update hl cmd _) huncrossed]
  refine ⟨(cmd.price, ⟨(ex.book cmd.symbolStr).nextNode, cmd.order⟩), ?_, rfl⟩
  rw [hbook, OrderBook.resting_addOrder]
  exact OrderBook.mem_resting_insertOrder.mpr (Or.inl ⟨hoside.symm, rfl⟩)

omit [LinearOrder P] in
/-- The command of an order line. -/
theorem pushed_order (lines : List Line) {l : Line} {side : Side} {s : Str} {quantity : Int32}
    {p : P} (hr : readRequest toDouble l.text = .ok (.order side s quantity p)) :
    ∃ cmd, pushedAfter toDouble lines l = some cmd ∧ cmd.type = .new ∧ cmd.side = side ∧
      cmd.price = p ∧ cmd.symbolStr = kept s :=
  ⟨_, pushedAfter_iff.mpr ⟨_, hr, rfl⟩, rfl, rfl, rfl, read_copy s⟩

/-- **Two tokens the field does not distinguish trade with each other.** -/
theorem not_isolated_of_kept_eq {s s' : Str} (hs : IsToken s) (hs' : IsToken s') (hne : s ≠ s')
    (hkept : kept s = kept s') {p : P} (hp : toDouble 1 = some p) :
    ¬ Isolated toDouble [unitLine "BUY".toList s, unitLine "SELL".toList s'] := by
  have hbuy := readRequest_buy hs hp
  have hsell := readRequest_sell hs' hp
  generalize unitLine "BUY".toList s = l at hbuy ⊢
  generalize unitLine "SELL".toList s' = l' at hsell ⊢
  obtain ⟨cmd, hpush, hnew, hside, hprice, hsym⟩ := pushed_order [] hbuy
  obtain ⟨cmd', hpush', hnew', hside', hprice', hsym'⟩ := pushed_order [l] hsell
  have hl := linked_exchangeAfter toDouble [l]
  have hu := uncrossed_exchangeAfter toDouble [l]
  -- the bid rests in the book of what both tokens keep, and the ask meets it there
  obtain ⟨bid, hbid, hkey⟩ := rests_after_new (linked_exchangeAfter toDouble [])
    (uncrossed_exchangeAfter toDouble []) hnew hside (by
      rw [exchangeAfter_nil, Exchange.book_empty, OrderBook.resting_empty])
  rw [← exchangeAfter_pushed hpush, List.nil_append, hsym, hkept, ← hsym'] at hbid
  have hbook := book_update_new (exchangeAfter toDouble [l]) hnew' cmd'.symbolStr
  rw [if_pos rfl] at hbook
  have htrades : trades (dispatch (exchangeAfter toDouble [l]) cmd').2 ≠ [] := by
    have hask : (cmd'.price, (⟨((exchangeAfter toDouble [l]).book cmd'.symbolStr).nextNode,
        cmd'.order⟩ : Node P)) ∈
        ((update (exchangeAfter toDouble [l]) cmd').1.book cmd'.symbolStr).resting .sell := by
      rw [hbook, OrderBook.resting_addOrder]
      exact OrderBook.mem_resting_insertOrder.mpr (Or.inl ⟨hside'.symm, rfl⟩)
    have hbid' : bid ∈
        ((update (exchangeAfter toDouble [l]) cmd').1.book cmd'.symbolStr).resting .buy := by
      rw [hbook, OrderBook.resting_addOrder]
      exact OrderBook.mem_resting_insertOrder.mpr (Or.inr hbid)
    exact trades_ne_nil hl hu hbid' hask (by rw [hkey, hprice, hprice'])
  intro hiso
  obtain ⟨t, ht⟩ := List.exists_mem_of_ne_nil _ htrades
  obtain ⟨u, ⟨k, m, q, p₁, hpre, -, hm⟩, ⟨k', m', q', p₂, hpre', -, hm'⟩⟩ :=
    hiso.trade [l] l' cmd' (List.prefix_refl _) hpush' t ht
  have hu₁ : u = s := by
    rcases List.mem_pair.mp (hpre.subset (List.mem_append_right _ (List.mem_singleton_self m)))
      with rfl | rfl
    · rw [hbuy] at hm
      cases hm
      rfl
    · rw [hsell] at hm
      cases hm
  have hu₂ : u = s' := by
    rcases List.mem_pair.mp (hpre'.subset (List.mem_append_right _ (List.mem_singleton_self m')))
      with rfl | rfl
    · rw [hbuy] at hm'
      cases hm'
    · rw [hsell] at hm'
      cases hm'
      rfl
  exact hne (hu₁.symm.trans hu₂)

/-- **Symbols are isolated exactly when the field tells them apart.**  Over a set of
tokens, in every run of lines that trade or modify under these tokens, orders are
kept apart by their tokens, if and only if no two tokens of the set agree up to
their fifteenth character or their first `NUL`. -/
theorem isolated_iff (T : Set Str) (hT : ∀ s ∈ T, IsToken s) (hone : toDouble 1 ≠ none) :
    (∀ lines, (∀ s, NamedIn toDouble lines s → s ∈ T) → Isolated toDouble lines) ↔
      Set.InjOn kept T := by
  constructor
  · intro h s hs s' hs' hkept
    by_contra hne
    obtain ⟨p, hp⟩ := Option.ne_none_iff_exists'.mp hone
    refine not_isolated_of_kept_eq (hT s hs) (hT s' hs') hne hkept hp (h _ ?_)
    rintro u ⟨l, hl, r, hr, hu⟩
    rcases List.mem_pair.mp hl with rfl | rfl
    · rw [readRequest_buy (hT s hs) hp] at hr
      cases hr
      cases hu
      exact hs
    · rw [readRequest_sell (hT s' hs') hp] at hr
      cases hr
      cases hu
      exact hs'
  · exact fun hinj lines hlines => isolated_of_injOn (hinj.mono hlines)

/-- Over two tickers symbols are isolated. -/
theorem isolated_iff_tickers :
    let T : Set Str := {"AAPL".toList, "TSLA".toList}
    ((∀ lines, (∀ s, NamedIn (some : ℚ → Option ℚ) lines s → s ∈ T) →
      Isolated (some : ℚ → Option ℚ) lines) ↔ Set.InjOn kept T) ∧ Set.InjOn kept T := by
  refine ⟨isolated_iff _ ?_ (by simp), ?_⟩
  · rintro s (rfl | rfl)
    · decide
    · decide
  · rintro s (rfl | rfl) s' (rfl | rfl) h
    · rfl
    · exact absurd h (by decide)
    · exact absurd h (by decide)
    · rfl

/-- Two symbols of seventeen characters that differ in the last one. -/
theorem not_isolated_long :
    ¬ ∀ lines : List Line, Isolated (some : ℚ → Option ℚ) lines := by
  intro h
  have hbuy : IsToken "PREFERRED-SERIESA".toList := by decide
  have hsell : IsToken "PREFERRED-SERIESB".toList := by decide
  exact not_isolated_of_kept_eq hbuy hsell (by decide) (by decide) rfl (h _)

end MatchingEngine
