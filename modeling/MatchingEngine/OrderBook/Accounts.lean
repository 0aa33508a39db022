import MatchingEngine.OrderBook.Units
import Mathlib.Algebra.Ring.Int.Defs

/-!
# Accounts

The lines a book prints are a ledger.  Posting them one by one keeps an account for
every identifier: the quantity its last `NEW` or `MODIFY` has set, what trades have
filled of it since, and what a cancel has removed.

The invariant of a book is that the account of every resting order is open for
exactly the quantity the order still has (`Open`).  One fill keeps it
(`Open.matchStep`), and so does the loop of `matchOrders` (`posted_matchOrders`),
whose trades are all within what is left of their parties (`Covered`).
-/

namespace MatchingEngine

variable {P : Type}

/-! ## Accounts -/

/-- The account of an identifier. -/
structure Account where
  /-- The quantity set by the last `NEW` or `MODIFY`. -/
  set : ℤ := 0
  /-- What trades have filled since. -/
  filled : ℤ := 0
  /-- What cancels have removed since. -/
  removed : ℤ := 0
  deriving DecidableEq

/-- An account on which a quantity has just been set. -/
def Account.opened (q : Int32) : Account := { set := q.toInt }

/-- What is left of the quantity. -/
def Account.left (a : Account) : ℤ := a.set - a.filled - a.removed

/-- What a trade fills of an order. -/
def Trade.fills (t : Trade P) (i : UInt64) : ℤ :=
  (if t.buyer = i then t.quantity.toInt else 0) + if t.seller = i then t.quantity.toInt else 0

/-- Post one line of the log on the account of `i`. -/
def Account.post (i : UInt64) (a : Account) : Event P → Account
  | .new j _ q _ => if j = i then opened q else a
  | .modifyInPlace j _ q => if j = i then opened q else a
  | .modifyReinsert j _ _ q _ => if j = i then opened q else a
  | .cancel j _ q _ => if j = i then { a with removed := a.removed + q.toInt } else a
  | .trade t => { a with filled := a.filled + t.fills i }
  | _ => a

/-- The accounts after some lines have been posted. -/
def posted (A : UInt64 → Account) (l : List (Event P)) (i : UInt64) : Account :=
  l.foldl (Account.post i) (A i)

/-- The account of `i` in a log. -/
def account (log : List (Event P)) (i : UInt64) : Account := posted (fun _ => {}) log i

/-- What a list of trades fills of an order. -/
def fillsOf (ts : List (Trade P)) (i : UInt64) : ℤ := (ts.map fun t => t.fills i).sum

@[simp] theorem posted_nil (A : UInt64 → Account) : posted A ([] : List (Event P)) = A := rfl

theorem posted_append (A : UInt64 → Account) (l l' : List (Event P)) :
    posted A (l ++ l') = posted (posted A l) l' := by
  ext1 i
  unfold posted
  exact List.foldl_append

theorem posted_singleton (A : UInt64 → Account) (ev : Event P) (i : UInt64) :
    posted A [ev] i = (A i).post i ev := rfl

theorem account_append (l l' : List (Event P)) : account (l ++ l') = posted (account l) l' :=
  posted_append _ l l'

@[simp] theorem fillsOf_nil (i : UInt64) : fillsOf ([] : List (Trade P)) i = 0 := rfl

theorem fillsOf_cons (t : Trade P) (ts : List (Trade P)) (i : UInt64) :
    fillsOf (t :: ts) i = t.fills i + fillsOf ts i := by
  rw [fillsOf, List.map_cons, List.sum_cons, ← fillsOf]

/-- Trades only fill. -/
theorem posted_trades (A : UInt64 → Account) (ts : List (Trade P)) (i : UInt64) :
    posted A (ts.map Event.trade) i = { A i with filled := (A i).filled + fillsOf ts i } := by
  induction ts generalizing A with
  | nil =>
    rw [List.map_nil, posted_nil, fillsOf_nil, add_zero]
  | cons t ts ih =>
    rw [List.map_cons, ← List.singleton_append, posted_append, ih, fillsOf_cons, ← add_assoc]
    rfl

theorem fills_eq_zero {t : Trade P} {i : UInt64} (hb : t.buyer ≠ i) (hs : t.seller ≠ i) :
    t.fills i = 0 := by
  rw [Trade.fills, if_neg hb, if_neg hs, add_zero]

theorem fills_buyer {t : Trade P} (h : t.seller ≠ t.buyer) :
    t.fills t.buyer = t.quantity.toInt := by
  rw [Trade.fills, if_pos rfl, if_neg h, add_zero]

theorem fills_seller {t : Trade P} (h : t.buyer ≠ t.seller) :
    t.fills t.seller = t.quantity.toInt := by
  rw [Trade.fills, if_pos rfl, if_neg h, zero_add]

/-- A trade fills its buyer. -/
theorem posted_buyer {A : UInt64 → Account} {t : Trade P} {i : UInt64} (hi : t.buyer = i)
    (hne : t.buyer ≠ t.seller) :
    posted A [.trade t] i = { A i with filled := (A i).filled + t.quantity.toInt } := by
  subst hi
  rw [posted_singleton, Account.post, fills_buyer hne.symm]

/-- A trade fills its seller. -/
theorem posted_seller {A : UInt64 → Account} {t : Trade P} {i : UInt64} (hi : t.seller = i)
    (hne : t.buyer ≠ t.seller) :
    posted A [.trade t] i = { A i with filled := (A i).filled + t.quantity.toInt } := by
  subst hi
  rw [posted_singleton, Account.post, fills_seller hne]

/-- A trade leaves the accounts of everybody else alone. -/
theorem posted_other {A : UInt64 → Account} {t : Trade P} {i : UInt64} (hb : t.buyer ≠ i)
    (hs : t.seller ≠ i) : posted A [.trade t] i = A i := by
  rw [posted_singleton, Account.post, fills_eq_zero hb hs, add_zero]

/-! ## One side of a book -/

/-- The account of a resting order is open for the quantity it has, which is
positive. -/
def OpenFor (A : UInt64 → Account) (o : Order P) : Prop :=
  0 < o.quantity ∧ (A o.orderId).removed = 0 ∧
    (A o.orderId).set = (A o.orderId).filled + o.quantity.toInt

theorem OpenFor.left {A : UInt64 → Account} {o : Order P} (h : OpenFor A o) :
    (A o.orderId).left = o.quantity.toInt := by
  obtain ⟨-, hr, hs⟩ := h
  unfold Account.left
  omega

/-- A fill of the head that is posted keeps the accounts of a side open. -/
theorem OpenFor.fillHead {A : UInt64 → Account} {ev : Event P} {h : P × Node P}
    {l : List (P × Node P)} {q : Int32} (hopen : ∀ e ∈ h :: l, OpenFor A e.2.order) (hq : 0 < q)
    (hle : q ≤ h.2.order.quantity)
    (hhead : posted A [ev] h.2.order.orderId =
      { A h.2.order.orderId with filled := (A h.2.order.orderId).filled + q.toInt })
    (htail : ∀ e ∈ l, posted A [ev] e.2.order.orderId = A e.2.order.orderId) :
    ∀ e ∈ OrderBook.fillHead h q l, OpenFor (posted A [ev]) e.2.order := by
  intro e he
  have hrest : ∀ e ∈ l, OpenFor (posted A [ev]) e.2.order := by
    intro e he
    unfold OpenFor
    rw [htail e he]
    exact hopen e (List.mem_cons_of_mem _ he)
  unfold OrderBook.fillHead at he
  split at he
  · exact hrest e he
  rename_i hne
  rcases List.mem_cons.mp he with rfl | he
  · obtain ⟨-, hremoved, hset⟩ := hopen h List.mem_cons_self
    have hsub := toInt_sub_fill hq hle
    have hle' := Int32.le_iff_toInt_le.mp hle
    have hne' : (h.2.order.quantity - q).toInt ≠ 0 := fun h0 => hne (Int32.toInt_inj.mp h0)
    show OpenFor (posted A [ev]) (h.2.order.fill q)
    refine ⟨?_, ?_, ?_⟩
    · show 0 < h.2.order.quantity - q
      rw [int32_pos]
      omega
    · show (posted A [ev] h.2.order.orderId).removed = 0
      rw [hhead]
      exact hremoved
    · show (posted A [ev] h.2.order.orderId).set =
        (posted A [ev] h.2.order.orderId).filled + (h.2.order.quantity - q).toInt
      rw [hhead, hsub]
      show (A h.2.order.orderId).set =
        (A h.2.order.orderId).filled + q.toInt + (h.2.order.quantity.toInt - q.toInt)
      omega
  · exact hrest e he

variable [LinearOrder P]

/-! ## One book -/

/-- The accounts of the orders of a book are open. -/
def Open (A : UInt64 → Account) (b : OrderBook P) : Prop :=
  ∀ side, ∀ e ∈ b.resting side, OpenFor A e.2.order

/-- What one fill does to the accounts, once it is posted. -/
structure Filled (A : UInt64 → Account) (b : OrderBook P) (t : Trade P) (b' : OrderBook P) :
    Prop where
  opened : Open (posted A [.trade t]) b'
  settled : ∀ i, b.Rests i → ¬ b'.Rests i → (posted A [.trade t] i).left = 0
  untouched : ∀ i, ¬ b.Rests i → t.fills i = 0
  positive : 0 < t.quantity
  buyer : t.quantity.toInt ≤ (A t.buyer).left
  seller : t.quantity.toInt ≤ (A t.seller).left

/-- An order that a fill of its side's head leaves nothing of was that head. -/
theorem filled_of_not_mem {h e : P × Node P} {q : Int32} {l : List (P × Node P)}
    (he : e ∈ h :: l)
    (hgone : ∀ x ∈ OrderBook.fillHead h q l, x.2.order.orderId ≠ e.2.order.orderId) :
    e = h ∧ h.2.order.quantity - q = 0 := by
  by_contra hc
  rw [not_and] at hc
  obtain ⟨n, hn, -, hid⟩ := OrderBook.mem_fillHead_of_mem he hc
  exact hgone _ hn hid

omit [LinearOrder P] in
/-- The identifier of the head does not occur behind it. -/
theorem IdsNodup.ne_head {h e : P × Node P} {l : List (P × Node P)} (hl : IdsNodup (h :: l))
    (he : e ∈ l) : e.2.order.orderId ≠ h.2.order.orderId := by
  intro hid
  refine (List.nodup_cons.mp hl).1 ?_
  show h.2.order.orderId ∈ l.map fun e => e.2.order.orderId
  rw [← hid]
  exact List.mem_map_of_mem he

omit [LinearOrder P] in
/-- A posted fill of everything balances the account. -/
theorem OpenFor.settled {A : UInt64 → Account} {ev : Event P} {o : Order P} {q : Int32}
    (ho : OpenFor A o) (hq : 0 < q) (hle : q ≤ o.quantity) (h0 : o.quantity - q = 0)
    (hp : posted A [ev] o.orderId =
      { A o.orderId with filled := (A o.orderId).filled + q.toInt }) :
    (posted A [ev] o.orderId).left = 0 := by
  have hleft := ho.left
  have hsub := toInt_sub_fill hq hle
  rw [h0, show (0 : Int32).toInt = 0 from rfl] at hsub
  rw [hp]
  unfold Account.left at hleft ⊢
  show (A o.orderId).set - ((A o.orderId).filled + q.toInt) - (A o.orderId).removed = 0
  omega

/-- **One fill is within what is left of both parties**, and keeps the accounts of
the book open. -/
theorem Open.matchStep {A : UInt64 → Account} {b b' : OrderBook P} {t : Trade P}
    (hA : Open A b) (hb : b.Linked) (hi : b.Indexed) (h : b.matchStep = some (t, b')) :
    Filled A b t b' := by
  obtain ⟨bid, bids, ask, asks, hbuy, hsell, -, ht, hbuy', hsell', -⟩ :=
    OrderBook.matchStep_eq_some h
  have hbid : bid ∈ b.resting .buy := by rw [hbuy]; exact List.mem_cons_self
  have hask : ask ∈ b.resting .sell := by rw [hsell]; exact List.mem_cons_self
  have hbuyer : t.buyer = bid.2.order.orderId := by rw [ht]; rfl
  have hseller : t.seller = ask.2.order.orderId := by rw [ht]; rfl
  have hpos : 0 < t.quantity := by
    rw [ht]
    exact tradeOf_pos.mpr ⟨(hA .buy bid hbid).1, (hA .sell ask hask).1⟩
  obtain ⟨hleb, hlea⟩ := tradeOf_le bid.2.order ask.2.order
  rw [← ht] at hleb hlea
  have hcross : ∀ x ∈ b.resting .buy, ∀ y ∈ b.resting .sell,
      x.2.order.orderId ≠ y.2.order.orderId := by
    intro x hx y hy hid
    exact absurd (hi.id_inj hb hx hy hid).1 (by simp)
  have hne : t.buyer ≠ t.seller := by
    rw [hbuyer, hseller]
    exact hcross bid hbid ask hask
  -- each head is filled, and nobody else is
  have hfillb := posted_buyer (A := A) hbuyer hne
  have hfilla := posted_seller (A := A) hseller hne
  have hother : ∀ i, i ≠ bid.2.order.orderId → i ≠ ask.2.order.orderId →
      posted A [.trade t] i = A i := by
    intro i hib hia
    rw [← hbuyer] at hib
    rw [← hseller] at hia
    exact posted_other hib.symm hia.symm
  have hbids := hi.idsNodup hb .buy
  have hasks := hi.idsNodup hb .sell
  have hopenb := hA .buy
  have hopena := hA .sell
  rw [hbuy] at hbids hopenb hcross
  rw [hsell] at hasks hopena hcross
  refine ⟨fun side => ?_, fun i hr hgone => ?_, fun i hr => ?_, hpos, ?_, ?_⟩
  · cases side with
    | buy =>
      rw [hbuy']
      refine OpenFor.fillHead hopenb hpos hleb hfillb fun e he => ?_
      exact hother _ (hbids.ne_head he) (hcross e (List.mem_cons_of_mem _ he) ask
        List.mem_cons_self)
    | sell =>
      rw [hsell']
      refine OpenFor.fillHead hopena hpos hlea hfilla fun e he => ?_
      exact hother _ (hcross bid List.mem_cons_self e (List.mem_cons_of_mem _ he)).symm
        (hasks.ne_head he)
  · obtain ⟨side, e, he, rfl⟩ := hr
    have hgone' : ∀ x ∈ b'.resting side, x.2.order.orderId ≠ e.2.order.orderId :=
      fun x hx hid => hgone ⟨side, x, hx, hid⟩
    cases side with
    | buy =>
      rw [hbuy] at he
      rw [hbuy'] at hgone'
      obtain ⟨rfl, h0⟩ := filled_of_not_mem he hgone'
      exact (hA .buy e hbid).settled hpos hleb h0 hfillb
    | sell =>
      rw [hsell] at he
      rw [hsell'] at hgone'
      obtain ⟨rfl, h0⟩ := filled_of_not_mem he hgone'
      exact (hA .sell e hask).settled hpos hlea h0 hfilla
  · refine fills_eq_zero ?_ ?_
    · rw [hbuyer]
      exact fun hid => hr ⟨.buy, bid, hbid, hid⟩
    · rw [hseller]
      exact fun hid => hr ⟨.sell, ask, hask, hid⟩
  · rw [hbuyer, (hA .buy bid hbid).left]
    exact Int32.le_iff_toInt_le.mp hleb
  · rw [hseller, (hA .sell ask hask).left]
    exact Int32.le_iff_toInt_le.mp hlea

/-- A fill within what is left of both parties, at the point of the log where it
stands. -/
def Covered (A : UInt64 → Account) (log : List (Event P)) : Prop :=
  ∀ l t, l ++ [.trade t] <+: log → 0 < t.quantity ∧
    t.quantity.toInt ≤ (posted A l t.buyer).left ∧ t.quantity.toInt ≤ (posted A l t.seller).left

omit [LinearOrder P] in
theorem covered_nil (A : UInt64 → Account) : Covered A ([] : List (Event P)) := by
  intro l t h
  exact absurd (List.prefix_nil.mp h) (by simp)

omit [LinearOrder P] in
/-- A log is covered when each of its halves is, where it stands. -/
theorem Covered.append {A : UInt64 → Account} {l₁ l₂ : List (Event P)} (h₁ : Covered A l₁)
    (h₂ : Covered (posted A l₁) l₂) : Covered A (l₁ ++ l₂) := by
  intro l t hpre
  rcases List.prefix_or_prefix_of_prefix hpre (List.prefix_append l₁ l₂) with h | h
  · exact h₁ l t h
  rcases List.prefix_concat_iff.mp h with h | ⟨k, hk⟩
  · exact h₁ l t (by rw [h])
  · rw [← hk, List.append_assoc, List.prefix_append_right_inj] at hpre
    have hcov := h₂ k t hpre
    rwa [← posted_append, hk] at hcov

omit [LinearOrder P] in
/-- A log of one line. -/
theorem covered_singleton {A : UInt64 → Account} {ev : Event P}
    (h : ∀ t, ev = .trade t → 0 < t.quantity ∧ t.quantity.toInt ≤ (A t.buyer).left ∧
      t.quantity.toInt ≤ (A t.seller).left) : Covered A [ev] := by
  intro l t hpre
  rcases l with _ | ⟨x, l⟩
  · exact h t (List.cons_prefix_cons.mp hpre).1.symm
  · have hlen := hpre.length_le
    rw [List.cons_append, List.length_cons, List.length_append, List.length_singleton] at hlen
    exact absurd hlen (by simp)

/-- What the loop of `matchOrders` does to the accounts, once its trades are
posted. -/
structure Posted (A : UInt64 → Account) (b : OrderBook P) (log : List (Event P))
    (b' : OrderBook P) : Prop where
  opened : Open (posted A log) b'
  settled : ∀ i, b.Rests i → ¬ b'.Rests i → (posted A log i).left = 0
  untouched : ∀ i, ¬ b.Rests i → posted A log i = A i
  covered : Covered A log

/-- **The loop keeps the accounts of the book open** and settles the orders it
fills. -/
theorem posted_matchOrders {A : UInt64 → Account} {b : OrderBook P} (hA : Open A b)
    (hb : b.Linked) (hi : b.Indexed) : Posted A b b.matchOrders.2 b.matchOrders.1 := by
  have hdecr : ∀ (b : OrderBook P) t b', b.matchStep = some (t, b') →
      b'.restingCount < b.restingCount := fun _ _ _ h => OrderBook.restingCount_matchStep h
  refine Loop.loop_induction OrderBook.restingCount hdecr
    (C := fun b ts b' => ∀ A, Open A b → b.Linked → b.Indexed →
      Posted A b (ts.map Event.trade) b') ?_ ?_ b.restingCount b (le_refl _) A hA hb hi
  · intro b _ A hA _ _
    exact ⟨hA, fun i h h' => absurd h h', fun _ _ => rfl, covered_nil A⟩
  · intro b t b₁ ts b' hstep ih A hA hb hi
    have hfill := hA.matchStep hb hi hstep
    have hloop := ih _ hfill.opened (hb.matchStep hstep) (hi.matchStep hb hstep)
    have hcov : Covered A [Event.trade t] := covered_singleton fun u hu => by
      obtain rfl : t = u := Event.trade.inj hu
      exact ⟨hfill.positive, hfill.buyer, hfill.seller⟩
    rw [List.map_cons, ← List.singleton_append]
    refine ⟨?_, fun i hr hgone => ?_, fun i hr => ?_, hcov.append hloop.covered⟩
    · rw [posted_append]
      exact hloop.opened
    · rw [posted_append]
      by_cases hr₁ : b₁.Rests i
      · exact hloop.settled i hr₁ hgone
      · rw [hloop.untouched i hr₁]
        exact hfill.settled i hr hr₁
    · have hr₁ : ¬ b₁.Rests i := fun h => hr (h.of_matchStep hstep)
      rw [posted_append, hloop.untouched i hr₁, posted_singleton, Account.post,
        hfill.untouched i hr, add_zero]

end MatchingEngine
