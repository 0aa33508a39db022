import MatchingEngine.Client.Grammar
import MatchingEngine.Client.Symbols

/-!
# Round trip

Requests written as lines and read back.  `Renders` says that a text is a request in
its format, with single spaces and a symbol that the field of a command can hold; any
numerals will do, those of `toString` among them (`renders_render`).

A script is a list of lines, each with the request it renders, or with none when it is
a line that is not understood.  `Decodes` is what the network thread makes of it from
any identifier on: line by line, as a whole, and in the identifiers it assigns.  The
identifiers are consecutive in `uint64_t`, so that they repeat when there are more than
`2 ^ 64` of them, and `decodes` is the round trip with that bound.
-/

namespace MatchingEngine

open IStream

variable {P : Type}

/-! ## Rendering -/

/-- The field of a command holds the symbol as it is. -/
structure HoldsSymbol (symbol : Str) : Prop where
  isToken : IsToken symbol
  length_le : symbol.length ≤ 15
  nul_notMem : nul ∉ symbol

/-- A request is well formed when its symbol can be held. -/
def Request.WellFormed : Request P → Prop
  | .order _ symbol _ _ => HoldsSymbol symbol
  | .cancel _ => True
  | .modify _ symbol _ _ => HoldsSymbol symbol
  | .book symbol => HoldsSymbol symbol
  | .stats => True

/-- The text is the request in its format, with single spaces. -/
structure Renders (toDouble : ℚ → Option P) (r : Request P) (text : Str) : Prop where
  wellFormed : r.WellFormed
  words : ∃ ws, Denotes toDouble ws r ∧ text = [' '].intercalate ws

/-- The price of a request. -/
def Request.price? : Request P → Option P
  | .order _ _ _ price => some price
  | .modify _ _ _ price => some price
  | _ => none

/-- A request as its words, with the price as the decimal `d`. -/
def Request.words (d : DecNumeral) : Request P → List Str
  | .order side symbol quantity _ =>
    [side.word, symbol, (toString quantity.toInt).toList, d.text]
  | .cancel orderId => ["CANCEL".toList, (toString orderId.toNat).toList]
  | .modify orderId symbol quantity _ =>
    ["MODIFY".toList, (toString orderId.toNat).toList, symbol,
      (toString quantity.toInt).toList, d.text]
  | .book symbol => ["BOOK".toList, symbol]
  | .stats => ["STATS".toList]

/-- **Every well-formed request can be rendered**, with its integers as `toString`
writes them. -/
theorem renders_render {toDouble : ℚ → Option P} {r : Request P} (hr : r.WellFormed)
    {d : DecNumeral} (hd : ∀ p ∈ r.price?, toDouble d.value = some p) :
    Renders toDouble r ([' '].intercalate (r.words d)) := by
  refine ⟨hr, r.words d, ?_, rfl⟩
  cases r with
  | order side symbol quantity price =>
    rw [Request.words, ← IntNumeral.text_ofInt]
    exact .order side symbol _ d (IntNumeral.value_ofInt _) (hd price rfl)
  | cancel orderId =>
    rw [Request.words, ← IntNumeral.text_ofInt_natCast]
    exact .cancel _ (IntNumeral.value_ofInt _)
  | modify orderId symbol quantity price =>
    rw [Request.words, ← IntNumeral.text_ofInt_natCast, ← IntNumeral.text_ofInt]
    exact .modify _ symbol _ d (IntNumeral.value_ofInt _) (IntNumeral.value_ofInt _)
      (hd price rfl)
  | book symbol => exact .book symbol
  | stats => exact .stats

theorem Side.isToken_word (side : Side) : IsToken side.word := by
  cases side with
  | buy => decide
  | sell => decide

theorem Denotes.isToken {toDouble : ℚ → Option P} {ws : List Str} {r : Request P}
    (h : Denotes toDouble ws r) (hr : r.WellFormed) : ∀ w ∈ ws, IsToken w := by
  cases h with
  | order side symbol a d ha hd =>
    have hsym : HoldsSymbol symbol := hr
    simp only [List.forall_mem_cons]
    exact ⟨side.isToken_word, hsym.isToken, a.isToken_text, d.isToken_text,
      fun w hw => absurd hw List.not_mem_nil⟩
  | cancel i hi =>
    simp only [List.forall_mem_cons]
    exact ⟨by decide, i.isToken_text, fun w hw => absurd hw List.not_mem_nil⟩
  | modify i symbol a d hi ha hd =>
    have hsym : HoldsSymbol symbol := hr
    simp only [List.forall_mem_cons]
    exact ⟨by decide, i.isToken_text, hsym.isToken, a.isToken_text, d.isToken_text,
      fun w hw => absurd hw List.not_mem_nil⟩
  | book symbol =>
    have hsym : HoldsSymbol symbol := hr
    simp only [List.forall_mem_cons]
    exact ⟨by decide, hsym.isToken, fun w hw => absurd hw List.not_mem_nil⟩
  | stats =>
    simp only [List.forall_mem_cons]
    exact ⟨by decide, fun w hw => absurd hw List.not_mem_nil⟩

/-- **A rendered request is read back.** -/
theorem Renders.readRequest {toDouble : ℚ → Option P} {r : Request P} {text : Str}
    (h : Renders toDouble r text) : readRequest toDouble text = .ok r := by
  obtain ⟨ws, hws, rfl⟩ := h.words
  rw [readRequest_iff, words_intercalate (hws.isToken h.wellFormed)]
  exact hws.accepts

/-! ## Commands -/

theorem HoldsSymbol.kept {symbol : Str} (h : HoldsSymbol symbol) : kept symbol = symbol := by
  have hall : symbol.takeWhile (fun c => c != nul) = symbol :=
    List.takeWhile_eq_self_iff.mpr fun c hc => bne_iff_ne.mpr fun heq => h.nul_notMem (heq ▸ hc)
  rw [MatchingEngine.kept, cStr, hall, List.take_of_length_le h.length_le]

/-- The command is of the type of the request and has its fields. -/
def Carries : Request P → Command P → Prop
  | .order side symbol quantity price, cmd =>
    cmd.type = .new ∧ cmd.side = side ∧ cmd.symbolStr = symbol ∧ cmd.quantity = quantity ∧
      cmd.price = price
  | .cancel orderId, cmd => cmd.type = .cancel ∧ cmd.orderId = orderId
  | .modify orderId symbol quantity price, cmd =>
    cmd.type = .modify ∧ cmd.orderId = orderId ∧ cmd.symbolStr = symbol ∧
      cmd.quantity = quantity ∧ cmd.price = price
  | .book symbol, cmd => cmd.type = .book ∧ cmd.symbolStr = symbol
  | .stats, cmd => cmd.type = .stats

/-- The request enters an order. -/
def Request.isOrder : Request P → Bool
  | .order .. => true
  | _ => false

variable [Zero P]

theorem carries_command {r : Request P} (hr : r.WellFormed) (l : Line) (n : UInt64) :
    Carries r (r.command l n) := by
  cases r with
  | order side symbol quantity price =>
    have hsym : HoldsSymbol symbol := hr
    exact ⟨rfl, rfl, (read_copy symbol).trans hsym.kept, rfl, rfl⟩
  | cancel orderId => exact ⟨rfl, rfl⟩
  | modify orderId symbol quantity price =>
    have hsym : HoldsSymbol symbol := hr
    exact ⟨rfl, rfl, (read_copy symbol).trans hsym.kept, rfl, rfl⟩
  | book symbol =>
    have hsym : HoldsSymbol symbol := hr
    exact ⟨rfl, (read_copy symbol).trans hsym.kept⟩
  | stats => exact rfl

/-- The identifier goes to an order, and only then is counted up. -/
theorem newId_command (r : Request P) (l : Line) (n : UInt64) :
    (r.command l n).newId = (if r.isOrder then some n else none) ∧
      r.nextId n = (if r.isOrder then n + 1 else n) := by
  cases r with
  | order side symbol quantity price => exact ⟨rfl, rfl⟩
  | cancel orderId => exact ⟨rfl, rfl⟩
  | modify orderId symbol quantity price => exact ⟨rfl, rfl⟩
  | book symbol => exact ⟨rfl, rfl⟩
  | stats => exact ⟨rfl, rfl⟩

/-! ## Scripts -/

/-- Lines, each with the request it renders, or with none. -/
abbrev Script (P : Type) := List (Line × Option (Request P))

def Script.lines (s : Script P) : List Line := s.map Prod.fst

def Script.requests (s : Script P) : List (Request P) := s.filterMap Prod.snd

/-- The number of identifiers the script asks for. -/
def Script.orders (s : Script P) : ℕ := s.requests.countP Request.isOrder

variable (toDouble : ℚ → Option P)

omit [Zero P] in
/-- The line renders the request; one without a request is not understood. -/
def Encodes (l : Line) : Option (Request P) → Prop
  | some r => Renders toDouble r l.text
  | none => ∃ e, readRequest toDouble l.text = .error e

/-- **What the network thread makes of a script** from the identifier `n` on. -/
structure Decodes (n : UInt64) (s : Script P) : Prop where
  /-- Each line pushes the command of its request, or nothing. -/
  each : ∀ (before : Script P) l r after, s = before ++ (l, r) :: after →
    Option.Rel Carries r
      (processLine toDouble l ((network toDouble).runFrom n before.lines)).pushed
  /-- The commands are those of the requests, in their order. -/
  all : List.Forall₂ Carries s.requests ((network toDouble).logFrom n s.lines)
  /-- The identifiers are consecutive. -/
  ids : newIds ((network toDouble).logFrom n s.lines) =
    (List.range s.orders).map fun k => n + UInt64.ofNat k
  /-- They repeat only when there are more than `uint64_t` has values. -/
  unique : s.orders ≤ 2 ^ 64 → (newIds ((network toDouble).logFrom n s.lines)).Nodup
  /-- Lines that are not understood change nothing. -/
  undisturbed : (network toDouble).logFrom n (Script.lines (s.filter fun x => x.2.isSome)) =
    (network toDouble).logFrom n s.lines

variable {toDouble}

theorem network_step_none {l : Line} (h : Encodes toDouble l none) (n : UInt64) :
    (network toDouble).step n l = (n, []) := by
  obtain ⟨e, he⟩ := h
  obtain ⟨hpush, hid⟩ := processLine_rejected (n := n) he
  show ((processLine toDouble l n).nextOrderId, (processLine toDouble l n).pushed.toList) = _
  rw [hpush, hid, Option.toList_none]

theorem network_step_some {l : Line} {r : Request P} (h : Encodes toDouble l (some r))
    (n : UInt64) : (network toDouble).step n l = (r.nextId n, [r.command l n]) := by
  obtain ⟨hpush, hid⟩ := processLine_accepted (n := n) (Renders.readRequest h)
  show ((processLine toDouble l n).nextOrderId, (processLine toDouble l n).pushed.toList) = _
  rw [hpush, hid, Option.toList_some]

theorem rel_pushed {l : Line} {r : Option (Request P)} (h : Encodes toDouble l r) (n : UInt64) :
    Option.Rel Carries r (processLine toDouble l n).pushed := by
  cases r with
  | none =>
    obtain ⟨e, he⟩ := h
    rw [(processLine_rejected he).1]
    exact .none
  | some r =>
    have hr : Renders toDouble r l.text := h
    rw [(processLine_accepted hr.readRequest).1]
    exact .some (carries_command hr.wellFormed l n)

theorem logFrom_none {l : Line} (h : Encodes toDouble l none) (s : Script P) (n : UInt64) :
    (network toDouble).logFrom n (Script.lines ((l, none) :: s)) =
      (network toDouble).logFrom n s.lines := by
  rw [Script.lines, List.map_cons, Machine.logFrom_cons, network_step_none h]
  rfl

theorem logFrom_some {l : Line} {r : Request P} (h : Encodes toDouble l (some r)) (s : Script P)
    (n : UInt64) : (network toDouble).logFrom n (Script.lines ((l, some r) :: s)) =
      r.command l n :: (network toDouble).logFrom (r.nextId n) s.lines := by
  rw [Script.lines, List.map_cons, Machine.logFrom_cons, network_step_some h]
  rfl

section Run

variable {s : Script P} (h : ∀ x ∈ s, Encodes toDouble x.1 x.2)
include h

theorem forall₂_logFrom (n : UInt64) :
    List.Forall₂ Carries s.requests ((network toDouble).logFrom n s.lines) := by
  induction s generalizing n with
  | nil => exact .nil
  | cons x s ih =>
    obtain ⟨hx, hs⟩ := List.forall_mem_cons.mp h
    obtain ⟨l, r⟩ := x
    cases r with
    | none =>
      rw [logFrom_none hx]
      exact ih hs n
    | some r =>
      have hr : Renders toDouble r l.text := hx
      rw [logFrom_some hx]
      exact .cons (carries_command hr.wellFormed l n) (ih hs (r.nextId n))

theorem newIds_logFrom (n : UInt64) :
    newIds ((network toDouble).logFrom n s.lines) =
      (List.range s.orders).map fun k => n + UInt64.ofNat k := by
  induction s generalizing n with
  | nil => rfl
  | cons x s ih =>
    obtain ⟨hx, hs⟩ := List.forall_mem_cons.mp h
    obtain ⟨l, r⟩ := x
    cases r with
    | none =>
      rw [logFrom_none hx]
      exact ih hs n
    | some r =>
      obtain ⟨hid, hnext⟩ := newId_command r l n
      have horders : Script.orders ((l, some r) :: s) =
          Script.orders s + if r.isOrder = true then 1 else 0 := List.countP_cons
      rw [logFrom_some hx, horders]
      by_cases hr : r.isOrder = true
      · rw [if_pos hr] at hid hnext
        -- the identifiers after this one are counted from the next
        have hzero : n + UInt64.ofNat 0 = n := UInt64.add_zero n
        have hshift : ∀ k, n + 1 + UInt64.ofNat k = n + UInt64.ofNat (k + 1) := by
          intro k
          rw [UInt64.ofNat_add, UInt64.add_comm (UInt64.ofNat k), ← UInt64.add_assoc]
          rfl
        have htail := ih hs (n + 1)
        simp only [hshift] at htail
        rw [newIds, List.filterMap_cons_some hid, ← newIds, hnext, htail, if_pos hr,
          List.range_succ_eq_map, List.map_cons, List.map_map, hzero]
        rfl
      · rw [if_neg hr] at hid hnext
        rw [newIds, List.filterMap_cons_none hid, ← newIds, hnext, if_neg hr]
        exact ih hs n

theorem logFrom_filter (n : UInt64) :
    (network toDouble).logFrom n (Script.lines (s.filter fun x => x.2.isSome)) =
      (network toDouble).logFrom n s.lines := by
  induction s generalizing n with
  | nil => rfl
  | cons x s ih =>
    obtain ⟨hx, hs⟩ := List.forall_mem_cons.mp h
    obtain ⟨l, r⟩ := x
    cases r with
    | none => rw [List.filter_cons_of_neg (by simp), logFrom_none hx, ih hs]
    | some r => rw [List.filter_cons_of_pos rfl, logFrom_some hx, logFrom_some hx, ih hs]

end Run

/-- Consecutive identifiers are different as long as they do not wrap. -/
theorem nodup_consecutive_iff (n : UInt64) (k : ℕ) :
    ((List.range k).map fun i => n + UInt64.ofNat i).Nodup ↔ k ≤ 2 ^ 64 := by
  rw [List.nodup_map_iff_inj_on List.nodup_range]
  simp only [List.mem_range, UInt64.add_right_inj]
  constructor
  · intro hinj
    by_contra hk
    have hwrap : UInt64.ofNat 0 = UInt64.ofNat (2 ^ 64) := rfl
    exact absurd (hinj 0 (by omega) (2 ^ 64) (by omega) hwrap) (by omega)
  · intro hk i hi j hj hij
    have hnat := congrArg UInt64.toNat hij
    rwa [UInt64.toNat_ofNat', UInt64.toNat_ofNat', Nat.mod_eq_of_lt (by omega),
      Nat.mod_eq_of_lt (by omega)] at hnat

/-- **Decoding undoes encoding.**  From any identifier on, every script is pushed line by
line as the commands of its requests, which carry what was rendered; orders get
consecutive identifiers, different ones as long as there are at most `2 ^ 64`; and
lines that are not understood change nothing. -/
theorem decodes {s : Script P} (h : ∀ x ∈ s, Encodes toDouble x.1 x.2) (n : UInt64) :
    Decodes toDouble n s where
  each before l r after hs := by
    refine rel_pushed (h (l, r) ?_) _
    rw [hs]
    exact List.mem_append_right _ List.mem_cons_self
  all := forall₂_logFrom h n
  ids := newIds_logFrom h n
  unique hk := by
    rw [newIds_logFrom h n]
    exact (nodup_consecutive_iff n _).mpr hk
  undisturbed := logFrom_filter h n

/-! ### A session -/

/-- The decimal `2.5`. -/
def twoAndAHalf : DecNumeral where
  sign := .absent
  whole := ['2']
  fraction := some ['5']
  exponent := none
  whole_isDigit := List.forall_mem_singleton.mpr (by decide)
  fraction_isDigit := List.forall_mem_singleton.mpr (by decide)
  digits_ne_nil := by decide
  exponent_letter := by simp

/-- A buy of some shares at `2.5`. -/
def buyAt (quantity : Int32) : Request ℚ := .order .buy "AAPL".toList quantity (5 / 2)

theorem renders_buyAt {quantity : Int32} {text : Str}
    (h : [' '].intercalate ((buyAt quantity).words twoAndAHalf) = text) :
    Renders (some : ℚ → Option ℚ) (buyAt quantity) text := by
  rw [← h]
  have hsym : HoldsSymbol "AAPL".toList := ⟨by decide, by decide, by decide⟩
  have hvalue : twoAndAHalf.value = 5 / 2 := by decide +kernel
  refine renders_render (r := buyAt quantity) hsym fun p hp => ?_
  rw [hvalue]
  exact hp

/-- An order, a line that is not understood, the largest identifier and the least
quantity. -/
theorem decodes_session :
    Decodes (some : ℚ → Option ℚ) 1
      [(⟨"BUY AAPL 10 2.5".toList, 1, 2, 3⟩, some (buyAt 10)),
        (⟨"HELLO".toList, 4, 5, 6⟩, none),
        (⟨"CANCEL 18446744073709551615".toList, 7, 8, 9⟩, some (.cancel 18446744073709551615)),
        (⟨"BUY AAPL -2147483648 2.5".toList, 10, 11, 12⟩, some (buyAt (-2147483648)))] := by
  refine decodes ?_ 1
  simp only [List.forall_mem_cons]
  refine ⟨renders_buyAt (by decide +kernel), ⟨.unknownCommand, by decide⟩, ?_,
    renders_buyAt (by decide +kernel), fun x hx => absurd hx List.not_mem_nil⟩
  have htext : "CANCEL 18446744073709551615".toList = [' '].intercalate
      ((Request.cancel 18446744073709551615 : Request ℚ).words twoAndAHalf) := by decide +kernel
  have h : Renders (some : ℚ → Option ℚ) (.cancel 18446744073709551615)
      ([' '].intercalate ((Request.cancel 18446744073709551615 : Request ℚ).words twoAndAHalf)) :=
    renders_render (r := .cancel 18446744073709551615) trivial fun p hp =>
      absurd hp (by simp [Request.price?])
  rw [← htext] at h
  exact h

theorem not_nodup_replicate {l : Line} {r : Request P} (h : Encodes toDouble l (some r))
    (hr : r.isOrder = true) (n : UInt64) {k : ℕ} (hk : 2 ^ 64 < k) :
    ¬ (newIds ((network toDouble).logFrom n (List.replicate k l))).Nodup := by
  have hs : ∀ x ∈ List.replicate k (l, some r), Encodes toDouble x.1 x.2 := by
    intro x hx
    rw [List.eq_of_mem_replicate hx]
    exact h
  have hlines : Script.lines (List.replicate k (l, some r)) = List.replicate k l :=
    List.map_replicate
  have horders : Script.orders (List.replicate k (l, some r)) = k := by
    have hreq : Script.requests (List.replicate k (l, some r)) = List.replicate k r :=
      List.filterMap_replicate_of_some (f := Prod.snd) rfl
    rw [Script.orders, hreq, List.countP_replicate, if_pos hr]
  rw [← hlines, newIds_logFrom hs n, horders, nodup_consecutive_iff]
  omega

/-- **The identifiers repeat** when `uint64_t` has been gone through: some `2 ^ 64 + 1`
orders. -/
theorem ids_repeat :
    let l : Line := ⟨"BUY AAPL 10 2.5".toList, 0, 0, 0⟩
    Encodes (some : ℚ → Option ℚ) l (some (buyAt 10)) ∧
      ¬ (newIds ((network (some : ℚ → Option ℚ)).logFrom 1
        (List.replicate (2 ^ 64 + 1) l))).Nodup := by
  intro l
  have h : Encodes (some : ℚ → Option ℚ) l (some (buyAt 10)) := renders_buyAt (by decide +kernel)
  exact ⟨h, not_nodup_replicate h rfl 1 (by omega)⟩

end MatchingEngine
