import MatchingEngine.Lib.Numeral
import MatchingEngine.Client.Line

/-!
# The grammar of lines

The comment at `processLine` lists the formats a line may have.  `Denotes` says what
they mean, by the words of the line and the numerals among them, without a reader:
the numbers are written in full, and no word is left over.

The reader does not keep to it.  `Accepts` is what it accepts, said in words
(`readRequest_iff`): a number is read from the front of its word, the rest of the word
is taken for the next field, and words after the last field are not looked at.
`Slips` lists how a line is accepted that way without being in one of the formats, and
`keepsGrammar_iff` is the law: a line is handled as the formats say if and only if it
is no slip.
-/

namespace MatchingEngine

open IStream

variable {P : Type}

/-- The word that enters an order on a side. -/
def Side.word : Side → Str
  | .buy => "BUY".toList
  | .sell => "SELL".toList

section Words

variable (toDouble : ℚ → Option P)

/-! ## The formats -/

/-- The words are in one of the supported formats, and this is the request. -/
inductive Denotes : List Str → Request P → Prop
  | order (side : Side) (symbol : Str) (a : IntNumeral) (d : DecNumeral) {quantity : Int32}
      {price : P} (ha : a.value = quantity.toInt) (hd : toDouble d.value = some price) :
      Denotes [side.word, symbol, a.text, d.text] (.order side symbol quantity price)
  | cancel (i : IntNumeral) {orderId : UInt64} (hi : i.value = orderId.toNat) :
      Denotes ["CANCEL".toList, i.text] (.cancel orderId)
  | modify (i : IntNumeral) (symbol : Str) (a : IntNumeral) (d : DecNumeral) {orderId : UInt64}
      {quantity : Int32} {price : P} (hi : i.value = orderId.toNat)
      (ha : a.value = quantity.toInt) (hd : toDouble d.value = some price) :
      Denotes ["MODIFY".toList, i.text, symbol, a.text, d.text]
        (.modify orderId symbol quantity price)
  | book (symbol : Str) : Denotes ["BOOK".toList, symbol] (.book symbol)
  | stats : Denotes ["STATS".toList] .stats

/-- The command is of the type of the request, with the values of its numbers.  The
symbol is what its field holds of the token, and an order takes the next identifier. -/
def Request.HasFields (n : UInt64) : Request P → Command P → Prop
  | .order side symbol quantity price, cmd =>
    cmd.type = .new ∧ cmd.orderId = n ∧ cmd.side = side ∧ cmd.symbol = .copy symbol ∧
      cmd.quantity = quantity ∧ cmd.price = price
  | .cancel orderId, cmd => cmd.type = .cancel ∧ cmd.orderId = orderId
  | .modify orderId symbol quantity price, cmd =>
    cmd.type = .modify ∧ cmd.orderId = orderId ∧ cmd.symbol = .copy symbol ∧
      cmd.quantity = quantity ∧ cmd.price = price
  | .book symbol, cmd => cmd.type = .book ∧ cmd.symbol = .copy symbol
  | .stats, cmd => cmd.type = .stats

/-- **The formats are kept** when the line is handled: what is pushed has the values of
what the words denote, and on words that denote nothing there is no push and no
identifier. -/
structure KeepsGrammar [Zero P] (l : Line) (n : UInt64) : Prop where
  pushed : ∀ cmd, (processLine toDouble l n).pushed = some cmd →
    ∃ r, Denotes toDouble (words l.text) r ∧ r.HasFields n cmd
  other : (¬ ∃ r, Denotes toDouble (words l.text) r) →
    (processLine toDouble l n).pushed = none ∧ (processLine toDouble l n).nextOrderId = n

/-! ## What is accepted -/

/-- A quantity and a price are read from the words. -/
inductive ReadAs : List Str → Int32 → P → Prop
  | apart {q w k : Str} {rest : List Str} {quantity : Int32} {price : P}
      (hq : readInt32 q = some (quantity, [])) (hw : readDouble toDouble w = some (price, k)) :
      ReadAs (q :: w :: rest) quantity price
  | joined {q j k : Str} {rest : List Str} {quantity : Int32} {price : P}
      (hq : readInt32 q = some (quantity, j)) (hj : j ≠ [])
      (hw : readDouble toDouble j = some (price, k)) : ReadAs (q :: rest) quantity price

/-- What the reader accepts. -/
inductive Accepts : List Str → Request P → Prop
  | order (side : Side) (symbol : Str) {tail : List Str} {quantity : Int32} {price : P}
      (ht : ReadAs toDouble tail quantity price) :
      Accepts (side.word :: symbol :: tail) (.order side symbol quantity price)
  | cancel {i j : Str} (rest : List Str) {orderId : UInt64}
      (hi : readUInt64 i = some (orderId, j)) :
      Accepts ("CANCEL".toList :: i :: rest) (.cancel orderId)
  | modify {i j symbol : Str} {rest tail : List Str} {orderId : UInt64} {quantity : Int32}
      {price : P} (hi : readUInt64 i = some (orderId, j))
      (hrest : unread j rest = symbol :: tail) (ht : ReadAs toDouble tail quantity price) :
      Accepts ("MODIFY".toList :: i :: rest) (.modify orderId symbol quantity price)
  | book (symbol : Str) (rest : List Str) : Accepts ("BOOK".toList :: symbol :: rest) (.book symbol)
  | stats (rest : List Str) : Accepts ("STATS".toList :: rest) .stats

/-! ## Slips -/

/-- A word with a minus in front of a number other than zero. -/
def Negated (i : Str) : Prop := ∃ m j, readInteger i = some ((true, m), j) ∧ m ≠ 0

/-- A quantity and a price are read, but are not the words they should be: the price
from what is left of the word of the quantity, or with something behind it. -/
inductive TailSlips : List Str → Prop
  | joined {q j k : Str} {rest : List Str} {quantity : Int32} {price : P}
      (hq : readInt32 q = some (quantity, j)) (hj : j ≠ [])
      (hw : readDouble toDouble j = some (price, k)) : TailSlips (q :: rest)
  | trailing {q w k : Str} {rest : List Str} {quantity : Int32} {price : P}
      (hq : readInt32 q = some (quantity, [])) (hw : readDouble toDouble w = some (price, k))
      (hk : k ≠ [] ∨ rest ≠ []) : TailSlips (q :: w :: rest)

/-- The lines that are accepted without being in one of the formats. -/
inductive Slips : List Str → Prop
  | order (side : Side) (symbol : Str) {tail : List Str} (ht : TailSlips toDouble tail) :
      Slips (side.word :: symbol :: tail)
  /-- An identifier with something behind it, or a minus in front. -/
  | cancel {i j : Str} {rest : List Str} {orderId : UInt64}
      (hi : readUInt64 i = some (orderId, j)) (hj : j ≠ [] ∨ rest ≠ [] ∨ Negated i) :
      Slips ("CANCEL".toList :: i :: rest)
  /-- The symbol is what is left of the word of the identifier. -/
  | modifyJoined {i j : Str} {rest : List Str} {orderId : UInt64} {quantity : Int32} {price : P}
      (hi : readUInt64 i = some (orderId, j)) (hj : j ≠ [])
      (ht : ReadAs toDouble rest quantity price) : Slips ("MODIFY".toList :: i :: rest)
  | modifyNegated {i : Str} (symbol : Str) {tail : List Str} {orderId : UInt64} {quantity : Int32}
      {price : P} (hi : readUInt64 i = some (orderId, [])) (hneg : Negated i)
      (ht : ReadAs toDouble tail quantity price) : Slips ("MODIFY".toList :: i :: symbol :: tail)
  | modify {i : Str} (symbol : Str) {tail : List Str} {orderId : UInt64}
      (hi : readUInt64 i = some (orderId, [])) (ht : TailSlips toDouble tail) :
      Slips ("MODIFY".toList :: i :: symbol :: tail)
  | book (symbol : Str) {rest : List Str} (hrest : rest ≠ []) :
      Slips ("BOOK".toList :: symbol :: rest)
  | stats {rest : List Str} (hrest : rest ≠ []) : Slips ("STATS".toList :: rest)

end Words

variable {toDouble : ℚ → Option P}

/-! ## Reading words -/

theorem exists_readTail {s : Str} {quantity : Int32} {price : P} :
    (∃ t, readInt32 s = some (quantity, t) ∧ ∃ u, readDouble toDouble t = some (price, u)) ↔
      ReadAs toDouble (words s) quantity price := by
  constructor
  · rintro ⟨t, hq, u, hw⟩
    obtain ⟨q, rest, j, hs, hq, hj⟩ := wordReader_readInt32.exists_iff.mp ⟨t, hq, rfl⟩
    obtain ⟨w, rest', k, ht, hw, -⟩ := (wordReader_readDouble toDouble).exists_iff.mp ⟨u, hw, rfl⟩
    rw [hs]
    by_cases hnil : j = []
    · subst hnil
      rw [unread_nil, ht] at hj
      rw [hj]
      exact .apart hq hw
    · rw [unread_of_ne_nil hnil, ht] at hj
      obtain ⟨rfl, -⟩ := List.cons.inj hj
      exact .joined hq hnil hw
  · intro h
    generalize hs : words s = ws at h
    cases h with
    | apart hq hw =>
      obtain ⟨t, ht, hrest⟩ := wordReader_readInt32.exists_iff.mpr ⟨_, _, _, hs, hq, rfl⟩
      obtain ⟨u, hu, -⟩ :=
        (wordReader_readDouble toDouble).exists_iff.mpr ⟨_, _, _, hrest, hw, rfl⟩
      exact ⟨t, ht, u, hu⟩
    | joined hq hj hw =>
      obtain ⟨t, ht, hrest⟩ := wordReader_readInt32.exists_iff.mpr ⟨_, _, _, hs, hq, rfl⟩
      rw [unread_of_ne_nil hj] at hrest
      obtain ⟨u, hu, -⟩ :=
        (wordReader_readDouble toDouble).exists_iff.mpr ⟨_, _, _, hrest, hw, rfl⟩
      exact ⟨t, ht, u, hu⟩

theorem readOrder_iff {s symbol : Str} {quantity : Int32} {price : P} :
    readOrder toDouble s = some (symbol, quantity, price) ↔
      ∃ tail, words s = symbol :: tail ∧ ReadAs toDouble tail quantity price := by
  unfold readOrder
  simp only [Option.bind_eq_bind]
  constructor
  · intro h
    obtain ⟨⟨symbol', t⟩, hsym, h⟩ := Option.bind_eq_some_iff.mp h
    obtain ⟨⟨quantity', t'⟩, hq, h⟩ := Option.bind_eq_some_iff.mp h
    obtain ⟨⟨price', u⟩, hp, h⟩ := Option.bind_eq_some_iff.mp h
    cases h
    exact ⟨_, exists_readString.mp ⟨t, hsym, rfl⟩, exists_readTail.mp ⟨t', hq, u, hp⟩⟩
  · rintro ⟨tail, hs, ht⟩
    obtain ⟨t, hsym, rfl⟩ := exists_readString.mpr hs
    obtain ⟨t', hq, u, hp⟩ := exists_readTail.mpr ht
    rw [hsym, Option.bind_some]
    simp only [hq, hp, Option.bind_some]

theorem readModify_iff {s symbol : Str} {orderId : UInt64} {quantity : Int32} {price : P} :
    readModify toDouble s = some (orderId, symbol, quantity, price) ↔
      ∃ i rest j tail, words s = i :: rest ∧ readUInt64 i = some (orderId, j) ∧
        unread j rest = symbol :: tail ∧ ReadAs toDouble tail quantity price := by
  unfold readModify
  simp only [Option.bind_eq_bind]
  constructor
  · intro h
    obtain ⟨⟨orderId', t⟩, hi, h⟩ := Option.bind_eq_some_iff.mp h
    obtain ⟨⟨symbol', quantity', price'⟩, hr, h⟩ := Option.bind_eq_some_iff.mp h
    cases h
    obtain ⟨tail, ht, htail⟩ := readOrder_iff.mp hr
    obtain ⟨i, rest, j, hs, hi, hj⟩ := wordReader_readUInt64.exists_iff.mp ⟨t, hi, rfl⟩
    exact ⟨i, rest, j, tail, hs, hi, hj.trans ht, htail⟩
  · rintro ⟨i, rest, j, tail, hs, hi, hj, htail⟩
    obtain ⟨t, hi, ht⟩ := wordReader_readUInt64.exists_iff.mpr ⟨i, rest, j, hs, hi, hj⟩
    have hr := readOrder_iff.mpr ⟨tail, ht, htail⟩
    rw [hi, Option.bind_some]
    simp only [hr, Option.bind_some]

theorem accepts_of_readRequest {s : Str} {r : Request P} (h : readRequest toDouble s = .ok r) :
    Accepts toDouble (words s) r := by
  cases hs : words s with
  | nil =>
    have herror : readRequest toDouble s = .error .unknownCommand := by
      rw [readRequest, readString_eq_none hs]
      rfl
    rw [herror] at h
    cases h
  | cons w ws =>
    obtain ⟨ss, hread, rfl⟩ := exists_readString.mpr hs
    rw [readRequest, hread] at h
    simp only [Option.getD_some] at h
    split at h
    · rename_i hw
      split at h
      · cases h
      · rename_i symbol quantity price hr
        cases h
        obtain ⟨tail, ht, htail⟩ := readOrder_iff.mp hr
        rw [ht]
        rcases hw with rfl | rfl
        · exact .order .buy symbol htail
        · exact .order .sell symbol htail
    split at h
    · rename_i hw
      subst hw
      split at h
      · cases h
      · rename_i orderId t hi
        cases h
        obtain ⟨i, rest, j, ht, hi, -⟩ := wordReader_readUInt64.exists_iff.mp ⟨t, hi, rfl⟩
        rw [ht]
        exact .cancel rest hi
    split at h
    · rename_i hw
      subst hw
      split at h
      · cases h
      · rename_i orderId symbol quantity price hr
        cases h
        obtain ⟨i, rest, j, tail, ht, hi, hj, htail⟩ := readModify_iff.mp hr
        rw [ht]
        exact .modify hi hj htail
    split at h
    · rename_i hw
      subst hw
      split at h
      · cases h
      · rename_i symbol t hsym
        cases h
        rw [exists_readString.mp ⟨t, hsym, rfl⟩]
        exact .book symbol _
    split at h
    · rename_i hw
      subst hw
      cases h
      exact .stats _
    · cases h

theorem readRequest_of_accepts {s : Str} {r : Request P} (h : Accepts toDouble (words s) r) :
    readRequest toDouble s = .ok r := by
  generalize hs : words s = ws at h
  cases h with
  | order side symbol ht =>
    obtain ⟨ss, hread, hws⟩ := exists_readString.mpr hs
    rw [readRequest, hread]
    simp only [Option.getD_some, readOrder_iff.mpr ⟨_, hws, ht⟩]
    cases side with
    | buy => rfl
    | sell => rfl
  | cancel rest hi =>
    obtain ⟨ss, hread, hws⟩ := exists_readString.mpr hs
    obtain ⟨t, hi, -⟩ := wordReader_readUInt64.exists_iff.mpr ⟨_, _, _, hws, hi, rfl⟩
    rw [readRequest, hread, Option.getD_some]
    dsimp only
    rw [if_neg (by decide), if_pos rfl, hi]
  | modify hi hrest ht =>
    obtain ⟨ss, hread, hws⟩ := exists_readString.mpr hs
    rw [readRequest, hread, Option.getD_some]
    dsimp only
    rw [if_neg (by decide), if_neg (by decide), if_pos rfl,
      readModify_iff.mpr ⟨_, _, _, _, hws, hi, hrest, ht⟩]
  | book symbol rest =>
    obtain ⟨ss, hread, hws⟩ := exists_readString.mpr hs
    obtain ⟨t, hsym, -⟩ := exists_readString.mpr hws
    rw [readRequest, hread]
    simp only [Option.getD_some, hsym]
    rfl
  | stats rest =>
    obtain ⟨ss, hread, -⟩ := exists_readString.mpr hs
    rw [readRequest, hread]
    rfl

/-- **What is accepted is a matter of words.** -/
theorem readRequest_iff {s : Str} {r : Request P} :
    readRequest toDouble s = .ok r ↔ Accepts toDouble (words s) r :=
  ⟨accepts_of_readRequest, readRequest_of_accepts⟩

/-! ## Formats and slips -/

theorem readDouble_text (d : DecNumeral) {price : P} (hd : toDouble d.value = some price) :
    readDouble toDouble d.text = some (price, []) :=
  (readDouble_iff d.isToken_text).mpr ⟨d, rfl, hd⟩

theorem ReadAs.of_numerals {a : IntNumeral} {d : DecNumeral} {quantity : Int32} {price : P}
    (ha : a.value = quantity.toInt) (hd : toDouble d.value = some price) :
    ReadAs toDouble [a.text, d.text] quantity price :=
  .apart ((readInt32_iff a.isToken_text).mpr ⟨a, rfl, ha⟩) (readDouble_text d hd)

/-- **Words in a format are accepted**, as what they denote. -/
theorem Denotes.accepts {ws : List Str} {r : Request P} (h : Denotes toDouble ws r) :
    Accepts toDouble ws r := by
  cases h with
  | order side symbol a d ha hd => exact .order side symbol (.of_numerals ha hd)
  | cancel i hi => exact .cancel [] (readUInt64_text hi)
  | modify i symbol a d hi ha hd => exact .modify (readUInt64_text hi) rfl (.of_numerals ha hd)
  | book symbol => exact .book symbol []
  | stats => exact .stats []

theorem ReadAs.cases {tail : List Str} {quantity : Int32} {price : P}
    (h : ReadAs toDouble tail quantity price) (htoken : ∀ w ∈ tail, IsToken w) :
    TailSlips toDouble tail ∨ ∃ a : IntNumeral, ∃ d : DecNumeral, tail = [a.text, d.text] ∧
      a.value = quantity.toInt ∧ toDouble d.value = some price := by
  cases h with
  | joined hq hj hw => exact Or.inl (.joined hq hj hw)
  | @apart q w k rest _ _ hq hw =>
    by_cases hk : k ≠ [] ∨ rest ≠ []
    · exact Or.inl (.trailing hq hw hk)
    · right
      obtain ⟨hknil, hrest⟩ := not_or.mp hk
      rw [ne_eq, not_not] at hknil hrest
      subst hknil hrest
      obtain ⟨a, rfl, ha⟩ := (readInt32_iff (htoken q List.mem_cons_self)).mp hq
      obtain ⟨d, rfl, hd⟩ := (readDouble_iff (htoken w (by simp))).mp hw
      exact ⟨a, d, rfl, ha, hd⟩

/-- An identifier that is read in full has a minus, or is the number it says. -/
theorem negated_or_exists {i : Str} (htoken : IsToken i) {orderId : UInt64}
    (hi : readUInt64 i = some (orderId, [])) :
    Negated i ∨ ∃ a : IntNumeral, a.text = i ∧ a.value = orderId.toNat := by
  obtain ⟨a, rfl, hm, rfl⟩ := (readUInt64_iff htoken).mp hi
  by_cases hval : 0 ≤ a.value
  · right
    refine ⟨a, rfl, ?_⟩
    rw [value_eq_magnitude hval, toNat_ofInt hm]
  · left
    unfold IntNumeral.value signed at hval
    split at hval
    · rename_i hneg
      refine ⟨a.magnitude, [], ?_, by omega⟩
      rw [readInteger_text, hneg]
    · omega

theorem not_negated {a : IntNumeral} {n : ℕ} (h : a.value = n) : ¬ Negated a.text := by
  rintro ⟨m, j, hread, hm⟩
  rw [readInteger_text] at hread
  obtain ⟨hneg, hmag⟩ := Prod.mk.inj (Prod.mk.inj (Option.some.inj hread)).1
  unfold IntNumeral.value signed at h
  rw [hneg, hmag, if_pos rfl] at h
  omega

/-- What is accepted is in a format, or is a slip. -/
theorem Accepts.cases {ws : List Str} {r : Request P} (h : Accepts toDouble ws r)
    (htoken : ∀ w ∈ ws, IsToken w) : Denotes toDouble ws r ∨ Slips toDouble ws := by
  cases h with
  | order side symbol ht =>
    rcases ht.cases fun w hw => htoken w (by simp [hw]) with hslip | ⟨a, d, rfl, ha, hd⟩
    · exact Or.inr (.order side symbol hslip)
    · exact Or.inl (.order side symbol a d ha hd)
  | @cancel i j rest orderId hi =>
    by_cases hj : j ≠ [] ∨ rest ≠ [] ∨ Negated i
    · exact Or.inr (.cancel hi hj)
    · left
      obtain ⟨hjnil, hrest, hneg⟩ : j = [] ∧ rest = [] ∧ ¬ Negated i := by
        simpa only [not_or, ne_eq, not_not] using hj
      subst hjnil hrest
      obtain ⟨a, rfl, ha⟩ := (negated_or_exists (htoken i (by simp)) hi).resolve_left hneg
      exact .cancel a ha
  | @modify i j symbol rest tail orderId quantity price hi hrest ht =>
    by_cases hj : j = []
    · subst hj
      rw [unread_nil] at hrest
      subst hrest
      rcases negated_or_exists (htoken i (by simp)) hi with hneg | ⟨b, rfl, hb⟩
      · exact Or.inr (.modifyNegated symbol hi hneg ht)
      · rcases ht.cases fun w hw => htoken w (by simp [hw]) with hslip | ⟨a, d, rfl, ha, hd⟩
        · exact Or.inr (.modify symbol hi hslip)
        · exact Or.inl (.modify b symbol a d hb ha hd)
    · right
      rw [unread_of_ne_nil hj] at hrest
      obtain ⟨-, rfl⟩ := List.cons.inj hrest
      exact .modifyJoined hi hj ht
  | book symbol rest =>
    by_cases hrest : rest = []
    · subst hrest
      exact Or.inl (.book symbol)
    · exact Or.inr (.book symbol hrest)
  | stats rest =>
    by_cases hrest : rest = []
    · subst hrest
      exact Or.inl .stats
    · exact Or.inr (.stats hrest)

/-! ## The law -/

theorem TailSlips.readAs {tail : List Str} (h : TailSlips toDouble tail) :
    ∃ quantity price, ReadAs toDouble tail quantity price := by
  cases h with
  | joined hq hj hw => exact ⟨_, _, .joined hq hj hw⟩
  | trailing hq hw hk => exact ⟨_, _, .apart hq hw⟩

/-- **A slip is accepted.** -/
theorem Slips.accepts {ws : List Str} (h : Slips toDouble ws) :
    ∃ r, Accepts toDouble ws r := by
  cases h with
  | order side symbol ht =>
    obtain ⟨quantity, price, ht⟩ := ht.readAs
    exact ⟨_, .order side symbol ht⟩
  | @cancel i j rest orderId hi hj => exact ⟨_, .cancel rest hi⟩
  | @modifyJoined i j rest orderId quantity price hi hj ht =>
    exact ⟨_, .modify hi (unread_of_ne_nil hj rest) ht⟩
  | modifyNegated symbol hi hneg ht => exact ⟨_, .modify hi rfl ht⟩
  | modify symbol hi ht =>
    obtain ⟨quantity, price, ht⟩ := ht.readAs
    exact ⟨_, .modify hi rfl ht⟩
  | @book symbol rest hrest => exact ⟨_, .book symbol rest⟩
  | @stats rest hrest => exact ⟨_, .stats rest⟩

theorem not_tailSlips {a : IntNumeral} {d : DecNumeral} {quantity : Int32} {price : P}
    (ha : a.value = quantity.toInt) (hd : toDouble d.value = some price) :
    ¬ TailSlips toDouble [a.text, d.text] := by
  have hqty := (readInt32_iff a.isToken_text).mpr ⟨a, rfl, ha⟩
  have hprice := readDouble_text d hd
  intro h
  cases h with
  | joined hq hj hw =>
    rw [hqty] at hq
    cases hq
    exact hj rfl
  | trailing hq hw hk =>
    rw [hprice] at hw
    cases hw
    rcases hk with hk | hk
    · exact hk rfl
    · exact hk rfl

theorem Side.word_ne (side : Side) : side.word ≠ "CANCEL".toList ∧ side.word ≠ "MODIFY".toList ∧
    side.word ≠ "BOOK".toList ∧ side.word ≠ "STATS".toList := by
  cases side with
  | buy => decide
  | sell => decide

/-- **A slip is in no format.** -/
theorem Slips.not_denotes {ws : List Str} (h : Slips toDouble ws) {r : Request P} :
    ¬ Denotes toDouble ws r := by
  intro hd
  cases hd with
  | order side symbol a d ha hd =>
    generalize hws : [side.word, symbol, a.text, d.text] = ws at h
    obtain ⟨hc, hm, hb, hs⟩ := side.word_ne
    cases h with
    | order side' symbol' ht =>
      obtain ⟨-, htail⟩ := List.cons.inj hws
      obtain ⟨-, rfl⟩ := List.cons.inj htail
      exact not_tailSlips ha hd ht
    | cancel hi hj => exact hc (List.cons.inj hws).1
    | modifyJoined hi hj ht => exact hm (List.cons.inj hws).1
    | modifyNegated symbol' hi hneg ht => exact hm (List.cons.inj hws).1
    | modify symbol' hi ht => exact hm (List.cons.inj hws).1
    | book symbol' hrest => exact hb (List.cons.inj hws).1
    | stats hrest => exact hs (List.cons.inj hws).1
  | cancel i hi =>
    generalize hws : ["CANCEL".toList, i.text] = ws at h
    cases h with
    | order side symbol ht => exact side.word_ne.1 (List.cons.inj hws).1.symm
    | cancel hi' hj =>
      obtain ⟨-, htail⟩ := List.cons.inj hws
      obtain ⟨rfl, rfl⟩ := List.cons.inj htail
      rw [readUInt64_text hi] at hi'
      cases hi'
      rcases hj with hj | hj | hneg
      · exact hj rfl
      · exact hj rfl
      · exact not_negated hi hneg
    | _ => exact absurd (List.cons.inj hws).1 (by decide)
  | modify i symbol a d hi ha hd =>
    generalize hws : ["MODIFY".toList, i.text, symbol, a.text, d.text] = ws at h
    cases h with
    | order side symbol' ht => exact side.word_ne.2.1 (List.cons.inj hws).1.symm
    | modifyJoined hi' hj ht =>
      obtain ⟨-, htail⟩ := List.cons.inj hws
      obtain ⟨rfl, -⟩ := List.cons.inj htail
      rw [readUInt64_text hi] at hi'
      cases hi'
      exact hj rfl
    | modifyNegated symbol' hi' hneg ht =>
      obtain ⟨-, htail⟩ := List.cons.inj hws
      obtain ⟨rfl, -⟩ := List.cons.inj htail
      exact not_negated hi hneg
    | modify symbol' hi' ht =>
      obtain ⟨-, htail⟩ := List.cons.inj hws
      obtain ⟨-, htail⟩ := List.cons.inj htail
      obtain ⟨-, rfl⟩ := List.cons.inj htail
      exact not_tailSlips ha hd ht
    | _ => exact absurd (List.cons.inj hws).1 (by decide)
  | book symbol =>
    generalize hws : ["BOOK".toList, symbol] = ws at h
    cases h with
    | order side symbol' ht => exact side.word_ne.2.2.1 (List.cons.inj hws).1.symm
    | book symbol' hrest =>
      obtain ⟨-, htail⟩ := List.cons.inj hws
      exact hrest (List.cons.inj htail).2.symm
    | _ => exact absurd (List.cons.inj hws).1 (by decide)
  | stats =>
    generalize hws : ["STATS".toList] = ws at h
    cases h with
    | order side symbol' ht => exact side.word_ne.2.2.2 (List.cons.inj hws).1.symm
    | stats hrest => exact hrest (List.cons.inj hws).2.symm
    | _ => exact absurd (List.cons.inj hws).1 (by decide)

/-- What a request is turned into has its fields. -/
theorem hasFields_command [Zero P] (r : Request P) (l : Line) (n : UInt64) :
    r.HasFields n (r.command l n) := by
  cases r with
  | order side symbol quantity price => exact ⟨rfl, rfl, rfl, rfl, rfl, rfl⟩
  | cancel orderId => exact ⟨rfl, rfl⟩
  | modify orderId symbol quantity price => exact ⟨rfl, rfl, rfl, rfl, rfl⟩
  | book symbol => exact ⟨rfl, rfl⟩
  | stats => exact rfl

/-- **When the formats are kept.**  A line is handled as the supported formats say,
whatever the next identifier is, if and only if its words are no slip. -/
theorem keepsGrammar_iff [Zero P] (l : Line) (n : UInt64) :
    KeepsGrammar toDouble l n ↔ ¬ Slips toDouble (words l.text) := by
  constructor
  · intro hkeeps hslip
    obtain ⟨r, hr⟩ := hslip.accepts
    have hpush := (processLine_pushed_iff (n := n)).mpr ⟨r, readRequest_iff.mpr hr, rfl⟩
    obtain ⟨r', hr', -⟩ := hkeeps.pushed (r.command l n) hpush
    exact hslip.not_denotes hr'
  · intro hslip
    have hdenotes : ∀ r, readRequest toDouble l.text = .ok r →
        Denotes toDouble (words l.text) r := fun r hr =>
      ((readRequest_iff.mp hr).cases fun w hw => isToken_of_mem_words hw).resolve_right hslip
    refine ⟨fun cmd hcmd => ?_, fun hno => ?_⟩
    · obtain ⟨r, hr, rfl⟩ := processLine_pushed_iff.mp hcmd
      exact ⟨r, hdenotes r hr, hasFields_command r l n⟩
    · cases hr : readRequest toDouble l.text with
      | error e => exact processLine_rejected hr
      | ok r => exact absurd ⟨r, hdenotes r hr⟩ hno

/-- `BUY AAPL 10.5` has no price, and buys ten at a half: the price is read from the word
of the quantity. -/
theorem not_keepsGrammar_fraction :
    let l : Line := ⟨"BUY AAPL 10.5".toList, 0, 0, 0⟩
    (processLine (some : ℚ → Option ℚ) l 1).pushed =
        some (.newOrder 1 .buy "AAPL".toList 10 (1 / 2) 0 0 0) ∧
      ¬ KeepsGrammar (some : ℚ → Option ℚ) l 1 := by
  intro l
  have hpush : (processLine (some : ℚ → Option ℚ) l 1).pushed =
      some (.newOrder 1 .buy "AAPL".toList 10 (1 / 2) 0 0 0) := by
    decide +kernel
  refine ⟨hpush, fun hkeeps => ?_⟩
  obtain ⟨r, hr, -⟩ := hkeeps.pushed _ hpush
  have hthree : (words l.text).length = 3 := by decide
  generalize words l.text = ws at hr hthree
  cases hr with
  | order side symbol a d ha hd => exact absurd hthree (by simp)
  | cancel i hi => exact absurd hthree (by simp)
  | modify i symbol a d hi ha hd => exact absurd hthree (by simp)
  | book symbol => exact absurd hthree (by simp)
  | stats => exact absurd hthree (by simp)

end MatchingEngine
