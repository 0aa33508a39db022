import MatchingEngine.Lib.Words

/-!
# Numerals

The texts of numbers as data, apart from any reader: a numeral is its sign and its
digits, so that its text and its value are functions of the same parts and every
numeral is well formed.

* `IntNumeral`: a sign and a run of digits.  `DecNumeral`: a sign, digits with a point
  among them or not, and an exponent or not.
* `readInteger_text`, `readDecimal_text`: a numeral is read in full, as its value.
* `exists_intNumeral`, `exists_decNumeral`: a word that is read in full is the text of
  a numeral.
* `readInt32_iff`, `readUInt64_text`, `readDouble_iff`: the same for the types of C++.
* `IntNumeral.ofInt`: the numeral that `toString` writes.
-/

namespace MatchingEngine
namespace IStream

/-- A sign, written or not. -/
inductive Sign where
  | absent
  | plus
  | minus
  deriving DecidableEq

def Sign.text : Sign → List Char
  | .absent => []
  | .plus => ['+']
  | .minus => ['-']

def Sign.negative : Sign → Bool
  | .minus => true
  | _ => false

/-- The text of an integer. -/
structure IntNumeral where
  sign : Sign
  digits : List Char
  digits_ne_nil : digits ≠ []
  isDigit : ∀ c ∈ digits, c.isDigit = true

namespace IntNumeral

def text (a : IntNumeral) : List Char := a.sign.text ++ a.digits

/-- The digits as a number. -/
def magnitude (a : IntNumeral) : ℕ := digitsVal a.digits

def value (a : IntNumeral) : ℤ := signed a.sign.negative a.magnitude

end IntNumeral

/-- The text of a decimal number.  There are digits on one side of the point at
least. -/
structure DecNumeral where
  sign : Sign
  whole : List Char
  /-- What follows the point, when there is one. -/
  fraction : Option (List Char)
  /-- The letter and the number of the exponent, when there is one. -/
  exponent : Option (Char × IntNumeral)
  whole_isDigit : ∀ c ∈ whole, c.isDigit = true
  fraction_isDigit : ∀ c ∈ fraction.getD [], c.isDigit = true
  digits_ne_nil : whole ++ fraction.getD [] ≠ []
  exponent_letter : ∀ x ∈ exponent, x.1 = 'e' ∨ x.1 = 'E'

namespace DecNumeral

def fractionText : Option (List Char) → List Char
  | none => []
  | some ds => '.' :: ds

def exponentText : Option (Char × IntNumeral) → List Char
  | none => []
  | some (c, k) => c :: k.text

def exponentVal : Option (Char × IntNumeral) → ℤ
  | none => 0
  | some (_, k) => k.value

def text (d : DecNumeral) : List Char :=
  d.sign.text ++ (d.whole ++ (fractionText d.fraction ++ exponentText d.exponent))

def value (d : DecNumeral) : ℚ :=
  decimalVal d.sign.negative d.whole (d.fraction.getD []) (exponentVal d.exponent)

end DecNumeral

/-! ## Signs and digits -/

/-- The text does not go on with a character of the class. -/
def StopsAt (p : Char → Bool) (t : List Char) : Prop := ∀ c ∈ t.head?, p c = false

theorem stopsAt_nil (p : Char → Bool) : StopsAt p [] := fun c hc => absurd hc (by simp)

theorem readDigits_digits {ds : List Char} (hds : ∀ c ∈ ds, c.isDigit = true) {t : List Char}
    (ht : StopsAt Char.isDigit t) : readDigits (ds ++ t) = (ds, t) := by
  have hstop : t.takeWhile Char.isDigit = [] ∧ t.dropWhile Char.isDigit = t := by
    cases t with
    | nil => exact ⟨rfl, rfl⟩
    | cons c t =>
      have hc : ¬ c.isDigit = true := by simp [ht c rfl]
      exact ⟨List.takeWhile_cons_of_neg hc, List.dropWhile_cons_of_neg hc⟩
  rw [readDigits, List.takeWhile_append_of_pos hds, List.dropWhile_append_of_pos hds, hstop.1,
    hstop.2, List.append_nil]

theorem readDigits_split (s : List Char) :
    s = (readDigits s).1 ++ (readDigits s).2 ∧ ∀ c ∈ (readDigits s).1, c.isDigit = true :=
  ⟨(List.takeWhile_append_dropWhile).symm, fun _ hc => List.mem_takeWhile_imp hc⟩

/-- A digit, a point and the letter of an exponent are no sign. -/
theorem ne_sign_of_isDigit {c : Char} (hc : c.isDigit = true) : c ≠ '-' ∧ c ≠ '+' := by
  constructor
  · rintro rfl
    exact absurd hc (by decide)
  · rintro rfl
    exact absurd hc (by decide)

theorem readSign_text (σ : Sign) {t : List Char} (ht : ∀ c ∈ t.head?, c ≠ '-' ∧ c ≠ '+') :
    readSign (σ.text ++ t) = (σ.negative, t) := by
  cases σ with
  | plus => rfl
  | minus => rfl
  | absent =>
    cases t with
    | nil => rfl
    | cons c t => exact readSign_of_ne (ht c rfl).1 (ht c rfl).2 t

theorem readSign_split (s : List Char) :
    ∃ σ : Sign, s = σ.text ++ (readSign s).2 ∧ (readSign s).1 = σ.negative := by
  unfold readSign
  split
  · exact ⟨.minus, rfl, rfl⟩
  · exact ⟨.plus, rfl, rfl⟩
  · exact ⟨.absent, rfl, rfl⟩

/-! ## Integers -/

namespace IntNumeral

theorem inWord_of_isDigit {c : Char} (hc : c.isDigit = true) : inWord c = true := by
  unfold inWord
  by_contra hspace
  have h := (ne_of_isSpace (by simpa using hspace)).1
  rw [hc] at h
  exact absurd h (by simp)

theorem inWord_sign (σ : Sign) : ∀ c ∈ σ.text, inWord c = true := by
  cases σ with
  | absent => exact fun c hc => absurd hc List.not_mem_nil
  | plus => exact List.forall_mem_singleton.mpr (by decide)
  | minus => exact List.forall_mem_singleton.mpr (by decide)

theorem isToken_text (a : IntNumeral) : IsToken a.text := by
  refine ⟨fun h => a.digits_ne_nil (List.append_eq_nil_iff.mp h).2, fun c hc => ?_⟩
  rcases List.mem_append.mp hc with hc | hc
  · exact inWord_sign _ c hc
  · exact inWord_of_isDigit (a.isDigit c hc)

end IntNumeral

/-- The sign and the digits of an integer, with what follows it. -/
theorem read_text_append (a : IntNumeral) {t : List Char} (ht : StopsAt Char.isDigit t) :
    readSign (a.text ++ t) = (a.sign.negative, a.digits ++ t) ∧
      readDigits (a.digits ++ t) = (a.digits, t) := by
  constructor
  · rw [IntNumeral.text, List.append_assoc]
    refine readSign_text a.sign fun c hc => ne_sign_of_isDigit (a.isDigit c ?_)
    rw [List.head?_append_of_ne_nil _ a.digits_ne_nil] at hc
    exact List.mem_of_head? hc
  · exact readDigits_digits a.isDigit ht

theorem exists_sign_digits {s : List Char} (hne : (readDigits (readSign s).2).1 ≠ []) :
    ∃ a : IntNumeral, s = a.text ++ (readDigits (readSign s).2).2 ∧
      a.sign.negative = (readSign s).1 ∧ a.digits = (readDigits (readSign s).2).1 := by
  obtain ⟨σ, hs, hneg⟩ := readSign_split s
  obtain ⟨hsplit, hdigits⟩ := readDigits_split (readSign s).2
  refine ⟨⟨σ, (readDigits (readSign s).2).1, hne, hdigits⟩, ?_, hneg.symm, rfl⟩
  rw [IntNumeral.text, List.append_assoc, ← hsplit]
  exact hs

/-- **An integer is read in full.** -/
theorem readInteger_text (a : IntNumeral) :
    readInteger a.text = some ((a.sign.negative, a.magnitude), []) := by
  obtain ⟨hsign, hdigits⟩ := read_text_append a (stopsAt_nil _)
  rw [List.append_nil, List.append_nil] at hsign
  rw [List.append_nil] at hdigits
  rw [readInteger_eq (skipws_of_token a.isToken_text), hsign]
  simp only [hdigits]
  rw [if_neg a.digits_ne_nil]
  rfl

/-- **What is read in full is an integer.** -/
theorem exists_intNumeral {w : List Char} (hw : IsToken w) {negative : Bool} {m : ℕ}
    (h : readInteger w = some ((negative, m), [])) :
    ∃ a : IntNumeral, a.text = w ∧ a.sign.negative = negative ∧ a.magnitude = m := by
  rw [readInteger_eq (skipws_of_token hw)] at h
  split at h
  · cases h
  · rename_i hne
    obtain ⟨a, htext, hneg, hdigits⟩ := exists_sign_digits hne
    obtain ⟨hval, hrest⟩ := Prod.mk.inj (Option.some.inj h)
    obtain ⟨hneg', hm⟩ := Prod.mk.inj hval
    rw [hrest, List.append_nil] at htext
    refine ⟨a, htext.symm, hneg.trans hneg', ?_⟩
    rw [IntNumeral.magnitude, hdigits]
    exact hm

/-- A numeral that is not negative is its digits. -/
theorem value_eq_magnitude {a : IntNumeral} (h : 0 ≤ a.value) : a.value = a.magnitude := by
  unfold IntNumeral.value signed at h ⊢
  split
  · rename_i hneg
    rw [if_pos hneg] at h
    omega
  · rfl

/-- **An `int` is read in full from its numerals**, and from nothing else. -/
theorem readInt32_iff {w : List Char} (hw : IsToken w) {q : Int32} :
    readInt32 w = some (q, []) ↔ ∃ a : IntNumeral, a.text = w ∧ a.value = q.toInt := by
  rw [readInt32_eq]
  constructor
  · intro h
    obtain ⟨⟨⟨negative, m⟩, t⟩, hread, h⟩ := Option.bind_eq_some_iff.mp h
    obtain ⟨q', hq, h⟩ := Option.map_eq_some_iff.mp h
    cases h
    obtain ⟨a, htext, hneg, hm⟩ := exists_intNumeral hw hread
    refine ⟨a, htext, ?_⟩
    unfold int32Of at hq
    split at hq
    · rename_i hrange
      cases hq
      rw [Int32.toInt_ofInt_of_le hrange.1 hrange.2, IntNumeral.value, hneg, hm]
    · cases hq
  · rintro ⟨a, rfl, ha⟩
    have hval : signed a.sign.negative a.magnitude = q.toInt := ha
    have hq : int32Of (a.sign.negative, a.magnitude) = some q := by
      rw [int32Of, hval, if_pos ⟨q.le_toInt, q.toInt_lt⟩, Int32.ofInt_toInt]
    rw [readInteger_text, Option.bind_some]
    simp only [hq, Option.map_some]

/-- What is read in full as a `uint64_t`: the digits in range, negated under a minus. -/
theorem readUInt64_iff {w : List Char} (hw : IsToken w) {i : UInt64} :
    readUInt64 w = some (i, []) ↔
      ∃ a : IntNumeral, a.text = w ∧ a.magnitude < 2 ^ 64 ∧ i = UInt64.ofInt a.value := by
  rw [readUInt64_eq]
  constructor
  · intro h
    obtain ⟨⟨⟨negative, m⟩, t⟩, hread, h⟩ := Option.bind_eq_some_iff.mp h
    obtain ⟨i', hi, h⟩ := Option.map_eq_some_iff.mp h
    cases h
    obtain ⟨a, htext, hneg, hm⟩ := exists_intNumeral hw hread
    unfold uint64Of at hi
    split at hi
    · rename_i hrange
      cases hi
      refine ⟨a, htext, by rw [hm]; exact hrange, ?_⟩
      rw [IntNumeral.value, hneg, hm]
    · cases hi
  · rintro ⟨a, rfl, ha, rfl⟩
    have hi : uint64Of (a.sign.negative, a.magnitude) = some (UInt64.ofInt a.value) := if_pos ha
    rw [readInteger_text, Option.bind_some]
    simp only [hi, Option.map_some]

theorem toNat_ofInt {n : ℕ} (h : n < 2 ^ 64) : (UInt64.ofInt n).toNat = n := by
  have hmod : (n : ℤ) % 2 ^ 64 = n := Int.emod_eq_of_lt (by omega) (by omega)
  rw [UInt64.ofInt, hmod, Int.toNat_natCast, UInt64.toNat_ofNat', Nat.mod_eq_of_lt h]

theorem ofInt_toNat (i : UInt64) : UInt64.ofInt i.toNat = i := by
  have hmod : (i.toNat : ℤ) % 2 ^ 64 = i.toNat :=
    Int.emod_eq_of_lt (by omega) (by have := i.toNat_lt; omega)
  rw [UInt64.ofInt, hmod, Int.toNat_natCast, UInt64.ofNat_toNat]

/-- **An identifier is read from its numerals.** -/
theorem readUInt64_text {a : IntNumeral} {i : UInt64} (h : a.value = i.toNat) :
    readUInt64 a.text = some (i, []) := by
  refine (readUInt64_iff a.isToken_text).mpr ⟨a, rfl, ?_, ?_⟩
  · have hm := value_eq_magnitude (a := a) (by rw [h]; exact Int.natCast_nonneg _)
    have hlt := i.toNat_lt
    omega
  · rw [h, ofInt_toNat]

/-! ### What `toString` writes -/

namespace IntNumeral

/-- The decimal digits of a number under a sign. -/
def ofNat (σ : Sign) (n : ℕ) : IntNumeral where
  sign := σ
  digits := Nat.toDigits 10 n
  digits_ne_nil := Nat.toDigits_ne_nil
  isDigit _ hc := Nat.isDigit_of_mem_toDigits (by decide) (by decide) hc

theorem magnitude_ofNat (σ : Sign) (n : ℕ) : (ofNat σ n).magnitude = n :=
  Nat.ofDigitChars_ten_toDigits

/-- The decimal text of an integer. -/
def ofInt (z : ℤ) : IntNumeral := if 0 ≤ z then ofNat .absent z.toNat else ofNat .minus (-z).toNat

theorem value_ofInt (z : ℤ) : (ofInt z).value = z := by
  unfold ofInt
  split
  · rename_i hz
    rw [value, magnitude_ofNat]
    exact Int.toNat_of_nonneg hz
  · rename_i hz
    rw [value, magnitude_ofNat]
    show -((-z).toNat : ℤ) = z
    omega

theorem text_ofInt (z : ℤ) : (ofInt z).text = (toString z).toList := by
  rw [Int.toString_eq_repr, Int.repr_eq_if]
  unfold ofInt
  split
  · rw [Nat.toList_repr]
    rfl
  · rw [String.toList_append, Nat.toList_repr]
    rfl

theorem text_ofInt_natCast (n : ℕ) : (ofInt n).text = (toString n).toList :=
  text_ofInt n

end IntNumeral

/-! ## Decimals -/

namespace DecNumeral

theorem exponentText_head {x : Option (Char × IntNumeral)} (hx : ∀ y ∈ x, y.1 = 'e' ∨ y.1 = 'E') :
    ∀ c ∈ (exponentText x).head?, c = 'e' ∨ c = 'E' := by
  cases x with
  | none => exact fun c hc => absurd hc (by simp [exponentText])
  | some y =>
    intro c hc
    cases hc
    exact hx y rfl

theorem inWord_fractionText {f : Option (List Char)}
    (hf : ∀ c ∈ f.getD [], c.isDigit = true) : ∀ c ∈ fractionText f, inWord c = true := by
  cases f with
  | none => exact fun c hc => absurd hc List.not_mem_nil
  | some ds =>
    intro c hc
    rcases List.mem_cons.mp hc with rfl | hc
    · decide
    · exact IntNumeral.inWord_of_isDigit (hf c hc)

theorem inWord_exponentText {x : Option (Char × IntNumeral)}
    (hx : ∀ y ∈ x, y.1 = 'e' ∨ y.1 = 'E') : ∀ c ∈ exponentText x, inWord c = true := by
  cases x with
  | none => exact fun c hc => absurd hc List.not_mem_nil
  | some y =>
    intro c hc
    rcases List.mem_cons.mp hc with rfl | hc
    · rcases hx y rfl with h | h
      · rw [h]
        decide
      · rw [h]
        decide
    · exact y.2.isToken_text.2 c hc

theorem isToken_text (d : DecNumeral) : IsToken d.text := by
  constructor
  · intro h
    obtain ⟨-, h⟩ := List.append_eq_nil_iff.mp h
    obtain ⟨hwhole, h⟩ := List.append_eq_nil_iff.mp h
    obtain ⟨hfrac, -⟩ := List.append_eq_nil_iff.mp h
    refine d.digits_ne_nil ?_
    cases hf : d.fraction with
    | none => rw [hwhole, Option.getD_none, List.nil_append]
    | some ds =>
      rw [hf, fractionText] at hfrac
      exact absurd hfrac (List.cons_ne_nil _ _)
  · intro c hc
    simp only [text, List.mem_append] at hc
    rcases hc with hc | hc | hc | hc
    · exact IntNumeral.inWord_sign _ c hc
    · exact IntNumeral.inWord_of_isDigit (d.whole_isDigit c hc)
    · exact inWord_fractionText d.fraction_isDigit c hc
    · exact inWord_exponentText d.exponent_letter c hc

/-- What follows the digits in front starts with the point or the letter. -/
theorem tail_head (d : DecNumeral) :
    ∀ c ∈ (fractionText d.fraction ++ exponentText d.exponent).head?,
      c = '.' ∨ c = 'e' ∨ c = 'E' := by
  cases d.fraction with
  | none => exact fun c hc => Or.inr (exponentText_head d.exponent_letter c hc)
  | some ds =>
    intro c hc
    cases hc
    exact Or.inl rfl

end DecNumeral

open DecNumeral

theorem readFraction_text {f : Option (List Char)} (hf : ∀ c ∈ f.getD [], c.isDigit = true)
    {t : List Char} (ht : StopsAt Char.isDigit t) (hpoint : ∀ c ∈ t.head?, c ≠ '.') :
    readFraction (fractionText f ++ t) = (f.getD [], t) := by
  cases f with
  | none =>
    rw [fractionText, List.nil_append,
      readFraction.eq_2 t fun s h => hpoint '.' (by rw [h]; rfl) rfl]
    rfl
  | some ds => exact readDigits_digits hf ht

theorem readFraction_split (s : List Char) :
    ∃ f, s = fractionText f ++ (readFraction s).2 ∧ f.getD [] = (readFraction s).1 ∧
      ∀ c ∈ f.getD [], c.isDigit = true := by
  unfold readFraction
  split
  · rename_i s
    obtain ⟨hs, hdigits⟩ := readDigits_split s
    exact ⟨some (readDigits s).1, congrArg (List.cons '.') hs, rfl, hdigits⟩
  · exact ⟨none, rfl, rfl, fun c hc => absurd hc List.not_mem_nil⟩

theorem readExponent_text {x : Option (Char × IntNumeral)}
    (hx : ∀ y ∈ x, y.1 = 'e' ∨ y.1 = 'E') :
    readExponent (exponentText x) = some (exponentVal x, []) := by
  cases x with
  | none => rfl
  | some y =>
    obtain ⟨c, k⟩ := y
    obtain ⟨hsign, hdigits⟩ := read_text_append k (stopsAt_nil _)
    rw [List.append_nil, List.append_nil] at hsign
    rw [List.append_nil] at hdigits
    rw [exponentText, readExponent, if_pos (hx _ rfl), hsign]
    simp only [hdigits]
    rw [if_neg k.digits_ne_nil]
    rfl

theorem exists_exponent {s : List Char} {e : ℤ} (h : readExponent s = some (e, [])) :
    ∃ x, s = exponentText x ∧ (∀ y ∈ x, y.1 = 'e' ∨ y.1 = 'E') ∧ exponentVal x = e := by
  cases s with
  | nil =>
    cases h
    exact ⟨none, rfl, fun y hy => absurd hy (by simp), rfl⟩
  | cons c s =>
    rw [readExponent] at h
    split at h
    · rename_i hc
      split at h
      · cases h
      · rename_i hne
        obtain ⟨k, htext, hneg, hdigits⟩ := exists_sign_digits hne
        obtain ⟨hval, hrest⟩ := Prod.mk.inj (Option.some.inj h)
        rw [hrest, List.append_nil] at htext
        refine ⟨some (c, k), congrArg (List.cons c) htext, ?_, ?_⟩
        · intro y hy
          cases hy
          exact hc
        · rw [exponentVal, IntNumeral.value, IntNumeral.magnitude, hneg, hdigits]
          exact hval
    · cases h

/-- **A decimal is read in full.** -/
theorem readDecimal_text (d : DecNumeral) : readDecimal d.text = some (d.value, []) := by
  have hhead := exponentText_head d.exponent_letter
  have hexp : StopsAt Char.isDigit (exponentText d.exponent) := by
    intro c hc
    rcases hhead c hc with rfl | rfl
    all_goals decide
  have hpoint : ∀ c ∈ (exponentText d.exponent).head?, c ≠ '.' := by
    intro c hc
    rcases hhead c hc with rfl | rfl
    all_goals decide
  have hfrac := readFraction_text d.fraction_isDigit hexp hpoint
  have hstop : StopsAt Char.isDigit (fractionText d.fraction ++ exponentText d.exponent) := by
    intro c hc
    rcases d.tail_head c hc with rfl | rfl | rfl
    all_goals decide
  have hwhole := readDigits_digits d.whole_isDigit hstop
  have hsign : readSign d.text = (d.sign.negative,
      d.whole ++ (fractionText d.fraction ++ exponentText d.exponent)) := by
    refine readSign_text d.sign fun c hc => ?_
    cases hw : d.whole with
    | nil =>
      rw [hw, List.nil_append] at hc
      rcases d.tail_head c hc with rfl | rfl | rfl
      all_goals decide
    | cons c' ds =>
      rw [hw] at hc
      cases hc
      have hmem : c ∈ d.whole := by
        rw [hw]
        exact List.mem_cons_self
      exact ne_sign_of_isDigit (d.whole_isDigit c hmem)
  rw [readDecimal_eq (skipws_of_token d.isToken_text), hsign]
  simp only [hwhole, hfrac, readExponent_text d.exponent_letter, Option.map_some]
  rw [if_neg d.digits_ne_nil]
  rfl

/-- **What is read in full is a decimal.** -/
theorem exists_decNumeral {w : List Char} (hw : IsToken w) {v : ℚ}
    (h : readDecimal w = some (v, [])) : ∃ d : DecNumeral, d.text = w ∧ d.value = v := by
  rw [readDecimal_eq (skipws_of_token hw)] at h
  simp only at h
  split at h
  · cases h
  · rename_i hne
    obtain ⟨⟨e, t⟩, he, h⟩ := Option.map_eq_some_iff.mp h
    obtain ⟨hv, ht⟩ := Prod.mk.inj h
    obtain rfl : t = [] := ht
    obtain ⟨σ, hs, hneg⟩ := readSign_split w
    obtain ⟨hsplit, hwhole⟩ := readDigits_split (readSign w).2
    obtain ⟨f, hfsplit, hf, hfdigit⟩ := readFraction_split (readDigits (readSign w).2).2
    obtain ⟨x, hx, hletter, hxval⟩ := exists_exponent he
    refine ⟨⟨σ, _, f, x, hwhole, hfdigit, by rw [hf]; exact hne, hletter⟩, ?_, ?_⟩
    · rw [DecNumeral.text, ← hx, ← hfsplit, ← hsplit]
      exact hs.symm
    · show decimalVal σ.negative (readDigits (readSign w).2).1 (f.getD []) (exponentVal x) = v
      rw [hf, hxval, ← hneg]
      exact hv

/-- **A `double` is read in full from the decimals it can hold**, and from nothing
else. -/
theorem readDouble_iff {P : Type*} {toDouble : ℚ → Option P} {w : List Char} (hw : IsToken w)
    {p : P} : readDouble toDouble w = some (p, []) ↔
      ∃ d : DecNumeral, d.text = w ∧ toDouble d.value = some p := by
  unfold readDouble
  constructor
  · intro h
    obtain ⟨⟨v, t⟩, hread, h⟩ := Option.bind_eq_some_iff.mp h
    obtain ⟨p', hp, h⟩ := Option.map_eq_some_iff.mp h
    cases h
    obtain ⟨d, htext, hv⟩ := exists_decNumeral hw hread
    exact ⟨d, htext, by rw [hv]; exact hp⟩
  · rintro ⟨d, rfl, hp⟩
    rw [readDecimal_text, Option.bind_some]
    simp only [hp, Option.map_some]

end IStream
end MatchingEngine
