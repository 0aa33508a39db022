import Mathlib.Algebra.Order.Ring.Rat
import Mathlib.Data.List.TakeWhile

/-!
# Formatted extraction

The input operators of a C++ stream in the `C` locale, as functions on what is
left of the stream: a successful extraction gives a value and the rest, a failed
one gives `none`, and since a failed stream stays failed a chain of extractions is
a chain of `bind`s.

* `readString`: skip white space, take the characters up to the next white space.
* `readInt32`, `readUInt64`: an optional sign and the longest run of digits, read
  as a number and checked against the range of the type.  The unsigned operator
  takes a sign as `strtoull` does: a minus negates modulo `2 ^ 64`.
* `readDecimal`: an optional sign, digits with at most one point among them, and an
  optional exponent, which has to be complete; the value is exact.

What follows the number stays in the stream, also when it is not white space.
-/

namespace MatchingEngine
namespace IStream

/-- `std::isspace`. -/
def isSpace (c : Char) : Bool :=
  c = ' ' || c = '\t' || c = '\n' || c = Char.ofNat 11 || c = Char.ofNat 12 || c = '\r'

/-- `std::ws`. -/
def skipws (s : List Char) : List Char := s.dropWhile isSpace

/-- A character of a word. -/
def inWord (c : Char) : Bool := !isSpace c

/-- `operator>>(std::string&)`. -/
def readString (s : List Char) : Option (List Char × List Char) :=
  if (skipws s).takeWhile inWord = [] then none
  else some ((skipws s).takeWhile inWord, (skipws s).dropWhile inWord)

/-! ## Numbers -/

/-- An optional sign: whether it is a minus, and what follows. -/
def readSign : List Char → Bool × List Char
  | '-' :: s => (true, s)
  | '+' :: s => (false, s)
  | s => (false, s)

/-- The longest run of digits, and what follows. -/
def readDigits (s : List Char) : List Char × List Char :=
  (s.takeWhile Char.isDigit, s.dropWhile Char.isDigit)

/-- The number a run of digits writes. -/
def digitsVal (ds : List Char) : ℕ := ds.foldl (fun n c => 10 * n + (c.toNat - '0'.toNat)) 0

/-- A number under a sign. -/
def signed (negative : Bool) (n : ℕ) : ℤ := if negative then -(n : ℤ) else n

/-- The sign and the digits of an integer. -/
def readInteger (s : List Char) : Option ((Bool × ℕ) × List Char) :=
  let (negative, s) := readSign (skipws s)
  let (ds, rest) := readDigits s
  if ds = [] then none else some ((negative, digitsVal ds), rest)

/-- `operator>>(int&)`: a number out of range fails. -/
def readInt32 (s : List Char) : Option (Int32 × List Char) :=
  (readInteger s).bind fun ((negative, n), rest) =>
    let z := signed negative n
    if -2 ^ 31 ≤ z ∧ z < 2 ^ 31 then some (Int32.ofInt z, rest) else none

/-- `operator>>(uint64_t&)`: digits out of range fail, a minus negates. -/
def readUInt64 (s : List Char) : Option (UInt64 × List Char) :=
  (readInteger s).bind fun ((negative, n), rest) =>
    if n < 2 ^ 64 then some (UInt64.ofInt (signed negative n), rest) else none

/-- `m * 10 ^ e`. -/
def scaled (m : ℕ) (e : ℤ) : ℚ :=
  if 0 ≤ e then ((m * 10 ^ e.toNat : ℕ) : ℚ) else mkRat m (10 ^ (-e).toNat)

/-- The number `operator>>(double&)` hands to `strtod`. -/
def readDecimal (s : List Char) : Option (ℚ × List Char) :=
  let (negative, s) := readSign (skipws s)
  let (whole, s) := readDigits s
  let (frac, s) := match s with
    | '.' :: s => readDigits s
    | s => ([], s)
  if whole ++ frac = [] then none
  else
    let value := fun e : ℤ =>
      let v := scaled (digitsVal (whole ++ frac)) (e - frac.length)
      if negative then -v else v
    match s with
    | [] => some (value 0, [])
    | c :: s =>
      if c = 'e' ∨ c = 'E' then
        let (negative, s) := readSign s
        let (ds, rest) := readDigits s
        if ds = [] then none else some (value (signed negative (digitsVal ds)), rest)
      else some (value 0, c :: s)

/-- `operator>>(double&)`, with the rounding of `strtod` as a parameter: it gives no
value on overflow. -/
def readDouble {P : Type*} (toDouble : ℚ → Option P) (s : List Char) : Option (P × List Char) :=
  (readDecimal s).bind fun (v, rest) => (toDouble v).map fun p => (p, rest)

/-! ## Tokens -/

/-- A token is not empty and holds no white space. -/
def IsToken (w : List Char) : Prop := w ≠ [] ∧ ∀ c ∈ w, inWord c

instance (w : List Char) : Decidable (IsToken w) :=
  decidable_of_iff (w ≠ [] ∧ w.all inWord) (and_congr_right' List.all_eq_true)

/-- **A token in front of white space is read back.** -/
theorem readString_append {w : List Char} (hw : IsToken w) {c : Char} (hc : inWord c = false)
    (rest : List Char) : readString (w ++ c :: rest) = some (w, c :: rest) := by
  obtain ⟨hne, hword⟩ := hw
  have hstop : ¬ inWord c = true := by rw [hc]; simp
  have hskip : skipws (w ++ c :: rest) = w ++ c :: rest := by
    obtain ⟨x, w, rfl⟩ := List.exists_cons_of_ne_nil hne
    have hx := hword x List.mem_cons_self
    unfold inWord at hx
    rw [skipws, List.cons_append, List.dropWhile_cons_of_neg (by simpa using hx)]
  unfold readString
  rw [hskip, List.takeWhile_append_of_pos hword, List.dropWhile_append_of_pos hword,
    List.takeWhile_cons_of_neg hstop, List.dropWhile_cons_of_neg hstop, List.append_nil,
    if_neg hne]

/-- White space in front is skipped. -/
theorem readString_space {c : Char} (hc : inWord c = false) (s : List Char) :
    readString (c :: s) = readString s := by
  unfold inWord at hc
  unfold readString skipws
  rw [List.dropWhile_cons_of_pos (by simpa using hc)]

end IStream
end MatchingEngine
