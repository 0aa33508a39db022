import MatchingEngine.Lib.Extraction
import Mathlib.Data.List.DropRight

/-!
# Words

A text as the list of its words, the longest runs of characters without white space,
and the extractions of `Extraction` as functions on words.

* `words`: the words of a text, with their equations for white space and tokens.
* `onWords`: an extraction reads the first word; what it leaves of that word stands
  in front of the other words as a word of its own.
* `WordReader`: the extractions for which this is the whole story, which is
  `WordReader.words`.
* `readString`, `readInteger`, `readDecimal` and what is computed from their values
  are word readers.
-/

namespace MatchingEngine
namespace IStream

variable {α β : Type*}

/-- The words of a text. -/
def words (s : List Char) : List (List Char) := (s.splitOnP isSpace).filter (· ≠ [])

/-- The rest of a word, if there is one, in front of the words after it. -/
def unread (j : List Char) (ws : List (List Char)) : List (List Char) :=
  if j = [] then ws else j :: ws

/-- The text is at its end or at white space. -/
def AtSpace (t : List Char) : Prop := ∀ c ∈ t.head?, isSpace c = true

@[simp] theorem unread_nil (ws : List (List Char)) : unread [] ws = ws := rfl

theorem unread_of_ne_nil {j : List Char} (h : j ≠ []) (ws : List (List Char)) :
    unread j ws = j :: ws := if_neg h

@[simp] theorem words_nil : words [] = [] := rfl

theorem words_space {c : Char} (hc : isSpace c = true) (s : List Char) :
    words (c :: s) = words s := by
  unfold words
  rw [List.splitOnP_cons_eq_if_modifyHead, if_pos hc, List.filter_cons_of_neg (by simp)]

theorem isSpace_of_inWord {c : Char} (h : inWord c = true) : isSpace c = false := by
  unfold inWord at h
  simpa using h

theorem words_append {w t : List Char} (hw : ∀ c ∈ w, inWord c = true) (ht : AtSpace t) :
    words (w ++ t) = unread w (words t) := by
  have hns : ∀ c ∈ w, isSpace c = false := fun c hc => isSpace_of_inWord (hw c hc)
  have hone : (w :: ([] : List (List Char))).filter (· ≠ []) = unread w [] := by
    unfold unread
    by_cases hnil : w = []
    · rw [if_pos hnil, List.filter_cons_of_neg (by simpa using hnil), List.filter_nil]
    · rw [if_neg hnil, List.filter_cons_of_pos (by simpa using hnil), List.filter_nil]
  cases t with
  | nil => rw [List.append_nil, words, List.splitOnP_eq_singleton hns, hone, words_nil]
  | cons c t =>
    have hc : isSpace c = true := ht c rfl
    rw [words_space hc]
    unfold words
    rw [List.splitOnP_append_cons_of_forall_mem hns c hc]
    by_cases hnil : w = []
    · rw [hnil, List.filter_cons_of_neg (by simp), unread_nil]
    · rw [unread_of_ne_nil hnil, List.filter_cons_of_pos (by simpa using hnil)]

/-- A token is the word it is. -/
theorem words_token {w : List Char} (hw : IsToken w) : words w = [w] := by
  have h := words_append hw.2 (t := []) (fun c hc => absurd hc (by simp))
  rwa [List.append_nil, unread_of_ne_nil hw.1, words_nil] at h

/-- A token in front of a space is the first word. -/
theorem words_token_space {w : List Char} (hw : IsToken w) (s : List Char) :
    words (w ++ ' ' :: s) = w :: words s := by
  have hc : isSpace ' ' = true := by decide
  rw [words_append hw.2 (fun c hc' => by cases hc'; exact hc), unread_of_ne_nil hw.1,
    words_space hc]

theorem words_skipws (s : List Char) : words (skipws s) = words s := by
  unfold skipws
  induction s with
  | nil => rfl
  | cons c s ih =>
    by_cases hc : isSpace c = true
    · rw [List.dropWhile_cons_of_pos hc, ih, words_space hc]
    · rw [List.dropWhile_cons_of_neg hc]

theorem skipws_skipws (s : List Char) : skipws (skipws s) = skipws s :=
  List.dropWhile_idempotent _ _

theorem skipws_token {w : List Char} (hw : IsToken w) (t : List Char) :
    skipws (w ++ t) = w ++ t := by
  obtain ⟨c, w, rfl⟩ := List.exists_cons_of_ne_nil hw.1
  have hc := isSpace_of_inWord (hw.2 c List.mem_cons_self)
  rw [skipws, List.cons_append, List.dropWhile_cons_of_neg (by simp [hc])]

theorem skipws_of_token {w : List Char} (hw : IsToken w) : skipws w = w := by
  have h := skipws_token hw []
  rwa [List.append_nil] at h

/-- **The first word**: after the white space a text is at its end, or there is a
word and then the end or white space. -/
theorem skipws_cases (s : List Char) :
    (skipws s = [] ∧ words s = []) ∨
      ∃ w t, skipws s = w ++ t ∧ IsToken w ∧ AtSpace t ∧ words s = w :: words t := by
  have hsplit := (List.takeWhile_append_dropWhile (p := inWord) (l := skipws s)).symm
  have hw : ∀ c ∈ (skipws s).takeWhile inWord, inWord c = true :=
    fun c hc => List.mem_takeWhile_imp hc
  have ht : AtSpace ((skipws s).dropWhile inWord) := by
    intro c hc
    have h := List.head?_dropWhile_not inWord (skipws s)
    rw [Option.mem_def.mp hc] at h
    unfold inWord at h
    simpa using h
  by_cases hnil : (skipws s).takeWhile inWord = []
  · -- no word: then there is no space to stop it either
    left
    have hempty : skipws s = [] := by
      by_contra hne
      obtain ⟨c, s', hs⟩ := List.exists_cons_of_ne_nil hne
      have hstop := List.head?_dropWhile_not isSpace s
      rw [show s.dropWhile isSpace = c :: s' from hs, List.head?_cons] at hstop
      have hin : inWord c = true := by
        unfold inWord
        simpa using hstop
      rw [hs, List.takeWhile_cons_of_pos hin] at hnil
      exact List.cons_ne_nil _ _ hnil
    exact ⟨hempty, by rw [← words_skipws, hempty, words_nil]⟩
  · right
    refine ⟨_, _, hsplit, ⟨hnil, hw⟩, ht, ?_⟩
    rw [← words_skipws, ← unread_of_ne_nil hnil, ← words_append hw ht, ← hsplit]

/-- The words are tokens. -/
theorem isToken_of_mem_words {s w : List Char} (h : w ∈ words s) : IsToken w := by
  obtain ⟨n, hn⟩ : ∃ n, s.length = n := ⟨_, rfl⟩
  induction n using Nat.strong_induction_on generalizing s with
  | _ n ih =>
    rcases skipws_cases s with ⟨-, hws⟩ | ⟨w', t, hs, hw', -, hws⟩
    · rw [hws] at h
      exact absurd h List.not_mem_nil
    · rw [hws] at h
      rcases List.mem_cons.mp h with rfl | h
      · exact hw'
      · have hle : (skipws s).length ≤ s.length := (List.dropWhile_suffix _).length_le
        have hpos := List.length_pos_iff.mpr hw'.1
        rw [hs, List.length_append] at hle
        exact ih t.length (by omega) h rfl

/-- **Tokens with spaces between them** are the words. -/
theorem words_intercalate {ws : List (List Char)} (h : ∀ w ∈ ws, IsToken w) :
    words ([' '].intercalate ws) = ws := by
  induction ws with
  | nil => rfl
  | cons w ws ih =>
    have hw := h w List.mem_cons_self
    cases ws with
    | nil => rw [List.intercalate_singleton, words_token hw]
    | cons w' ws =>
      have hws := ih fun v hv => h v (List.mem_cons_of_mem w hv)
      rw [List.intercalate_cons_cons, List.append_assoc, List.singleton_append,
        words_token_space hw, hws]

/-! ## Word readers -/

/-- An extraction on words. -/
def onWords (f : List Char → Option (α × List Char)) :
    List (List Char) → Option (α × List (List Char))
  | [] => none
  | w :: ws => (f w).map fun (a, j) => (a, unread j ws)

/-- An extraction that skips white space and then looks at one word only. -/
structure WordReader (f : List Char → Option (α × List Char)) : Prop where
  skip : ∀ s, f s = f (skipws s)
  nil : f [] = none
  append : ∀ w t, IsToken w → AtSpace t → f (w ++ t) = (f w).map fun (a, j) => (a, j ++ t)
  suffix : ∀ w a j, IsToken w → f w = some (a, j) → j <:+ w

/-- **What a word reader does is a matter of words.** -/
theorem WordReader.words {f : List Char → Option (α × List Char)} (hf : WordReader f)
    (s : List Char) : (f s).map (fun (a, t) => (a, words t)) = onWords f (words s) := by
  rcases skipws_cases s with ⟨hs, hws⟩ | ⟨w, t, hs, hw, ht, hws⟩
  · rw [hf.skip, hs, hws, hf.nil]
    rfl
  · rw [hf.skip, hs, hws, hf.append w t hw ht, onWords, Option.map_map]
    cases h : f w with
    | none => rfl
    | some p =>
      obtain ⟨a, j⟩ := p
      have hj : ∀ c ∈ j, inWord c = true := fun c hc => hw.2 c ((hf.suffix w a j hw h).subset hc)
      simp only [Option.map_some, Function.comp_apply, words_append hj ht]

/-- What a word reader reads, in words. -/
theorem WordReader.exists_iff {f : List Char → Option (α × List Char)} (hf : WordReader f)
    {s : List Char} {a : α} {ws : List (List Char)} :
    (∃ t, f s = some (a, t) ∧ IStream.words t = ws) ↔
      ∃ w rest j, IStream.words s = w :: rest ∧ f w = some (a, j) ∧ unread j rest = ws := by
  have hwords := hf.words s
  constructor
  · rintro ⟨t, ht, rfl⟩
    rw [ht, Option.map_some] at hwords
    cases hs : IStream.words s with
    | nil =>
      rw [hs] at hwords
      cases hwords
    | cons w rest =>
      rw [hs, onWords] at hwords
      obtain ⟨⟨a', j⟩, hw, h⟩ := Option.map_eq_some_iff.mp hwords.symm
      obtain ⟨rfl, hj⟩ := Prod.mk.inj h
      exact ⟨w, rest, j, rfl, hw, hj⟩
  · rintro ⟨w, rest, j, hs, hw, rfl⟩
    rw [hs, onWords, hw, Option.map_some] at hwords
    obtain ⟨⟨a', t⟩, ht, h⟩ := Option.map_eq_some_iff.mp hwords
    obtain ⟨rfl, hj⟩ := Prod.mk.inj h
    exact ⟨t, ht, hj⟩

/-- What is computed from the value of a word reader. -/
theorem WordReader.bind {f : List Char → Option (α × List Char)} (hf : WordReader f)
    (g : α → Option β) :
    WordReader fun s => (f s).bind fun (a, t) => (g a).map fun b => (b, t) where
  skip s := by rw [hf.skip]
  nil := by
    rw [hf.nil]
    rfl
  append w t hw ht := by
    rw [hf.append w t hw ht]
    cases f w with
    | none => rfl
    | some p =>
      simp only [Option.map_some, Option.bind_some]
      cases g p.1 with
      | none => rfl
      | some b => rfl
  suffix w b j hw h := by
    obtain ⟨⟨a, j'⟩, ha, h⟩ := Option.bind_eq_some_iff.mp h
    obtain ⟨b', -, h⟩ := Option.map_eq_some_iff.mp h
    cases h
    exact hf.suffix w a _ hw ha

/-- A word is read as a string in full. -/
theorem readString_token {w : List Char} (hw : IsToken w) {t : List Char} (ht : AtSpace t) :
    readString (w ++ t) = some (w, t) := by
  cases t with
  | nil =>
    have hall : w.takeWhile inWord = w := List.takeWhile_eq_self_iff.mpr hw.2
    have hnone : w.dropWhile inWord = [] := List.dropWhile_eq_nil_iff.mpr hw.2
    rw [List.append_nil, readString, skipws_of_token hw, hall, hnone, if_neg hw.1]
  | cons c t =>
    have hc : inWord c = false := by
      unfold inWord
      simpa using ht c rfl
    exact readString_append hw hc t

theorem readString_of_token {w : List Char} (hw : IsToken w) : readString w = some (w, []) := by
  have h := readString_token hw (t := []) fun c hc => absurd hc (by simp)
  rwa [List.append_nil] at h

theorem wordReader_readString : WordReader readString where
  skip s := by rw [readString, readString, skipws_skipws]
  nil := rfl
  append w t hw ht := by
    rw [readString_token hw ht, readString_of_token hw]
    rfl
  suffix w a j hw h := by
    rw [readString_of_token hw] at h
    cases h
    exact List.nil_suffix

/-- **A string is the first word.** -/
theorem exists_readString {s w : List Char} {ws : List (List Char)} :
    (∃ t, readString s = some (w, t) ∧ words t = ws) ↔ words s = w :: ws := by
  rw [wordReader_readString.exists_iff]
  constructor
  · rintro ⟨w', rest, j, hs, hread, rfl⟩
    have hw' : IsToken w' := isToken_of_mem_words (s := s) (by rw [hs]; exact List.mem_cons_self)
    rw [readString_of_token hw'] at hread
    cases hread
    exact hs
  · intro hs
    have hw : IsToken w := isToken_of_mem_words (s := s) (by rw [hs]; exact List.mem_cons_self)
    exact ⟨w, ws, [], hs, readString_of_token hw, rfl⟩

theorem readString_eq_none {s : List Char} (hs : words s = []) : readString s = none := by
  have h := wordReader_readString.words s
  rw [hs] at h
  exact Option.map_eq_none_iff.mp h

/-! ## Numbers in words -/

/-- White space is no character of a number. -/
theorem ne_of_isSpace {c : Char} (hc : isSpace c = true) :
    c.isDigit = false ∧ c ≠ '-' ∧ c ≠ '+' ∧ c ≠ '.' ∧ c ≠ 'e' ∧ c ≠ 'E' := by
  unfold isSpace at hc
  simp only [Bool.or_eq_true, decide_eq_true_eq] at hc
  rcases hc with ((((rfl | rfl) | rfl) | rfl) | rfl) | rfl
  all_goals decide

theorem readDigits_append (w : List Char) {t : List Char} (ht : AtSpace t) :
    readDigits (w ++ t) = ((readDigits w).1, (readDigits w).2 ++ t) := by
  induction w with
  | nil =>
    cases t with
    | nil => rfl
    | cons c t =>
      have hc : ¬ c.isDigit = true := by simp [(ne_of_isSpace (ht c rfl)).1]
      rw [List.nil_append, readDigits, List.takeWhile_cons_of_neg hc,
        List.dropWhile_cons_of_neg hc]
      rfl
  | cons c w ih =>
    unfold readDigits at ih ⊢
    obtain ⟨htake, hdrop⟩ := Prod.mk.inj ih
    by_cases hc : c.isDigit = true
    · rw [List.cons_append, List.takeWhile_cons_of_pos hc, List.takeWhile_cons_of_pos hc,
        List.dropWhile_cons_of_pos hc, List.dropWhile_cons_of_pos hc, htake, hdrop]
    · rw [List.cons_append, List.takeWhile_cons_of_neg hc, List.takeWhile_cons_of_neg hc,
        List.dropWhile_cons_of_neg hc, List.dropWhile_cons_of_neg hc, List.cons_append]

theorem readDigits_suffix (w : List Char) : (readDigits w).2 <:+ w := List.dropWhile_suffix _

/-- Only a sign in front is read as one. -/
theorem readSign_of_ne {c : Char} (hm : c ≠ '-') (hp : c ≠ '+') (s : List Char) :
    readSign (c :: s) = (false, c :: s) := by
  unfold readSign
  split
  · rename_i h
    exact absurd (List.cons.inj h).1 hm
  · rename_i h
    exact absurd (List.cons.inj h).1 hp
  · rfl

theorem readSign_append (w : List Char) {t : List Char} (ht : AtSpace t) :
    readSign (w ++ t) = ((readSign w).1, (readSign w).2 ++ t) := by
  cases w with
  | nil =>
    cases t with
    | nil => rfl
    | cons c t =>
      obtain ⟨-, hm, hp, -⟩ := ne_of_isSpace (ht c rfl)
      exact readSign_of_ne hm hp t
  | cons c w =>
    by_cases hm : c = '-'
    · subst hm
      rfl
    · by_cases hp : c = '+'
      · subst hp
        rfl
      · rw [List.cons_append, readSign_of_ne hm hp, readSign_of_ne hm hp]
        rfl

theorem readSign_suffix (w : List Char) : (readSign w).2 <:+ w := by
  unfold readSign
  split
  · exact List.suffix_cons _ _
  · exact List.suffix_cons _ _
  · exact List.suffix_refl _

theorem readInteger_eq {s : List Char} (hs : skipws s = s) :
    readInteger s = if (readDigits (readSign s).2).1 = [] then none
      else some (((readSign s).1, digitsVal (readDigits (readSign s).2).1),
        (readDigits (readSign s).2).2) := by
  unfold readInteger
  rw [hs]

theorem wordReader_readInteger : WordReader readInteger where
  skip s := by rw [readInteger, readInteger, skipws_skipws]
  nil := rfl
  append w t hw ht := by
    rw [readInteger_eq (skipws_token hw t), readInteger_eq (skipws_of_token hw),
      readSign_append w ht, readDigits_append _ ht]
    split
    · rfl
    · rfl
  suffix w a j hw h := by
    rw [readInteger_eq (skipws_of_token hw)] at h
    split at h
    · cases h
    · obtain rfl := congrArg Prod.snd (Option.some.inj h)
      exact (readDigits_suffix _).trans (readSign_suffix w)

/-- The `int` of a sign and digits, when it is in range. -/
def int32Of (a : Bool × ℕ) : Option Int32 :=
  if -2 ^ 31 ≤ signed a.1 a.2 ∧ signed a.1 a.2 < 2 ^ 31 then some (Int32.ofInt (signed a.1 a.2))
  else none

/-- The `uint64_t` of a sign and digits, when the digits are in range. -/
def uint64Of (a : Bool × ℕ) : Option UInt64 :=
  if a.2 < 2 ^ 64 then some (UInt64.ofInt (signed a.1 a.2)) else none

theorem readInt32_eq (s : List Char) :
    readInt32 s = (readInteger s).bind fun (a, t) => (int32Of a).map fun q => (q, t) := by
  unfold readInt32
  refine Option.bind_congr fun p _ => ?_
  obtain ⟨⟨negative, n⟩, t⟩ := p
  simp only [int32Of]
  split
  · rfl
  · rfl

theorem readUInt64_eq (s : List Char) :
    readUInt64 s = (readInteger s).bind fun (a, t) => (uint64Of a).map fun i => (i, t) := by
  unfold readUInt64
  refine Option.bind_congr fun p _ => ?_
  obtain ⟨⟨negative, n⟩, t⟩ := p
  simp only [uint64Of]
  split
  · rfl
  · rfl

theorem wordReader_readInt32 : WordReader readInt32 := by
  rw [funext readInt32_eq]
  exact wordReader_readInteger.bind int32Of

theorem wordReader_readUInt64 : WordReader readUInt64 := by
  rw [funext readUInt64_eq]
  exact wordReader_readInteger.bind uint64Of

/-! ## Decimals in words -/

/-- The digits after a point. -/
def readFraction : List Char → List Char × List Char
  | '.' :: s => readDigits s
  | s => ([], s)

/-- An exponent, which has to be complete. -/
def readExponent : List Char → Option (ℤ × List Char)
  | [] => some (0, [])
  | c :: s =>
    if c = 'e' ∨ c = 'E' then
      if (readDigits (readSign s).2).1 = [] then none
      else some (signed (readSign s).1 (digitsVal (readDigits (readSign s).2).1),
        (readDigits (readSign s).2).2)
    else some (0, c :: s)

theorem readExponent_of_ne {c : Char} (he : c ≠ 'e') (hE : c ≠ 'E') (s : List Char) :
    readExponent (c :: s) = some (0, c :: s) := if_neg (not_or.mpr ⟨he, hE⟩)

/-- The value of a sign, the digits before and after the point and an exponent. -/
def decimalVal (negative : Bool) (whole frac : List Char) (e : ℤ) : ℚ :=
  if negative then -scaled (digitsVal (whole ++ frac)) (e - frac.length)
  else scaled (digitsVal (whole ++ frac)) (e - frac.length)

/-- The parts of `readDecimal`. -/
theorem readDecimal_eq {s : List Char} (hs : skipws s = s) :
    readDecimal s =
      let whole := readDigits (readSign s).2
      let frac := readFraction whole.2
      if whole.1 ++ frac.1 = [] then none
      else (readExponent frac.2).map fun (e, t) =>
        (decimalVal (readSign s).1 whole.1 frac.1 e, t) := by
  have hparts : readDecimal s =
      let whole := readDigits (readSign s).2
      let frac := readFraction whole.2
      if whole.1 ++ frac.1 = [] then none
      else match frac.2 with
        | [] => some (decimalVal (readSign s).1 whole.1 frac.1 0, [])
        | c :: t =>
          if c = 'e' ∨ c = 'E' then
            if (readDigits (readSign t).2).1 = [] then none
            else some (decimalVal (readSign s).1 whole.1 frac.1
              (signed (readSign t).1 (digitsVal (readDigits (readSign t).2).1)),
              (readDigits (readSign t).2).2)
          else some (decimalVal (readSign s).1 whole.1 frac.1 0, c :: t) := by
    unfold readDecimal
    rw [hs]
    rfl
  rw [hparts]
  simp only
  split
  · rfl
  · unfold readExponent
    cases (readFraction (readDigits (readSign s).2).2).2 with
    | nil => rfl
    | cons c t =>
      simp only
      split
      · split
        · rfl
        · rfl
      · rfl

theorem readFraction_append (w : List Char) {t : List Char} (ht : AtSpace t) :
    readFraction (w ++ t) = ((readFraction w).1, (readFraction w).2 ++ t) := by
  cases w with
  | nil =>
    cases t with
    | nil => rfl
    | cons c t =>
      have hc := (ne_of_isSpace (ht c rfl)).2.2.2.1
      rw [List.nil_append, readFraction.eq_2 (c :: t) fun s h => hc (List.cons.inj h).1]
      rfl
  | cons c w =>
    by_cases hc : c = '.'
    · subst hc
      exact readDigits_append w ht
    · rw [List.cons_append, readFraction.eq_2 (c :: (w ++ t)) fun s h => hc (List.cons.inj h).1,
        readFraction.eq_2 (c :: w) fun s h => hc (List.cons.inj h).1]
      rfl

theorem readFraction_suffix (w : List Char) : (readFraction w).2 <:+ w := by
  unfold readFraction
  split
  · exact (readDigits_suffix _).trans (List.suffix_cons _ _)
  · exact List.suffix_refl _

theorem readExponent_append (w : List Char) {t : List Char} (ht : AtSpace t) :
    readExponent (w ++ t) = (readExponent w).map fun (e, j) => (e, j ++ t) := by
  cases w with
  | nil =>
    cases t with
    | nil => rfl
    | cons c t =>
      obtain ⟨-, -, -, -, he, hE⟩ := ne_of_isSpace (ht c rfl)
      rw [List.nil_append, readExponent_of_ne he hE]
      rfl
  | cons c w =>
    rw [List.cons_append, readExponent, readExponent, readSign_append w ht,
      readDigits_append _ ht]
    split
    · split
      · rfl
      · rfl
    · rfl

theorem readExponent_suffix {w j : List Char} {e : ℤ} (h : readExponent w = some (e, j)) :
    j <:+ w := by
  cases w with
  | nil =>
    cases h
    exact List.suffix_refl _
  | cons c w =>
    rw [readExponent] at h
    split at h
    · split at h
      · cases h
      · cases h
        exact ((readDigits_suffix _).trans (readSign_suffix w)).trans (List.suffix_cons _ _)
    · cases h
      exact List.suffix_refl _

theorem wordReader_readDecimal : WordReader readDecimal where
  skip s := by rw [readDecimal, readDecimal, skipws_skipws]
  nil := rfl
  append w t hw ht := by
    rw [readDecimal_eq (skipws_token hw t), readDecimal_eq (skipws_of_token hw)]
    simp only [readSign_append w ht, readDigits_append _ ht, readFraction_append _ ht,
      readExponent_append _ ht]
    split
    · rfl
    · rw [Option.map_map, Option.map_map]
      rfl
  suffix w v j hw h := by
    rw [readDecimal_eq (skipws_of_token hw)] at h
    simp only at h
    split at h
    · cases h
    · obtain ⟨⟨e, t⟩, he, h⟩ := Option.map_eq_some_iff.mp h
      cases h
      exact (((readExponent_suffix he).trans (readFraction_suffix _)).trans
        (readDigits_suffix _)).trans (readSign_suffix w)

theorem wordReader_readDouble {P : Type*} (toDouble : ℚ → Option P) :
    WordReader (readDouble toDouble) := wordReader_readDecimal.bind toDouble

end IStream
end MatchingEngine
