import Comparand.Source.Lexeme
import Mathlib.Data.List.TakeDrop

/-! Words and layout as they are written, and how much of a text their readers take. -/
namespace Comparand

namespace Text

variable {start cs rest : List Char}

theorem after?_eq_some : after? start cs = some rest ↔ cs = start ++ rest := by
  induction start generalizing cs with
  | nil => simp [after?]
  | cons p start ih =>
    cases cs with
    | nil => simp [after?]
    | cons c cs =>
      by_cases h : p = c
      · simp [after?, h, ih]
      · simp [after?, h, Ne.symm h]

end Text

namespace Lexeme

variable {c : Char} {cs gap rest w : List Char} {s : String}

theorem fixed_eq_some : fixed s cs = some rest ↔ cs = s.toList ++ rest := Text.after?_eq_some

@[simp] theorem fixed_append (s : String) (rest : List Char) : fixed s (s.toList ++ rest) = some rest :=
  fixed_eq_some.mpr rfl

/-! Layout -/

def endsLine (c : Char) : Bool := c == '\n' || c == '\r'

/-- White space, and comments together with the ends of their lines. -/
inductive Layout : List Char → Prop where
  | nil : Layout []
  | space {c : Char} {cs : List Char} (hspace : isSpace c = true) (h : Layout cs) : Layout (c :: cs)
  | comment {c : Char} {text cs : List Char} (htext : text.any endsLine = false) (hend : endsLine c = true)
      (h : Layout cs) : Layout ('/' :: '/' :: (text ++ c :: cs))

theorem skip_space (h : isSpace c = true) : skip (c :: cs) = skip cs := by
  simp only [isSpace, Bool.or_eq_true, beq_iff_eq] at h
  rcases h with ((rfl | rfl) | rfl) | rfl <;> rfl

/-- A comment goes on to the end of its line. -/
theorem skipLayout_cons_comment (c : Char) (cs : List Char) :
    skipLayout true (c :: cs) = skipLayout (!endsLine c) cs := rfl

theorem skipLayout_comment {text : List Char} (htext : text.any endsLine = false) (hend : endsLine c = true) :
    skipLayout true (text ++ c :: cs) = skipLayout false cs := by
  induction text with
  | nil => rw [List.nil_append, skipLayout_cons_comment, hend, Bool.not_true]
  | cons d text ih =>
    obtain ⟨hd, htext⟩ := Bool.or_eq_false_iff.mp htext
    rw [List.cons_append, skipLayout_cons_comment, hd, Bool.not_false]
    exact ih htext

theorem Layout.skip_append (h : Layout gap) (cs : List Char) : skip (gap ++ cs) = skip cs := by
  induction h with
  | nil => rfl
  | space hspace _ ih =>
    rw [List.cons_append, skip_space hspace, ih]
  | comment htext hend _ ih =>
    rw [List.cons_append, List.cons_append, List.append_assoc, List.cons_append]
    exact (skipLayout_comment htext hend).trans ih

/-! Where words end -/

/-- A text does not go on with a character of the kind. -/
def Stops (p : Char → Bool) (rest : List Char) : Prop := ∀ c ∈ rest.head?, p c = false

/-- The characters that layout begins with. -/
def boundaries : List Char := [' ', '\t', '\r', '\n', '/']

/-- Whether a text begins, and not with layout. -/
def solid : List Char → Bool
  | [] => false
  | c :: _ => c ∉ boundaries

theorem skip_of_solid (h : solid cs = true) : skip cs = cs := by
  cases cs with
  | nil => exact absurd h (by decide)
  | cons c cs =>
    have hc : c ∉ boundaries := by simpa [solid] using h
    have hspace : isSpace c = false := by
      simp only [boundaries, List.mem_cons, not_or] at hc
      simp [isSpace, hc]
    have hslash : c ≠ '/' := by
      rintro rfl
      exact hc (by decide)
    rw [skip, skipLayout]
    · simp [hspace]
    · exact fun _ h => absurd h hslash

/-- A text is at its end or goes on with layout. -/
def Bounded (rest : List Char) : Prop := ∀ c ∈ rest.head?, c ∈ boundaries

theorem bounded_cons (hc : c ∈ boundaries) (cs : List Char) : Bounded (c :: cs) := by
  intro d hd
  cases hd
  exact hc

theorem Bounded.stops {p : Char → Bool} (h : Bounded rest) (hp : boundaries.any p = false) : Stops p rest := by
  intro c hc
  simpa using List.any_eq_false.mp hp c (h c hc)

theorem Bounded.word (h : Bounded rest) : Stops isWordChar rest := h.stops (by decide)

theorem Bounded.digit (h : Bounded rest) : Stops Char.isDigit rest := h.stops (by decide)

/-- The characters that go on with a number. -/
def numberGoesOn (c : Char) : Bool := isWordChar c || c == '.'

theorem Bounded.number (h : Bounded rest) : Stops numberGoesOn rest := h.stops (by decide)

theorem Stops.word (h : Stops numberGoesOn rest) : Stops isWordChar rest :=
  fun c hc => (Bool.or_eq_false_iff.mp (h c hc)).1

theorem Stops.digit (h : Stops isWordChar rest) : Stops Char.isDigit rest := by
  intro c hc
  have hword := h c hc
  simp only [isWordChar, Char.isAlphanum, Bool.or_eq_false_iff] at hword
  exact hword.1.2

theorem Bounded.cases (h : Bounded rest) : rest = [] ∨
    ∃ cs, rest = ' ' :: cs ∨ rest = '\t' :: cs ∨ rest = '\r' :: cs ∨ rest = '\n' :: cs ∨ rest = '/' :: cs := by
  cases rest with
  | nil => exact Or.inl rfl
  | cons c cs =>
    refine Or.inr ⟨cs, ?_⟩
    have hc : c = ' ' ∨ c = '\t' ∨ c = '\r' ∨ c = '\n' ∨ c = '/' := by simpa [boundaries] using h c rfl
    simpa using hc

theorem Layout.bounded (h : Layout gap) (hne : gap ≠ []) (cs : List Char) : Bounded (gap ++ cs) := by
  intro d hd
  cases h with
  | nil => exact absurd rfl hne
  | @space c _ hspace _ =>
    obtain rfl : c = d := by simpa using hd
    simpa [isSpace, boundaries, or_assoc] using Or.inl hspace
  | comment =>
    obtain rfl : '/' = d := by simpa using hd
    decide

variable {p : Char → Bool}

theorem stops_cons (hc : p c = false) (cs : List Char) : Stops p (c :: cs) := by
  intro d hd
  cases hd
  exact hc

theorem Stops.ne (h : Stops p rest) (hc : p c = true) : rest ≠ c :: cs := by
  rintro rfl
  exact Bool.noConfusion (hc.symm.trans (h c rfl))

theorem Stops.only {marks : List Char} (h : Stops p rest) (hmarks : marks.all p = true) : Stops (· ∈ marks) rest := by
  intro c hc
  by_contra hmem
  have hp : p c = true := List.all_eq_true.mp hmarks c (by simpa using hmem)
  exact Bool.noConfusion (hp.symm.trans (h c hc))

theorem Stops.fixed (h : Stops p rest) (hs : s.toList.head?.any p = true) : fixed s rest = none := by
  cases htext : s.toList with
  | nil => simp [htext] at hs
  | cons c cs =>
    have hc : p c = true := by simpa [htext] using hs
    rw [Option.eq_none_iff_forall_ne_some]
    intro tail hfixed
    rw [fixed_eq_some, htext] at hfixed
    exact h.ne hc hfixed

theorem Stops.append (hw : ∀ d ∈ w, p d = false) (h : Stops p rest) : Stops p (w ++ rest) := by
  cases w with
  | nil => exact h
  | cons d w =>
    intro c hc
    obtain rfl : d = c := by simpa using hc
    exact hw d List.mem_cons_self

theorem Stops.takeWhile_append (h : Stops p rest) (hw : ∀ d ∈ w, p d = true) : (w ++ rest).takeWhile p = w := by
  rw [List.takeWhile_append_of_pos hw]
  cases rest with
  | nil => simp
  | cons c rest => simp [h c rfl]

theorem Stops.dropWhile_append (h : Stops p rest) (hw : ∀ d ∈ w, p d = true) : (w ++ rest).dropWhile p = rest := by
  rw [List.dropWhile_append_of_pos hw]
  cases rest with
  | nil => rfl
  | cons c rest => simp [h c rfl]

theorem Stops.spanDigits_append (h : Stops Char.isDigit rest) (hw : ∀ d ∈ w, d.isDigit = true) :
    Decimal.spanDigits (w ++ rest) = (w, rest) := by
  rw [Decimal.spanDigits, List.span_eq_takeWhile_dropWhile, h.takeWhile_append hw, h.dropWhile_append hw]

theorem spanDigits_cons_pos (hc : c.isDigit = true) :
    Decimal.spanDigits (c :: cs) = (c :: (Decimal.spanDigits cs).1, (Decimal.spanDigits cs).2) := by
  simp [Decimal.spanDigits, List.span_eq_takeWhile_dropWhile, hc]

theorem spanDigits_cons_neg (hc : c.isDigit = false) : Decimal.spanDigits (c :: cs) = ([], c :: cs) := by
  simp [Decimal.spanDigits, List.span_eq_takeWhile_dropWhile, hc]

/-! Identifiers and keywords -/

theorem isWordChar_of_isWordStart (h : isWordStart c = true) : isWordChar c = true := by
  simp only [isWordStart, isWordChar, Char.isAlphanum, Bool.or_eq_true] at h ⊢
  tauto

theorem solid_of_word (hc : isWordChar c = true) : solid (c :: cs) = true := by
  have hmarks : boundaries.any isWordChar = false := by decide
  have hsolid : c ∉ boundaries := fun hmem => List.any_eq_false.mp hmarks c hmem hc
  simpa [solid] using hsolid

theorem not_isDigit_of_isWordStart (h : isWordStart c = true) : c.isDigit = false := by
  have hranges : ((decide ('A'.val ≤ c.val ∧ c.val ≤ 'Z'.val) ||
      decide ('a'.val ≤ c.val) && decide (c.val ≤ 'z'.val)) || c == '_') = true := h
  simp only [Bool.or_eq_true, beq_iff_eq, Bool.and_eq_true, decide_eq_true_eq] at hranges
  rcases hranges with hletter | rfl
  · simp only [Char.isDigit, Bool.and_eq_false_iff, decide_eq_false_iff_not]
    grind
  · rfl

theorem ident_append (hc : isWordStart c = true) (hw : ∀ d ∈ w, isWordChar d = true) (h : Stops isWordChar rest) :
    ident (c :: w ++ rest)
      = if String.ofList (c :: w) ∈ keywords then none else some (String.ofList (c :: w), rest) := by
  rw [List.cons_append, ident, if_pos hc, h.takeWhile_append hw, h.dropWhile_append hw]

/-- A word that is no keyword. -/
structure Ident where
  first : Char
  others : List Char
  starts : isWordStart first = true := by decide
  allWord : others.all isWordChar = true := by decide
  notKeyword : String.ofList (first :: others) ∉ keywords := by decide

namespace Ident

variable (x : Ident)

def text : List Char := x.first :: x.others

def name : String := String.ofList x.text

theorem goesOn : ∀ c ∈ x.others, isWordChar c = true := List.all_eq_true.mp x.allWord

theorem text_word : ∀ c ∈ x.text, isWordChar c = true := by
  intro c hc
  rcases List.mem_cons.mp hc with rfl | hc
  · exact isWordChar_of_isWordStart x.starts
  · exact x.goesOn c hc

theorem notMem_name : '\n' ∉ x.name.toList := by
  rw [name, String.toList_ofList]
  intro h
  exact absurd (x.text_word _ h) (by decide)

theorem stops : Stops (fun c => !isWordStart c) (x.text ++ rest) := by
  intro c hc
  obtain rfl : x.first = c := by simpa [text] using hc
  simp [x.starts]

theorem stops_digit : Stops Char.isDigit (x.text ++ rest) := by
  intro c hc
  obtain rfl : x.first = c := by simpa [text] using hc
  exact not_isDigit_of_isWordStart x.starts

theorem text_ne_keyword {s : String} (hs : s ∈ keywords) : x.text ≠ s.toList := by
  intro h
  apply x.notKeyword
  rwa [← text, h, String.ofList_toList]

variable {x}

theorem ident_text (h : Stops isWordChar rest) : ident (x.text ++ rest) = some (x.name, rest) := by
  rw [text, ident_append x.starts x.goesOn h, if_neg x.notKeyword]
  rfl

end Ident

theorem ident_keyword (hs : s ∈ keywords) (h : Stops isWordChar rest) : ident (s.toList ++ rest) = none := by
  have hword : ∀ s ∈ keywords, s.toList.head?.any isWordStart = true ∧ s.toList.all isWordChar = true := by decide
  obtain ⟨hstart, hall⟩ := hword s hs
  rw [List.all_eq_true] at hall
  cases htext : s.toList with
  | nil => exact absurd hstart (by simp [htext])
  | cons c w =>
    rw [htext] at hstart hall
    rw [ident_append (by simpa using hstart) (fun d hd => hall d (List.mem_cons_of_mem c hd)) h, if_pos]
    rwa [← htext, String.ofList_toList]

/-! Numbers -/

/-- Digits, at least one. -/
structure Numeral where
  digits : List Char
  ne : digits ≠ [] := by decide
  allDigits : digits.all Char.isDigit = true := by decide

namespace Numeral

variable (n : Numeral)

def value : Nat := Decimal.ofDigits n.digits

theorem isDigit : ∀ d ∈ n.digits, d.isDigit = true := List.all_eq_true.mp n.allDigits

theorem exists_cons : ∃ d ds, n.digits = d :: ds ∧ d.isDigit = true := by
  obtain ⟨d, ds, hdigits⟩ := List.exists_cons_of_ne_nil n.ne
  exact ⟨d, ds, hdigits, n.isDigit d (by simp [hdigits])⟩

theorem stops : Stops (fun c => !c.isDigit) (n.digits ++ rest) := by
  obtain ⟨d, ds, hdigits, hd⟩ := n.exists_cons
  intro c hc
  obtain rfl : d = c := by simpa [hdigits] using hc
  simp [hd]

theorem map_toLower_ne (hc : c.isDigit = false) : (n.digits ++ rest).map Char.toLower ≠ c :: cs := by
  obtain ⟨d, ds, hdigits, hd⟩ := n.exists_cons
  have hlower : d.toLower = d := by
    simp only [Char.isDigit, Bool.and_eq_true, decide_eq_true_eq] at hd
    exact dif_neg (by grind)
  intro h
  obtain rfl : d = c := by simpa [hdigits, hlower] using congrArg List.head? h
  exact Bool.noConfusion (hd.symm.trans hc)

theorem spanSign_append : Decimal.spanSign (n.digits ++ rest) = (false, n.digits ++ rest) := by
  rw [Decimal.spanSign]
  · exact fun _ => n.stops.ne (by decide)
  · exact fun _ => n.stops.ne (by decide)

theorem read?_append : Decimal.read? (n.digits ++ rest) = Decimal.readUnsigned? false (n.digits ++ rest) := by
  have hnan : (n.digits ++ rest).map Char.toLower ≠ "nan".toList := n.map_toLower_ne (by decide)
  have hinf : (n.digits ++ rest).map Char.toLower ≠ "inf".toList := n.map_toLower_ne (by decide)
  have hinfinity : (n.digits ++ rest).map Char.toLower ≠ "infinity".toList := n.map_toLower_ne (by decide)
  rw [Decimal.read?, n.spanSign_append]
  simp only [hnan, hinf, hinfinity, decide_false, Bool.or_self, Bool.false_eq_true, if_false]

end Numeral

/-- A power of ten that scales a number. -/
structure Exponent where
  letter : Char
  sign : List Char
  power : Numeral
  isLetter : letter ∈ ['e', 'E'] := by decide
  isSign : sign ∈ [[], ['+'], ['-']] := by decide

namespace Exponent

def text (e : Exponent) : List Char := e.letter :: (e.sign ++ e.power.digits)

theorem letter_eq (e : Exponent) : (e.letter == 'e' || e.letter == 'E') = true := by simpa using e.isLetter

theorem sign_cases (e : Exponent) : e.sign = [] ∨ e.sign = ['+'] ∨ e.sign = ['-'] := by simpa using e.isSign

variable {e : Exponent}

theorem exponent_text (h : Stops Char.isDigit rest) : exponent (e.text ++ rest) = some (e.text, rest) := by
  have hspan := h.spanDigits_append e.power.isDigit
  have hsome : e.power.digits.isEmpty = false := by simp [e.power.ne]
  rw [text, List.cons_append, List.append_assoc]
  rcases e.sign_cases with hsign | hsign | hsign
  · -- Without a sign the digits come first, and no digit looks like one.
    rw [hsign, List.nil_append]
    rw [exponent, if_pos e.letter_eq, hspan]
    · simp [hsome]
    · exact fun _ => e.power.stops.ne (by decide)
    · exact fun _ => e.power.stops.ne (by decide)
  · simp [exponent, hsign, e.letter_eq, hspan, hsome]
  · simp [exponent, hsign, e.letter_eq, hspan, hsome]

theorem text_ne_point : e.text ++ rest ≠ '.' :: cs := by
  intro h
  have hletter : e.letter = '.' := (List.cons.inj h).1
  exact absurd e.isLetter (by simp [hletter])

theorem readExponent?_text (e : Exponent) : ∃ k, Decimal.readExponent? e.text = some k := by
  have hsome : e.power.digits ≠ [] := e.power.ne
  have hspan : (Decimal.spanSign (e.sign ++ e.power.digits)).2 = e.power.digits := by
    rcases e.sign_cases with hsign | hsign | hsign
    · rw [hsign, List.nil_append, ← List.append_nil e.power.digits, e.power.spanSign_append]
    · rw [hsign]
      rfl
    · rw [hsign]
      rfl
  rw [text, Decimal.readExponent?, if_pos e.letter_eq]
  simpa [hspan, hsome] using e.power.isDigit

theorem exponent_of_stops (h : Stops isWordChar rest) : exponent rest = none := by
  cases rest with
  | nil => rfl
  | cons c cs =>
    have hmarks : Stops (· ∈ ['e', 'E']) (c :: cs) := h.only (by decide)
    have hc : c ≠ 'e' ∧ c ≠ 'E' := by simpa using hmarks c rfl
    exact if_neg (by simp [hc])

theorem stops_text : Stops Char.isDigit (e.text ++ rest) := by
  have hletters : ['e', 'E'].any Char.isDigit = false := by decide
  intro c hc
  obtain rfl : e.letter = c := by simpa [text] using hc
  simpa using List.any_eq_false.mp hletters e.letter e.isLetter

/-- The text of an exponent that may be missing. -/
def optional (e : Option Exponent) : List Char := (e.map text).getD []

variable {o : Option Exponent}

theorem stops_optional (h : Stops Char.isDigit rest) : Stops Char.isDigit (optional o ++ rest) := by
  cases o with
  | none => exact h
  | some e => exact stops_text

theorem exponent_optional (h : Bounded rest) :
    (exponent (optional o ++ rest)).getD ([], optional o ++ rest) = (optional o, rest) := by
  cases o with
  | none => simp [optional, exponent_of_stops h.word]
  | some e => simp [optional, exponent_text h.digit]

theorem readExponent?_optional (o : Option Exponent) : ∃ k, Decimal.readExponent? (optional o) = some k := by
  cases o with
  | none => exact ⟨0, rfl⟩
  | some e => exact readExponent?_text e

end Exponent

/-- A number with a point or an exponent. Digits may be missing after the point only. -/
inductive FloatText where
  | point (whole : Numeral) (fraction : List Char) (h : fraction.all Char.isDigit = true) (e : Option Exponent)
  | scaled (whole : Numeral) (e : Exponent)

namespace FloatText

def whole : FloatText → Numeral
  | point n .. | scaled n _ => n

/-- What follows the digits before the point or the exponent. -/
def scale : FloatText → List Char
  | point _ fraction _ e => '.' :: (fraction ++ Exponent.optional e)
  | scaled _ e => e.text

def text (t : FloatText) : List Char := t.whole.digits ++ t.scale

variable {t : FloatText}

theorem stops_scale : Stops Char.isDigit (t.scale ++ rest) := by
  cases t with
  | point n fraction hfraction e =>
    intro c hc
    obtain rfl : '.' = c := by simpa [scale] using hc
    rfl
  | scaled n e => exact Exponent.stops_text

theorem spanDigits_text : Decimal.spanDigits (t.text ++ rest) = (t.whole.digits, t.scale ++ rest) := by
  rw [text, List.append_assoc, stops_scale.spanDigits_append t.whole.isDigit]

theorem float_text (h : Bounded rest) : Lexeme.float (t.text ++ rest) = some (t.text, rest) := by
  have hsome : t.whole.digits.isEmpty = false := by simp [t.whole.ne]
  rw [Lexeme.float, spanDigits_text]
  cases t with
  | point n fraction hfraction e =>
    have hspan := (Exponent.stops_optional (o := e) h.digit).spanDigits_append (List.all_eq_true.mp hfraction)
    simp only [whole, scale, text, List.cons_append, List.append_assoc] at hsome ⊢
    simp [hsome, hspan, Exponent.exponent_optional h]
  | scaled n e =>
    dsimp only
    rw [if_neg (by simp [hsome])]
    split
    · exact absurd ‹_› Exponent.text_ne_point
    · simp [scale, text, Exponent.exponent_text h.digit]

theorem read?_isSome (t : FloatText) : (Decimal.read? t.text).isSome = true := by
  have hspan : Decimal.spanDigits (t.text ++ []) = (t.whole.digits, t.scale ++ []) := spanDigits_text
  rw [text, Numeral.read?_append, ← text, Decimal.readUnsigned?]
  simp only [List.append_nil] at hspan
  simp only [hspan]
  cases t with
  | point n fraction hfraction e =>
    have hstops : Stops Char.isDigit [] := by simp [Stops]
    have hfractions := (Exponent.stops_optional (o := e) hstops).spanDigits_append (List.all_eq_true.mp hfraction)
    obtain ⟨k, hk⟩ := Exponent.readExponent?_optional e
    rw [List.append_nil] at hfractions
    simp [scale, whole, hfractions, n.ne, hk]
  | scaled n e =>
    obtain ⟨k, hk⟩ := e.readExponent?_text
    split
    · rename_i hpoint
      exact absurd ((List.append_nil e.text).trans hpoint) Exponent.text_ne_point
    · simp [whole, scale, n.ne, hk]

/-- The number nearest to what is written. -/
def value (t : FloatText) : Binary64 := (Decimal.read? t.text).get t.read?_isSome

theorem read?_text : Decimal.read? t.text = some t.value := by simp [value]

end FloatText

theorem Stops.float (h : Stops Char.isDigit rest) : Lexeme.float rest = none := by
  have hspan : Decimal.spanDigits rest = ([], rest) := h.spanDigits_append (w := []) nofun
  simp [Lexeme.float, hspan]

theorem Stops.int (h : Stops Char.isDigit rest) : Lexeme.int rest = none := by
  have hspan : Decimal.spanDigits rest = ([], rest) := h.spanDigits_append (w := []) nofun
  simp [Lexeme.int, hspan]

theorem wordGoesOn_of_stops (h : Stops isWordChar rest) : wordGoesOn rest = false := by
  cases rest with
  | nil => rfl
  | cons c rest => exact h c rfl

namespace Numeral

variable {n : Numeral}

theorem float_digits (h : Stops numberGoesOn rest) : Lexeme.float (n.digits ++ rest) = none := by
  simp only [Lexeme.float, h.word.digit.spanDigits_append n.isDigit]
  split
  · rfl
  · split
    · exact absurd (h '.' rfl) (by decide)
    · simp [Exponent.exponent_of_stops h.word]

theorem int_digits (h : Stops numberGoesOn rest) : Lexeme.int (n.digits ++ rest) = some (n.digits, rest) := by
  simp [Lexeme.int, h.word.digit.spanDigits_append n.isDigit, n.ne, wordGoesOn_of_stops h.word]

end Numeral

/-! Any word -/

theorem fixed_word (hs : s.toList.all isWordChar = true) (hrest : Stops isWordChar rest)
    (h : fixed s (w ++ rest) = some cs) : ∃ v, w = s.toList ++ v ∧ cs = v ++ rest := by
  rcases List.append_eq_append_iff.mp (fixed_eq_some.mp h) with ⟨a, htext, ha⟩ | ⟨v, hw, hcs⟩
  · cases a with
    | nil => exact ⟨[], by simpa using htext.symm, by simpa using ha.symm⟩
    | cons c a =>
      have hc := List.all_eq_true.mp hs c (by simp [htext])
      exact absurd (hrest c (by simp [ha])) (by simp [hc])
  · exact ⟨v, hw, hcs⟩

theorem spanDigits_word (h : Stops Char.isDigit rest) (w : List Char) :
    ∃ ds v, v <:+ w ∧ Decimal.spanDigits (w ++ rest) = (ds, v ++ rest) := by
  induction w with
  | nil => exact ⟨[], [], List.nil_suffix, h.spanDigits_append (by simp)⟩
  | cons c w ih =>
    by_cases hc : c.isDigit = true
    · obtain ⟨ds, v, hv, hspan⟩ := ih
      refine ⟨c :: ds, v, hv.trans (List.suffix_cons c w), ?_⟩
      rw [List.cons_append, spanDigits_cons_pos hc, hspan]
    · exact ⟨[], c :: w, List.suffix_rfl, spanDigits_cons_neg (by simpa using hc)⟩

theorem skip_word (hw : ∀ d ∈ c :: w, isWordChar d = true) : skip (c :: w ++ rest) = c :: w ++ rest :=
  skip_of_solid (solid_of_word (hw c List.mem_cons_self))

/-- Characters that neither words nor layout begin with. -/
def isMark (c : Char) : Bool := !isWordChar c && !boundaries.contains c

theorem stops_word (hw : ∀ c ∈ w, isWordChar c = true) (hrest : Bounded rest) : Stops isMark (w ++ rest) := by
  refine Stops.append (fun d hd => ?_) (hrest.stops (by decide))
  simp [isMark, hw d hd]

/-- A sign would end the word, so the exponent that a word holds is one of letters and digits. -/
theorem exponent_word {e : List Char} (hw : ∀ c ∈ w, isWordChar c = true) (hrest : Bounded rest)
    (h : exponent (w ++ rest) = some (e, cs)) : ∃ v, v <:+ w ∧ cs = v ++ rest := by
  cases w with
  | nil => simp [Exponent.exponent_of_stops hrest.word] at h
  | cons c w =>
    have hw' : ∀ d ∈ w, isWordChar d = true := fun d hd => hw d (List.mem_cons_of_mem c hd)
    obtain ⟨ds, v, hv, hspan⟩ := spanDigits_word hrest.digit w
    rw [List.cons_append, exponent, hspan] at h
    · dsimp only at h
      split at h
      · split at h
        · cases h
        · cases h
          exact ⟨v, hv.trans (List.suffix_cons c w), rfl⟩
      · cases h
    · exact fun _ => (stops_word hw' hrest).ne (by decide)
    · exact fun _ => (stops_word hw' hrest).ne (by decide)

theorem float_word {t : List Char} (hw : ∀ c ∈ w, isWordChar c = true) (hrest : Bounded rest)
    (h : Lexeme.float (w ++ rest) = some (t, cs)) : ∃ v, v <:+ w ∧ cs = v ++ rest := by
  obtain ⟨ds, v, hv, hspan⟩ := spanDigits_word hrest.digit w
  have hv' : ∀ c ∈ v, isWordChar c = true := fun c hc => hw c (hv.subset hc)
  simp only [Lexeme.float, hspan] at h
  split at h
  · cases h
  · split at h
    · exact absurd ‹_› ((stops_word hv' hrest).ne (by decide))
    · obtain ⟨⟨e, rest'⟩, he, heq⟩ := Option.map_eq_some_iff.mp h
      cases heq
      obtain ⟨u, hu, rfl⟩ := exponent_word hv' hrest he
      exact ⟨u, hu.trans hv, rfl⟩

theorem int_word {ds : List Char} (hrest : Bounded rest) (h : Lexeme.int (w ++ rest) = some (ds, cs)) :
    ∃ v, v <:+ w ∧ cs = v ++ rest := by
  obtain ⟨ds', v, hv, hspan⟩ := spanDigits_word hrest.digit w
  simp only [Lexeme.int, hspan] at h
  split at h
  · cases h
  · cases h
    exact ⟨v, hv, rfl⟩

end Lexeme
end Comparand
