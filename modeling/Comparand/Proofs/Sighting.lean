import Comparand.Proofs.Concrete
import Comparand.Proofs.Direct

/-!
Tokens in a text. What a lexeme leaves of a text tells what it has taken. Tokens are sighted with layout before them,
each with the length of the text from its start on, so that the first bad literal among them is known with its place.
-/
namespace Comparand

namespace Lexeme

variable {cs rest : List Char}

/-! Layout -/

/-- Layout up to the end of a text, where a comment needs no end of line. -/
def Trailing (cs : List Char) : Prop :=
  ∃ gap text, cs = gap ++ text ∧ Layout gap ∧
    (text = [] ∨ ∃ comment, comment.any endsLine = false ∧ text = '/' :: '/' :: comment)

theorem Layout.append {gap gap' : List Char} (h : Layout gap) (h' : Layout gap') : Layout (gap ++ gap') := by
  induction h with
  | nil => exact h'
  | space hspace _ ih => exact .space hspace ih
  | comment htext hend _ ih =>
    rw [List.cons_append, List.cons_append, List.append_assoc, List.cons_append]
    exact .comment htext hend ih

theorem Trailing.cons_layout {gap : List Char} (hgap : Layout gap) (h : Trailing cs) : Trailing (gap ++ cs) := by
  obtain ⟨gap', text, rfl, hgap', htext⟩ := h
  exact ⟨gap ++ gap', text, by rw [List.append_assoc], hgap.append hgap', htext⟩

/-- The text from the start of the comment that it begins in, of which `text` is gone already. -/
def reopened (inComment : Bool) (text cs : List Char) : List Char :=
  if inComment then '/' :: '/' :: (text ++ cs) else cs

/-- Layout before what is skipped. -/
theorem skipped_cons {gap start start' r : List Char} (hgap : Layout gap) (hstart : start' = gap ++ start)
    (h : (∃ gap, Layout gap ∧ start = gap ++ r) ∨ r = [] ∧ Trailing start) :
    (∃ gap, Layout gap ∧ start' = gap ++ r) ∨ r = [] ∧ Trailing start' := by
  subst hstart
  rcases h with ⟨gap', hgap', rfl⟩ | ⟨hr, htrailing⟩
  · exact .inl ⟨gap ++ gap', hgap.append hgap', by rw [List.append_assoc]⟩
  · exact .inr ⟨hr, htrailing.cons_layout hgap⟩

/-- What is skipped is layout, unless the text ends with it. -/
theorem skipLayout_cases (inComment : Bool) (cs : List Char) : ∀ text, text.any endsLine = false →
    (∃ gap, Layout gap ∧ reopened inComment text cs = gap ++ skipLayout inComment cs) ∨
      skipLayout inComment cs = [] ∧ Trailing (reopened inComment text cs) := by
  induction inComment, cs using skipLayout.induct with
  | case1 inComment =>
    intro text htext
    refine .inr ⟨rfl, ?_⟩
    cases inComment with
    | false => exact ⟨[], [], rfl, .nil, .inl rfl⟩
    | true => exact ⟨[], _, rfl, .nil, .inr ⟨text, htext, by simp⟩⟩
  | case2 c cs ih =>
    intro text htext
    rw [skipLayout_cons_comment]
    rw [← endsLine] at ih
    cases hend : endsLine c with
    | true =>
      rw [hend] at ih
      refine skipped_cons (.comment htext hend .nil) ?_ (ih [] rfl)
      simp [reopened]
    | false =>
      rw [hend] at ih
      simpa [reopened] using ih (text ++ [c]) (by simpa [hend] using htext)
  | case3 c cs hspace ih =>
    intro text htext
    have hskip : skipLayout false (c :: cs) = skipLayout false cs := skip_space hspace
    rw [hskip]
    exact skipped_cons (.space hspace .nil) rfl (ih [] rfl)
  | case4 rest hspace ih =>
    intro text htext
    exact ih [] rfl
  | case5 c cs hspace hcomment =>
    intro text htext
    refine .inl ⟨[], .nil, ?_⟩
    rw [skipLayout]
    · simp [hspace, reopened]
    · exact hcomment

theorem layout_of_skip (h : skip cs ≠ []) : ∃ gap, Layout gap ∧ cs = gap ++ skip cs := by
  rcases skipLayout_cases false cs [] rfl with hgap | ⟨hnil, -⟩
  · exact hgap
  · exact absurd hnil h

theorem trailing_of_skip (h : skip cs = []) : Trailing cs := by
  rcases skipLayout_cases false cs [] rfl with ⟨gap, hgap, hcs⟩ | ⟨-, htrailing⟩
  · exact ⟨gap, [], h ▸ hcs, hgap, .inl rfl⟩
  · exact htrailing

/-! Words -/

theorem exists_ident {x : String} (h : ident cs = some (x, rest)) : ∃ i : Ident, x = i.name ∧ cs = i.text ++ rest := by
  cases cs with
  | nil => cases h
  | cons c cs =>
    rw [ident] at h
    split at h
    next hstart =>
      dsimp only at h
      split at h
      next => cases h
      next hkeyword =>
        cases h
        refine ⟨⟨c, cs.takeWhile isWordChar, hstart, List.all_takeWhile, hkeyword⟩, rfl, ?_⟩
        simp [Ident.text]
    next => cases h

theorem eq_append_of_spanDigits {ds : List Char} (h : Decimal.spanDigits cs = (ds, rest)) :
    ds.all Char.isDigit = true ∧ cs = ds ++ rest := by
  rw [Decimal.spanDigits, List.span_eq_takeWhile_dropWhile] at h
  cases h
  exact ⟨List.all_takeWhile, List.takeWhile_append_dropWhile.symm⟩

theorem exists_numeral {ds : List Char} (h : Decimal.spanDigits cs = (ds, rest)) (hds : ds.isEmpty = false) :
    ∃ n : Numeral, n.digits = ds ∧ cs = n.digits ++ rest := by
  obtain ⟨hdigits, hcs⟩ := eq_append_of_spanDigits h
  exact ⟨⟨ds, by simpa using hds, hdigits⟩, rfl, hcs⟩

theorem exists_numeral_of_int {ds : List Char} (h : Lexeme.int cs = some (ds, rest)) :
    ∃ n : Numeral, n.digits = ds ∧ cs = n.digits ++ rest := by
  rw [Lexeme.int] at h
  generalize hspan : Decimal.spanDigits cs = span at h
  obtain ⟨digits, rest'⟩ := span
  dsimp only at h
  split at h
  next => cases h
  next hcond =>
    cases h
    exact exists_numeral hspan (by simp_all)

/-- The letter and the sign of an exponent are read, its digits are not. -/
theorem exists_exponent_of_digits {c : Char} {sign digits e : List Char} (hletter : (c == 'e' || c == 'E') = true)
    (hsign : sign ∈ [[], ['+'], ['-']])
    (h : (if (Decimal.spanDigits digits).1.isEmpty then none
      else some (c :: sign ++ (Decimal.spanDigits digits).1, (Decimal.spanDigits digits).2)) = some (e, rest)) :
    ∃ x : Exponent, e = x.text ∧ c :: (sign ++ digits) = x.text ++ rest := by
  split at h
  next => cases h
  next hds =>
    cases h
    have hspan : Decimal.spanDigits digits = ((Decimal.spanDigits digits).1, (Decimal.spanDigits digits).2) := rfl
    obtain ⟨n, hn, hdigits⟩ := exists_numeral hspan (by simpa using hds)
    refine ⟨⟨c, sign, n, by simpa using hletter, hsign⟩, by simp [Exponent.text, hn], ?_⟩
    simpa [Exponent.text] using hdigits

theorem exists_exponent {e : List Char} (h : exponent cs = some (e, rest)) :
    ∃ x : Exponent, e = x.text ∧ cs = x.text ++ rest := by
  unfold exponent at h
  split at h
  next => cases h
  next c cs =>
    split at h
    next hletter =>
      dsimp only at h
      split at h
      next => exact exists_exponent_of_digits hletter (by simp) h
      next => exact exists_exponent_of_digits hletter (by simp) h
      next => exact exists_exponent_of_digits hletter (by simp) h
    next => cases h

theorem exists_floatText {t : List Char} (h : Lexeme.float cs = some (t, rest)) :
    ∃ f : FloatText, t = f.text ∧ cs = f.text ++ rest := by
  rw [Lexeme.float] at h
  generalize hspan : Decimal.spanDigits cs = span at h
  obtain ⟨digits, after⟩ := span
  dsimp only at h
  split at h
  next => cases h
  next hdigits =>
    obtain ⟨n, rfl, rfl⟩ := exists_numeral hspan (by simpa using hdigits)
    split at h
    next after =>
      generalize hfraction : Decimal.spanDigits after = span at h
      obtain ⟨fraction, after⟩ := span
      obtain ⟨hall, rfl⟩ := eq_append_of_spanDigits hfraction
      dsimp only at h
      cases hexponent : exponent after with
      | none =>
        rw [hexponent] at h
        cases h
        exact ⟨.point n fraction hall none,
          by simp [FloatText.text, FloatText.whole, FloatText.scale, Exponent.optional],
          by simp [FloatText.text, FloatText.whole, FloatText.scale, Exponent.optional]⟩
      | some found =>
        obtain ⟨e, after'⟩ := found
        obtain ⟨x, rfl, rfl⟩ := exists_exponent hexponent
        rw [hexponent] at h
        cases h
        exact ⟨.point n fraction hall (some x),
          by simp [FloatText.text, FloatText.whole, FloatText.scale, Exponent.optional],
          by simp [FloatText.text, FloatText.whole, FloatText.scale, Exponent.optional]⟩
    next =>
      obtain ⟨⟨e, after'⟩, hexponent, heq⟩ := Option.map_eq_some_iff.mp h
      obtain ⟨x, rfl, rfl⟩ := exists_exponent hexponent
      cases heq
      exact ⟨.scaled n x, rfl, by simp [FloatText.text, FloatText.whole, FloatText.scale]⟩

theorem eq_append_of_relation {op : Relation} (h : relation cs = some (op, rest)) : cs = op.symbol.toList ++ rest := by
  rw [relation, List.findSome?_eq_some_iff] at h
  obtain ⟨-, op', -, -, hop, -⟩ := h
  obtain ⟨rest', hfixed, heq⟩ := Option.map_eq_some_iff.mp hop
  cases heq
  exact fixed_eq_some.mp hfixed

theorem eq_append_of_scalar {ty : Scalar} (h : scalar cs = some (ty, rest)) : cs = ty.name.toList ++ rest := by
  rw [scalar, List.findSome?_eq_some_iff] at h
  obtain ⟨-, ty', -, -, hty, -⟩ := h
  obtain ⟨rest', hfixed, heq⟩ := Option.map_eq_some_iff.mp hty
  cases heq
  exact fixed_eq_some.mp hfixed

theorem eq_append_of_whole {w : String} (h : whole w cs = some rest) : cs = w.toList ++ rest := by
  obtain ⟨rest', hfixed, hrest⟩ := Option.bind_eq_some_iff.mp h
  split at hrest
  next => cases hrest
  next =>
    cases hrest
    exact fixed_eq_some.mp hfixed

end Lexeme

open Lexeme

/-! Tokens in a text -/

/-- A token in a text, with the length of the text from its start on. -/
structure Sighting where
  token : Token
  ahead : Nat

/-- The text up to `rest` holds the tokens in order, with layout before each of them. -/
inductive Written : List Sighting → List Char → List Char → Prop where
  | nil {rest : List Char} : Written [] rest rest
  | cons {t : Token} {ss : List Sighting} {gap text rest : List Char} (hgap : Layout gap) (h : Written ss text rest) :
      Written (⟨t, (t.text ++ text).length⟩ :: ss) (gap ++ (t.text ++ text)) rest

variable {ss ss' : List Sighting} {cs mid rest : List Char}

theorem Written.append (h : Written ss cs mid) (h' : Written ss' mid rest) : Written (ss ++ ss') cs rest := by
  induction h with
  | nil => exact h'
  | cons hgap _ ih => exact .cons hgap (ih h')

theorem Token.text_ne_nil (t : Token) : t.text ≠ [] := by
  intro hnil
  have hsolid := t.solid
  rw [hnil] at hsolid
  cases hsolid

/-- Layout before the first token may be skipped. -/
theorem Written.skip (h : Written ss (Lexeme.skip cs) rest) (hss : ss ≠ []) : Written ss cs rest := by
  generalize hskip : Lexeme.skip cs = text at h
  cases h with
  | nil => exact absurd rfl hss
  | @cons t _ gap text _ hgap h =>
    have hne : Lexeme.skip cs ≠ [] := by simp [hskip, t.text_ne_nil]
    obtain ⟨lead, hlead, hcs⟩ := layout_of_skip hne
    rw [hcs, hskip, ← List.append_assoc]
    exact .cons (hlead.append hgap) h

theorem Written.length_le (h : Written ss cs rest) : ss.length + rest.length ≤ cs.length := by
  induction h with
  | nil => simp
  | @cons t _ _ _ _ _ _ ih =>
    have hpos := List.length_pos_iff.mpr t.text_ne_nil
    simp only [List.length_cons, List.length_append] at ih ⊢
    omega

/-! Literals that are too large -/

def Token.isMinus (t : Token) : Bool := t.text == ['-']

/-- Neither an integer nor a minus. -/
def Token.isPlain (t : Token) : Bool := !t.text.all Char.isDigit && !t.isMinus

/-- The literal, if it is an integer that does not fit 64 bits; one more fits behind a minus. -/
def Sighting.bad? (signed : Bool) (s : Sighting) : Option BadLiteral :=
  let n := Decimal.ofDigits s.token.text
  if s.token.text.all Char.isDigit && decide (Nat.pow 2 63 ≤ n) && !(signed && n == Nat.pow 2 63) then
    some ⟨String.ofList s.token.text, s.ahead⟩
  else none

/-- The first bad literal; `signed` tells whether a minus stands before the tokens. -/
def firstBad : Bool → List Sighting → Option BadLiteral
  | _, [] => none
  | signed, s :: ss => (s.bad? signed).or (firstBad s.token.isMinus ss)

/-- Whether a minus stands behind the tokens, given whether one stands before them. -/
def signedAfter : Bool → List Token → Bool
  | signed, [] => signed
  | _, t :: ts => signedAfter t.isMinus ts

theorem signedAfter_append (signed : Bool) (ts us : List Token) :
    signedAfter signed (ts ++ us) = signedAfter (signedAfter signed ts) us := by
  induction ts generalizing signed with
  | nil => rfl
  | cons t ts ih => exact ih t.isMinus

theorem firstBad_append (signed : Bool) (ss ss' : List Sighting) :
    firstBad signed (ss ++ ss') =
      (firstBad signed ss).or (firstBad (signedAfter signed (ss.map Sighting.token)) ss') := by
  induction ss generalizing signed with
  | nil => rfl
  | cons s ss ih =>
    simp only [List.cons_append, firstBad, ih, Option.or_assoc]
    rfl

/-! What was read -/

/-- What a phrase stands for, unless there is a bad literal in it. -/
def judge {α : Type} (a : α) : Option BadLiteral → Checked α
  | none => .ok a
  | some bad => .error bad

theorem judge_or {α β γ : Type} (f : α → β → γ) (a : α) (b : β) (x y : Option BadLiteral) :
    judge (f a b) (x.or y) = (judge a x).bind fun a => (judge b y).map (f a) := by
  cases x <;> cases y <;> rfl

/-- The text up to `rest` holds the tokens. They stand for `a`, unless a literal among them is bad: then they do not
fit, and the first one is what was found. No minus is left without an operand. -/
def Taken {α : Type} (ts : List Token) (fits : Bool) (a : α) (v : Checked α) (cs rest : List Char) : Prop :=
  ∃ ss, Written ss cs rest ∧ ss.map Sighting.token = ts ∧ signedAfter false ts = false ∧
    (firstBad false ss).isNone = fits ∧ judge a (firstBad false ss) = v

namespace Taken

variable {α β γ : Type} {ts us : List Token} {fits fits' : Bool} {a : α} {b : β} {v : Checked α} {w : Checked β}
  {t : Token}

theorem append (f : α → β → γ) (h : Taken ts fits a v cs mid) (h' : Taken us fits' b w mid rest) :
    Taken (ts ++ us) (fits && fits') (f a b) (v.bind fun a => w.map (f a)) cs rest := by
  obtain ⟨ss, hwritten, rfl, hsigned, rfl, rfl⟩ := h
  obtain ⟨ss', hwritten', rfl, hsigned', rfl, rfl⟩ := h'
  refine ⟨ss ++ ss', hwritten.append hwritten', List.map_append, ?_, ?_, ?_⟩
  · rw [signedAfter_append, hsigned, hsigned']
  · rw [firstBad_append, hsigned, Option.isNone_or]
  · rw [firstBad_append, hsigned, judge_or]

theorem map (f : α → β) (h : Taken ts fits a v cs rest) : Taken ts fits (f a) (v.map f) cs rest := by
  obtain ⟨ss, hwritten, hts, hsigned, hfits, rfl⟩ := h
  refine ⟨ss, hwritten, hts, hsigned, hfits, ?_⟩
  cases firstBad false ss <;> rfl

theorem skip (h : Taken ts fits a v (Lexeme.skip cs) rest) (hts : ts ≠ []) : Taken ts fits a v cs rest := by
  obtain ⟨ss, hwritten, rfl, h⟩ := h
  exact ⟨ss, hwritten.skip (by simpa using hts), rfl, h⟩

theorem length_le (h : Taken ts fits a v cs rest) : ts.length + rest.length ≤ cs.length := by
  obtain ⟨ss, hwritten, rfl, -⟩ := h
  simpa using hwritten.length_le

theorem leaf (ht : t.isPlain = true) (a : α) (rest : List Char) :
    Taken [t] true a (.ok a) (t.text ++ rest) rest := by
  obtain ⟨hdigits, hminus⟩ : t.text.all Char.isDigit = false ∧ t.isMinus = false := by
    simpa only [Token.isPlain, Bool.and_eq_true, Bool.not_eq_true'] using ht
  refine ⟨[⟨t, (t.text ++ rest).length⟩], .cons .nil .nil, rfl, hminus, ?_, ?_⟩
  · simp [firstBad, Sighting.bad?, hdigits]
  · simp [firstBad, Sighting.bad?, hdigits, judge]

theorem nothing (a : α) (cs : List Char) : Taken [] true a (.ok a) cs cs := ⟨[], .nil, rfl, rfl, rfl, rfl⟩

/-- A token, and then what `h` says. -/
theorem prepend (ht : t.isPlain = true) (h : Taken ts fits a v cs rest) :
    Taken (t :: ts) fits a v (t.text ++ cs) rest := by
  have happend := append (fun (_ : Unit) a => a) (leaf ht () cs) h
  have hv : v.map (fun a => a) = v := by cases v <;> rfl
  simpa [Except.bind, hv] using happend

/-- A token, layout, and then what `h` says. -/
theorem cons (ht : t.isPlain = true) (h : Taken ts fits a v (Lexeme.skip cs) rest) (hts : ts ≠ []) :
    Taken (t :: ts) fits a v (t.text ++ cs) rest := prepend ht (h.skip hts)

/-- What `h` says, layout, and then a token. -/
theorem snoc (h : Taken ts fits a v cs mid) (ht : t.isPlain = true) (hmid : Lexeme.skip mid = t.text ++ rest) :
    Taken (ts ++ [t]) fits a v cs rest := by
  have hleaf : Taken [t] true () (.ok ()) mid rest := skip (hmid ▸ leaf ht () rest) (by simp)
  have happend := append (fun a (_ : Unit) => a) h hleaf
  have hv : (v.bind fun a => .ok a) = v := by cases v <;> rfl
  simpa [Except.map, hv] using happend

end Taken

/-! Readers -/

namespace Token

theorem isPlain_of_first {t : Token} {c : Char} {cs : List Char} (ht : t.text = c :: cs) (hc : isWordStart c = true) :
    t.isPlain = true := by
  have hdigit := not_isDigit_of_isWordStart hc
  have hminus : c ≠ '-' := by
    rintro rfl
    cases hc
  simp [isPlain, isMinus, ht, hdigit, hminus]

theorem isPlain_ident (x : Ident) : (ident x).isPlain = true := isPlain_of_first rfl x.starts

theorem isPlain_scalar (ty : Scalar) : (scalar ty).isPlain = true := by cases ty <;> decide

theorem isPlain_relation (op : Relation) : (relation op).isPlain = true := by cases op <;> decide

/-- A point or an exponent is no digit. -/
theorem isPlain_float (t : FloatText) : (float t).isPlain = true := by
  have hdigits : t.text.all Char.isDigit = false := by
    obtain ⟨c, cs, hscale⟩ : ∃ c cs, t.scale = c :: cs := by
      cases t with
      | point => exact ⟨_, _, rfl⟩
      | scaled => exact ⟨_, _, rfl⟩
    have hstops : Stops Char.isDigit (t.scale ++ []) := FloatText.stops_scale
    have hc : c.isDigit = false := hstops c (by simp [hscale])
    simp [FloatText.text, hscale, hc]
  have hminus : t.text ≠ ['-'] := by
    obtain ⟨d, ds, hds, hd⟩ := t.whole.exists_cons
    intro h
    rw [FloatText.text, hds, List.cons_append] at h
    cases (List.cons.inj h).1
    cases hd
  simp only [isPlain, isMinus, float, hdigits, Bool.not_false, Bool.true_and, Bool.not_eq_true', beq_eq_false_iff_ne]
  exact hminus

end Token

end Comparand
