import Comparand.Proofs.Concrete
import Comparand.Proofs.Direct

/-!
Reading expressions. Choices are ordered, so each reader is shown to take what is written for it, and those tried before
it to fail there.
-/
namespace Comparand

open Lexeme

namespace Reader

variable {α : Type} {p : Reader α} {a : α} {s : String} {ts us : List Token} {text rest : List Char}

/-- From a text that holds the tokens `ts` and then `us`, the reader takes just the first. -/
def Reads (p : Reader α) (ts : List Token) (a : α) (us : List Token) : Prop :=
  ∀ ⦃text⦄, Spelled (ts ++ us) text → ∃ rest, p text = some (a, rest) ∧ Ahead us rest

theorem Reads.choose {q : Reader α} (h : Reads p ts a us)
    (hq : ∀ ⦃text r⦄, Spelled (ts ++ us) text → p text = some r → q text = some r) : Reads q ts a us := by
  intro text htext
  obtain ⟨rest, hp, hrest⟩ := h htext
  exact ⟨rest, hq htext hp, hrest⟩

theorem fixed_mark {hs : solid s.toList = true} (h : Spelled (.mark s hs :: us) text) :
    ∃ rest, fixed s text = some rest ∧ Ahead us rest := by
  obtain ⟨rest, rfl, hrest⟩ := h.uncons
  exact ⟨rest, fixed_append s rest, hrest⟩

theorem Reads.after {hs : solid s.toList = true} (h : Reads p ts a us) :
    Reads (after s p) (.mark s hs :: ts) a us := by
  intro text htext
  obtain ⟨rest, hfixed, hrest⟩ := fixed_mark htext
  obtain ⟨rest', hp, hrest'⟩ := h hrest.skip
  refine ⟨rest', ?_, hrest'⟩
  simp only [Reader.after, hfixed, Option.bind_eq_bind, Option.bind_some]
  exact hp

theorem Reads.before {hs : solid s.toList = true} (h : Reads p ts a (.mark s hs :: us)) :
    Reads (before p s) (ts ++ [.mark s hs]) a us := by
  intro text htext
  rw [List.append_assoc] at htext
  obtain ⟨rest, hp, hrest⟩ := h htext
  obtain ⟨rest', hfixed, hrest'⟩ := fixed_mark hrest.skip
  exact ⟨rest', by simp [Reader.before, hp, hfixed], hrest'⟩

/-! Leaves -/

variable {x : Ident} {ty : Scalar} {op : Relation}

theorem reads_ident : Reads ident [.ident x] x.name us := by
  intro text h
  obtain ⟨rest, rfl, hrest⟩ := h.uncons
  exact ⟨rest, Ident.ident_text hrest.bounded.word, hrest⟩

theorem reads_scalar : Reads scalar [.scalar ty] ty us := by
  intro text h
  obtain ⟨rest, rfl, hrest⟩ := h.uncons
  exact ⟨rest, by cases ty <;> rfl, hrest⟩

/-- A relation that begins another one is not taken for it: layout follows. -/
theorem reads_relation : Reads relation [.relation op] op us := by
  intro text h
  obtain ⟨rest, rfl, hrest⟩ := h.uncons
  refine ⟨rest, ?_, hrest⟩
  cases op with
  | eq | ne | le | ge => rfl
  | lt | gt => rcases hrest.bounded.cases with rfl | ⟨cs, rfl | rfl | rfl | rfl | rfl⟩ <;> rfl

theorem reads_newCell {h₁ h₂ h₃} :
    Reads newCell [.mark "new" h₁, .mark "(" h₂, .scalar ty, .mark ")" h₃] (.ok (.new ty)) us := by
  intro text h
  obtain ⟨rest, hrest, hahead⟩ := reads_scalar.before.after.after h
  exact ⟨rest, by simp [newCell, hrest], hahead⟩

theorem reads_deref {h₁} : Reads deref [.mark "*" h₁, .ident x] (.ok (.deref x.name)) us := by
  intro text h
  obtain ⟨rest, hrest, hahead⟩ := reads_ident.after h
  exact ⟨rest, by simp [deref, hrest], hahead⟩

theorem reads_floatLiteral {t : FloatText} :
    Reads floatLiteral [.float t] (.ok (.literal (.float t.value))) us := by
  intro text h
  obtain ⟨rest, rfl, hrest⟩ := h.uncons
  refine ⟨rest, ?_, hrest⟩
  have hfloat : Lexeme.float ((Token.float t).text ++ rest) = some (t.text, rest) := FloatText.float_text hrest.bounded
  simp [floatLiteral, hfloat, FloatText.read?_text]

theorem intLiteral_digits {rest : List Char} (n : Numeral) (h : Stops numberGoesOn rest) :
    intLiteral (n.digits ++ rest) = some (if n.value < Nat.pow 2 63 then .ok (.literal (.int (.ofNat n.value)))
      else .error ⟨String.ofList n.digits, (n.digits ++ rest).length⟩, rest) := by
  simp only [intLiteral, Numeral.int_digits h, Option.bind_eq_bind, Option.bind_some, Numeral.value]
  split <;> simp [*]

theorem leastInt_digits {rest : List Char} (n : Numeral) (h : Stops numberGoesOn rest) :
    leastInt (n.digits ++ rest) =
      if n.value = Nat.pow 2 63 then some (.ok (.literal (.int Int64.minValue)), rest) else none := by
  simp only [leastInt, Numeral.float_digits h, Numeral.int_digits h, Option.bind_eq_bind, Option.bind_some]
  rfl

theorem reads_intLiteral {n : Numeral} (hn : n.value < Nat.pow 2 63) :
    Reads intLiteral [.numeral n] (.ok (.literal (.int (.ofNat n.value)))) us := by
  intro text h
  obtain ⟨rest, rfl, hrest⟩ := h.uncons
  refine ⟨rest, ?_, hrest⟩
  rw [Token.text_numeral, intLiteral_digits n hrest.bounded.number, if_pos hn]

theorem reads_leastInt {n : Numeral} (hn : n.value = Nat.pow 2 63) :
    Reads leastInt [.numeral n] (.ok (.literal (.int Int64.minValue))) us := by
  intro text h
  obtain ⟨rest, rfl, hrest⟩ := h.uncons
  refine ⟨rest, ?_, hrest⟩
  rw [Token.text_numeral, leastInt_digits n hrest.bounded.number, if_pos hn]

theorem reads_namedLiteral {v : Binary64} {hs : solid s.toList = true} :
    Reads (namedLiteral s v) [.mark s hs] (.ok (.literal (.float v))) us := by
  intro text h
  obtain ⟨rest, hfixed, hrest⟩ := fixed_mark h
  have hend := wordGoesOn_of_stops hrest.bounded.word
  exact ⟨rest, by simp [namedLiteral, whole, hfixed, hend], hrest⟩

theorem reads_named : Reads named [.ident x] (.ok (.name x.name)) us := by
  intro text h
  obtain ⟨rest, hrest, hahead⟩ := reads_ident h
  exact ⟨rest, by simp [named, hrest], hahead⟩

theorem Reads.parenthesized {inner : Reader (Checked Expr)} {e : Expr} {h₁ h₂}
    (h : Reads inner ts (.ok e) (.mark ")" h₂ :: us)) :
    Reads (parenthesized inner) (.mark "(" h₁ :: (ts ++ [.mark ")" h₂])) (.ok (.paren e)) us := by
  intro text htext
  obtain ⟨rest, hrest, hahead⟩ := h.before.after htext
  exact ⟨rest, by simp [Reader.parenthesized, hrest, Except.map], hahead⟩

/-! Operands -/

variable {inner : Reader (Checked Expr)} {d : Nat} {cs w : List Char} {n : Numeral} {t : FloatText}

theorem after_eq_none (h : fixed s cs = none) : after s p cs = none := by simp [after, h]

theorem newCell_eq_none (h : fixed "new" cs = none) : newCell cs = none := by simp [newCell, after_eq_none h]

theorem deref_eq_none (h : fixed "*" cs = none) : deref cs = none := by simp [deref, after_eq_none h]

/-- A word goes on behind the letters of `new`, or no parenthesis follows it. -/
theorem newCell_word (hw : ∀ c ∈ w, isWordChar c = true) (hrest : Bounded rest)
    (hnew : w = "new".toList → fixed "(" (skip rest) = none) : newCell (w ++ rest) = none := by
  rcases hfixed : fixed "new" (w ++ rest) with _ | cs
  · exact newCell_eq_none hfixed
  · obtain ⟨v, htext, rfl⟩ := fixed_word (by decide) hrest.word hfixed
    have hparen : fixed "(" (skip (v ++ rest)) = none := by
      cases v with
      | nil => exact hnew (by simpa using htext)
      | cons c v =>
        have hv : ∀ d ∈ c :: v, isWordChar d = true := fun d hd => hw d (by simp [htext, List.mem_cons.mp hd])
        rw [skip_word hv]
        exact (stops_word hv hrest).fixed (by decide)
    simp [newCell, after, hfixed, hparen]

theorem namedLiteral_ident {v : Binary64} (hword : s.toList.all isWordChar = true) (hs : s ∈ keywords)
    (hrest : Bounded rest) : namedLiteral s v (x.text ++ rest) = none := by
  rcases hfixed : fixed s (x.text ++ rest) with _ | cs
  · simp [namedLiteral, whole, hfixed]
  · obtain ⟨v, htext, rfl⟩ := fixed_word hword hrest.word hfixed
    cases v with
    | nil => exact absurd (by simpa using htext) (x.text_ne_keyword hs)
    | cons c v =>
      have hc : isWordChar c = true := x.text_word c (by simp [htext])
      simp [namedLiteral, whole, hfixed, wordGoesOn, hc]

theorem unary_eq_primary (hsigns : Stops (· ∈ ['!', '-']) text) :
    unary (d + 1) text = primary (comparison (unary d)) text := by
  rw [unary]
  · exact fun _ => hsigns.ne (by decide)
  · exact fun _ => hsigns.ne (by decide)

/-- Where no sign, cell or number begins, what is left to try are the words and the parentheses. -/
theorem unary_eq_word (hmarks : Stops (· ∈ ['!', '-', '*']) text) (hdigit : Stops Char.isDigit text)
    (hnew : newCell text = none) :
    unary (d + 1) text = (namedLiteral "NaN" .nan text <|> namedLiteral "Inf" .infinity text <|> named text <|>
      parenthesized (comparison (unary d)) text) := by
  have hderef : deref text = none := deref_eq_none (hmarks.fixed (by decide))
  have hfloat : floatLiteral text = none := by simp [floatLiteral, hdigit.float]
  have hint : intLiteral text = none := by simp [intLiteral, hdigit.int]
  rw [unary_eq_primary (hmarks.only (by decide))]
  simp [primary, hnew, hderef, hfloat, hint]

theorem reads_new {h₁ h₂ h₃} :
    Reads (unary (d + 1)) [.mark "new" h₁, .mark "(" h₂, .scalar ty, .mark ")" h₃] (.ok (.new ty)) us := by
  refine reads_newCell.choose fun text r htext hr => ?_
  obtain ⟨tail, rfl, -⟩ := htext.uncons
  rw [unary_eq_primary (Token.stops_mark (by decide)), primary, hr]
  rfl

theorem reads_indirection {h₁} :
    Reads (unary (d + 1)) [.mark "*" h₁, .ident x] (.ok (.deref x.name)) us := by
  refine reads_deref.choose fun text r htext hr => ?_
  obtain ⟨tail, rfl, -⟩ := htext.uncons
  have hnew : newCell ((Token.mark "*" h₁).text ++ tail) = none := rfl
  rw [unary_eq_primary (Token.stops_mark (by decide)), primary, hnew, hr]
  rfl

theorem reads_nan {h₁} : Reads (unary (d + 1)) [.mark "NaN" h₁] (.ok (.literal (.float .nan))) us := by
  refine reads_namedLiteral.choose fun text r htext hr => ?_
  obtain ⟨tail, rfl, -⟩ := htext.uncons
  have hnew : newCell ((Token.mark "NaN" h₁).text ++ tail) = none := rfl
  rw [unary_eq_word (Token.stops_mark (by decide)) (Token.stops_mark (by decide)) hnew, hr]
  rfl

theorem reads_inf {h₁} : Reads (unary (d + 1)) [.mark "Inf" h₁] (.ok (.literal (.float .infinity))) us := by
  refine reads_namedLiteral.choose fun text r htext hr => ?_
  obtain ⟨tail, rfl, -⟩ := htext.uncons
  have hnew : newCell ((Token.mark "Inf" h₁).text ++ tail) = none := rfl
  have hnan : namedLiteral "NaN" .nan ((Token.mark "Inf" h₁).text ++ tail) = none := rfl
  rw [unary_eq_word (Token.stops_mark (by decide)) (Token.stops_mark (by decide)) hnew, hnan, hr]
  rfl

theorem Reads.paren {e : Expr} {h₁ h₂} (h : Reads (comparison (unary d)) ts (.ok e) (.mark ")" h₂ :: us)) :
    Reads (unary (d + 1)) (.mark "(" h₁ :: (ts ++ [.mark ")" h₂])) (.ok (.paren e)) us := by
  refine h.parenthesized.choose fun text r htext hr => ?_
  obtain ⟨tail, rfl, -⟩ := htext.uncons
  exact hr

theorem reads_float : Reads (unary (d + 1)) [.float t] (.ok (.literal (.float t.value))) us := by
  refine reads_floatLiteral.choose fun text r htext hr => ?_
  obtain ⟨tail, htail, -⟩ := htext.uncons
  have hstops : Stops (fun c => !c.isDigit) text := by
    rw [htail, Token.text_float, List.append_assoc]
    exact t.whole.stops
  rw [unary_eq_primary (hstops.only (by decide)), primary, newCell_eq_none (hstops.fixed (by decide)),
    deref_eq_none (hstops.fixed (by decide)), hr]
  rfl

theorem unary_int (h : Stops numberGoesOn rest) :
    unary (d + 1) (n.digits ++ rest) = intLiteral (n.digits ++ rest) := by
  have hstops : Stops (fun c => !c.isDigit) (n.digits ++ rest) := n.stops
  have hfloat : floatLiteral (n.digits ++ rest) = none := by simp [floatLiteral, Numeral.float_digits h]
  rw [unary_eq_primary (hstops.only (by decide)), primary, newCell_eq_none (hstops.fixed (by decide)),
    deref_eq_none (hstops.fixed (by decide)), hfloat, intLiteral_digits n h]
  rfl

theorem reads_int (hn : n.value < Nat.pow 2 63) :
    Reads (unary (d + 1)) [.numeral n] (.ok (.literal (.int (.ofNat n.value)))) us := by
  refine (reads_intLiteral hn).choose fun text r htext hr => ?_
  obtain ⟨tail, rfl, hahead⟩ := htext.uncons
  rw [Token.text_numeral] at hr ⊢
  rw [unary_int hahead.bounded.number, hr]

theorem unary_ident (hrest : Bounded rest) : unary (d + 1) (x.text ++ rest) = named (x.text ++ rest) := by
  have hnew : newCell (x.text ++ rest) = none :=
    newCell_word x.text_word hrest fun hnew => absurd hnew (x.text_ne_keyword (by decide))
  have hnan : namedLiteral "NaN" .nan (x.text ++ rest) = none := namedLiteral_ident (by decide) (by decide) hrest
  have hinf : namedLiteral "Inf" .infinity (x.text ++ rest) = none :=
    namedLiteral_ident (by decide) (by decide) hrest
  have hnamed : named (x.text ++ rest) = some (.ok (.name x.name), rest) := by
    simp [named, Ident.ident_text hrest.word]
  rw [unary_eq_word (x.stops.only (by decide)) x.stops_digit hnew, hnan, hinf, hnamed]
  rfl

theorem reads_name : Reads (unary (d + 1)) [.ident x] (.ok (.name x.name)) us := by
  refine reads_named.choose fun text r htext hr => ?_
  obtain ⟨tail, rfl, htail⟩ := htext.uncons
  rw [Token.text_ident] at hr ⊢
  rw [unary_ident htail.bounded, hr]

theorem Reads.not {e : Expr} {h₁} (h : Reads (unary d) ts (.ok e) us) :
    Reads (unary (d + 1)) (.mark "!" h₁ :: ts) (.ok (.not e)) us := by
  intro text htext
  obtain ⟨tail, rfl, htail⟩ := htext.uncons
  obtain ⟨rest, hread, hrest⟩ := h htail.skip
  refine ⟨rest, ?_, hrest⟩
  show ((unary d (skip tail)).bind fun r => some (r.1.map Expr.not, r.2)) = _
  rw [hread]
  rfl

theorem Reads.neg {e : Expr} {h₁} (h : Reads (unary d) ts (.ok e) us)
    (hleast : ∀ ⦃text⦄, Spelled (ts ++ us) text → leastInt text = none) :
    Reads (unary (d + 1)) (.mark "-" h₁ :: ts) (.ok (.neg e)) us := by
  intro text htext
  obtain ⟨tail, rfl, htail⟩ := htext.uncons
  obtain ⟨rest, hread, hrest⟩ := h htail.skip
  refine ⟨rest, ?_, hrest⟩
  show (leastInt (skip tail) <|> (unary d (skip tail)).bind fun r => some (r.1.map Expr.neg, r.2)) = _
  rw [hread, hleast htail.skip]
  rfl

theorem reads_least {h₁} (hn : n.value = Nat.pow 2 63) :
    Reads (unary (d + 1)) [.mark "-" h₁, .numeral n] (.ok (.literal (.int Int64.minValue))) us := by
  intro text htext
  obtain ⟨tail, rfl, htail⟩ := htext.uncons
  obtain ⟨rest, hread, hrest⟩ := reads_leastInt hn htail.skip
  refine ⟨rest, ?_, hrest⟩
  show (leastInt (skip tail) <|> (unary d (skip tail)).bind fun r => some (r.1.map Expr.neg, r.2)) = _
  rw [hread]
  rfl

/-! Comparisons -/

theorem relation_eq_none (h : Stops (· ∈ ['=', '!', '<', '>']) text) : relation text = none := by
  rw [relation, List.findSome?_eq_none_iff]
  intro r _
  have hfixed : fixed r.symbol text = none := h.fixed (by cases r <;> decide)
  rw [hfixed]
  rfl

/-- No relation stands at the front of what the tokens spell. -/
def Unrelated (us : List Token) : Prop := ∀ ⦃text⦄, Spelled us text → relation text = none

variable {operand : Reader (Checked Expr)} {lhs rhs : Expr}

theorem Reads.alone (h : Reads operand ts (.ok lhs) us) (hus : Unrelated us) :
    Reads (comparison operand) ts (.ok lhs) us := by
  intro text htext
  obtain ⟨rest, hread, hrest⟩ := h htext
  refine ⟨rest, ?_, hrest⟩
  simp [comparison, hread, hus hrest.skip]

theorem Reads.compare {rs : List Token} (hl : Reads operand ts (.ok lhs) (.relation op :: (rs ++ us)))
    (hr : Reads operand rs (.ok rhs) us) :
    Reads (comparison operand) (ts ++ .relation op :: rs) (.ok (.compare op lhs rhs)) us := by
  intro text htext
  rw [List.append_assoc] at htext
  obtain ⟨rest, hread, hrest⟩ := hl htext
  obtain ⟨rest', hrelation, hrest'⟩ := reads_relation hrest.skip
  obtain ⟨rest'', hread', hrest''⟩ := hr hrest'.skip
  refine ⟨rest'', ?_, hrest''⟩
  simp [comparison, hread, hrelation, hread', Except.bind, Except.map]

end Reader

namespace Concrete

open Reader

variable {us : List Token} {text : List Char}

theorem Term.leastInt_eq_none (t : Term) (h : t.isLeast = false) (htext : Spelled (t.tokens ++ us) text) :
    leastInt text = none := by
  rw [Term.tokens.eq_def] at htext
  cases t with
  | new | deref | nan | inf | paren | not | neg =>
    obtain ⟨tail, rfl, -⟩ := htext.uncons
    rfl
  | float t =>
    obtain ⟨tail, rfl, htail⟩ := htext.uncons
    have hfloat : Lexeme.float ((Token.float t).text ++ tail) = some (t.text, tail) :=
      FloatText.float_text htail.bounded
    simp [leastInt, hfloat]
  | int n =>
    obtain ⟨tail, rfl, htail⟩ := htext.uncons
    have hn : n.value ≠ Nat.pow 2 63 := by simpa [Term.isLeast] using h
    rw [Token.text_numeral, leastInt_digits n htail.bounded.number, if_neg hn]
  | name x =>
    obtain ⟨tail, rfl, htail⟩ := htext.uncons
    simp [leastInt, Token.text_ident, x.stops_digit.float, x.stops_digit.int]

theorem Term.eq_int_of_isLeast (t : Term) (h : t.isLeast = true) : ∃ n, t = .int n ∧ n.value = Nat.pow 2 63 := by
  cases t with
  | int n => exact ⟨n, rfl, by simpa [Term.isLeast] using h⟩
  | _ => cases h

theorem Term.length_pos (t : Term) : 0 < t.tokens.length := List.length_pos_iff.mpr t.tokens_ne_nil

/-- The marks that end an expression in parentheses or before a block begin no relation. -/
theorem unrelated_mark {s : String} {h₁} (hs : s.toList.head?.any (· ∈ ['=', '!', '<', '>']) = false) :
    Unrelated (.mark s h₁ :: us) := by
  intro text htext
  obtain ⟨tail, rfl, -⟩ := htext.uncons
  exact relation_eq_none (Token.stops_mark hs)

mutual

theorem Term.reads : ∀ (t : Term) {d : Nat} {us : List Token}, t.fits = true → t.tokens.length ≤ d →
    Reads (unary d) t.tokens (.ok t.ast) us
  | t, 0, _, _, hd => absurd hd (Nat.not_le.mpr t.length_pos)
  | .new ty, d + 1, _, _, _ => reads_new
  | .deref x, d + 1, _, _, _ => reads_indirection
  | .float t, d + 1, _, _, _ => reads_float
  | .int n, d + 1, _, hfits, _ => reads_int (by simpa [Term.fits] using hfits)
  | .nan, d + 1, _, _, _ => reads_nan
  | .inf, d + 1, _, _, _ => reads_inf
  | .name x, d + 1, _, _, _ => reads_name
  | .paren e, d + 1, _, hfits, hd => by
    have hlength : e.tokens.length ≤ d := by
      simp only [Term.tokens, List.length_cons, List.length_append] at hd
      omega
    exact (e.reads hfits hlength (unrelated_mark (by decide))).paren
  | .not t, d + 1, _, hfits, hd => (t.reads hfits (by simpa [Term.tokens] using hd)).not
  | .neg t, d + 1, us, hfits, hd => by
    cases hleast : t.isLeast with
    | true =>
      obtain ⟨n, rfl, hn⟩ := t.eq_int_of_isLeast hleast
      rw [Term.ast, if_pos hleast]
      exact reads_least hn
    | false =>
      have hfits' : t.fits = true := by simpa [Term.fits, hleast] using hfits
      have hlength : t.tokens.length ≤ d := by simpa [Term.tokens] using hd
      rw [Term.ast, if_neg (by simp [hleast])]
      exact (t.reads hfits' hlength).neg fun text htext => t.leastInt_eq_none hleast htext

theorem Expr.reads : ∀ (e : Expr) {d : Nat} {us : List Token}, e.fits = true → e.tokens.length ≤ d → Unrelated us →
    Reads (comparison (unary d)) e.tokens (.ok e.ast) us
  | .term t, d, us, hfits, hd, hus => (t.reads hfits hd).alone hus
  | .compare op lhs rhs, d, us, hfits, hd, hus => by
    obtain ⟨hleft, hright⟩ : lhs.fits = true ∧ rhs.fits = true := by simpa [Expr.fits] using hfits
    simp only [Expr.tokens, List.length_append, List.length_cons] at hd
    exact (lhs.reads hleft (by omega)).compare (rhs.reads hright (by omega))

end

theorem Expr.reads_expr (e : Expr) (hfits : e.fits = true) (hus : Unrelated us) :
    Reads expr e.tokens (.ok e.ast) us := by
  intro text htext
  have hlength := htext.length_le
  rw [List.length_append] at hlength
  exact e.reads hfits (by omega) hus htext

end Concrete
end Comparand
