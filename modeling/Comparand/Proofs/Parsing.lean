import Comparand.Proofs.Agreement
import Comparand.Proofs.Expressions

/-!
Parsing undoes printing: whatever the layout, the parser finds the program whose tokens a text holds.

Where a statement ends, the parser still tries to go on with it: a relation, an initial value, an `else`. Names may
begin with the letters of `else` and `else if`, so that these attempts get into the next statement before they fail.
-/
namespace Comparand

open Lexeme

namespace Reader

variable {s : String} {ts us : List Token} {text rest w : List Char} {x : Ident} {depth : Nat}

/-- No operand at the front of the text is followed by a relation or a block. -/
def Untested (text : List Char) : Prop :=
  ∀ ⦃d e rest⦄, unary d text = some (e, rest) → relation (skip rest) = none ∧ fixed "\x7b" (skip rest) = none

/-- A statement that ends before the text does not go on there. -/
structure Ends (text : List Char) : Prop where
  unrelated : relation text = none
  unset : fixed "=" text = none
  least : leastInt text = none
  untested : Untested text
  noElse : ∀ depth, after "else" (alternative depth) text = none

theorem block_eq_none {stmt : Reader (Checked Stmt)} (h : fixed "\x7b" text = none) : block stmt text = none := by
  simp [block, h]

theorem Untested.no_block {e : Checked Expr} (h : Untested text) (he : expr text = some (e, rest)) :
    fixed "\x7b" (skip rest) = none := by
  simp only [expr, comparison, Option.bind_eq_bind, Option.bind_eq_some_iff] at he
  obtain ⟨⟨lhs, cs⟩, hlhs, he⟩ := he
  obtain ⟨hrelation, hbrace⟩ := h hlhs
  rw [hrelation] at he
  cases he
  exact hbrace

theorem namedLiteral_word {v : Binary64} {e : Checked Expr} {cs : List Char} (hs : s.toList.all isWordChar = true)
    (hrest : Bounded rest) (h : namedLiteral s v (w ++ rest) = some (e, cs)) : ∃ v, v <:+ w ∧ cs = v ++ rest := by
  simp only [namedLiteral, whole, Option.bind_eq_bind, Option.bind_eq_some_iff] at h
  obtain ⟨tail, ⟨tail', hfixed, hend⟩, hread⟩ := h
  obtain ⟨v, rfl, rfl⟩ := fixed_word hs hrest.word hfixed
  split at hend
  · cases hend
  · cases hend
    cases hread
    exact ⟨v, List.suffix_append s.toList v, rfl⟩

theorem named_word {e : Checked Expr} {cs : List Char} (hw : ∀ c ∈ w, isWordChar c = true) (hrest : Bounded rest)
    (h : named (w ++ rest) = some (e, cs)) : cs = rest := by
  simp only [named, Option.bind_eq_bind, Option.bind_eq_some_iff] at h
  obtain ⟨⟨x, tail⟩, hident, hread⟩ := h
  cases hread
  cases w with
  | nil => rcases hrest.cases with rfl | ⟨cs, rfl | rfl | rfl | rfl | rfl⟩ <;> cases hident
  | cons c w =>
    have hw' : ∀ d ∈ w, isWordChar d = true := fun d hd => hw d (List.mem_cons_of_mem c hd)
    by_cases hc : isWordStart c = true
    · rw [ident_append hc hw' hrest.word] at hident
      split at hident
      · cases hident
      · cases hident
        rfl
    · simp [ident, hc] at hident

theorem floatLiteral_word {e : Checked Expr} {cs : List Char} (hw : ∀ c ∈ w, isWordChar c = true)
    (hrest : Bounded rest) (h : floatLiteral (w ++ rest) = some (e, cs)) : ∃ v, v <:+ w ∧ cs = v ++ rest := by
  simp only [floatLiteral, Option.bind_eq_bind, Option.bind_eq_some_iff] at h
  obtain ⟨⟨t, tail⟩, hfloat, v, -, hread⟩ := h
  cases hread
  exact float_word hw hrest hfloat

theorem intLiteral_word {e : Checked Expr} {cs : List Char} (hrest : Bounded rest)
    (h : intLiteral (w ++ rest) = some (e, cs)) : ∃ v, v <:+ w ∧ cs = v ++ rest := by
  simp only [intLiteral, Option.bind_eq_bind, Option.bind_eq_some_iff] at h
  obtain ⟨⟨digits, tail⟩, hint, hread⟩ := h
  have htail : tail = cs := by
    split at hread
    · cases hread
      rfl
    · cases hread
      rfl
  exact int_word hrest (htail ▸ hint)

/-- An operand at the front of a word takes a part of it. -/
theorem unary_word {e : Checked Expr} {d : Nat} {cs : List Char} (hw : ∀ c ∈ w, isWordChar c = true)
    (hrest : Bounded rest) (hparen : fixed "(" (skip rest) = none)
    (h : unary d (w ++ rest) = some (e, cs)) : ∃ v, v <:+ w ∧ cs = v ++ rest := by
  have hmarks := stops_word hw hrest
  cases d with
  | zero => cases h
  | succ d =>
    have hnew : newCell (w ++ rest) = none := newCell_word hw hrest fun _ => hparen
    have hderef : deref (w ++ rest) = none := deref_eq_none (hmarks.fixed (by decide))
    have hparens : parenthesized (comparison (unary d)) (w ++ rest) = none := by
      have hopen : fixed "(" (w ++ rest) = none := hmarks.fixed (by decide)
      simp [parenthesized, after_eq_none hopen]
    rw [unary_eq_primary (hmarks.only (by decide))] at h
    simp only [primary, hnew, hderef, hparens, Option.orElse_eq_orElse, Option.orElse_eq_or, Option.or_none,
      Option.none_or, Option.or_eq_some_iff] at h
    rcases h with h | ⟨-, h | ⟨-, h | ⟨-, h | ⟨-, h⟩⟩⟩⟩
    · exact floatLiteral_word hw hrest h
    · exact intLiteral_word hrest h
    · exact namedLiteral_word (by decide) hrest h
    · exact namedLiteral_word (by decide) hrest h
    · exact ⟨[], List.nil_suffix, named_word hw hrest h⟩

/-- Layout and then a mark that goes on with a statement, behind the name that begins it. -/
structure Marked (rest : List Char) : Prop where
  bounded : Bounded rest
  unrelated : relation (skip rest) = none
  brace : fixed "\x7b" (skip rest) = none
  paren : fixed "(" (skip rest) = none
  untested : Untested (skip rest)

theorem Marked.untested_word (h : Marked rest) (hw : ∀ c ∈ w, isWordChar c = true) : Untested (w ++ rest) := by
  intro d e cs hread
  obtain ⟨v, hv, rfl⟩ := unary_word hw h.bounded h.paren hread
  cases v with
  | nil => exact ⟨h.unrelated, h.brace⟩
  | cons c v =>
    have hv' : ∀ d ∈ c :: v, isWordChar d = true := fun d hd => hw d (hv.subset hd)
    have hmarks := stops_word hv' h.bounded
    rw [skip_word hv']
    exact ⟨relation_eq_none (hmarks.only (by decide)), hmarks.fixed (by decide)⟩

theorem Marked.conditional_word (h : Marked rest) (hw : ∀ c ∈ w, isWordChar c = true) :
    conditional depth (w ++ rest) = none := by
  cases depth with
  | zero => rfl
  | succ depth =>
    rw [conditional_succ]
    rcases hfixed : fixed "if" (w ++ rest) with _ | cs
    · simp [after_eq_none hfixed]
    · obtain ⟨v, htext, rfl⟩ := fixed_word (by decide) h.bounded.word hfixed
      have huntested : Untested (skip (v ++ rest)) := by
        cases v with
        -- The word ends with the letters of `if`, so that the test would begin at the mark.
        | nil => exact h.untested
        | cons c v =>
          have hv : ∀ d ∈ c :: v, isWordChar d = true := fun d hd => hw d (by simp [htext, List.mem_cons.mp hd])
          rw [skip_word hv]
          exact h.untested_word hv
      rcases hexpr : expr (skip (v ++ rest)) with _ | ⟨e, tail⟩
      · simp [after, hfixed, hexpr]
      · simp [after, hfixed, hexpr, block_eq_none (huntested.no_block hexpr)]

/-- The attempt to go on with an `else` may take the front of a name and still fails. -/
theorem Marked.noElse (h : Marked rest) (depth : Nat) : after "else" (alternative depth) (x.text ++ rest) = none := by
  rcases hfixed : fixed "else" (x.text ++ rest) with _ | cs
  · exact after_eq_none hfixed
  · obtain ⟨v, htext, rfl⟩ := fixed_word (by decide) h.bounded.word hfixed
    cases v with
    | nil => exact absurd (by simpa using htext) (x.text_ne_keyword (s := "else") (by decide))
    | cons c v =>
      -- The name goes on behind the letters of `else`: what follows these would have to begin inside it.
      have hv : ∀ d ∈ c :: v, isWordChar d = true := fun d hd => x.text_word d (by simp [htext, List.mem_cons.mp hd])
      have hbrace : fixed "\x7b" (c :: v ++ rest) = none := (stops_word hv h.bounded).fixed (by decide)
      have hcond : conditional depth (c :: v ++ rest) = none := h.conditional_word hv
      simp only [after, hfixed, Option.bind_eq_bind, Option.bind_some, skip_word hv, alternative, hcond,
        Option.bind_none, block_eq_none hbrace]
      rfl

theorem Marked.ends (h : Marked rest) : Ends (x.text ++ rest) where
  unrelated := relation_eq_none (x.stops.only (by decide))
  unset := x.stops.fixed (by decide)
  least := by simp [leastInt, x.stops_digit.float, x.stops_digit.int]
  untested := h.untested_word x.text_word
  noElse := h.noElse

/-- Wherever the tokens are spelled, a statement before them ends. -/
def Closed (us : List Token) : Prop := ∀ ⦃text⦄, Spelled us text → Ends text

theorem Untested.of_none (h : ∀ d, unary d text = none) : Untested text := by
  intro d e rest hread
  exact absurd (hread.symm.trans (h d)) nofun

theorem Untested.neg (h : Untested (skip text)) (hleast : leastInt (skip text) = none) : Untested ('-' :: text) := by
  intro d e rest hread
  cases d with
  | zero => cases hread
  | succ d =>
    simp only [unary, hleast, Option.bind_eq_bind, Option.orElse_eq_orElse, Option.orElse_eq_or, Option.none_or,
      Option.bind_eq_some_iff] at hread
    obtain ⟨⟨e', rest'⟩, hread', heq⟩ := hread
    cases heq
    exact h hread'

variable {h₁ : solid s.toList = true}

theorem marked_of_ahead (hs : s ∈ [":=", "++", "="]) (h : Ahead (.mark s h₁ :: us) rest) : Marked rest := by
  obtain ⟨tail, hskip, htail⟩ := h.skip.uncons
  have hbounded := htail.bounded
  simp only [List.mem_cons, List.not_mem_nil, or_false] at hs
  constructor
  case bounded => exact h.bounded
  all_goals rw [hskip]
  case unrelated =>
    rcases hs with rfl | rfl | rfl
    · rfl
    · rfl
    · rcases hbounded.cases with rfl | ⟨cs, rfl | rfl | rfl | rfl | rfl⟩ <;> rfl
  case brace => rcases hs with rfl | rfl | rfl <;> rfl
  case paren => rcases hs with rfl | rfl | rfl <;> rfl
  case untested =>
    apply Untested.of_none
    rintro (_ | d)
    · rfl
    · rcases hs with rfl | rfl | rfl <;> rfl

/-- Two minuses may be taken for signs of an operand, which the next statement then begins with. -/
theorem marked_of_ahead_dec {h₁} (hus : Closed us) (h : Ahead (.mark "--" h₁ :: us) rest) : Marked rest := by
  obtain ⟨tail, hskip, htail⟩ := h.skip.uncons
  have hends := hus htail.skip
  constructor
  case bounded => exact h.bounded
  all_goals rw [hskip]
  case untested =>
    have hminus : Untested (skip ('-' :: tail)) := hends.untested.neg hends.least
    exact hminus.neg rfl
  all_goals rfl

theorem closed_name (h : ∀ ⦃rest⦄, Ahead us rest → Marked rest) : Closed (.ident x :: us) := by
  intro text htext
  obtain ⟨rest, rfl, hrest⟩ := htext.uncons
  exact (h hrest).ends

theorem closed_mark (hs : s ∈ [";", "\x7d"]) : Closed (.mark s h₁ :: us) := by
  intro text htext
  obtain ⟨rest, rfl, hrest⟩ := htext.uncons
  simp only [List.mem_cons, List.not_mem_nil, or_false] at hs
  rcases hs with rfl | rfl
  · exact ⟨rfl, rfl, rfl, .of_none (by rintro (_ | d) <;> rfl), fun _ => rfl⟩
  · exact ⟨rfl, rfl, rfl, .of_none (by rintro (_ | d) <;> rfl), fun _ => rfl⟩

/-- The characters that operands begin with, names apart. -/
def startsOperand (c : Char) : Bool := c ∈ ['!', '-', '*', 'n', 'N', 'I', '('] || c.isDigit

theorem unary_keyword {d : Nat} (hs : s ∈ keywords) (hhead : s.toList.head?.any startsOperand = false)
    (hrest : Bounded rest) : unary d ((Token.mark s h₁).text ++ rest) = none := by
  cases d with
  | zero => rfl
  | succ d =>
    have hmarks : Stops startsOperand ((Token.mark s h₁).text ++ rest) := Token.stops_mark hhead
    have hdigit : Stops Char.isDigit ((Token.mark s h₁).text ++ rest) :=
      fun c hc => (Bool.or_eq_false_iff.mp (hmarks c hc)).2
    have hnew := newCell_eq_none (hmarks.fixed (by decide))
    have hnan : fixed "NaN" ((Token.mark s h₁).text ++ rest) = none := hmarks.fixed (by decide)
    have hinf : fixed "Inf" ((Token.mark s h₁).text ++ rest) = none := hmarks.fixed (by decide)
    have hparen : fixed "(" ((Token.mark s h₁).text ++ rest) = none := hmarks.fixed (by decide)
    have hident : ident ((Token.mark s h₁).text ++ rest) = none := ident_keyword hs hrest.word
    rw [unary_eq_word (hmarks.only (by decide)) hdigit hnew]
    simp [namedLiteral, whole, named, parenthesized, hnan, hinf, hident, after_eq_none hparen]

theorem closed_keyword (hs : s ∈ ["var", "if", "riscvexit"]) : Closed (.mark s h₁ :: us) := by
  intro text htext
  obtain ⟨rest, rfl, hrest⟩ := htext.uncons
  have hbounded := hrest.bounded
  simp only [List.mem_cons, List.not_mem_nil, or_false] at hs
  have hunary : ∀ d, unary d ((Token.mark s h₁).text ++ rest) = none := by
    intro d
    rcases hs with rfl | rfl | rfl <;> exact unary_keyword (by decide) (by decide) hbounded
  rcases hs with rfl | rfl | rfl <;> exact ⟨rfl, rfl, rfl, .of_none hunary, fun _ => rfl⟩

theorem closed_store {h₁ h₂} : Closed (.mark "*" h₁ :: .ident x :: .mark "=" h₂ :: us) := by
  intro text htext
  have huntested : Untested text := by
    intro d e rest hread
    cases d with
    | zero => cases hread
    | succ d =>
      obtain ⟨rest', hread', hrest'⟩ := reads_indirection (d := d) htext
      cases hread.symm.trans hread'
      have hmarked := marked_of_ahead (by decide) hrest'
      exact ⟨hmarked.unrelated, hmarked.brace⟩
  obtain ⟨rest, rfl, hrest⟩ := htext.uncons
  exact ⟨rfl, rfl, rfl, huntested, fun _ => rfl⟩

/-! Statements -/

variable {e : Expr} {make : String → Expr → Stmt} {count : String → Stmt} {m : String} {h₂ : solid m.toList = true}

theorem Reads.binding (h : Reads expr ts (.ok e) us) :
    Reads (binding s make) (.ident x :: .mark s h₁ :: ts) (.ok (make x.name e)) us := by
  intro text htext
  obtain ⟨rest, hident, hrest⟩ := reads_ident htext
  obtain ⟨rest', hread, hrest'⟩ := h.after hrest.skip
  exact ⟨rest', by simp [Reader.binding, hident, hread, Except.map], hrest'⟩

theorem reads_counting : Reads (counting s count) [.ident x, .mark s h₁] (.ok (count x.name)) us := by
  intro text htext
  obtain ⟨rest, hread, hrest⟩ := reads_ident.before htext
  exact ⟨rest, by simp [counting, hread], hrest⟩

theorem binding_eq_none (h : ident text = none) : binding s make text = none := by simp [binding, h]

theorem counting_eq_none (h : ident text = none) : counting s count text = none := by simp [counting, before, h]

/-- Another mark than the expected one follows the name. -/
theorem binding_other (hs : ∀ tail, fixed s (m.toList ++ tail) = none)
    (htext : Spelled (.ident x :: .mark m h₂ :: us) text) : binding s make text = none := by
  obtain ⟨rest, hident, hrest⟩ := reads_ident htext
  obtain ⟨tail, hskip, -⟩ := hrest.skip.uncons
  have hfixed : fixed s (skip rest) = none := by
    rw [hskip]
    exact hs tail
  simp [binding, hident, after_eq_none hfixed]

theorem counting_other (hs : ∀ tail, fixed s (m.toList ++ tail) = none)
    (htext : Spelled (.ident x :: .mark m h₂ :: us) text) : counting s count text = none := by
  obtain ⟨rest, hident, hrest⟩ := reads_ident htext
  obtain ⟨tail, hskip, -⟩ := hrest.skip.uncons
  have hfixed : fixed s (skip rest) = none := by
    rw [hskip]
    exact hs tail
  simp [counting, before, hident, hfixed]

theorem simple_eq (h : ident text = none) :
    simple text = (after "*" (binding "=" .store) text <|> declaration text) := by
  simp [simple, binding_eq_none h, counting_eq_none h]

theorem Reads.define {h₁} (h : Reads expr ts (.ok e) us) :
    Reads simple (.ident x :: .mark ":=" h₁ :: ts) (.ok (.define x.name e)) us := by
  refine h.binding.choose fun text r htext hr => ?_
  simp [simple, hr]

theorem reads_inc {h₁} : Reads simple [.ident x, .mark "++" h₁] (.ok (.inc x.name)) us := by
  refine reads_counting.choose fun text r htext hr => ?_
  have hdefine : binding ":=" .define text = none := binding_other (fun _ => rfl) htext
  simp [simple, hdefine, hr]

theorem reads_dec {h₁} : Reads simple [.ident x, .mark "--" h₁] (.ok (.dec x.name)) us := by
  refine reads_counting.choose fun text r htext hr => ?_
  have hdefine : binding ":=" .define text = none := binding_other (fun _ => rfl) htext
  have hinc : counting "++" .inc text = none := counting_other (fun _ => rfl) htext
  simp [simple, hdefine, hinc, hr]

theorem Reads.assign {h₁} (h : Reads expr ts (.ok e) us) :
    Reads simple (.ident x :: .mark "=" h₁ :: ts) (.ok (.assign x.name e)) us := by
  refine h.binding.choose fun text r htext hr => ?_
  have hdefine : Reader.binding ":=" .define text = none := binding_other (fun _ => rfl) htext
  have hinc : counting "++" .inc text = none := counting_other (fun _ => rfl) htext
  have hdec : counting "--" .dec text = none := counting_other (fun _ => rfl) htext
  simp [simple, hdefine, hinc, hdec, hr]

theorem Reads.store {h₁ h₂} (h : Reads expr ts (.ok e) us) :
    Reads simple (.mark "*" h₁ :: .ident x :: .mark "=" h₂ :: ts) (.ok (.store x.name e)) us := by
  refine h.binding.after.choose fun text r htext hr => ?_
  obtain ⟨tail, rfl, -⟩ := htext.uncons
  rw [simple_eq rfl, hr]
  rfl

theorem declaration_eq_none (h : fixed "var" text = none) : declaration text = none := by
  simp [declaration, after_eq_none h]

variable {ty : Scalar}

theorem Reads.declare {h₁ h₂} (h : Reads expr ts (.ok e) us) :
    Reads declaration (.mark "var" h₁ :: .ident x :: .scalar ty :: .mark "=" h₂ :: ts)
      (.ok (.var x.name ty (some e))) us := by
  intro text htext
  obtain ⟨rest, hident, hrest⟩ := reads_ident.after htext
  obtain ⟨rest₂, hscalar, hrest₂⟩ := reads_scalar hrest.skip
  obtain ⟨rest₃, hread, hrest₃⟩ := h.after hrest₂.skip
  exact ⟨rest₃, by simp [declaration, hident, hscalar, hread, Except.map], hrest₃⟩

theorem reads_declare {h₁} (hus : Closed us) :
    Reads declaration [.mark "var" h₁, .ident x, .scalar ty] (.ok (.var x.name ty none)) us := by
  intro text htext
  obtain ⟨rest, hident, hrest⟩ := reads_ident.after htext
  obtain ⟨rest₂, hscalar, hrest₂⟩ := reads_scalar hrest.skip
  have hunset := (hus hrest₂.skip).unset
  exact ⟨rest₂, by simp [declaration, hident, hscalar, after_eq_none hunset], hrest₂⟩

theorem ident_mark (hs : s ∈ keywords) (htext : Spelled (.mark s h₁ :: us) text) : ident text = none := by
  obtain ⟨tail, rfl, htail⟩ := htext.uncons
  exact ident_keyword hs htail.bounded.word

theorem simple_keyword (hs : s ∈ keywords) (hhead : s.toList.head?.any (· ∈ ['*', 'v']) = false)
    (htext : Spelled (.mark s h₁ :: us) text) : simple text = none := by
  rw [simple_eq (ident_mark hs htext)]
  obtain ⟨tail, rfl, htail⟩ := htext.uncons
  have hmarks : Stops (· ∈ ['*', 'v']) ((Token.mark s h₁).text ++ tail) := Token.stops_mark hhead
  have hstar : fixed "*" ((Token.mark s h₁).text ++ tail) = none := hmarks.fixed (by decide)
  have hvar : fixed "var" ((Token.mark s h₁).text ++ tail) = none := hmarks.fixed (by decide)
  simp [after_eq_none hstar, declaration_eq_none hvar]

theorem Reads.var {a : Stmt} {h₁} (h : Reads declaration (.mark "var" h₁ :: ts) (.ok a) us) :
    Reads simple (.mark "var" h₁ :: ts) (.ok a) us := by
  refine h.choose fun text r htext hr => ?_
  rw [simple_eq (ident_mark (by decide) htext)]
  obtain ⟨tail, rfl, -⟩ := htext.uncons
  exact hr

theorem Reads.statement {a : Stmt} (h : Reads simple ts (.ok a) us) : Reads (statement (depth + 1)) ts (.ok a) us := by
  refine h.choose fun text r htext hr => ?_
  simp [Reader.statement, hr]

theorem Reads.cond {a : Stmt} {h₁} (h : Reads (conditional depth) (.mark "if" h₁ :: ts) (.ok a) us) :
    Reads (Reader.statement (depth + 1)) (.mark "if" h₁ :: ts) (.ok a) us := by
  refine h.choose fun text r htext hr => ?_
  have hsimple := simple_keyword (by decide) (by decide) htext
  simp [Reader.statement, hsimple, hr]

theorem Reads.exit {h₁ h₂ h₃} (h : Reads expr ts (.ok e) (.mark ")" h₃ :: us)) :
    Reads (Reader.statement (depth + 1)) (.mark "riscvexit" h₁ :: .mark "(" h₂ :: (ts ++ [.mark ")" h₃]))
      (.ok (.exit e)) us := by
  intro text htext
  have hsimple := simple_keyword (by decide) (by decide) htext
  obtain ⟨rest, hread, hrest⟩ := h.before.after.after htext
  have hexit : exiting text = some (.ok (.exit e), rest) := by simp [exiting, hread, Except.map]
  have hcond : conditional depth text = none := by
    obtain ⟨tail, rfl, -⟩ := htext.uncons
    cases depth <;> rfl
  exact ⟨rest, by simp [Reader.statement, hsimple, hcond, hexit], hrest⟩

variable {bs as : List Token} {body otherwise : List Stmt}

theorem Reads.branch_none {h₁} (ht : Reads expr ts (.ok e) (bs ++ us))
    (hb : Reads (block (Reader.statement depth)) bs (.ok body) us) (hus : Closed us) :
    Reads (conditional (depth + 1)) (.mark "if" h₁ :: (ts ++ bs)) (.ok (.cond e body none)) us := by
  intro text htext
  rw [List.cons_append, List.append_assoc] at htext
  obtain ⟨rest, htest, hrest⟩ := ht.after htext
  obtain ⟨rest₂, hbody, hrest₂⟩ := hb hrest.skip
  have helse := (hus hrest₂.skip).noElse depth
  exact ⟨rest₂, by simp [conditional_succ, htest, hbody, helse, Except.bind, Except.map], hrest₂⟩

theorem Reads.branch_some {h₁} (ht : Reads expr ts (.ok e) (bs ++ (as ++ us)))
    (hb : Reads (block (Reader.statement depth)) bs (.ok body) (as ++ us))
    (ha : Reads (Reader.after "else" (alternative depth)) as (.ok otherwise) us) :
    Reads (conditional (depth + 1)) (.mark "if" h₁ :: (ts ++ (bs ++ as))) (.ok (.cond e body (some otherwise))) us := by
  intro text htext
  rw [List.cons_append, List.append_assoc, List.append_assoc] at htext
  obtain ⟨rest, htest, hrest⟩ := ht.after htext
  obtain ⟨rest₂, hbody, hrest₂⟩ := hb hrest.skip
  obtain ⟨rest₃, helse, hrest₃⟩ := ha hrest₂.skip
  exact ⟨rest₃, by simp [conditional_succ, htest, hbody, helse, Except.bind, Except.map], hrest₃⟩

theorem Reads.elseBlock {h₁} (h : Reads (block (Reader.statement depth)) (.mark "\x7b" h₁ :: ts) (.ok body) us) :
    Reads (alternative depth) (.mark "\x7b" h₁ :: ts) (.ok body) us := by
  refine h.choose fun text r htext hr => ?_
  have hcond : conditional depth text = none := by
    obtain ⟨tail, rfl, -⟩ := htext.uncons
    cases depth <;> rfl
  simp [alternative, hcond, hr]

theorem Reads.elseIf {a : Stmt} (h : Reads (conditional depth) ts (.ok a) us) :
    Reads (alternative depth) ts (.ok [a]) us := by
  intro text htext
  obtain ⟨rest, hread, hrest⟩ := h htext
  exact ⟨rest, by simp [alternative, hread, Except.map], hrest⟩

theorem statement_close {h₁} (htext : Spelled (.mark "\x7d" h₁ :: us) text) : Reader.statement depth text = none := by
  obtain ⟨tail, rfl, -⟩ := htext.uncons
  rcases depth with _ | _ | depth <;> rfl

end Reader

namespace Concrete

open Reader

variable {us : List Token} {text rest : List Char}

theorem Stmt.closed (s : Stmt) (hus : Closed us) : Closed (s.tokens ++ us) := by
  rw [Stmt.tokens.eq_def]
  cases s with
  | define x e => exact closed_name fun _ h => marked_of_ahead (by decide) h
  | assign x e => exact closed_name fun _ h => marked_of_ahead (by decide) h
  | inc x => exact closed_name fun _ h => marked_of_ahead (by decide) h
  | dec x => exact closed_name fun _ h => marked_of_ahead_dec hus h
  | store x e => exact closed_store
  | var x ty init => exact closed_keyword (by decide)
  | exit e => exact closed_keyword (by decide)
  | cond b =>
    cases b
    exact closed_keyword (by decide)

theorem closed_endTokens (semicolon : Bool) (hus : Closed us) : Closed (endTokens semicolon ++ us) := by
  cases semicolon with
  | false => exact hus
  | true => exact closed_mark (by decide)

theorem Block.closed {h₁} : ∀ b : Block, Closed (b.tokens ++ .mark "\x7d" h₁ :: us)
  | .nil => closed_mark (by decide)
  | .cons s semicolon rest => by
    rw [Block.tokens, List.append_assoc, List.append_assoc]
    exact s.closed (closed_endTokens semicolon rest.closed)

theorem Stmt.no_semicolon (s : Stmt) (htext : Spelled (s.tokens ++ us) text) : fixed ";" text = none := by
  rw [Stmt.tokens.eq_def] at htext
  cases s with
  | define x | assign x | inc x | dec x =>
    obtain ⟨tail, rfl, -⟩ := htext.uncons
    exact x.stops.fixed (by decide)
  | store | var | exit =>
    obtain ⟨tail, rfl, -⟩ := htext.uncons
    rfl
  | cond b =>
    cases b
    obtain ⟨tail, rfl, -⟩ := htext.uncons
    rfl

theorem Block.no_semicolon {h₁} (b : Block) (htext : Spelled (b.tokens ++ .mark "\x7d" h₁ :: us) text) :
    fixed ";" text = none := by
  cases b with
  | nil =>
    obtain ⟨tail, rfl, -⟩ := htext.uncons
    rfl
  | cons s semicolon b =>
    rw [Block.tokens, List.append_assoc] at htext
    exact s.no_semicolon htext

theorem Stmt.length_pos (s : Stmt) : 0 < s.tokens.length := List.length_pos_iff.mpr s.tokens_ne_nil

/-- A statement has been read: what is left behind its semicolon, if there is one. -/
theorem Block.skip_semicolon {h₁} (b : Block) {semicolon : Bool}
    (h : Ahead (endTokens semicolon ++ (b.tokens ++ .mark "\x7d" h₁ :: us)) rest) :
    Ahead (b.tokens ++ .mark "\x7d" h₁ :: us) ((fixed ";" (skip rest)).getD rest) := by
  cases semicolon with
  | true =>
    obtain ⟨rest', hfixed, hrest'⟩ := fixed_mark h.skip
    rwa [hfixed]
  | false =>
    rw [b.no_semicolon h.skip]
    exact h

/-- The statements of a block read as such, for blocks whose statements are read one by one. -/
def Block.Read (b : Block) (depth : Nat) : Prop :=
  ∀ ⦃n us rest h₁⦄, b.tokens.length ≤ n → Ahead (b.tokens ++ .mark "\x7d" h₁ :: us) rest →
    ∃ rest', statements (statement depth) n rest = (.ok b.ast, rest') ∧ Ahead (.mark "\x7d" h₁ :: us) rest'

theorem Block.Read.block {b : Block} {depth : Nat} (h : b.Read depth) :
    Reads (block (statement depth)) (braced b.tokens) (.ok b.ast) us := by
  intro text htext
  rw [braced, List.cons_append, List.append_assoc] at htext
  obtain ⟨rest, hopen, hrest⟩ := fixed_mark htext
  have hlength := hrest.length_le
  rw [List.length_append] at hlength
  obtain ⟨rest₂, hread, hrest₂⟩ := h (Nat.le_of_add_right_le hlength) hrest
  obtain ⟨rest₃, hclose, hrest₃⟩ := fixed_mark hrest₂.skip
  exact ⟨rest₃, by simp [Reader.block, hopen, hread, hclose], hrest₃⟩

mutual

theorem Stmt.reads : ∀ (s : Stmt) {depth : Nat} {us : List Token}, s.fits = true → s.tokens.length ≤ depth →
    Closed us → Reads (statement depth) s.tokens (.ok s.ast) us
  | s, 0, _, _, hd, _ => absurd hd (Nat.not_le.mpr s.length_pos)
  | .define x e, depth + 1, us, hfits, _, hus => (e.reads_expr hfits fun _ h => (hus h).unrelated).define.statement
  | .assign x e, depth + 1, us, hfits, _, hus => (e.reads_expr hfits fun _ h => (hus h).unrelated).assign.statement
  | .store x e, depth + 1, us, hfits, _, hus => (e.reads_expr hfits fun _ h => (hus h).unrelated).store.statement
  | .inc x, depth + 1, us, _, _, _ => reads_inc.statement
  | .dec x, depth + 1, us, _, _, _ => reads_dec.statement
  | .var x ty none, depth + 1, us, _, _, hus => (reads_declare hus).var.statement
  | .var x ty (some e), depth + 1, us, hfits, _, hus =>
    (e.reads_expr hfits fun _ h => (hus h).unrelated).declare.var.statement
  | .exit e, depth + 1, us, hfits, _, _ => (e.reads_expr hfits (unrelated_mark (by decide))).exit
  | .cond (.mk test body otherwise), depth + 1, us, hfits, hd, hus =>
    (Branch.reads (.mk test body otherwise) hfits hd hus).cond

theorem Branch.reads : ∀ (b : Branch) {depth : Nat} {us : List Token}, b.fits = true →
    b.tokens.length ≤ depth + 1 → Closed us → Reads (conditional depth) b.tokens (.ok b.ast) us
  | .mk test body otherwise, 0, _, _, hd, _ => by
    simp only [Branch.tokens, braced, List.length_cons, List.length_append] at hd
    omega
  | .mk test body .none, depth + 1, us, hfits, hd, hus => by
    obtain ⟨htest, hbody⟩ : test.fits = true ∧ body.fits = true := by
      simpa [Branch.fits, Alternative.fits] using hfits
    simp only [Branch.tokens, Alternative.tokens, braced, List.length_cons, List.length_append] at hd
    rw [Branch.tokens, Alternative.tokens, List.append_nil]
    exact (test.reads_expr htest (unrelated_mark (by decide))).branch_none (body.read hbody (by omega)).block hus
  | .mk test body (.block otherwise), depth + 1, us, hfits, hd, hus => by
    obtain ⟨⟨htest, hbody⟩, hotherwise⟩ : (test.fits = true ∧ body.fits = true) ∧ otherwise.fits = true := by
      simpa [Branch.fits, Alternative.fits] using hfits
    simp only [Branch.tokens, Alternative.tokens, braced, List.length_cons, List.length_append] at hd
    exact (test.reads_expr htest (unrelated_mark (by decide))).branch_some (body.read hbody (by omega)).block
      (otherwise.read hotherwise (by omega)).block.elseBlock.after
  | .mk test body (.chain b), depth + 1, us, hfits, hd, hus => by
    obtain ⟨⟨htest, hbody⟩, hb⟩ : (test.fits = true ∧ body.fits = true) ∧ b.fits = true := by
      simpa [Branch.fits, Alternative.fits] using hfits
    simp only [Branch.tokens, Alternative.tokens, braced, List.length_cons, List.length_append] at hd
    exact (test.reads_expr htest (unrelated_mark (by decide))).branch_some (body.read hbody (by omega)).block
      (b.reads hb (by omega) hus).elseIf.after

theorem Block.read : ∀ (b : Block) {depth : Nat}, b.fits = true → b.tokens.length ≤ depth → b.Read depth
  | .nil, depth, _, _ => by
    intro n us rest h₁ _ hrest
    refine ⟨rest, ?_, hrest⟩
    cases n with
    | zero => rfl
    | succ n =>
      rw [statements, statement_close hrest.skip]
      rfl
  | .cons s semicolon b, depth, hfits, hd => by
    intro n us rest h₁ hn hrest
    obtain ⟨hs, hb⟩ : s.fits = true ∧ b.fits = true := by simpa [Block.fits] using hfits
    have hpos := s.length_pos
    rw [Block.tokens, List.append_assoc, List.append_assoc] at hrest
    simp only [Block.tokens, List.length_append] at hd hn
    have hstmt : Reads (statement depth) s.tokens (.ok s.ast)
        (endTokens semicolon ++ (b.tokens ++ .mark "\x7d" h₁ :: us)) :=
      s.reads hs (by omega) (closed_endTokens semicolon b.closed)
    have hblock : b.Read depth := b.read hb (by omega)
    obtain ⟨rest₂, hread, hrest₂⟩ := hstmt hrest.skip
    cases n with
    | zero => omega
    | succ n =>
      have hlength : b.tokens.length ≤ n := by omega
      obtain ⟨rest₃, hread', hrest₃⟩ := hblock hlength (b.skip_semicolon hrest₂)
      exact ⟨rest₃, by simp [statements, hread, hread', Block.ast, Except.bind, Except.map], hrest₃⟩

end

variable {p : Program} {lead : List Char}

theorem Program.package_eq (htext : Spelled p.tokens text) :
    ∃ rest, after "package" Lexeme.ident text = p.package.map (fun x => (x.name, rest)) ∧
      (p.package = none → rest = text) ∧
      Spelled (.mark "func" :: .ident p.name :: .mark "(" :: .mark ")" :: braced p.body.tokens) (skip rest) := by
  rw [Program.tokens] at htext
  cases hpackage : p.package with
  | none =>
    rw [hpackage] at htext
    refine ⟨text, ?_, fun _ => rfl, ?_⟩
    · obtain ⟨tail, rfl, -⟩ := htext.uncons
      rfl
    · rw [htext.skip_eq]
      exact htext
  | some x =>
    rw [hpackage] at htext
    obtain ⟨rest, hread, hrest⟩ := reads_ident.after htext
    exact ⟨rest, hread, nofun, hrest.skip⟩

theorem Program.program_eq (hfits : p.fits = true) (hlead : Layout lead) (htext : Spelled p.tokens text) :
    Reader.program (lead ++ text) = some (.ok p.ast) := by
  obtain ⟨rest, hpackage, hnone, hrest⟩ := Program.package_eq htext
  obtain ⟨rest₂, hname, hrest₂⟩ := reads_ident.after hrest
  obtain ⟨rest₃, hopen, hrest₃⟩ := fixed_mark hrest₂.skip
  obtain ⟨rest₄, hclose, hrest₄⟩ := fixed_mark hrest₃.skip
  have hlength := hrest₄.length_le
  simp only [braced, List.length_cons, List.length_append] at hlength
  have hblock : p.body.Read (rest₄.length + 2) := p.body.read hfits (by omega)
  have hbody := hrest₄.skip
  rw [← List.append_nil (braced _)] at hbody
  obtain ⟨rest₅, hread, hrest₅⟩ := hblock.block hbody
  have hend : skip rest₅ = [] := hrest₅.skip.eq_nil
  rw [Reader.program, packageName, hlead.skip_append, htext.skip_eq, Program.ast]
  cases hp : p.package with
  | none =>
    obtain rfl := hnone hp
    simp [function, hpackage, hp, hname, hopen, hclose, hread, hend, Except.map]
  | some x => simp [function, hpackage, hp, hname, hopen, hclose, hread, hend, Except.map]

/-- Parsing undoes printing. Any layout may stand between two tokens as long as there is some; before the first and
behind the last there need be none. -/
theorem Program.parse_spelled (p : Program) (hfits : p.fits = true) (hlead : Layout lead)
    (htext : Spelled p.tokens text) : Comparand.Program.parse (String.ofList (lead ++ text)) = .ok p.ast := by
  have hread : Reader.program (String.ofList (lead ++ text)).toList = some (.ok p.ast) := by
    rw [String.toList_ofList, Program.program_eq hfits hlead htext]
  rw [Comparand.Program.parse_of_some hread]
  rfl

/-- The tokens with the same layout behind each of them. -/
def spread (gap : List Char) (ts : List Token) : List Char := ts.flatMap fun t => t.text ++ gap

theorem spelled_spread {gap : List Char} (hgap : Layout gap) (hne : gap ≠ []) (ts : List Token) :
    Spelled ts (spread gap ts) := by
  induction ts with
  | nil => exact .nil
  | cons t ts ih =>
    rw [spread, List.flatMap_cons, List.append_assoc]
    exact .cons hgap (Or.inr hne) ih

/-- Names that begin like `else` and `else if` follow an `if` without alternative, and `--` follows one of them. -/
def misleading : Program where
  package := some ⟨'m', [], by decide, by decide, by decide⟩
  name := ⟨'f', [], by decide, by decide, by decide⟩
  body :=
    .cons (.cond (.mk (.term (.name ⟨'x', [], by decide, by decide, by decide⟩)) .nil .none)) false
    (.cons (.dec ⟨'e', "lseif".toList, by decide, by decide, by decide⟩) false
    (.cons (.define ⟨'e', "lseif1".toList, by decide, by decide, by decide⟩
      (.term (.neg (.int ⟨"9223372036854775808".toList, by decide, by decide⟩)))) true
    (.cons (.cond (.mk
      (.compare .le (.float (.point ⟨"1".toList, by decide, by decide⟩ [] rfl
        (some ⟨'e', ['+'], ⟨"5".toList, by decide, by decide⟩, by decide, by decide⟩))) .nan) .nil
      (.chain (.mk (.term (.not (.paren (.term .inf)))) .nil (.block .nil))))) false .nil)))

/-- A comment that reads like an alternative. -/
def commented : List Char := "\t// else if\r".toList

theorem layout_commented : Layout commented := by
  have hcomment : Layout ('/' :: '/' :: (" else if".toList ++ '\r' :: [])) := .comment (by decide) rfl .nil
  exact .space rfl hcomment

theorem parse_spelled_misleading :
    misleading.fits = true ∧ Layout commented ∧ Spelled misleading.tokens (spread commented misleading.tokens) ∧
      Comparand.Program.parse (String.ofList (commented ++ spread commented misleading.tokens)) = .ok misleading.ast :=
  ⟨by decide, layout_commented, spelled_spread layout_commented (by decide) _,
    misleading.parse_spelled (by decide) layout_commented (spelled_spread layout_commented (by decide) _)⟩

end Concrete
end Comparand
