import Comparand.Proofs.Following

/-!
Words that touch. A word is a terminal that begins with a letter, a digit or an underscore; it touches the next one if
there is no layout in between. The lexemes of names, integers and named floats look at what is behind them, and the
keywords of exits and new cells have a parenthesis there. The other words end wherever they are complete.
-/
namespace Comparand

open Lexeme

namespace Phrase

/-- The fixed text that a phrase begins with. -/
def opening? : Phrase → Option String
  | fixed s => some s
  | seq p _ => p.opening?
  | _ => none

/-- All fixed texts of a phrase, without those of the rules in it. -/
def texts : Phrase → List String
  | fixed s => [s]
  | seq p q | alt p q => p.texts ++ q.texts
  | opt p | many p => p.texts
  | rule _ | lexeme _ => []

def isLexeme : Phrase → Bool
  | lexeme _ => true
  | _ => false

/-- The lexemes of a phrase are read from the front of a text. -/
def Forward : Phrase → Prop
  | lexeme rest? => ∀ cs rest, rest? cs = some rest → rest <:+ cs
  | seq p q | alt p q => p.Forward ∧ q.Forward
  | opt p | many p => p.Forward
  | fixed _ | rule _ => True

end Phrase

/-- A word in a text: the rule that asks for it, and what is behind it. -/
structure Word where
  rule : Rule
  text : List Char
  behind : List Char
deriving DecidableEq

namespace Piece

/-- What a piece holds besides the pieces in it: a lexeme, or the fixed text that it begins with. -/
def terminal (p : Piece) : List Char :=
  if p.rule.phrase.isLexeme then p.text else (p.rule.phrase.opening?.getD "").toList

def word? (p : Piece) : Option Word :=
  if wordGoesOn p.terminal then some ⟨p.rule, p.terminal, p.start.drop p.terminal.length⟩ else none

mutual

/-- The words of a piece, from front to back. -/
def words : Piece → List Word
  | mk r start rest inner => (mk r start rest inner).word?.toList ++ wordsOf inner

def wordsOf : List Piece → List Word
  | [] => []
  | p :: ps => p.words ++ wordsOf ps

end

theorem wordsOf_append (ps qs : List Piece) : wordsOf (ps ++ qs) = wordsOf ps ++ wordsOf qs := by
  induction ps with
  | nil => rfl
  | cons p ps ih => simp [wordsOf, ih]

theorem wordsOf_singleton (r : Rule) (start rest : List Char) (inner : List Piece) :
    wordsOf [mk r start rest inner] = (mk r start rest inner).word?.toList ++ wordsOf inner := by
  simp [wordsOf, words]

end Piece

/-- The rules with a word that ends wherever it is complete. -/
def Rule.loose : List Rule := [.packageClause, .funcDecl, .varDecl, .ifStmt, .elseClause, .typeName, .floatLit]

/-- The word stands in a text, and if it touches the next one its rule is loose. -/
structure Word.Placed (cs : List Char) (w : Word) : Prop where
  stands : w.text ++ w.behind <:+ cs
  touches : wordGoesOn w.behind = true → w.rule ∈ Rule.loose

theorem Word.Placed.mono {w : Word} {cs cs' : List Char} (h : w.Placed cs) (hcs : cs <:+ cs') : w.Placed cs' :=
  ⟨h.stands.trans hcs, h.touches⟩

/-! Lexemes -/

namespace Lexeme

variable {cs rest : List Char}

theorem wordGoesOn_dropWhile (cs : List Char) : wordGoesOn (cs.dropWhile isWordChar) = false := by
  induction cs with
  | nil => rfl
  | cons c cs ih =>
    rw [List.dropWhile_cons]
    split
    · exact ih
    next hc => simpa [wordGoesOn] using hc

theorem not_wordGoesOn_of_ident {x : String} (h : ident cs = some (x, rest)) : wordGoesOn rest = false := by
  cases cs with
  | nil => cases h
  | cons c cs =>
    rw [ident] at h
    split at h
    · dsimp only at h
      split at h
      · cases h
      · cases h
        exact wordGoesOn_dropWhile cs
    · cases h

theorem not_wordGoesOn_of_int {ds : List Char} (h : Lexeme.int cs = some (ds, rest)) : wordGoesOn rest = false := by
  rw [Lexeme.int] at h
  dsimp only at h
  split at h
  · cases h
  next hends =>
    cases h
    exact (Bool.or_eq_false_iff.mp (Bool.not_eq_true _ ▸ hends)).2

theorem not_wordGoesOn_of_whole {s : String} (h : whole s cs = some rest) : wordGoesOn rest = false := by
  obtain ⟨rest', -, hrest⟩ := Option.bind_eq_some_iff.mp h
  split at hrest
  · cases hrest
  next hends =>
    cases hrest
    exact Bool.not_eq_true _ ▸ hends

/-- Layout before a mark keeps it from a word, and so does the mark itself. -/
theorem not_wordGoesOn_of_mark {s : String} (hs : wordGoesOn s.toList = false) (hne : s.toList ≠ [])
    (h : skip cs = s.toList ++ rest) : wordGoesOn cs = false := by
  rcases cs with _ | ⟨c, cs⟩
  · rfl
  · rw [Bool.eq_false_iff]
    intro hc
    rw [skip_of_solid (solid_of_word hc)] at h
    rcases hlist : s.toList with _ | ⟨d, ds⟩
    · exact hne hlist
    · rw [hlist] at h hs
      cases h
      exact absurd hc (Bool.eq_false_iff.mp hs)

theorem skip_suffix (cs : List Char) : skip cs <:+ cs := by
  by_cases hskip : skip cs = []
  · rw [hskip]
    exact List.nil_suffix
  · obtain ⟨gap, -, hcs⟩ := layout_of_skip hskip
    exact ⟨gap, hcs.symm⟩

end Lexeme

namespace Phrase

variable {n : Nat} {p q : Phrase} {cs rest : List Char} {ps : List Piece} {s : String}

theorem forward_lexeme {α : Type} {read : List Char → Option (α × List Char)}
    (h : ∀ ⦃cs a rest⦄, read cs = some (a, rest) → ∃ text, cs = text ++ rest) :
    (lexeme fun cs => (read cs).map (·.2)).Forward := by
  intro cs rest hrest
  obtain ⟨⟨a, rest'⟩, hread, rfl⟩ := Option.map_eq_some_iff.mp hrest
  obtain ⟨text, rfl⟩ := h hread
  exact List.suffix_append text rest'

theorem forward_phrase (r : Rule) : r.phrase.Forward := by
  cases r with
  | endOfInput =>
    intro cs rest h
    obtain ⟨-, rfl⟩ : cs.isEmpty = true ∧ [] = rest := by simpa using h
    exact List.nil_suffix
  | ident =>
    exact forward_lexeme fun _ _ _ h =>
      let ⟨x, _, hcs⟩ := exists_ident h
      ⟨x.text, hcs⟩
  | relOp => exact forward_lexeme fun _ op _ h => ⟨op.symbol.toList, eq_append_of_relation h⟩
  | typeName => exact forward_lexeme fun _ ty _ h => ⟨ty.name.toList, eq_append_of_scalar h⟩
  | floatLit =>
    exact forward_lexeme fun _ _ _ h =>
      let ⟨t, _, hcs⟩ := exists_floatText h
      ⟨t.text, hcs⟩
  | intLit =>
    exact forward_lexeme fun _ _ _ h =>
      let ⟨n, _, hcs⟩ := exists_numeral_of_int h
      ⟨n.digits, hcs⟩
  | nanLit => exact fun _ _ h => ⟨_, (eq_append_of_whole h).symm⟩
  | infLit => exact fun _ _ h => ⟨_, (eq_append_of_whole h).symm⟩
  | _ => simp [Rule.phrase, sequence, choice, statement, operand, Forward]

/-- Every fixed text that begins like a word is the one its phrase begins with. -/
theorem opening?_phrase (r : Rule) : ∀ s ∈ r.phrase.texts, wordGoesOn s.toList = true → r.phrase.opening? = some s := by
  cases r <;> decide

theorem follow_fixed (h : (fixed s).follow n cs = some (ps, rest)) : ps = [] ∧ cs = s.toList ++ rest := by
  cases n with
  | zero => cases h
  | succ n =>
    obtain ⟨rest', hfixed, heq⟩ := Option.map_eq_some_iff.mp h
    cases heq
    exact ⟨rfl, fixed_eq_some.mp hfixed⟩

theorem follow_lexeme {rest? : List Char → Option (List Char)} (h : (lexeme rest?).follow n cs = some (ps, rest)) :
    rest? cs = some rest := by
  cases n with
  | zero => cases h
  | succ n =>
    obtain ⟨rest', hrest, heq⟩ := Option.map_eq_some_iff.mp h
    cases heq
    exact hrest

theorem follow_seq (h : (seq p q).follow n cs = some (ps, rest)) : ∃ k first mid second, n = k + 1 ∧
    p.follow k cs = some (first, mid) ∧ q.follow k (skip mid) = some (second, rest) ∧ ps = first ++ second := by
  cases n with
  | zero => cases h
  | succ n =>
    rw [follow] at h
    split at h
    · cases h
    next first mid hfirst =>
      obtain ⟨⟨second, rest'⟩, hsecond, heq⟩ := Option.map_eq_some_iff.mp h
      cases heq
      exact ⟨n, first, mid, second, rfl, hfirst, hsecond, rfl⟩

theorem prefix_of_opening? (hs : p.opening? = some s) (h : p.follow n cs = some (ps, rest)) : s.toList <+: cs := by
  induction p generalizing n ps rest with
  | fixed t =>
    cases hs
    exact ⟨rest, (follow_fixed h).2.symm⟩
  | seq p q ih _ =>
    obtain ⟨k, first, mid, second, -, hfirst, -, -⟩ := follow_seq h
    exact ih hs hfirst
  | _ => cases hs

/-- A keyword with a parenthesis behind it. -/
theorem not_wordGoesOn_of_parenthesis (h : (seq (fixed s) (seq (fixed "(") q)).follow n cs = some (ps, rest)) :
    wordGoesOn (cs.drop s.toList.length) = false := by
  obtain ⟨k, first, mid, second, -, hkeyword, hbehind, -⟩ := follow_seq h
  obtain ⟨-, hcs⟩ := follow_fixed hkeyword
  obtain ⟨_, _, mid', _, -, hparenthesis, -, -⟩ := follow_seq hbehind
  obtain ⟨-, hmid⟩ := follow_fixed hparenthesis
  rw [hcs, List.drop_left]
  exact not_wordGoesOn_of_mark (s := "(") (by decide) (by decide) hmid

end Phrase

namespace Piece

open Phrase

variable {n : Nat} {r : Rule} {cs rest : List Char} {inner : List Piece} {w : Word}

theorem terminal_leads (h : r.phrase.follow n cs = some (inner, rest)) : (mk r cs rest inner).terminal <+: cs := by
  rw [terminal, rule]
  split
  · exact List.take_prefix _ _
  · cases hopening : r.phrase.opening? with
    | none => exact List.nil_prefix
    | some s => exact prefix_of_opening? hopening h

theorem terminal_of_lexeme (hr : r.phrase.isLexeme = true) (text : List Char) :
    (mk r (text ++ rest) rest inner).terminal = text := by
  simp [terminal, rule, hr, Piece.text]

theorem terminal_of_opening (hr : r.phrase.isLexeme = false) :
    (mk r cs rest inner).terminal = (r.phrase.opening?.getD "").toList := by
  simp [terminal, rule, hr]

theorem word?_eq_some : (mk r cs rest inner).word? = some w ↔ wordGoesOn (mk r cs rest inner).terminal = true ∧
    w = ⟨r, (mk r cs rest inner).terminal, cs.drop (mk r cs rest inner).terminal.length⟩ := by
  rw [word?]
  split
  next hword => simp [hword, rule, start, eq_comm]
  next hword => simp [hword]

/-- Lexemes whose rest was looked at do not touch what is behind them. -/
theorem not_touches_of_lexeme (hr : r.phrase.isLexeme = true) (hrest : rest <:+ cs) (hends : wordGoesOn rest = false) :
    wordGoesOn (cs.drop (mk r cs rest inner).terminal.length) = false := by
  obtain ⟨text, rfl⟩ := hrest
  rwa [terminal_of_lexeme hr, List.drop_left]

/-- A word is that of a loose rule or apart from the next one: other lexemes have looked at what is behind them, other
keywords have a parenthesis there, and other rules have no word. -/
theorem loose_or_apart (h : r.phrase.follow n cs = some (inner, rest)) (hrest : rest <:+ cs)
    (hword : wordGoesOn (mk r cs rest inner).terminal = true) :
    r ∈ Rule.loose ∨ wordGoesOn (cs.drop (mk r cs rest inner).terminal.length) = false := by
  cases r with
  | ident =>
    obtain ⟨⟨x, rest'⟩, hread, rfl⟩ := Option.map_eq_some_iff.mp (follow_lexeme h)
    exact .inr (not_touches_of_lexeme rfl hrest (not_wordGoesOn_of_ident hread))
  | intLit =>
    obtain ⟨⟨ds, rest'⟩, hread, rfl⟩ := Option.map_eq_some_iff.mp (follow_lexeme h)
    exact .inr (not_touches_of_lexeme rfl hrest (not_wordGoesOn_of_int hread))
  | nanLit | infLit => exact .inr (not_touches_of_lexeme rfl hrest (not_wordGoesOn_of_whole (follow_lexeme h)))
  | exitStmt | newExpr => exact .inr (not_wordGoesOn_of_parenthesis h)
  | packageClause | funcDecl | varDecl | ifStmt | elseClause | typeName | floatLit => exact .inl (by decide)
  | relOp =>
    obtain ⟨⟨op, rest'⟩, hread, rfl⟩ := Option.map_eq_some_iff.mp (follow_lexeme h)
    rw [eq_append_of_relation hread, terminal_of_lexeme rfl] at hword
    cases op <;> exact absurd hword (by decide)
  | endOfInput =>
    obtain ⟨rfl, rfl⟩ : cs = [] ∧ [] = rest := by simpa using follow_lexeme h
    have hterminal : (mk .endOfInput [] [] inner).terminal = [] := terminal_of_lexeme rfl []
    rw [hterminal] at hword
    cases hword
  | _ =>
    rw [terminal_of_opening rfl] at hword
    exact absurd hword (by decide)

theorem placed_of_word? (h : r.phrase.follow n cs = some (inner, rest)) (hrest : rest <:+ cs)
    (hw : (mk r cs rest inner).word? = some w) : w.Placed cs := by
  obtain ⟨hword, rfl⟩ := word?_eq_some.mp hw
  refine ⟨⟨[], List.prefix_iff_eq_append.mp (terminal_leads h)⟩, fun htouches => ?_⟩
  exact (loose_or_apart h hrest hword).resolve_right (Bool.not_eq_false _ ▸ htouches)

end Piece

/-- Where the pieces found in a text are: their words stand in it, and so does what is left. -/
structure Piece.Located (cs : List Char) (ps : List Piece) (rest : List Char) : Prop where
  suffix : rest <:+ cs
  words : ∀ w ∈ Piece.wordsOf ps, w.Placed cs

namespace Piece.Located

variable {cs cs' mid rest : List Char} {ps qs : List Piece}

theorem nil (h : rest <:+ cs) : Located cs [] rest := ⟨h, by simp [wordsOf]⟩

theorem mono (h : Located cs ps rest) (hcs : cs <:+ cs') : Located cs' ps rest :=
  ⟨h.suffix.trans hcs, fun w hw => (h.words w hw).mono hcs⟩

theorem append (h : Located cs ps mid) (h' : Located mid qs rest) : Located cs (ps ++ qs) rest := by
  refine ⟨h'.suffix.trans h.suffix, fun w hw => ?_⟩
  rw [wordsOf_append, List.mem_append] at hw
  exact hw.elim (h.words w) ((h'.mono h.suffix).words w)

theorem rule {n : Nat} {r : Rule} (hr : r.phrase.follow n cs = some (ps, rest)) (h : Located cs ps rest) :
    Located cs [.mk r cs rest ps] rest := by
  refine ⟨h.suffix, fun w hw => ?_⟩
  rw [wordsOf_singleton, List.mem_append, Option.mem_toList] at hw
  exact hw.elim (placed_of_word? hr h.suffix) (h.words w)

end Piece.Located

namespace Phrase

variable {n : Nat} {p : Phrase} {cs rest : List Char} {ps : List Piece}

theorem follow_located (hp : p.Forward) (h : p.follow n cs = some (ps, rest)) : Piece.Located cs ps rest := by
  induction n generalizing p cs ps rest with
  | zero => cases h
  | succ n ih =>
    cases p with
    | fixed s =>
      obtain ⟨rfl, rfl⟩ := follow_fixed h
      exact .nil (List.suffix_append _ _)
    | lexeme rest? =>
      obtain ⟨_, hread, heq⟩ := Option.map_eq_some_iff.mp h
      cases heq
      exact .nil (hp cs rest hread)
    | rule r =>
      obtain ⟨⟨inner, rest'⟩, hinner, heq⟩ := Option.map_eq_some_iff.mp h
      cases heq
      exact .rule hinner (ih (forward_phrase r) hinner)
    | seq p q =>
      obtain ⟨k, first, mid, second, hk, hfirst, hsecond, rfl⟩ := follow_seq h
      cases hk
      exact (ih hp.1 hfirst).append ((ih hp.2 hsecond).mono (skip_suffix mid))
    | alt p q =>
      rcases Option.or_eq_some_iff.mp h with hfirst | ⟨-, hsecond⟩
      · exact ih hp.1 hfirst
      · exact ih hp.2 hsecond
    | opt p =>
      rw [follow] at h
      rcases hfound : p.follow n cs with _ | ⟨found, rest'⟩ <;> rw [hfound] at h <;> cases h
      · exact .nil List.suffix_rfl
      · exact ih (p := p) hp hfound
    | many p =>
      rw [follow] at h
      split at h
      · cases h
        exact .nil List.suffix_rfl
      next first mid hfirst =>
        obtain ⟨⟨more, rest'⟩, hmore, heq⟩ := Option.map_eq_some_iff.mp h
        cases heq
        exact ((ih (p := p) hp hfirst).mono (skip_suffix cs)).append (ih hp hmore)

end Phrase

namespace Program

/-- In a text that fits, a word that touches the next one is `package`, `func`, `var`, `if`, `else`, the name of a type
or a float with digits. Names, integers, the named floats, `new` and `riscvexit` are never touched. There are no fixed
texts of words but those that rules begin with, so no word is left out. -/
theorem words_placed (source : String) :
    (fits source = true ↔ ∃ ps c, (Phrase.walkProgram source.toList).1 = some (ps, c)) ∧
    (∀ ps c, (Phrase.walkProgram source.toList).1 = some (ps, c) → ∀ w ∈ Piece.wordsOf ps,
      w.text ++ w.behind <:+ source.toList ∧ (wordGoesOn w.behind = true → w.rule ∈ Rule.loose)) ∧
    ∀ r, ∀ s ∈ (Rule.phrase r).texts, wordGoesOn s.toList = true → r.phrase.opening? = some s := by
  refine ⟨by simp [fits, Option.isSome_iff_exists], fun ps c hwalk w hw => ?_, Phrase.opening?_phrase⟩
  have hfollow := Phrase.map_walk (64 * (source.toList.length + 2)) (.rule .program) (.ofText source.toList)
    ⟨source.toList.length, []⟩
  rw [← Phrase.walkProgram, hwalk] at hfollow
  have hplaced := (Phrase.follow_located (p := .rule .program) trivial hfollow.symm).words w hw
  exact ⟨hplaced.stands, hplaced.touches⟩

/-- A text with no more layout than has to be. -/
def jammed : String := "packagem funcf()\x7bvarx inty:=1.5ifx==1\x7b\x7delseif x==2\x7b\x7d\x7d"

theorem words_placed_jammed : ∃ ps c, (Phrase.walkProgram jammed.toList).1 = some (ps, c) ∧
    ∃ w ∈ Piece.wordsOf ps, w.rule = .ident ∧ w.text = ['y'] ∧ w.text ++ w.behind <:+ jammed.toList ∧
      wordGoesOn w.behind = false := by
  have hfits : fits jammed = true := by decide +kernel
  have hword : ((Phrase.walkProgram jammed.toList).1.all fun found =>
      (Piece.wordsOf found.1).any fun w => w.rule = .ident ∧ w.text = ['y']) = true := by decide +kernel
  obtain ⟨hfound, hplaced, -⟩ := words_placed jammed
  obtain ⟨ps, c, hwalk⟩ := hfound.mp hfits
  rw [hwalk] at hword
  obtain ⟨w, hw, hrule, htext⟩ : ∃ w ∈ Piece.wordsOf ps, w.rule = .ident ∧ w.text = ['y'] := by simpa using hword
  obtain ⟨hstands, htouches⟩ := hplaced ps c hwalk w hw
  refine ⟨ps, c, hwalk, w, hw, hrule, htext, hstands, Bool.eq_false_iff.mpr fun hgoesOn => ?_⟩
  have hloose := htouches hgoesOn
  rw [hrule] at hloose
  exact absurd hloose (by decide)

/-- The word of each loose rule can touch the next one: what is behind it is that one. -/
theorem words_touching : ∃ ps c, (Phrase.walkProgram jammed.toList).1 = some (ps, c) ∧
    ∀ r ∈ Rule.loose, ∃ w ∈ Piece.wordsOf ps, ∃ w' ∈ Piece.wordsOf ps,
      w.rule = r ∧ wordGoesOn w.behind = true ∧ w.behind = w'.text ++ w'.behind := by
  have htouches : ((Phrase.walkProgram jammed.toList).1.any fun found => Rule.loose.all fun r =>
      (Piece.wordsOf found.1).any fun w => (Piece.wordsOf found.1).any fun w' =>
        w.rule = r ∧ wordGoesOn w.behind = true ∧ w.behind = w'.text ++ w'.behind) = true := by decide +kernel
  rcases hwalk : (Phrase.walkProgram jammed.toList).1 with _ | ⟨ps, c⟩ <;> rw [hwalk] at htouches
  · cases htouches
  · exact ⟨ps, c, rfl, by simpa using htouches⟩

end Program
end Comparand
