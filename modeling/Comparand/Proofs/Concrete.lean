import Comparand.Proofs.Lexing
import Comparand.Source.Syntax

/-!
Programs as they are written. A concrete tree keeps what syntax trees forget: the words of numbers, semicolons, and
whether an alternative is a block. Its tokens are spelled out with layout between them.
-/
namespace Comparand

open Lexeme

/-- A word or a mark. -/
structure Token where
  text : List Char
  solid : Lexeme.solid text = true

namespace Token

def mark (s : String) (h : Lexeme.solid s.toList = true := by decide) : Token := ⟨s.toList, h⟩

theorem solid_of_digits (n : Numeral) (rest : List Char) : Lexeme.solid (n.digits ++ rest) = true := by
  obtain ⟨d, ds, hdigits, hd⟩ := n.exists_cons
  rw [hdigits, List.cons_append]
  exact solid_of_word (by simp [isWordChar, Char.isAlphanum, hd])

def ident (x : Ident) : Token := ⟨x.text, solid_of_word (isWordChar_of_isWordStart x.starts)⟩

def numeral (n : Numeral) : Token := ⟨n.digits, by simpa using solid_of_digits n []⟩

def float (t : FloatText) : Token := ⟨t.text, solid_of_digits t.whole t.scale⟩

def scalar (ty : Scalar) : Token := mark ty.name (by cases ty <;> decide)

def relation (op : Relation) : Token := mark op.symbol (by cases op <;> decide)

theorem text_ident (x : Ident) : (ident x).text = x.text := rfl

theorem text_numeral (n : Numeral) : (numeral n).text = n.digits := rfl

theorem text_float (t : FloatText) : (float t).text = t.whole.digits ++ t.scale := rfl

theorem stops_mark {s : String} {hs : Lexeme.solid s.toList = true} {p : Char → Bool} {rest : List Char}
    (h : s.toList.head?.any p = false) : Stops p ((mark s hs).text ++ rest) := by
  intro c hc
  cases htext : s.toList with
  | nil => exact absurd hs (by simp [htext, Lexeme.solid])
  | cons d ds =>
    have hd : p d = false := by simpa [htext] using h
    obtain rfl : d = c := by simpa [mark, htext] using hc
    exact hd

end Token

namespace Concrete

mutual

/-- An operand with signs and negations before it. -/
inductive Term where
  | new (ty : Scalar)
  | deref (x : Ident)
  | float (t : FloatText)
  | int (n : Numeral)
  | nan
  | inf
  | name (x : Ident)
  | paren (e : Expr)
  | not (t : Term)
  | neg (t : Term)

inductive Expr where
  | term (t : Term)
  | compare (op : Relation) (lhs rhs : Term)

end

mutual

inductive Stmt where
  | define (x : Ident) (value : Expr)
  | var (x : Ident) (ty : Scalar) (init : Option Expr)
  | assign (x : Ident) (value : Expr)
  | store (x : Ident) (value : Expr)
  | inc (x : Ident)
  | dec (x : Ident)
  | cond (branch : Branch)
  | exit (code : Expr)

inductive Branch where
  | mk (test : Expr) (body : Block) (otherwise : Alternative)

/-- What an `if` ends with. -/
inductive Alternative where
  | none
  | block (body : Block)
  /-- Another `if` right behind the `else`. -/
  | chain (branch : Branch)

inductive Block where
  | nil
  | cons (s : Stmt) (semicolon : Bool) (rest : Block)

end

structure Program where
  package : Option Ident
  name : Ident
  body : Block

/-! Tokens -/

mutual

def Term.tokens : Term → List Token
  | .new ty => [.mark "new", .mark "(", .scalar ty, .mark ")"]
  | .deref x => [.mark "*", .ident x]
  | .float t => [.float t]
  | .int n => [.numeral n]
  | .nan => [.mark "NaN"]
  | .inf => [.mark "Inf"]
  | .name x => [.ident x]
  | .paren e => .mark "(" :: (e.tokens ++ [.mark ")"])
  | .not t => .mark "!" :: t.tokens
  | .neg t => .mark "-" :: t.tokens

def Expr.tokens : Expr → List Token
  | .term t => t.tokens
  | .compare op lhs rhs => lhs.tokens ++ .relation op :: rhs.tokens

end

/-- The initial value of a declaration, if there is one. -/
def initTokens : Option Expr → List Token
  | none => []
  | some e => .mark "=" :: e.tokens

/-- A block around the tokens of its statements. -/
def braced (ts : List Token) : List Token := .mark "\x7b" :: (ts ++ [.mark "\x7d"])

/-- The semicolon behind a statement, if there is one. -/
def endTokens (semicolon : Bool) : List Token := if semicolon then [.mark ";"] else []

mutual

def Stmt.tokens : Stmt → List Token
  | .define x e => .ident x :: .mark ":=" :: e.tokens
  | .var x ty init => .mark "var" :: .ident x :: .scalar ty :: initTokens init
  | .assign x e => .ident x :: .mark "=" :: e.tokens
  | .store x e => .mark "*" :: .ident x :: .mark "=" :: e.tokens
  | .inc x => [.ident x, .mark "++"]
  | .dec x => [.ident x, .mark "--"]
  | .cond b => b.tokens
  | .exit e => .mark "riscvexit" :: .mark "(" :: (e.tokens ++ [.mark ")"])

def Branch.tokens : Branch → List Token
  | .mk test body otherwise => .mark "if" :: (test.tokens ++ (braced body.tokens ++ otherwise.tokens))

def Alternative.tokens : Alternative → List Token
  | .none => []
  | .block body => .mark "else" :: braced body.tokens
  | .chain b => .mark "else" :: b.tokens

def Block.tokens : Block → List Token
  | .nil => []
  | .cons s semicolon rest => s.tokens ++ (endTokens semicolon ++ rest.tokens)

end

def packageTokens : Option Ident → List Token
  | none => []
  | some x => [.mark "package", .ident x]

def Program.tokens (p : Program) : List Token :=
  packageTokens p.package ++ .mark "func" :: .ident p.name :: .mark "(" :: .mark ")" :: braced p.body.tokens

theorem Term.tokens_ne_nil (t : Term) : t.tokens ≠ [] := by
  cases t <;> simp [Term.tokens]

theorem Expr.tokens_ne_nil (e : Expr) : e.tokens ≠ [] := by
  cases e <;> simp [Expr.tokens, Term.tokens_ne_nil]

theorem Stmt.tokens_ne_nil (s : Stmt) : s.tokens ≠ [] := by
  cases s with
  | cond b =>
    cases b
    simp [Stmt.tokens, Branch.tokens]
  | _ => simp [Stmt.tokens]

/-! Meaning -/

/-- A numeral that fits 64 bits only together with a minus. -/
def Term.isLeast : Term → Bool
  | .int n => n.value == Nat.pow 2 63
  | _ => false

mutual

/-- All numerals fit 64 bits, alone or directly behind a minus. -/
def Term.fits : Term → Bool
  | .int n => n.value < Nat.pow 2 63
  | .paren e => e.fits
  | .not t => t.fits
  | .neg t => t.isLeast || t.fits
  | _ => true

def Expr.fits : Expr → Bool
  | .term t => t.fits
  | .compare _ lhs rhs => lhs.fits && rhs.fits

end

mutual

def Term.ast : Term → Comparand.Expr
  | .new ty => .new ty
  | .deref x => .deref x.name
  | .float t => .literal (.float t.value)
  | .int n => .literal (.int (.ofNat n.value))
  | .nan => .literal (.float .nan)
  | .inf => .literal (.float .infinity)
  | .name x => .name x.name
  | .paren e => .paren e.ast
  | .not t => .not t.ast
  | .neg t => if t.isLeast then .literal (.int Int64.minValue) else .neg t.ast

def Expr.ast : Expr → Comparand.Expr
  | .term t => t.ast
  | .compare op lhs rhs => .compare op lhs.ast rhs.ast

end

mutual

def Stmt.fits : Stmt → Bool
  | .define _ e | .assign _ e | .store _ e | .exit e => e.fits
  | .var _ _ init => init.all Expr.fits
  | .inc _ | .dec _ => true
  | .cond b => b.fits

def Branch.fits : Branch → Bool
  | .mk test body otherwise => test.fits && body.fits && otherwise.fits

def Alternative.fits : Alternative → Bool
  | .none => true
  | .block body => body.fits
  | .chain b => b.fits

def Block.fits : Block → Bool
  | .nil => true
  | .cons s _ rest => s.fits && rest.fits

end

mutual

def Stmt.ast : Stmt → Comparand.Stmt
  | .define x e => .define x.name e.ast
  | .var x ty init => .var x.name ty (init.map Expr.ast)
  | .assign x e => .assign x.name e.ast
  | .store x e => .store x.name e.ast
  | .inc x => .inc x.name
  | .dec x => .dec x.name
  | .cond b => b.ast
  | .exit e => .exit e.ast

def Branch.ast : Branch → Comparand.Stmt
  | .mk test body otherwise => .cond test.ast body.ast otherwise.ast

def Alternative.ast : Alternative → Option (List Comparand.Stmt)
  | .none => none
  | .block body => some body.ast
  | .chain b => some [b.ast]

def Block.ast : Block → List Comparand.Stmt
  | .nil => []
  | .cons s _ rest => s.ast :: rest.ast

end

def Program.fits (p : Program) : Bool := p.body.fits

def Program.ast (p : Program) : Comparand.Program := ⟨p.package.map Ident.name, p.name.name, p.body.ast⟩

end Concrete

/-! Spelling -/

/-- A text holds the tokens in order. Layout follows each of them, and is missing behind the last only. -/
inductive Spelled : List Token → List Char → Prop where
  | nil : Spelled [] []
  | cons {t : Token} {ts : List Token} {gap text : List Char} (hgap : Layout gap) (hne : ts = [] ∨ gap ≠ [])
      (h : Spelled ts text) : Spelled (t :: ts) (t.text ++ (gap ++ text))

/-- What is left of a spelled text when a token has been read: layout, and the tokens ahead. -/
def Ahead (ts : List Token) (rest : List Char) : Prop :=
  ∃ gap text, rest = gap ++ text ∧ Layout gap ∧ (ts = [] ∨ gap ≠ []) ∧ Spelled ts text

variable {t : Token} {ts : List Token} {text rest : List Char}

theorem Spelled.uncons (h : Spelled (t :: ts) text) : ∃ rest, text = t.text ++ rest ∧ Ahead ts rest := by
  cases h with
  | cons hgap hne h => exact ⟨_, rfl, _, _, rfl, hgap, hne, h⟩

theorem Spelled.eq_nil (h : Spelled [] text) : text = [] := by
  cases h
  rfl

theorem Spelled.skip_eq (h : Spelled ts text) : skip text = text := by
  cases h with
  | nil => rfl
  | @cons t =>
    apply skip_of_solid
    have hsolid := t.solid
    cases htext : t.text with
    | nil => exact absurd hsolid (by simp [htext, solid])
    | cons c cs => simpa [htext, solid] using hsolid

theorem Ahead.skip (h : Ahead ts rest) : Spelled ts (skip rest) := by
  obtain ⟨gap, text, rfl, hgap, -, htext⟩ := h
  rwa [hgap.skip_append, htext.skip_eq]

theorem Ahead.bounded (h : Ahead ts rest) : Bounded rest := by
  obtain ⟨gap, text, rfl, hgap, hne, htext⟩ := h
  by_cases hgap' : gap = []
  · subst hgap'
    obtain rfl : ts = [] := by simpa using hne
    cases htext
    simp [Bounded]
  · exact hgap.bounded hgap' text

theorem Spelled.length_le (h : Spelled ts text) : ts.length ≤ text.length := by
  induction h with
  | nil => exact Nat.le_refl _
  | @cons t _ _ _ _ _ _ ih =>
    have hsolid := t.solid
    cases htext : t.text with
    | nil => exact absurd hsolid (by simp [htext, solid])
    | cons c cs =>
      simp only [List.length_append, List.length_cons]
      omega

theorem Ahead.length_le (h : Ahead ts rest) : ts.length ≤ rest.length := by
  obtain ⟨gap, text, rfl, -, -, htext⟩ := h
  have hlength := htext.length_le
  rw [List.length_append]
  omega

end Comparand
