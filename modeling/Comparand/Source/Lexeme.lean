import Comparand.Decimal.Reader
import Comparand.Text.Blank

/-!
The words of the language and the layout between them. A lexeme is read from the front of a text; the result is what was
read, if it is more than a yes, and the rest.
-/

namespace Comparand.Lexeme

def isSpace (c : Char) : Bool := c == ' ' || c == '\t' || c == '\r' || c == '\n'

/-- The rest of a text after layout; `inComment` tells whether its front is inside a comment. A comment goes from two
slashes to the end of the line, and the end of the line is itself white space. -/
def skipLayout : Bool → List Char → List Char
  | _, [] => []
  | true, c :: cs => skipLayout (!(c == '\n' || c == '\r')) cs
  | false, c :: cs =>
    if isSpace c then skipLayout false cs
    else match c, cs with
      | '/', '/' :: rest => skipLayout true rest
      | _, _ => c :: cs

/-- The rest of a text after white space and comments. -/
def skip (cs : List Char) : List Char := skipLayout false cs

def isWordStart (c : Char) : Bool := c.isAlpha || c == '_'

def isWordChar (c : Char) : Bool := c.isAlphanum || c == '_'

/-- Whether a text goes on with a character of words. -/
def wordGoesOn : List Char → Bool
  | [] => false
  | c :: _ => isWordChar c

/-- The rest after a fixed text. -/
def fixed (s : String) (cs : List Char) : Option (List Char) := Text.after? s.toList cs

/-- Words that are no identifiers. -/
def keywords : List String :=
  ["package", "func", "var", "if", "else", "new", "riscvexit", "float64", "float32", "int", "NaN", "Inf"]

/-- An identifier: a whole word that is no keyword. -/
def ident : List Char → Option (String × List Char)
  | [] => none
  | c :: cs =>
    if isWordStart c then
      let x := String.ofList (c :: cs.takeWhile isWordChar)
      if x ∈ keywords then none else some (x, cs.dropWhile isWordChar)
    else none

/-- A fixed text that is not the front of a longer word. -/
def whole (s : String) (cs : List Char) : Option (List Char) := do
  let rest ← fixed s cs
  if wordGoesOn rest then none else some rest

/-- The exponent of a number: its text and the rest. -/
def exponent : List Char → Option (List Char × List Char)
  | [] => none
  | c :: cs =>
    if c == 'e' || c == 'E' then
      let (sign, cs) := match cs with
        | '+' :: rest => (['+'], rest)
        | '-' :: rest => (['-'], rest)
        | rest => ([], rest)
      let (ds, rest) := Decimal.spanDigits cs
      if ds.isEmpty then none else some (c :: sign ++ ds, rest)
    else none

/-- A number with a point or an exponent: its text and the rest. Digits may be missing after the point only. -/
def float (cs : List Char) : Option (List Char × List Char) :=
  let (digits, rest) := Decimal.spanDigits cs
  if digits.isEmpty then none
  else match rest with
    | '.' :: rest =>
      let (fraction, rest) := Decimal.spanDigits rest
      let (e, rest) := (exponent rest).getD ([], rest)
      some (digits ++ '.' :: fraction ++ e, rest)
    | rest => (exponent rest).map fun (e, rest) => (digits ++ e, rest)

/-- A number without point and exponent: its digits and the rest. -/
def int (cs : List Char) : Option (List Char × List Char) :=
  let (digits, rest) := Decimal.spanDigits cs
  if digits.isEmpty || wordGoesOn rest then none else some (digits, rest)

end Comparand.Lexeme
