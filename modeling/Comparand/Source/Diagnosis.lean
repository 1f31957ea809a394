import Comparand.Source.Builder

/-!
Parsing. The grammar is followed through a text, which gives pieces if the text is a program, and otherwise where and
why it is none; a program is then built from the pieces.

The place of a syntax error is the farthest one at which a rule was tried in vain; the reasons are the rules tried
there. If exactly one rule failed inside a failing rule at the place where that one begins, it stands for it; if more
did, the outer rule stands for all of them.
-/

namespace Comparand

/-- A place in a text, by what is left of it. -/
structure Cursor where
  rest : List Char
  left : Nat

namespace Cursor

def ofText (cs : List Char) : Cursor := ⟨cs, cs.length⟩

/-- The place where a given rest begins. -/
def moveTo (rest : List Char) : Cursor := ⟨rest, rest.length⟩

/-- The place after layout. -/
def skip (c : Cursor) : Cursor :=
  match c.rest with
  | [] => c
  | d :: _ => if Lexeme.isSpace d || d == '/' then moveTo (Lexeme.skip c.rest) else c

end Cursor

/-- The farthest place of failure, and the rules that failed there. -/
structure Trace where
  left : Nat
  failed : List Rule

namespace Trace

/-- How many rules failed at a place that may be the farthest one. -/
def count (t : Trace) (left : Nat) : Nat := if left = t.left then t.failed.length else 0

/-- Notes that a rule failed; `before` is what `count` said when the rule was begun. -/
def note (t : Trace) (r : Rule) (left before : Nat) : Trace :=
  if t.count left = before + 1 then t
  else if left = t.left then { t with failed := t.failed.take before ++ [r] }
  else if left < t.left then ⟨left, [r]⟩
  else t

end Trace

namespace Phrase

/-- Follows a phrase through a text: the pieces found and the place behind them. `fuel` bounds the depth of the
walk. -/
def walk : Nat → Phrase → Cursor → Trace → Option (List Piece × Cursor) × Trace
  | 0, _, _, t => (none, t)
  | _ + 1, fixed s, c, t => ((Lexeme.fixed s c.rest).map fun rest => ([], ⟨rest, c.left - s.length⟩), t)
  | _ + 1, lexeme rest?, c, t => ((rest? c.rest).map fun rest => ([], .moveTo rest), t)
  | n + 1, rule r, c, t =>
    match walk n r.phrase c t with
    | (none, after) => (none, after.note r c.left (t.count c.left))
    | (some (inner, d), after) => (some ([.mk r c.rest d.rest inner], d), after)
  | n + 1, seq p q, c, t =>
    match walk n p c t with
    | (none, t) => (none, t)
    | (some (first, c), t) =>
      match walk n q c.skip t with
      | (none, t) => (none, t)
      | (some (second, c), t) => (some (first ++ second, c), t)
  | n + 1, alt p q, c, t =>
    match walk n p c t with
    | (none, t) => walk n q c t
    | found => found
  | n + 1, opt p, c, t =>
    match walk n p c t with
    | (none, t) => (some ([], c), t)
    | found => found
  | n + 1, many p, c, t =>
    match walk n p c.skip t with
    | (none, t) => (some ([], c), t)
    | (some (first, c), t) =>
      match walk n (many p) c t with
      | (none, t) => (none, t)
      | (some (more, c), t) => (some (first ++ more, c), t)

/-- Follows the grammar through a whole text. -/
def walkProgram (cs : List Char) : Option (List Piece × Cursor) × Trace :=
  (rule .program).walk (64 * (cs.length + 2)) (.ofText cs) ⟨cs.length, []⟩

end Phrase

/-- Why a text is no program: a place, the line that it is on, and what was expected there. -/
structure SyntaxError where
  line : Nat
  column : Nat
  lineText : List Char
  expected : List Rule
deriving DecidableEq

/-- The line and column, from 1 on, of the place after `before`. Only a line feed ends a line. -/
def lineColumn (before : List Char) : Nat × Nat :=
  (before.count '\n' + 1, (before.reverse.takeWhile (· != '\n')).length + 1)

/-- The line on which the place between `before` and `rest` is. Its end is not shown, unless the place is at the end. -/
def lineAt (before rest : List Char) : List Char :=
  let start := (before.reverse.takeWhile (· != '\n')).reverse
  let atEnd := match rest with
    | c :: _ => c == '\n' || c == '\r'
    | [] => false
  let line := start ++ rest.takeWhile (· != '\n')
  if atEnd then
    (line ++ (rest.dropWhile (· != '\n')).take 1).map fun c =>
      if c == '\r' then '␍' else if c == '\n' then '␊' else c
  else line.filter (· != '\r')

/-- What is wrong with a text that is no program, by how far the grammar could be followed. -/
def SyntaxError.ofTrace (cs : List Char) (t : Trace) : SyntaxError :=
  let offset := cs.length - t.left
  let (line, column) := lineColumn (cs.take offset)
  { line, column
    lineText := lineAt (cs.take offset) (cs.drop offset)
    expected := Rule.all.filter (· ∈ t.failed) }

/-- Names as a choice: `a`, `a or b`, `a, b, or c`. -/
def listNames : List String → String
  | [] => ""
  | [a] => a
  | [a, b] => a ++ " or " ++ b
  | names => String.intercalate ", " names.dropLast ++ ", or " ++ names.getLastD ""

/-- The report of a syntax error, with the line and a mark under the place. -/
def SyntaxError.message (e : SyntaxError) : String :=
  let n := toString e.line
  let pad := String.ofList (List.replicate n.length ' ')
  let underline := (e.lineText.take (e.column - 1)).map fun c => if c == '\t' then '\t' else ' '
  String.intercalate "\n" [
    pad ++ "--> " ++ n ++ ":" ++ toString e.column,
    pad ++ " |",
    n ++ " | " ++ String.ofList e.lineText,
    pad ++ " | " ++ String.ofList underline ++ "^---",
    pad ++ " |",
    pad ++ " = expected " ++ listNames (e.expected.map Rule.name)]

inductive ParseError where
  | ungrammatical (e : SyntaxError)
  | invalidLiteral (text : String) (line column : Nat)
deriving DecidableEq

def ParseError.message : ParseError → String
  | .ungrammatical e => e.message
  | .invalidLiteral text line column =>
    "Invalid literal `" ++ text ++ "` at line " ++ toString line ++ ", column " ++ toString column

/-- The report of what is wrong with the pieces of a text; `t` is the trace of the walk that found them. -/
def BuildError.toParseError (cs : List Char) (t : Trace) : BuildError → ParseError
  | .literal bad =>
    let (line, column) := lineColumn (cs.take (cs.length - bad.ahead))
    .invalidLiteral bad.text line column
  | .unexpectedRule .. | .missingFunction => .ungrammatical (.ofTrace cs t)

namespace Program

/-- Whether a text is a program as far as the grammar goes. -/
def fits (source : String) : Bool := (Phrase.walkProgram source.toList).1.isSome

/-- The program that a walk through a text has found, or what is wrong with the text. -/
def ofWalk (cs : List Char) : Option (List Piece × Cursor) × Trace → Except ParseError Program
  | (none, t) => .error (.ungrammatical (.ofTrace cs t))
  | (some (ps, _), t) => (build ps).mapError (BuildError.toParseError cs t)

/-- Reads a program. The pieces of a text that fits make one unless a literal is bad. -/
def parse (source : String) : Except ParseError Program :=
  ofWalk source.toList (Phrase.walkProgram source.toList)

end Program
end Comparand
