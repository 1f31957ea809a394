import Comparand.Text.Blank
import Comparand.Text.Integer

/-!
The header of a program, which says with which status it should exit.
-/

namespace Comparand.Header

/-- The parts of a text between line feeds. -/
def splitLines : List Char → List (List Char)
  | [] => [[]]
  | c :: cs =>
    match c, splitLines cs with
    | '\n', lines => [] :: lines
    | c, line :: lines => (c :: line) :: lines
    | c, [] => [[c]]

/-- Drops pairs of slashes at the front. -/
def dropSlashes : List Char → List Char
  | '/' :: '/' :: cs => dropSlashes cs
  | cs => cs

def isComment (line : List Char) : Bool := (Text.after? "//".toList line).isSome

/-- The status in a comment line `// want: N`. -/
def ofLine? (line : List Char) : Option Int := do
  let code ← Text.after? "want:".toList (Text.trim (dropSlashes line))
  Text.readInt? Int32.minValue.toInt Int32.maxValue.toInt (Text.trim code)

/-- The first status that a comment before the code names. Blank lines do not count. -/
def expected? (source : String) : Option Int :=
  let lines := ((splitLines source.toList).map Text.trim).filter (!·.isEmpty)
  (lines.takeWhile isComment).findSome? ofLine?

end Comparand.Header
