import Comparand.Text.Blank

/-!
Text in colour, for terminals.
-/

namespace Comparand.Text

/-- The colours and styles in use. -/
inductive Color where
  | red | green | yellow | blue | magenta | cyan | dimmed | brightBlue
  | brightGreen | brightRed | boldGreen | boldRed
deriving DecidableEq

/-- The parameters of the escape sequence that turns a colour on. -/
def Color.code : Color → String
  | .red => "31"
  | .green => "32"
  | .yellow => "33"
  | .blue => "34"
  | .magenta => "35"
  | .cyan => "36"
  | .dimmed => "2"
  | .brightBlue => "94"
  | .brightGreen => "92"
  | .brightRed => "91"
  | .boldGreen => "1;92"
  | .boldRed => "1;91"

def escape (parameters : String) : String := "\x1b[" ++ parameters ++ "m"

/-- Turns the colour on again after every reset within a text. -/
def reopen (opening : List Char) : List Char → List Char
  | '\x1b' :: '[' :: '0' :: 'm' :: cs => (escape "0").toList ++ opening ++ reopen opening cs
  | c :: cs => c :: reopen opening cs
  | [] => []

/-- A text in a colour. -/
def paint (c : Color) (s : String) : String :=
  escape c.code ++ String.ofList (reopen (escape c.code).toList s.toList) ++ escape "0"

/-- A text in a colour, if colours are wanted. -/
def paintIf (wanted : Bool) (c : Color) (s : String) : String := if wanted then paint c s else s

end Comparand.Text
