import Comparand.Decimal.Layout

/-!
JSON values, and their compact and indented texts. Fields keep their order.
-/

namespace Comparand

inductive Json where
  | null
  | bool (b : Bool)
  | int (n : Int)
  | float (v : Binary64)
  | str (s : String)
  | arr (items : List Json)
  | obj (fields : List (String × Json))

namespace Json

/-- A control character in a string: the short forms of some, four hexadecimal digits for the others. -/
def escapeControl (c : Char) : String :=
  match c with
  | '\x08' => "\\b"
  | '\t' => "\\t"
  | '\n' => "\\n"
  | '\x0c' => "\\f"
  | '\r' => "\\r"
  | c =>
    let ds := Nat.toDigits 16 c.toNat
    "\\u" ++ String.ofList (List.replicate (4 - ds.length) '0' ++ ds)

def escapeChar (c : Char) : String :=
  if c = '"' then "\\\""
  else if c = '\\' then "\\\\"
  else if c.toNat < 0x20 then escapeControl c
  else String.ofList [c]

def quote (s : String) : String := "\"" ++ String.join (s.toList.map escapeChar) ++ "\""

/-- A number; words that are no numbers have no form in JSON and become `null`. -/
def floatText (v : Binary64) : String :=
  if v.isNaN || v.isInfinite then "null" else Decimal.Layout.json.write v

mutual

/-- The text without blanks. -/
def compact : Json → String
  | null => "null"
  | bool b => if b then "true" else "false"
  | int n => toString n
  | float v => floatText v
  | str s => quote s
  | arr items => "[" ++ String.intercalate "," (compactItems items) ++ "]"
  | obj fields => "\x7b" ++ String.intercalate "," (compactFields fields) ++ "\x7d"

def compactItems : List Json → List String
  | [] => []
  | j :: js => j.compact :: compactItems js

def compactFields : List (String × Json) → List String
  | [] => []
  | (key, j) :: rest => (quote key ++ ":" ++ j.compact) :: compactFields rest

end

/-- Parts on lines of their own between brackets, indented by two blanks more than the level `n`. -/
def bracketed (opening closing : String) (n : Nat) (parts : List String) : String :=
  let line (level : Nat) := "\n" ++ String.ofList (List.replicate (2 * level) ' ')
  if parts.isEmpty then opening ++ closing
  else opening ++ String.intercalate "," (parts.map (line (n + 1) ++ ·)) ++ line n ++ closing

mutual

/-- The text over several lines, at level `n`. -/
def indented (n : Nat) : Json → String
  | null => "null"
  | bool b => if b then "true" else "false"
  | int v => toString v
  | float v => floatText v
  | str s => quote s
  | arr items => bracketed "[" "]" n (indentedItems (n + 1) items)
  | obj fields => bracketed "\x7b" "\x7d" n (indentedFields (n + 1) fields)

def indentedItems (n : Nat) : List Json → List String
  | [] => []
  | j :: js => j.indented n :: indentedItems n js

def indentedFields (n : Nat) : List (String × Json) → List String
  | [] => []
  | (key, j) :: rest => (quote key ++ ": " ++ j.indented n) :: indentedFields n rest

end

/-- The text over several lines. -/
def pretty (j : Json) : String := j.indented 0

/-- A value under the name of its variant. -/
def tagged (tag : String) (j : Json) : Json := obj [(tag, j)]

end Json
end Comparand
