import Comparand.Binary.Word

/-!
Reading decimals. The text of a number is an optional sign, digits with at most one point among or around them,
and an optional exponent; the value is the nearest word.
-/

namespace Comparand.Decimal

/-- The number that a string of digits stands for. -/
def ofDigits (cs : List Char) : Nat := cs.foldl (fun n c => 10 * n + (c.toNat - '0'.toNat)) 0

/-- The digits at the front of a text, and the rest. -/
def spanDigits (cs : List Char) : List Char × List Char := cs.span Char.isDigit

/-- An optional sign at the front of a text; `true` is minus. -/
def spanSign : List Char → Bool × List Char
  | '-' :: cs => (true, cs)
  | '+' :: cs => (false, cs)
  | cs => (false, cs)

/-- The word nearest to `m * 10 ^ e`, where `m` is written with at most `width` digits. The two cut-offs keep the
powers small and lie far outside the range of the format. -/
def nearest (negative : Bool) (m width : Nat) (e : Int) : Binary64 :=
  if m = 0 || e < -(width + 400 : Int) then .ofRatio negative 0 1
  else if 400 < e then .ofRatio negative (Nat.pow 2 1024) 1
  else .ofRatio negative (m * Nat.pow 10 e.toNat) (Nat.pow 10 (-e).toNat)

/-- An exponent: the letter, an optional sign, at least one digit, and nothing after it. -/
def readExponent? : List Char → Option Int
  | [] => some 0
  | c :: cs =>
    if c == 'e' || c == 'E' then
      let (negative, cs) := spanSign cs
      if cs.isEmpty || !cs.all Char.isDigit then none
      else some (if negative then -(ofDigits cs : Int) else ofDigits cs)
    else none

/-- A number without its sign. -/
def readUnsigned? (negative : Bool) (cs : List Char) : Option Binary64 :=
  let (whole, cs) := spanDigits cs
  let (fraction, cs) := match cs with
    | '.' :: rest => spanDigits rest
    | rest => ([], rest)
  if whole.isEmpty && fraction.isEmpty then none
  else do
    let e ← readExponent? cs
    let ds := whole ++ fraction
    return nearest negative (ofDigits ds) ds.length (e - fraction.length)

/-- Reads a number, an infinity or a NaN; names are read in either case. -/
def read? (cs : List Char) : Option Binary64 :=
  let (negative, cs) := spanSign cs
  let named (v : Binary64) := some (if negative then v.neg else v)
  let lower := cs.map Char.toLower
  if lower = "nan".toList then named .nan
  else if lower = "inf".toList || lower = "infinity".toList then named .infinity
  else readUnsigned? negative cs

end Comparand.Decimal
