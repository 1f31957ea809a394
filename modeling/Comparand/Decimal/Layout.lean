import Comparand.Decimal.Shortest

/-!
How decimals are laid out. A `Layout` holds the decisions of one output format; the digits always are the
shortest ones.
-/

namespace Comparand.Decimal

/-- The decisions of a format for numbers. -/
structure Layout where
  /-- Whether `d.ddd * 10 ^ x` is written without an exponent. -/
  positional : Int → Bool
  /-- Whether a whole number keeps a zero after the point. -/
  pointZero : Bool
  /-- Whether a positive exponent has a sign. -/
  plusSign : Bool
  tie : Tie

/-- Constants in programs and operands: `100.0`, `0.0001`, `1e16`. -/
def Layout.general : Layout where
  positional x := -4 ≤ x && x < 16
  pointZero := true
  plusSign := false
  tie := .up

/-- Constants in diagnostics: never an exponent, no superfluous zero. -/
def Layout.plain : Layout where
  positional _ := true
  pointZero := false
  plusSign := false
  tie := .up

/-- Numbers in JSON: `100.0`, `0.00001`, `1e+16`. -/
def Layout.json : Layout where
  positional x := -5 ≤ x && x < 16
  pointZero := true
  plusSign := true
  tie := .even

def zeros (n : Nat) : String := String.ofList (List.replicate n '0')

namespace Layout

/-- Writes the digits `ds` with the point after the first of them moved `x` places to the right. -/
def place (l : Layout) (ds : List Char) (x : Int) : String :=
  if x < 0 then "0." ++ zeros (-x - 1).toNat ++ String.ofList ds
  else
    let whole := x.toNat + 1
    if ds.length ≤ whole then
      String.ofList ds ++ zeros (whole - ds.length) ++ (if l.pointZero then ".0" else "")
    else String.ofList (ds.take whole) ++ "." ++ String.ofList (ds.drop whole)

/-- Writes the digits `ds` with one digit before the point and the exponent `x`. -/
def raised (l : Layout) (ds : List Char) (x : Int) : String :=
  let fraction := if ds.length ≤ 1 then "" else "." ++ String.ofList (ds.drop 1)
  String.ofList (ds.take 1) ++ fraction ++ "e" ++ (if l.plusSign && 0 ≤ x then "+" else "") ++ toString x

/-- The text of a finite word. -/
def write (l : Layout) (v : Binary64) : String :=
  let sign := if v.isNegative then "-" else ""
  if v.magnitude = 0 then sign ++ l.place ['0'] 0
  else
    let s := shortest l.tie v.magnitude
    let ds := Nat.toDigits 10 s.digits
    let x := s.exponent + ds.length - 1
    sign ++ if l.positional x then l.place ds x else l.raised ds x

end Layout

/-- The texts of a format for words that are not finite. -/
structure Names where
  nan : String
  infinity : String

/-- The text of any word. A NaN never shows its sign. -/
def Layout.writeAny (l : Layout) (names : Names) (v : Binary64) : String :=
  if v.isNaN then names.nan
  else if v.isInfinite then (if v.isNegative then "-" else "") ++ names.infinity
  else l.write v

end Comparand.Decimal
