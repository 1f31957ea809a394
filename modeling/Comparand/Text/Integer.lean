import Comparand.Decimal.Reader

/-!
Reading decimal integers of a bounded range.
-/

namespace Comparand.Text

/-- A nonempty string of digits. -/
def readDigits? (cs : List Char) : Option Nat :=
  if cs.isEmpty || !cs.all Char.isDigit then none else some (Decimal.ofDigits cs)

/-- An integer with an optional sign, between the given bounds. -/
def readInt? (low high : Int) (cs : List Char) : Option Int := do
  let (negative, cs) := Decimal.spanSign cs
  let n ← readDigits? cs
  let v : Int := if negative then -n else n
  if low ≤ v && v ≤ high then some v else none

/-- A natural number with an optional plus, at most the given bound. -/
def readNat? (high : Nat) (cs : List Char) : Option Nat := do
  let n ← readDigits? (match cs with
    | '+' :: rest => rest
    | rest => rest)
  if n ≤ high then some n else none

end Comparand.Text
