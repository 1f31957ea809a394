import Comparand.Binary.Word

/-!
The fewest decimal digits that read back as a given word.

The reals that round to a word form an interval. For one digit, two digits and so on, the two neighbours of the
exact value on the grid of decimals with that many digits are tried; if any decimal on the grid lies in the
interval, one of these two does, so the first hit has the fewest digits.
-/

namespace Comparand.Decimal

/-- The decimal `digits * 10 ^ exponent`. -/
structure Scientific where
  digits : Nat
  exponent : Int
deriving DecidableEq

/-- Which of two equally near decimals is written. -/
inductive Tie where
  | up
  | even
deriving DecidableEq

/-- A value and the reals that round to it, as numerators over one denominator. -/
structure Interval where
  low : Nat
  value : Nat
  high : Nat
  den : Nat
  closed : Bool

namespace Interval

/-- The interval of a finite positive magnitude. In quarters of the last place the neighbours are four away,
except below a power of two, where they are twice as dense. Ends belong to it if ties round to this word. -/
def ofMagnitude (f : Format) (magnitude : Nat) : Interval :=
  let m := f.significand magnitude
  let q := f.lastPlace magnitude - 2
  let unit := Nat.pow 2 q.toNat
  let dense : Bool := magnitude % Nat.pow 2 f.fractionBits = 0 && Nat.pow 2 (f.fractionBits + 1) ≤ magnitude
  { low := (4 * m - if dense then 1 else 2) * unit
    value := 4 * m * unit
    high := (4 * m + 2) * unit
    den := Nat.pow 2 (-q).toNat
    closed := m % 2 == 0 }

/-- Whether the interval holds `c * 10 ^ e`. -/
def holds (i : Interval) (c : Nat) (e : Int) : Bool :=
  let x := c * Nat.pow 10 e.toNat * i.den
  let scale := Nat.pow 10 (-e).toNat
  if i.closed then i.low * scale ≤ x && x ≤ i.high * scale
  else i.low * scale < x && x < i.high * scale

end Interval

/-- How many decimal digits a number is written with. -/
def width (n : Nat) : Nat := (Nat.toDigits 10 n).length

/-- The `k` with `10 ^ (k - 1) ≤ n / d < 10 ^ k`, for positive `n` and `d`. -/
def decade (n d : Nat) : Int :=
  if d ≤ n then width (n / d)
  else
    let w := width (d / n)
    if d ≤ n * Nat.pow 10 (w - 1) then 2 - (w : Int) else 1 - (w : Int)

/-- The decimal with `n` digits that is nearest to the value, if the interval holds it. -/
def candidate (tie : Tie) (i : Interval) (n : Nat) : Option Scientific :=
  let e := decade i.value i.den - n
  let top := i.value * Nat.pow 10 (-e).toNat
  let bottom := i.den * Nat.pow 10 e.toNat
  let c := top / bottom
  let upper : Bool := match compare (2 * (top % bottom)) bottom with
    | .lt => false
    | .gt => true
    | .eq => tie == .up || c % 2 == 1
  match i.holds c e, i.holds (c + 1) e with
  | true, true => some ⟨c + upper.toNat, e⟩
  | true, false => some ⟨c, e⟩
  | false, true => some ⟨c + 1, e⟩
  | false, false => none

/-- Moves trailing zeros of the digits to the exponent; `fuel` bounds their number. -/
def stripZeros : Nat → Scientific → Scientific
  | 0, s => s
  | fuel + 1, s =>
    if s.digits % 10 = 0 && s.digits != 0 then stripZeros fuel ⟨s.digits / 10, s.exponent + 1⟩ else s

/-- The shortest decimal that reads back as the given finite positive magnitude. Seventeen digits always do. -/
def shortest (tie : Tie) (magnitude : Nat) : Scientific :=
  let i := Interval.ofMagnitude .binary64 magnitude
  match (List.range 17).findSome? fun n => candidate tie i (n + 1) with
  | some s => stripZeros 17 s
  | none => ⟨0, 0⟩

end Comparand.Decimal
