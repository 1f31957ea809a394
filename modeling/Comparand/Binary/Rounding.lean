import Comparand.Binary.Format

/-!
Rounding to nearest, ties to even. `Format.nearest` is the only rounding of the library: reading a decimal,
converting an integer and changing the width of a number all go through it.
-/

namespace Comparand

/-- The integer nearest to `n / d`, the even one of two. -/
def roundHalfEven (n d : Nat) : Nat :=
  let q := n / d
  let r := n % d
  if 2 * r < d then q
  else if d < 2 * r then q + 1
  else if q % 2 = 0 then q
  else q + 1

/-- The integer `e` with `2 ^ e ≤ n / d < 2 ^ (e + 1)`, for positive `n` and `d`. -/
def binaryExponent (n d : Nat) : Int :=
  let e : Int := (n.log2 : Int) - d.log2
  if d * Nat.pow 2 e.toNat ≤ n * Nat.pow 2 (-e).toNat then e else e - 1

namespace Format

/-- The magnitude nearest to `n / d`. With `m` units in the last place `2 ^ q`, the field of the exponent and
the leading bit of `m` add up, so a carry out of the fraction moves to the next exponent by itself. -/
def nearest (f : Format) (n d : Nat) : Nat :=
  if n = 0 then 0 else
    let q := max (binaryExponent n d - f.fractionBits) f.leastExponent
    let m := roundHalfEven (n * Nat.pow 2 (-q).toNat) (d * Nat.pow 2 q.toNat)
    min ((q - f.leastExponent).toNat * Nat.pow 2 f.fractionBits + m) f.infinity

/-- The magnitude nearest to `m * 2 ^ e`. -/
def nearestScaled (f : Format) (m : Nat) (e : Int) : Nat :=
  f.nearest (m * Nat.pow 2 e.toNat) (Nat.pow 2 (-e).toNat)

/-- A pattern of format `f` taken over into format `g`. A NaN becomes quiet and keeps the leading bits of its
fraction; an infinity stays one; a number is rounded. -/
def convert (f g : Format) (p : Nat) : Nat :=
  let m := f.magnitude p
  g.signed (f.isNegative p) <|
    if f.isNaN p then
      let fraction := (m - f.infinity) * Nat.pow 2 g.fractionBits / Nat.pow 2 f.fractionBits
      g.infinity + (if fraction < g.quietBit then fraction + g.quietBit else fraction)
    else if m = f.infinity then g.infinity
    else g.nearestScaled (f.significand m) (f.lastPlace m)

end Format
end Comparand
