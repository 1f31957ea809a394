/-!
Binary interchange formats, on bit patterns taken as natural numbers.

A pattern is a sign bit, an exponent field and a fraction field. Everything below the sign bit is the
*magnitude*; magnitudes of numbers are ordered as the numbers are, so comparing needs no decoding.
-/

namespace Comparand

/-- A format is fixed by the widths of its exponent and fraction fields. -/
structure Format where
  exponentBits : Nat
  fractionBits : Nat
deriving DecidableEq

namespace Format

def binary32 : Format := ⟨8, 23⟩
def binary64 : Format := ⟨11, 52⟩

variable (f : Format)

/-- The weight of the sign bit. -/
def signWeight : Nat := Nat.pow 2 (f.exponentBits + f.fractionBits)

/-- The magnitude of infinity: all ones in the exponent, nothing in the fraction. -/
def infinity : Nat := (Nat.pow 2 f.exponentBits - 1) * Nat.pow 2 f.fractionBits

/-- The top bit of the fraction, set in quiet NaNs and clear in signaling ones. -/
def quietBit : Nat := Nat.pow 2 (f.fractionBits - 1)

/-- The exponent of the last place of the subnormal numbers. -/
def leastExponent : Int := 2 - (Nat.pow 2 (f.exponentBits - 1) : Nat) - f.fractionBits

def isNegative (p : Nat) : Bool := f.signWeight ≤ p

def magnitude (p : Nat) : Nat := p % f.signWeight

def isNaN (p : Nat) : Bool := f.infinity < f.magnitude p

def isSignaling (p : Nat) : Bool := f.isNaN p && f.magnitude p < f.infinity + f.quietBit

/-- The place of a number in the order of the reals; both zeros have rank 0. -/
def rank (p : Nat) : Int := if f.isNegative p then -(f.magnitude p : Int) else f.magnitude p

/-- How two patterns compare; `none` if one of them is a NaN. -/
def compare? (p q : Nat) : Option Ordering :=
  if f.isNaN p || f.isNaN q then none else some (compare (f.rank p) (f.rank q))

/-- The pattern with the given sign and magnitude. -/
def signed (negative : Bool) (magnitude : Nat) : Nat :=
  if negative then f.signWeight + magnitude else magnitude

/-- A finite magnitude is `significand * 2 ^ lastPlace`. -/
def significand (magnitude : Nat) : Nat :=
  if magnitude < Nat.pow 2 f.fractionBits then magnitude
  else Nat.pow 2 f.fractionBits + magnitude % Nat.pow 2 f.fractionBits

def lastPlace (magnitude : Nat) : Int :=
  f.leastExponent + (magnitude / Nat.pow 2 f.fractionBits - 1 : Nat)

end Format
end Comparand
