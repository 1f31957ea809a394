import Comparand.Binary.Rounding

/-!
Single and double precision words. A word is its bit pattern, so equality of words tells NaNs and the two
zeros apart, and `compare?` is the comparison of the numbers they stand for.
-/

namespace Comparand

/-- A double precision word. -/
structure Binary64 where
  bits : UInt64
deriving DecidableEq

/-- A single precision word. -/
structure Binary32 where
  bits : UInt32
deriving DecidableEq

namespace Binary64

def zero : Binary64 := ⟨0⟩
def nan : Binary64 := ⟨0x7ff8000000000000⟩
def infinity : Binary64 := ⟨0x7ff0000000000000⟩

def isNegative (x : Binary64) : Bool := Format.binary64.isNegative x.bits.toNat
def magnitude (x : Binary64) : Nat := Format.binary64.magnitude x.bits.toNat
def isNaN (x : Binary64) : Bool := Format.binary64.isNaN x.bits.toNat
def isSignaling (x : Binary64) : Bool := Format.binary64.isSignaling x.bits.toNat
def isInfinite (x : Binary64) : Bool := x.magnitude == Format.binary64.infinity
def compare? (x y : Binary64) : Option Ordering :=
  Format.binary64.compare? x.bits.toNat y.bits.toNat

/-- Flips the sign bit, also of a NaN. -/
def neg (x : Binary64) : Binary64 := ⟨x.bits ^^^ 0x8000000000000000⟩

/-- The word nearest to `n / d`, with the given sign. -/
def ofRatio (negative : Bool) (n d : Nat) : Binary64 :=
  ⟨.ofNat (Format.binary64.signed negative (Format.binary64.nearest n d))⟩

/-- The word nearest to an integer. -/
def ofInt64 (v : Int64) : Binary64 := ofRatio (v < 0) v.toInt.natAbs 1

/-- The single precision word nearest to `x`. -/
def narrow (x : Binary64) : Binary32 := ⟨.ofNat (Format.binary64.convert .binary32 x.bits.toNat)⟩

end Binary64

namespace Binary32

def nan : Binary32 := ⟨0x7fc00000⟩

def isNaN (x : Binary32) : Bool := Format.binary32.isNaN x.bits.toNat
def isSignaling (x : Binary32) : Bool := Format.binary32.isSignaling x.bits.toNat
def compare? (x y : Binary32) : Option Ordering :=
  Format.binary32.compare? x.bits.toNat y.bits.toNat

/-- The double precision word of the same number; no rounding takes place. -/
def widen (x : Binary32) : Binary64 := ⟨.ofNat (Format.binary32.convert .binary64 x.bits.toNat)⟩

end Binary32
end Comparand
