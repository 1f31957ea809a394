import Comparand.Binary.Word

/-!
The two widths of floats, and how a constant looks at each of them.
-/

namespace Comparand

inductive Width where
  | single
  | double
deriving DecidableEq

namespace Width

/-- The letter that instructions carry. -/
def suffix : Width → String
  | single => "s"
  | double => "d"

def bytes : Width → Nat
  | single => 4
  | double => 8

def typeName : Width → String
  | single => "float32"
  | double => "float64"

/-- The integer whose low bits are the pattern of the constant at this width, sign-extended. -/
def immediate : Width → Binary64 → Int64
  | single, v => v.narrow.bits.toInt32.toInt64
  | double, v => v.bits.toInt64

/-- The constant rounded to this width. -/
def round : Width → Binary64 → Binary64
  | single, v => v.narrow.widen
  | double, v => v

end Width
end Comparand
