import Comparand.Json
import Comparand.Riscv.Register

/-!
Operands of float comparisons: where a float is found, and at which width.
-/

namespace Comparand

/-- A place in the frame, as an offset from the stack pointer that fits an instruction. -/
structure Slot where
  offset : Int
  inRange : -2048 ≤ offset ∧ offset ≤ 2047
deriving DecidableEq

namespace Slot

def ofOffset (n : Int) : Except CodeError Slot :=
  if h : -2048 ≤ n ∧ n ≤ 2047 then .ok ⟨n, h⟩ else .error (.offsetOutOfRange n)

def text (s : Slot) : String := toString s.offset ++ "(sp)"

end Slot

/-- Where a float is found. -/
inductive Place where
  | register (r : FloatReg)
  | slot (s : Slot)
  | constant (v : Binary64)
deriving DecidableEq

namespace Place

def text : Place → String
  | register r => r.name
  | slot s => s.text
  | constant v => Decimal.Layout.general.writeAny ⟨"NaN", "inf"⟩ v

/-- Reads `16(sp)` as a slot, then a register, then a number, with white space around them dropped. -/
def ofText (text : String) : Except CodeError Place :=
  let cs := Text.trim text.toList
  let bad := CodeError.invalidOperand (String.ofList cs)
  match Text.before? "(sp)".toList cs with
  | some offset =>
    match Text.readInt? Int64.minValue.toInt Int64.maxValue.toInt offset with
    | some n => slot <$> Slot.ofOffset n
    | none => .error bad
  | none =>
    match FloatReg.ofText (String.ofList cs) with
    | .ok r => .ok (register r)
    | .error _ =>
      match Decimal.read? cs with
      | some v => .ok (constant v)
      | none => .error bad

def toJson : Place → Json
  | register r => .tagged "Register" (.int r.index.val)
  | slot s => .tagged "Stack" (.int s.offset)
  | constant v => .tagged "Immediate" (.float v)

end Place

/-- The name of a width in JSON. -/
def Width.jsonName : Width → String
  | single => "Single"
  | double => "Double"

structure Operand where
  place : Place
  width : Width
deriving DecidableEq

namespace Operand

def text (o : Operand) : String := o.place.text ++ ":" ++ o.width.typeName

/-- Whether two operands are one register or one slot. Equal constants do not share a place. -/
def aliases (a b : Operand) : Bool :=
  match a.place, b.place with
  | .register r, .register s => r == s
  | .slot r, .slot s => r == s
  | _, _ => false

/-- Whether two operands agree, constants being compared as numbers: a NaN agrees with nothing. -/
def agrees (a b : Operand) : Bool :=
  a.width == b.width &&
    match a.place, b.place with
    | .constant v, .constant w => v.compare? w == some .eq
    | p, q => p == q

def toJson (o : Operand) : Json :=
  .obj [("location", o.place.toJson), ("width", .str o.width.jsonName)]

end Operand
end Comparand
