import Comparand.Riscv.Memory
import Comparand.Riscv.Routine

/-!
An RV64 machine with float registers, and the effect of one instruction on it.

Float registers hold 64 bits. A single precision number lies in the low half, *boxed*: the high half is all ones.
A register read at single precision that is not boxed counts as a NaN.
-/

namespace Comparand

structure Machine where
  ints : Vector UInt64 32
  floats : Vector UInt64 32
  memory : Memory
  /-- The accrued float exceptions. -/
  fflags : UInt8 := 0
  /-- The instructions executed so far. -/
  steps : Nat := 0
  maxSteps : Nat

/-- The flag of an invalid operation, the only one that comparisons raise. -/
def invalidFlag : UInt8 := 0x10

/-- A single precision pattern as it lies in a register. -/
def box (bits : UInt32) : UInt64 := 0xffffffff00000000 ||| bits.toUInt64

/-- What a comparison sees of its operands: how they compare, and whether one is a signaling NaN. -/
structure Reading where
  order : Option Ordering
  signaling : Bool
deriving DecidableEq

/-- Whether a test on such operands is an invalid operation. -/
def FloatTest.isInvalid (t : FloatTest) (r : Reading) : Bool :=
  r.signaling || (t.isSignaling && r.order.isNone)

/-- Where execution continues. -/
inductive Control where
  | next
  | goto (l : Label)
  | halt
deriving DecidableEq

namespace Machine

/-- A machine at rest: the stack pointer is at the top, all else is zero. -/
def fresh (stackSize maxSteps : Nat) : Machine where
  ints := (Vector.replicate 32 0).set 2 (.ofNat stackTop)
  floats := Vector.replicate 32 0
  memory := { size := stackSize }
  maxSteps

/-- Register `zero` always reads as 0. -/
def int (m : Machine) (r : IntReg) : UInt64 := if r = .zero then 0 else m.ints.get r.index

def setInt (m : Machine) (r : IntReg) (v : UInt64) : Machine :=
  if r = .zero then m else { m with ints := m.ints.set r.index v r.index_lt }

def float (m : Machine) (r : FloatReg) : UInt64 := m.floats.get r.index

def setFloat (m : Machine) (r : FloatReg) (v : UInt64) : Machine :=
  { m with floats := m.floats.set r.index v r.index_lt }

def setSingle (m : Machine) (r : FloatReg) (v : UInt32) : Machine := m.setFloat r (box v)

/-- The double in a register. -/
def double (m : Machine) (r : FloatReg) : Binary64 := ⟨m.float r⟩

/-- The single in a register; anything that is not boxed is a NaN. -/
def single (m : Machine) (r : FloatReg) : Binary32 :=
  if m.float r >>> 32 = 0xffffffff then ⟨(m.float r).toUInt32⟩ else .nan

/-- What a comparison at a width sees in two registers. -/
def inspect (m : Machine) (w : Width) (r s : FloatReg) : Reading :=
  match w with
  | .double => ⟨(m.double r).compare? (m.double s), (m.double r).isSignaling || (m.double s).isSignaling⟩
  | .single => ⟨(m.single r).compare? (m.single s), (m.single r).isSignaling || (m.single s).isSignaling⟩

/-- Raises the invalid flag if told to. -/
def raiseIf (m : Machine) (b : Bool) : Machine :=
  if b then { m with fflags := m.fflags ||| invalidFlag } else m

/-- The address of an access. -/
def address (m : Machine) (base : IntReg) (offset : Int) : UInt64 := m.int base + .ofInt offset

/-- The effect of one instruction, and where execution continues. -/
def exec (m : Machine) : Instr → Except Fault (Machine × Control)
  | .li rd imm => .ok (m.setInt rd imm.toUInt64, .next)
  | .addi rd rs imm => .ok (m.setInt rd (m.int rs + .ofInt imm), .next)
  | .xori rd rs imm => .ok (m.setInt rd (m.int rs ^^^ .ofInt imm), .next)
  | .and rd rs₁ rs₂ => .ok (m.setInt rd (m.int rs₁ &&& m.int rs₂), .next)
  | .or rd rs₁ rs₂ => .ok (m.setInt rd (m.int rs₁ ||| m.int rs₂), .next)
  | .ld rd base offset =>
    (m.memory.load64 (m.address base offset)).map fun v => (m.setInt rd v, .next)
  | .sd rs base offset =>
    (m.memory.store64 (m.address base offset) (m.int rs)).map fun memory => ({ m with memory }, .next)
  | .fload .double fd base offset =>
    (m.memory.load64 (m.address base offset)).map fun v => (m.setFloat fd v, .next)
  | .fload .single fd base offset =>
    (m.memory.load32 (m.address base offset)).map fun v => (m.setSingle fd v, .next)
  | .fstore .double fs base offset =>
    (m.memory.store64 (m.address base offset) (m.float fs)).map fun memory => ({ m with memory }, .next)
  | .fstore .single fs base offset =>
    (m.memory.store32 (m.address base offset) (m.float fs).toUInt32).map fun memory =>
      ({ m with memory }, .next)
  | .fmv .double fd rs => .ok (m.setFloat fd (m.int rs), .next)
  | .fmv .single fd rs => .ok (m.setSingle fd (m.int rs).toUInt32, .next)
  | .fcmp test w rd fs₁ fs₂ =>
    let reading := m.inspect w fs₁ fs₂
    let answer : UInt64 := if test.holdsOf reading.order then 1 else 0
    .ok ((m.raiseIf (test.isInvalid reading)).setInt rd answer, .next)
  | .branch test rs₁ rs₂ target =>
    .ok (m, if test.holdsOf (m.int rs₁) (m.int rs₂) then .goto target else .next)
  | .jump target => .ok (m, .goto target)
  | .ecall => if m.int .a7 = exitCall then .ok (m, .halt) else .error (.unsupportedCall (m.int .a7))
  | .label _ => .ok (m, .next)

end Machine
end Comparand
