import Comparand.Riscv.Register

/-!
The instructions of RV64 that generated code uses, their text and what they define.
-/

namespace Comparand

/-- The number of the call that ends a program. -/
def exitCall : UInt64 := 93

/-- The native float comparisons. Each answers 0 if an operand is a NaN. -/
inductive FloatTest where
  | feq | flt | fle
deriving DecidableEq

namespace FloatTest

def mnemonic : FloatTest → String
  | feq => "feq"
  | flt => "flt"
  | fle => "fle"

/-- Whether any NaN raises the invalid flag, and not only a signaling one. -/
def isSignaling : FloatTest → Bool
  | feq => false
  | flt => true
  | fle => true

/-- The answer on operands that compare in the given way. -/
def holdsOf : FloatTest → Option Ordering → Bool
  | _, none => false
  | feq, some o => o.isEq
  | flt, some o => o.isLT
  | fle, some o => o.isLE

end FloatTest

/-- The conditions of conditional branches; `lt` and `ge` compare signed integers. -/
inductive BranchTest where
  | eq | ne | lt | ge
deriving DecidableEq

namespace BranchTest

def mnemonic : BranchTest → String
  | eq => "beq"
  | ne => "bne"
  | lt => "blt"
  | ge => "bge"

/-- Whether the branch is taken. -/
def holdsOf : BranchTest → UInt64 → UInt64 → Bool
  | eq, a, b => a == b
  | ne, a, b => a != b
  | lt, a, b => a.toInt64 < b.toInt64
  | ge, a, b => b.toInt64 ≤ a.toInt64

end BranchTest

/-- An instruction, or a label that marks the place before the next one. -/
inductive Instr where
  | li (rd : IntReg) (imm : Int64)
  | addi (rd rs : IntReg) (imm : Int)
  | xori (rd rs : IntReg) (imm : Int)
  | and (rd rs₁ rs₂ : IntReg)
  | or (rd rs₁ rs₂ : IntReg)
  | ld (rd base : IntReg) (offset : Int)
  | sd (rs base : IntReg) (offset : Int)
  | fload (width : Width) (fd : FloatReg) (base : IntReg) (offset : Int)
  | fstore (width : Width) (fs : FloatReg) (base : IntReg) (offset : Int)
  | fmv (width : Width) (fd : FloatReg) (rs : IntReg)
  | fcmp (test : FloatTest) (width : Width) (rd : IntReg) (fs₁ fs₂ : FloatReg)
  | branch (test : BranchTest) (rs₁ rs₂ : IntReg) (target : Label)
  | jump (target : Label)
  | ecall
  | label (l : Label)
deriving DecidableEq

namespace Instr

/-- The name of the operation; a label has none. -/
def mnemonic : Instr → String
  | li .. => "li"
  | addi .. => "addi"
  | xori .. => "xori"
  | and .. => "and"
  | or .. => "or"
  | ld .. => "ld"
  | sd .. => "sd"
  | fload .single .. => "flw"
  | fload .double .. => "fld"
  | fstore .single .. => "fsw"
  | fstore .double .. => "fsd"
  | fmv .single .. => "fmv.w.x"
  | fmv .double .. => "fmv.d.x"
  | fcmp test width .. => test.mnemonic ++ "." ++ width.suffix
  | branch test .. => test.mnemonic
  | jump .. => "j"
  | ecall => "ecall"
  | label .. => ""

def commas (parts : List String) : String := String.intercalate ", " parts

/-- A place in memory relative to a register. -/
def address (base : IntReg) (offset : Int) : String := toString offset ++ "(" ++ base.name ++ ")"

/-- The operands as they are written after the mnemonic. -/
def operands : Instr → String
  | li rd imm => commas [rd.name, toString imm.toInt]
  | addi rd rs imm | xori rd rs imm => commas [rd.name, rs.name, toString imm]
  | and rd rs₁ rs₂ | or rd rs₁ rs₂ => commas [rd.name, rs₁.name, rs₂.name]
  | ld r base offset | sd r base offset => commas [r.name, address base offset]
  | fload _ r base offset | fstore _ r base offset => commas [r.name, address base offset]
  | fmv _ fd rs => commas [fd.name, rs.name]
  | fcmp _ _ rd fs₁ fs₂ => commas [rd.name, fs₁.name, fs₂.name]
  | branch _ rs₁ rs₂ target => commas [rs₁.name, rs₂.name, target.text]
  | jump target => target.text
  | ecall | label .. => ""

def text : Instr → String
  | label l => l.text ++ ":"
  | ecall => "ecall"
  | i => i.mnemonic ++ " " ++ i.operands

def isLabel : Instr → Bool
  | label .. => true
  | _ => false

def isFloatCompare : Instr → Bool
  | fcmp .. => true
  | _ => false

/-- Where the instruction may continue other than at the next one. -/
def target? : Instr → Option Label
  | branch _ _ _ target | jump target => some target
  | _ => none

def writesMemory : Instr → Bool
  | sd .. | fstore .. => true
  | _ => false

/-- The offset of the frame slot that the instruction stores to. -/
def storedSlot? : Instr → Option Int
  | sd _ base offset | fstore _ _ base offset => if base = .sp then some offset else none
  | _ => none

/-- The integer register that the instruction changes. -/
def intDef? : Instr → Option IntReg
  | li rd _ | addi rd _ _ | xori rd _ _ | and rd _ _ | or rd _ _ | ld rd _ _ | fcmp _ _ rd _ _ =>
    if rd = .zero then none else some rd
  | _ => none

/-- The float register that the instruction changes. -/
def floatDef? : Instr → Option FloatReg
  | fload _ fd _ _ | fmv _ fd _ => some fd
  | _ => none

end Instr
end Comparand
