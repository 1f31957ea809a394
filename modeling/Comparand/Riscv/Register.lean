import Comparand.CodeError
import Comparand.Text.Blank
import Comparand.Text.Integer

/-!
Integer and float registers, under the names of the calling convention.
-/

namespace Comparand

/-- An integer register. -/
structure IntReg where
  index : Fin 32
deriving DecidableEq

/-- A float register. -/
structure FloatReg where
  index : Fin 32
deriving DecidableEq

theorem IntReg.index_lt (r : IntReg) : r.index.val < 32 := r.index.isLt

theorem FloatReg.index_lt (r : FloatReg) : r.index.val < 32 := r.index.isLt

/-- Reads a register of a bank: its name, or the bank's letter and a number that fits a byte. A number that fits a
byte but names no register is reported in its shortest form. -/
def readRegister (letter : Char) (names : Vector String 32) (text : String) : Except CodeError (Fin 32) :=
  match (List.finRange 32).find? fun i => names[i] == text with
  | some i => .ok i
  | none =>
    match (Text.after? [letter] text.toList).bind (Text.readNat? 255) with
    | none => .error (.invalidRegister text)
    | some n =>
      if h : n < 32 then .ok ⟨n, h⟩ else .error (.invalidRegister (String.ofList [letter] ++ toString n))

namespace IntReg

def names : Vector String 32 := #v[
  "zero", "ra", "sp", "gp", "tp", "t0", "t1", "t2", "s0", "s1", "a0", "a1", "a2", "a3", "a4", "a5",
  "a6", "a7", "s2", "s3", "s4", "s5", "s6", "s7", "s8", "s9", "s10", "s11", "t3", "t4", "t5", "t6"]

def zero : IntReg := ⟨0⟩
def sp : IntReg := ⟨2⟩
def t0 : IntReg := ⟨5⟩
def t1 : IntReg := ⟨6⟩
def a0 : IntReg := ⟨10⟩
def a7 : IntReg := ⟨17⟩
def t6 : IntReg := ⟨31⟩

def name (r : IntReg) : String := names[r.index]

/-- The register with a number, which has to be below 32. -/
def ofIndex (n : Nat) : Except CodeError IntReg :=
  if h : n < 32 then .ok ⟨⟨n, h⟩⟩ else .error (.invalidRegister ("x" ++ toString n))

/-- Reads a register; the frame pointer has a second name. -/
def ofText (text : String) : Except CodeError IntReg :=
  if text = "fp" then .ok ⟨8⟩ else IntReg.mk <$> readRegister 'x' names text

/-- Registers that code may use without saving them: `t0` to `t6`. -/
def temporaries : List IntReg := [⟨5⟩, ⟨6⟩, ⟨7⟩, ⟨28⟩, ⟨29⟩, ⟨30⟩, ⟨31⟩]

end IntReg

namespace FloatReg

def names : Vector String 32 := #v[
  "ft0", "ft1", "ft2", "ft3", "ft4", "ft5", "ft6", "ft7", "fs0", "fs1", "fa0", "fa1", "fa2", "fa3", "fa4", "fa5",
  "fa6", "fa7", "fs2", "fs3", "fs4", "fs5", "fs6", "fs7", "fs8", "fs9", "fs10", "fs11", "ft8", "ft9", "ft10", "ft11"]

def ft0 : FloatReg := ⟨0⟩

def name (r : FloatReg) : String := names[r.index]

/-- The register with a number, which has to be below 32. -/
def ofIndex (n : Nat) : Except CodeError FloatReg :=
  if h : n < 32 then .ok ⟨⟨n, h⟩⟩ else .error (.invalidRegister ("f" ++ toString n))

def ofText (text : String) : Except CodeError FloatReg :=
  FloatReg.mk <$> readRegister 'f' names text

/-- Registers that code may use without saving them: `ft0` to `ft11`. -/
def temporaries : List FloatReg :=
  [⟨0⟩, ⟨1⟩, ⟨2⟩, ⟨3⟩, ⟨4⟩, ⟨5⟩, ⟨6⟩, ⟨7⟩, ⟨28⟩, ⟨29⟩, ⟨30⟩, ⟨31⟩]

end FloatReg
end Comparand
