import Comparand.Riscv.Machine

/-!
Running a routine on a machine.

The place in the code is the list of instructions still ahead; a jump continues with the code from its label on.
The machine that a run leaves behind is part of its result, also if the run failed.
-/

namespace Comparand

/-- How a program ended. -/
structure Exit where
  code : Int32
  steps : Nat
  fflags : UInt8
deriving DecidableEq

namespace Exit

/-- Whether an invalid operation took place. -/
def isInvalid (e : Exit) : Bool := e.fflags &&& invalidFlag != 0

end Exit

/-- Flags as two hexadecimal digits. -/
def flagsText (flags : UInt8) : String :=
  let ds := Nat.toDigits 16 flags.toNat
  "0x" ++ String.ofList (List.replicate (2 - ds.length) '0' ++ ds)

/-- The code from a label on. -/
def Routine.codeAt? (r : Routine) (l : Label) : Option (List Instr) := (r.position? l).map r.code.drop

namespace Machine

/-- The status that the machine exits with. -/
def exit (m : Machine) : Exit := ⟨(m.int .a0).toUInt32.toInt32, m.steps, m.fflags⟩

/-- Runs the code ahead, for at most `budget` instructions. Reaching the end of the code goes before running out of
budget, and labels cost nothing. -/
def runFrom (r : Routine) : Nat → List Instr → Machine → Except Fault Exit × Machine
  | budget, ahead, m =>
    match ahead.dropWhile Instr.isLabel with
    | [] => (.error (.fellOffEnd r.name), m)
    | i :: rest =>
      match budget with
      | 0 => (.error (.stepLimit m.maxSteps), m)
      | budget + 1 =>
        let m := { m with steps := m.steps + 1 }
        match m.exec i with
        | .error fault => (.error fault, m)
        | .ok (m, .halt) => (.ok m.exit, m)
        | .ok (m, .next) => runFrom r budget rest m
        | .ok (m, .goto l) =>
          match r.codeAt? l with
          | some ahead => runFrom r budget ahead m
          | none => (.error (.unboundLabel l), m)

/-- Runs a routine from its start. A label bound twice is found before anything runs. -/
def run (m : Machine) (r : Routine) : Except Fault Exit × Machine :=
  match r.checkLabels with
  | .error e => (.error (.badCode e), m)
  | .ok () => runFrom r (m.maxSteps - m.steps) r.code m

end Machine

/-- The limits of an execution. -/
structure Limits where
  stackSize : Nat := 65536
  maxSteps : Nat := 1000000
deriving DecidableEq

/-- Runs a routine on a machine of its own. -/
def Routine.run (r : Routine) (limits : Limits) : Except Fault Exit :=
  ((Machine.fresh limits.stackSize limits.maxSteps).run r).1

end Comparand
