import Comparand.Riscv.Instr

/-!
A routine: named code with the labels that were made for it.
-/

namespace Comparand

structure Routine where
  name : String
  code : List Instr := []
  /-- What the labels made for this routine are for; label `n` is the `n`-th of them. -/
  hints : List String := []
  /-- The bytes of stack that the routine takes. -/
  frameSize : Nat := 0
deriving DecidableEq

namespace Routine

def push (r : Routine) (i : Instr) : Routine := { r with code := r.code ++ [i] }

def append (r : Routine) (code : List Instr) : Routine := { r with code := r.code ++ code }

def newLabel (r : Routine) (hint : String) : Label × Routine :=
  (⟨r.hints.length⟩, { r with hints := r.hints ++ [hint] })

def hint? (r : Routine) (l : Label) : Option String := r.hints[l.index]?

/-- The number of instructions, labels not counted. -/
def length (r : Routine) : Nat := r.code.countP (!·.isLabel)

def compareCount (r : Routine) : Nat := r.code.countP (·.isFloatCompare)

/-- The labels that the code binds, in order. -/
def boundLabels (code : List Instr) : List Label :=
  code.filterMap fun
    | .label l => some l
    | _ => none

/-- The first element that occurs in a list before. -/
def firstRepeated? {α : Type} [DecidableEq α] : List α → List α → Option α
  | _, [] => none
  | seen, a :: as => if a ∈ seen then some a else firstRepeated? (a :: seen) as

/-- Fails on the first label that is bound a second time. -/
def checkLabels (r : Routine) : Except CodeError Unit :=
  match firstRepeated? [] (boundLabels r.code) with
  | some l => .error (.duplicateLabel l)
  | none => .ok ()

/-- Where a label is bound. -/
def position? (r : Routine) (l : Label) : Option Nat := r.code.idxOf? (.label l)

end Routine
end Comparand
