import Comparand.Compare.Operand
import Comparand.Source.Syntax

/-!
What is known about the frame at a point of a program.

Only stores that were seen are trusted. A store through a pointer is taken to change every cell, so it makes the
contents of all cells unknown before the new one is noted.
-/

namespace Comparand

structure Knowledge where
  values : List (Slot × Constant) := []
  /-- The slots that pointers point to. -/
  cells : List Slot := []
  /-- Whether execution can get here at all. -/
  reachable : Bool := true
deriving DecidableEq

namespace Knowledge

/-- The constant that a slot is known to hold. -/
def get? (k : Knowledge) (s : Slot) : Option Constant := k.values.lookup s

def registerCell (k : Knowledge) (cell : Slot) : Knowledge :=
  if cell ∈ k.cells then k else { k with cells := cell :: k.cells }

/-- Notes what a slot holds from now on; `none` if that is not known. -/
def set (k : Knowledge) (s : Slot) (v : Option Constant) : Knowledge :=
  let others := k.values.filter fun e => e.1 ≠ s
  match v with
  | some c => { k with values := (s, c) :: others }
  | none => { k with values := others }

/-- Notes a store through a pointer to a cell. -/
def storeThrough (k : Knowledge) (cell : Slot) (v : Option Constant) : Knowledge :=
  { k with values := k.values.filter fun e => e.1 ∉ k.cells }.set cell v

def markUnreachable (k : Knowledge) : Knowledge := { k with reachable := false }

/-- What is known where two paths meet: what both agree on, or all of one if the other cannot be taken. -/
def merge (a b : Knowledge) : Knowledge :=
  if !a.reachable then b
  else if !b.reachable then a
  else { values := a.values.filter fun e => b.get? e.1 = some e.2, cells := a.cells ++ b.cells.filter (· ∉ a.cells) }

end Knowledge
end Comparand
