import Comparand.Compare.Operand

/-!
The frame of a routine. Every variable and cell has a slot of eight bytes for itself.
-/

namespace Comparand

structure Frame where
  /-- The bytes handed out so far. -/
  next : Nat := 0
deriving DecidableEq

namespace Frame

/-- Hands out a slot, as long as instructions can reach it. -/
def alloc (f : Frame) : Except CodeError (Slot × Frame) := do
  return (← Slot.ofOffset f.next, ⟨f.next + 8⟩)

/-- The size of the frame, rounded up to the alignment of the stack. -/
def size (f : Frame) : Nat := (f.next + 15) / 16 * 16

end Frame
end Comparand
