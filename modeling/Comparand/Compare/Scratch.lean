import Comparand.Riscv.Register

/-!
Scratch registers. A pool hands out its registers from front to back and passes over those that are reserved; a mark
remembers how far it has come, so that what was taken since can be given back.
-/

namespace Comparand

/-- A pool of registers of one class. -/
structure Pool (α : Type) where
  regs : List α
  reserved : List α := []
  /-- How many registers from the front are spent. -/
  used : Nat := 0
deriving DecidableEq

namespace Pool

variable {α : Type} [DecidableEq α]

/-- The first register of a list that is not reserved, counting the ones looked at from `n`. -/
def scan (reserved : List α) : List α → Nat → Option α × Nat
  | [], n => (none, n)
  | r :: rs, n => if r ∈ reserved then scan reserved rs (n + 1) else (some r, n + 1)

/-- Takes a register. If none is left, the pool is spent to its end. -/
def alloc (p : Pool α) : Option α × Pool α :=
  let (r, used) := scan p.reserved (p.regs.drop p.used) p.used
  (r, { p with used })

def reserve (p : Pool α) (r : α) : Pool α := { p with reserved := p.reserved ++ [r] }

/-- How far a pool has come. -/
structure Mark where
  used : Nat
  reserved : Nat
deriving DecidableEq

def mark (p : Pool α) : Mark := ⟨p.used, p.reserved.length⟩

/-- Gives back what was taken and reserved since the mark. -/
def reset (p : Pool α) (m : Mark) : Pool α :=
  { p with used := m.used, reserved := p.reserved.take m.reserved }

end Pool

/-- The scratch registers of one lowering. -/
structure Scratch where
  ints : Pool IntReg := { regs := IntReg.temporaries }
  floats : Pool FloatReg := { regs := FloatReg.temporaries }
deriving DecidableEq

namespace Scratch

structure Mark where
  ints : Pool.Mark
  floats : Pool.Mark
deriving DecidableEq

def mark (s : Scratch) : Mark := ⟨s.ints.mark, s.floats.mark⟩

def reset (s : Scratch) (m : Mark) : Scratch := ⟨s.ints.reset m.ints, s.floats.reset m.floats⟩

def allocInt (s : Scratch) : Except CodeError IntReg × Scratch :=
  let (r, ints) := s.ints.alloc
  (r.elim (.error (.scratchExhausted .integer)) .ok, { s with ints })

def allocFloat (s : Scratch) : Except CodeError FloatReg × Scratch :=
  let (r, floats) := s.floats.alloc
  (r.elim (.error (.scratchExhausted .float)) .ok, { s with floats })

def reserveInt (s : Scratch) (r : IntReg) : Scratch := { s with ints := s.ints.reserve r }

def reserveFloat (s : Scratch) (r : FloatReg) : Scratch := { s with floats := s.floats.reserve r }

end Scratch
end Comparand
