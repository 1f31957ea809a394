import Std.Data.TreeMap
import Comparand.Riscv.Fault

/-!
Byte memory for the stack: the `size` bytes below `stackTop`, all zero at first. Words are little-endian, and an access
has to be aligned to its size.
-/

namespace Comparand

/-- One past the highest address of the stack. -/
def stackTop : Nat := 0x80000000

structure Memory where
  size : Nat
  /-- The bytes that were written, by address. -/
  cells : Std.TreeMap Nat UInt8 := ∅

namespace Memory

def byte (m : Memory) (a : Nat) : UInt8 := m.cells.getD a 0

def setByte (m : Memory) (a : Nat) (b : UInt8) : Memory := { m with cells := m.cells.insert a b }

/-- The number in the `n` bytes from `a` on. -/
def read (m : Memory) : Nat → Nat → Nat
  | _, 0 => 0
  | a, n + 1 => (m.byte a).toNat + 256 * m.read (a + 1) n

/-- Puts the low `n` bytes of `v` from `a` on. -/
def write (m : Memory) : Nat → Nat → Nat → Memory
  | _, 0, _ => m
  | a, n + 1, v => (m.setByte a (.ofNat v)).write (a + 1) n (v / 256)

/-- Whether an access of `n` bytes is possible. Alignment comes before range. -/
def check (m : Memory) (a : UInt64) (n : Nat) : Except Fault Unit :=
  if a.toNat % n ≠ 0 then .error (.misaligned a n)
  else if stackTop - m.size ≤ a.toNat ∧ a.toNat + n ≤ stackTop then .ok ()
  else .error (.memory a)

def load64 (m : Memory) (a : UInt64) : Except Fault UInt64 :=
  (m.check a 8).map fun _ => .ofNat (m.read a.toNat 8)

def load32 (m : Memory) (a : UInt64) : Except Fault UInt32 :=
  (m.check a 4).map fun _ => .ofNat (m.read a.toNat 4)

def store64 (m : Memory) (a v : UInt64) : Except Fault Memory :=
  (m.check a 8).map fun _ => m.write a.toNat 8 v.toNat

def store32 (m : Memory) (a : UInt64) (v : UInt32) : Except Fault Memory :=
  (m.check a 4).map fun _ => m.write a.toNat 4 v.toNat

end Memory
end Comparand
