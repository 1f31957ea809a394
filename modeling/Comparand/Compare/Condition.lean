import Comparand.Compare.Relation
import Comparand.Riscv.Instr

/-!
The fourteen conditions on two floats, and how the native comparisons decide them.

Operands compare as less, equal, greater or unordered, and a condition is a set of these four. A condition that
contains "unordered" is decided by negating its complement; one that does not is decided directly. In particular
"greater" exchanges the operands of `flt` and never negates `fle`, which would accept NaNs.
-/

namespace Comparand

inductive Condition where
  | ord | uno | eq | ne | one | ueq | lt | le | gt | ge | ult | ule | ugt | uge
deriving DecidableEq

inductive Side where
  | lhs | rhs
deriving DecidableEq

/-- One native comparison with its operands chosen from the two sides. -/
structure Probe where
  test : FloatTest
  first : Side
  second : Side
deriving DecidableEq

/-- The native comparisons that decide a condition, and how their answers combine. -/
inductive Recipe where
  | single (p : Probe)
  | all (p q : Probe)
  | any (p q : Probe)
deriving DecidableEq

def Recipe.probes : Recipe → List Probe
  | single p => [p]
  | all p q | any p q => [p, q]

namespace Condition

def every : List Condition := [ord, uno, eq, ne, one, ueq, lt, le, gt, ge, ult, ule, ugt, uge]

def name : Condition → String
  | ord => "ord"
  | uno => "uno"
  | eq => "eq"
  | ne => "ne"
  | one => "one"
  | ueq => "ueq"
  | lt => "lt"
  | le => "le"
  | gt => "gt"
  | ge => "ge"
  | ult => "ult"
  | ule => "ule"
  | ugt => "ugt"
  | uge => "uge"

def ofName? (s : String) : Option Condition := every.find? (·.name == s)

/-- The condition that a relational operator stands for: `!=` holds of unordered operands. -/
def ofRelation : Relation → Condition
  | .eq => eq
  | .ne => ne
  | .lt => lt
  | .le => le
  | .gt => gt
  | .ge => ge

def relation? : Condition → Option Relation
  | eq => some .eq
  | ne => some .ne
  | lt => some .lt
  | le => some .le
  | gt => some .gt
  | ge => some .ge
  | _ => none

/-- Whether the condition holds of operands that compare in the given way. -/
def holdsOf : Condition → Option Ordering → Bool
  | ord, o => o.isSome
  | uno, o => o.isNone
  | eq, o => o == some .eq
  | ne, o => o != some .eq
  | one, o => o == some .lt || o == some .gt
  | ueq, o => o.isNone || o == some .eq
  | lt, o => o == some .lt
  | le, o => o == some .lt || o == some .eq
  | gt, o => o == some .gt
  | ge, o => o == some .gt || o == some .eq
  | ult, o => o.isNone || o == some .lt
  | ule, o => o.isNone || o == some .lt || o == some .eq
  | ugt, o => o.isNone || o == some .gt
  | uge, o => o.isNone || o == some .gt || o == some .eq

/-- The meaning of the condition on doubles. -/
def holds (c : Condition) (a b : Binary64) : Bool := c.holdsOf (a.compare? b)

/-- The native comparisons for a condition or its complement, whichever excludes unordered operands. -/
def recipe : Condition → Recipe
  | ord | uno => .all ⟨.feq, .lhs, .lhs⟩ ⟨.feq, .rhs, .rhs⟩
  | one | ueq => .any ⟨.flt, .lhs, .rhs⟩ ⟨.flt, .rhs, .lhs⟩
  | eq | ne => .single ⟨.feq, .lhs, .rhs⟩
  | lt | uge => .single ⟨.flt, .lhs, .rhs⟩
  | le | ugt => .single ⟨.fle, .lhs, .rhs⟩
  | gt | ule => .single ⟨.flt, .rhs, .lhs⟩
  | ge | ult => .single ⟨.fle, .rhs, .lhs⟩

/-- Whether the recipe decides the complement. -/
def isNegated : Condition → Bool
  | uno | ne | ueq | ult | ule | ugt | uge => true
  | ord | eq | one | lt | le | gt | ge => false

end Condition
end Comparand
