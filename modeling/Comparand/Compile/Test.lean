import Comparand.Compare.Lowering
import Comparand.Compile.Knowledge
import Comparand.Compile.Value

/-!
Tests of `if` statements: what they compare, how code decides them, and when they are decided beforehand.
-/

namespace Comparand

/-- A comparison of two values, at a float width or of integers. -/
inductive Comparison where
  | float (width : Width) (lhs rhs : Value)
  | int (lhs rhs : Value)
deriving DecidableEq

namespace Comparison

/-- The type at which two values are compared: that of a slot if there is one, else a float type if one of the
constants is a float. -/
def scalar : Value → Value → Except CompileError Scalar
  | .slot a _, .slot b _ => if a = b then .ok a else .error (.type (.mismatch a b))
  | .slot ty _, .constant _ | .constant _, .slot ty _ => .ok ty
  | .constant (.int _), .constant (.int _) => .ok .int
  | .constant _, .constant _ => .ok .float64

/-- The comparison of two values. A float constant cannot be compared with an integer. -/
def ofValues (lhs rhs : Value) : Except CompileError Comparison := do
  let ty ← scalar lhs rhs
  match ty.width? with
  | some w => .ok (.float w lhs rhs)
  | none =>
    match lhs, rhs with
    | .constant (.float _), _ | _, .constant (.float _) => .error (.type .floatComparedWithInt)
    | _, _ => .ok (.int lhs rhs)

/-- The comparison of two expressions. -/
def ofExprs (scopes : Scopes) (lhs rhs : Expr) : Except CompileError Comparison := do
  let lhs ← lhs.value scopes
  let rhs ← rhs.value scopes
  ofValues lhs rhs

end Comparison

namespace Knowledge

/-- The constant that a value is known to be. -/
def value? (k : Knowledge) : Value → Option Constant
  | .constant c => some c
  | .slot _ s => k.get? s

/-- Decides a comparison of which both sides are known. Constants are rounded to the width first. -/
def decide? (k : Knowledge) (op : Relation) : Comparison → Option Bool
  | .float w lhs rhs => do
    let a ← k.value? lhs
    let b ← k.value? rhs
    return (Condition.ofRelation op).holds (w.round a.toBinary64) (w.round b.toBinary64)
  | .int lhs rhs => do
    match ← k.value? lhs, ← k.value? rhs with
    | .int a, .int b => return op.holdsOf (Ord.compare a.toInt b.toInt)
    | _, _ => none

end Knowledge

namespace Expr

/-- Decides a test with what is known; `none` if that is not enough or it is no test. -/
def decide (scopes : Scopes) (k : Knowledge) : Expr → Except CompileError (Option Bool)
  | paren e => e.decide scopes k
  | not e => return (← e.decide scopes k).map (!·)
  | compare op lhs rhs => return k.decide? op (← Comparison.ofExprs scopes lhs rhs)
  | _ => .ok none

end Expr

namespace Value

/-- The value as an operand of a float comparison. -/
def operand (w : Width) : Value → Operand
  | constant c => ⟨.constant c.toBinary64, w⟩
  | slot _ s => ⟨.slot s, w⟩

/-- Code that brings an integer into a register, and that register: a constant 0 is in `zero` already. -/
def intoReg (scratch : IntReg) : Value → List Instr × IntReg
  | constant (.int v) => if v = 0 then ([], .zero) else ([.li scratch v], scratch)
  | constant (.float _) => ([], .zero)
  | slot _ s => ([.ld scratch .sp s.offset], scratch)

end Value

/-- The branch for an integer comparison. There is none for `>` and `<=`, which exchange their operands. -/
def Relation.branch (op : Relation) (a b : IntReg) (target : Label) : Instr :=
  match op with
  | .eq => .branch .eq a b target
  | .ne => .branch .ne a b target
  | .lt => .branch .lt a b target
  | .ge => .branch .ge a b target
  | .gt => .branch .lt b a target
  | .le => .branch .ge b a target

namespace Comparison

/-- Code that goes to `yes` if the comparison holds and to `no` if it does not. -/
def code (lowering : Lowering) (op : Relation) (yes no : Label) : Comparison → Except CodeError (List Instr)
  | .float w lhs rhs =>
    (lowering op (lhs.operand w) (rhs.operand w) (.branch yes no) {}).1.map Lowered.code
  | .int lhs rhs =>
    let (loadLhs, a) := lhs.intoReg .t0
    let (loadRhs, b) := rhs.intoReg .t1
    .ok (loadLhs ++ loadRhs ++ [op.branch a b yes, .jump no])

end Comparison

namespace Expr

/-- Code that goes to `yes` if the test holds and to `no` if it does not. A negation exchanges the two, which is right
for unordered operands too. -/
def testCode (lowering : Lowering) (scopes : Scopes) (yes no : Label) : Expr → Except CompileError (List Instr)
  | paren e => e.testCode lowering scopes yes no
  | not e => e.testCode lowering scopes no yes
  | compare op lhs rhs => do
    let c ← Comparison.ofExprs scopes lhs rhs
    (c.code lowering op yes no).mapError .code
  | e => .error (.type (.noComparison e.kind))

end Expr
end Comparand
