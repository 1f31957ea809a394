import Comparand.Proofs.Execution
import Comparand.Proofs.Meaning
import Comparand.Proofs.Reading

/-! What the statements of a program cost, said on syntax trees: the instructions that run when every test is made, and
whether a comparison raises the invalid flag. -/
namespace Comparand

/-- A datum as it lies in a register. -/
def Datum.word : Datum → UInt64
  | int v => v.toUInt64
  | single x => box x.bits
  | double x => x.bits

namespace Rvalue

/-- The instructions that store a value into a slot of a type. -/
def storeSteps (ty : Scalar) : Rvalue → Nat
  | constant (.int v) => if ty = .int then (if v = 0 then 1 else 2) else 3
  | constant (.float _) => 3
  | stored _ => 2

/-- The instructions that bring an integer into a register. There is one for 0 already. -/
def intLoads : Rvalue → Nat
  | constant c => if c = .int 0 then 0 else 1
  | stored _ => 1

/-- The instructions that bring a float into a register. -/
def floatLoads : Rvalue → Nat
  | constant _ => 2
  | stored _ => 1

/-- The instructions that bring the second operand of a float comparison into a register: it may be there already. -/
def secondLoads (first second : Rvalue) : Nat :=
  match first, second with
  | stored i, stored j => if i = j then 0 else 1
  | _, second => second.floatLoads

/-- The cost of a comparison. Of the two jumps at its end only the first is made if it holds. -/
def compareCost? (contents : Contents) (op : Relation) (a b : Rvalue) : Option Cost := do
  let ty ← a.comparedAt? contents b
  let x ← a.datum? contents ty
  let y ← b.datum? contents ty
  let jumps := if ← op.relates? x y then 1 else 2
  match ty.width? with
  | none => return ⟨a.intLoads + b.intLoads + jumps, false⟩
  | some w => return ⟨a.floatLoads + a.secondLoads b + 1 + jumps, (Condition.ofRelation op).raises w x.word y.word⟩

end Rvalue

namespace Expr

/-- The instructions that store the value of an expression into a slot of a type. -/
def storeSteps (env : Env) (ty : Scalar) (e : Expr) : Nat := (e.rvalue? env).elim 0 (·.storeSteps ty)

/-- The type of the variable that an expression initialises. -/
def ownType (env : Env) (contents : Contents) (e : Expr) : Scalar :=
  (e.rvalue? env >>= Rvalue.type? contents).getD .int

def testCost (env : Env) (contents : Contents) : Expr → Cost
  | paren e | not e => e.testCost env contents
  | compare op lhs rhs => (do Rvalue.compareCost? contents op (← lhs.rvalue? env) (← rhs.rvalue? env)).getD 0
  | _ => 0

end Expr

/-- The type of what a name leads to. -/
def Env.typeOf (env : Env) (contents : Contents) (x : String) : Scalar :=
  match env.lookup x with
  | some (.scalar place) | some (.pointer place) => (contents[place]?.map Datum.type).getD .int
  | none => .int

namespace Stmt

mutual

@[simp] def cost : Stmt → Env → Contents → Cost
  | .define _ e, env, contents =>
    if e.cell?.isSome then ⟨1, false⟩ else ⟨e.storeSteps env (e.ownType env contents), false⟩
  | .var _ _ none, _, _ => ⟨1, false⟩
  | .var _ ty (some e), env, _ => ⟨e.storeSteps env ty, false⟩
  | .assign x e, env, contents | .store x e, env, contents => ⟨e.storeSteps env (env.typeOf contents x), false⟩
  | .inc _, _, _ | .dec _, _, _ | .exit _, _, _ => ⟨3, false⟩
  | .cond test body none, env, contents =>
    test.testCost env contents + if test.truth? env contents = some true then costList body env contents else 0
  | .cond test body (some otherwise), env, contents =>
    -- a branch that is not the last one jumps over the other when it is over
    test.testCost env contents + if test.truth? env contents = some true then
      costList body env contents + match evalList body env contents with
        | some (.normal ..) => ⟨1, false⟩
        | _ => 0
      else costList otherwise env contents

@[simp] def costList : List Stmt → Env → Contents → Cost
  | [], _, _ => 0
  | s :: ss, env, contents =>
    s.cost env contents + match s.eval env contents with
      | some (.normal env contents) => costList ss env contents
      | _ => 0

end

end Stmt
end Comparand
