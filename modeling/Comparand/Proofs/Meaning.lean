import Comparand.Source.Syntax

/-! What programs mean, said on syntax trees alone: variables and cells are places of a list that only grows, and names
lead to them. Whatever has no meaning is `none`. -/
namespace Comparand

/-- What a variable or a cell holds. -/
inductive Datum where
  | int (v : Int64)
  | single (x : Binary32)
  | double (x : Binary64)
deriving DecidableEq

def Datum.type : Datum → Scalar
  | int _ => .int
  | single _ => .float32
  | double _ => .float64

/-- A constant as a variable of the type holds it. A float is first converted to a double, also for `float32`. -/
def Scalar.datum? : Scalar → Constant → Option Datum
  | int, .int v => some (.int v)
  | int, .float _ => none
  | float32, c => some (.single c.toBinary64.narrow)
  | float64, c => some (.double c.toBinary64)

/-- What a new variable or cell holds. -/
def Scalar.initial : Scalar → Datum
  | int => .int 0
  | float32 => .single ⟨0⟩
  | float64 => .double .zero

def Constant.neg : Constant → Constant
  | int v => .int (-v)
  | float v => .float v.neg

def Constant.type : Constant → Scalar
  | int _ => .int
  | float _ => .float64

/-- What a name stands for: the place of a variable, or of the cell that a pointer points to. -/
inductive Binding where
  | scalar (place : Nat)
  | pointer (place : Nat)
deriving DecidableEq

/-- The names in scope, the last declared first. -/
abbrev Env := List (String × Binding)

/-- What the variables and cells hold, by place. -/
abbrev Contents := List Datum

/-- What an expression yields: a constant, or what is at a place. -/
inductive Rvalue where
  | constant (c : Constant)
  | stored (place : Nat)
deriving DecidableEq

namespace Rvalue

/-- The type that a value has by itself. -/
def type? (contents : Contents) : Rvalue → Option Scalar
  | constant c => some c.type
  | stored place => contents[place]?.map Datum.type

/-- The value at a type. What is at a place has only its own type. -/
def datum? (contents : Contents) (ty : Scalar) : Rvalue → Option Datum
  | constant c => ty.datum? c
  | stored place => contents[place]?.filter (·.type = ty)

/-- The type at which two values are compared. -/
def comparedAt? (contents : Contents) : Rvalue → Rvalue → Option Scalar
  | stored place, _ | constant _, stored place => contents[place]?.map Datum.type
  | constant (.int _), constant (.int _) => some .int
  | constant _, constant _ => some .float64

end Rvalue

/-- Whether a relation holds of floats that compare in the given way; of unordered ones only `!=` does. -/
def Relation.holdsOfFloats (op : Relation) : Option Ordering → Bool
  | some o => op.holdsOf o
  | none => op = .ne

/-- The comparison of two data of one type. -/
def Relation.relates? (op : Relation) : Datum → Datum → Option Bool
  | .int a, .int b => some (op.holdsOf (Ord.compare a.toInt b.toInt))
  | .single a, .single b => some (op.holdsOfFloats (a.compare? b))
  | .double a, .double b => some (op.holdsOfFloats (a.compare? b))
  | _, _ => none

namespace Expr

def rvalue? (env : Env) : Expr → Option Rvalue
  | literal c => some (.constant c)
  | name x =>
    match env.lookup x with
    | some (.scalar place) => some (.stored place)
    | _ => none
  | deref x =>
    match env.lookup x with
    | some (.pointer place) => some (.stored place)
    | _ => none
  | neg e =>
    match e.rvalue? env with
    | some (.constant c) => some (.constant c.neg)
    | _ => none
  | paren e => e.rvalue? env
  | _ => none

/-- The type of the cell that an expression makes. -/
def cell? : Expr → Option Scalar
  | new ty => some ty
  | paren e => e.cell?
  | _ => none

/-- Whether a test holds. -/
def truth? (env : Env) (contents : Contents) : Expr → Option Bool
  | paren e => e.truth? env contents
  | not e => (e.truth? env contents).map (!·)
  | compare op lhs rhs => do
    let a ← lhs.rvalue? env
    let b ← rhs.rvalue? env
    let ty ← a.comparedAt? contents b
    op.relates? (← a.datum? contents ty) (← b.datum? contents ty)
  | _ => none

end Expr

/-- How a statement ends: it is over, or the program has ended with a value. -/
inductive Completion where
  | normal (env : Env) (contents : Contents)
  | exited (v : Int64)
deriving DecidableEq

/-- Leaving a block gives back the names that were in scope before it. -/
def Completion.leave (env : Env) : Completion → Completion
  | normal _ contents => normal env contents
  | exited v => exited v

namespace Stmt

/-- Declares a name for a new place. -/
def introduce (env : Env) (contents : Contents) (x : String) (binding : Nat → Binding) (d : Datum) : Completion :=
  .normal ((x, binding contents.length) :: env) (contents ++ [d])

/-- Puts a value where something of the same type has been. -/
def overwrite (env : Env) (contents : Contents) (place : Nat) (e : Expr) : Option Completion := do
  let old ← contents[place]?
  let d ← (← e.rvalue? env).datum? contents old.type
  return .normal env (contents.set place d)

/-- Adds to an integer variable, wrapping around. -/
def addTo (env : Env) (contents : Contents) (x : String) (delta : Int64) : Option Completion :=
  match env.lookup x with
  | some (.scalar place) =>
    match contents[place]? with
    | some (.int v) => some (.normal env (contents.set place (.int (v + delta))))
    | _ => none
  | _ => none

mutual

/-- How a statement ends. -/
@[simp] def eval : Stmt → Env → Contents → Option Completion
  | .define x e, env, contents =>
    match e.cell? with
    | some ty => some (introduce env contents x .pointer ty.initial)
    | none => do
      let v ← e.rvalue? env
      let d ← v.datum? contents (← v.type? contents)
      return introduce env contents x .scalar d
  | .var x ty none, env, contents => some (introduce env contents x .scalar ty.initial)
  | .var x ty (some e), env, contents => do
    let d ← (← e.rvalue? env).datum? contents ty
    return introduce env contents x .scalar d
  | .assign x e, env, contents =>
    match env.lookup x with
    | some (.scalar place) => overwrite env contents place e
    | _ => none
  | .store x e, env, contents =>
    match env.lookup x with
    | some (.pointer place) => overwrite env contents place e
    | _ => none
  | .inc x, env, contents => addTo env contents x 1
  | .dec x, env, contents => addTo env contents x (-1)
  | .cond test body none, env, contents => do
    if ← test.truth? env contents then return (← evalList body env contents).leave env
    else return .normal env contents
  | .cond test body (some otherwise), env, contents => do
    if ← test.truth? env contents then return (← evalList body env contents).leave env
    else return (← evalList otherwise env contents).leave env
  | .exit e, env, contents => do
    match ← (← e.rvalue? env).datum? contents .int with
    | .int v => return .exited v
    | _ => none

/-- How statements one after the other end. -/
@[simp] def evalList : List Stmt → Env → Contents → Option Completion
  | [], env, contents => some (.normal env contents)
  | s :: ss, env, contents => do
    match ← s.eval env contents with
    | .normal env contents => evalList ss env contents
    | .exited v => return .exited v

end

variable {env : Env} {contents : Contents} {test : Expr} {body otherwise : List Stmt} {b : Bool}

theorem eval_cond_none (h : test.truth? env contents = some b) : eval (.cond test body none) env contents =
    if b then (evalList body env contents).map (·.leave env) else some (.normal env contents) := by
  cases b <;> cases hbody : evalList body env contents <;> simp [h, hbody]

theorem eval_cond_some (h : test.truth? env contents = some b) :
    eval (.cond test body (some otherwise)) env contents =
      (evalList (if b then body else otherwise) env contents).map (·.leave env) := by
  cases b with
  | false => cases helse : evalList otherwise env contents <;> simp [h, helse]
  | true => cases hbody : evalList body env contents <;> simp [h, hbody]

end Stmt

/-- The exit code: the low 32 bits of what a program exits with, and 0 if it falls off its end. -/
def Completion.status : Completion → Int32
  | normal .. => 0
  | exited v => v.toInt32

/-- The exit code of a program. -/
def Program.meaning? (p : Program) : Option Int32 := (Stmt.evalList p.body [] []).map Completion.status

end Comparand
