import Comparand.Compile.Scopes

/-!
What expressions stand for: a constant, or a slot with the type of what it holds.
-/

namespace Comparand

inductive Value where
  | constant (c : Constant)
  | slot (ty : Scalar) (s : Slot)
deriving DecidableEq

/-- The type that a value has by itself. -/
def Value.type : Value → Scalar
  | constant (.int _) => .int
  | constant (.float _) => .float64
  | slot ty _ => ty

namespace Expr

/-- The constant that literals, signs and parentheses make up. The least integer cannot be negated. -/
def constant? : Expr → Option Constant
  | literal c => some c
  | paren e => e.constant?
  | neg e =>
    match e.constant? with
    | some (.int v) => if v = Int64.minValue then none else some (.int (-v))
    | some (.float v) => some (.float v.neg)
    | none => none
  | _ => none

/-- The value of an expression; only constants, variables and contents of cells have one. -/
def value (scopes : Scopes) (e : Expr) : Except CompileError Value :=
  match e.constant? with
  | some c => .ok (.constant c)
  | none =>
    match e.unparen with
    | name x => do
      let symbol ← scopes.lookup x
      match symbol.type with
      | .scalar ty => .ok (.slot ty symbol.slot)
      | .pointer _ => .error (.unsupported (.pointerValue x))
    | deref x => do
      let symbol ← scopes.lookup x
      match symbol.type with
      | .pointer ty => .ok (.slot ty symbol.slot)
      | .scalar _ => .error (.type (.dereference x symbol.type))
    | neg _ => .error (.unsupported .negation)
    | new _ => .error (.unsupported .newCell)
    | other => .error (.unsupported (.value other.kind))

end Expr
end Comparand
