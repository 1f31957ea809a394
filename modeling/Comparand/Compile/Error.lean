import Comparand.Source.Syntax

/-!
Why a program does not compile.
-/

namespace Comparand

/-- The type of a variable: a number, or a pointer to one. -/
inductive VarType where
  | scalar (ty : Scalar)
  | pointer (ty : Scalar)
deriving DecidableEq

def VarType.text : VarType → String
  | scalar ty => ty.name
  | pointer ty => "*" ++ ty.name

/-- A use of a value at a type that it does not have. -/
inductive TypeError where
  | notFloat (what : String) (ty : Scalar)
  | floatToInt (v : Binary64)
  | assign (source target : Scalar)
  | storeThrough (x : String) (ty : VarType)
  | increment (x : String) (ty : VarType)
  | dereference (x : String) (ty : VarType)
  | exitStatus
  | mismatch (lhs rhs : Scalar)
  | floatComparedWithInt
  | noComparison (found : NodeKind)
deriving DecidableEq

def TypeError.message : TypeError → String
  | notFloat what ty => what ++ " is " ++ ty.name ++ ", not a float"
  | floatToInt v => "float constant " ++ Decimal.Layout.plain.writeAny ⟨"NaN", "inf"⟩ v ++ " assigned to int"
  | assign source target => "cannot assign " ++ source.name ++ " to " ++ target.name
  | storeThrough x ty => "cannot store through " ++ x ++ " of type " ++ ty.text
  | increment x ty => "cannot increment " ++ x ++ " of type " ++ ty.text
  | dereference x ty => "cannot dereference " ++ x ++ " of type " ++ ty.text
  | exitStatus => "riscvexit takes an int status"
  | mismatch lhs rhs => "mismatched types " ++ lhs.name ++ " and " ++ rhs.name
  | floatComparedWithInt => "float constant compared with int"
  | noComparison found => "condition must be a comparison, found " ++ found.name

/-- Something that the grammar allows and the compiler does not. -/
inductive Unsupported where
  | pointerAssignment (x : String)
  | pointerValue (x : String)
  | negation
  | newCell
  | value (found : NodeKind)
deriving DecidableEq

def Unsupported.message : Unsupported → String
  | pointerAssignment x => "reassigning pointer " ++ x
  | pointerValue x => "pointer " ++ x ++ " used as a value"
  | negation => "negation of a non-constant"
  | newCell => "new outside a definition"
  | value found => found.name ++ " used as a value"

inductive CompileError where
  | notFound (x : String)
  | redeclared (x : String)
  | type (e : TypeError)
  | unsupported (e : Unsupported)
  | code (e : CodeError)
deriving DecidableEq

def CompileError.message : CompileError → String
  | notFound x => "Symbol not found: " ++ x
  | redeclared x => "Variable " ++ x ++ " redeclared in the same scope"
  | type e => "Type error: " ++ e.message
  | unsupported e => "Unsupported feature: " ++ e.message
  | code e => "Lowering error: " ++ e.message

/-- The width of a type that has to be a float type; `what` names the thing of this type. -/
def Scalar.width (ty : Scalar) (what : String) : Except CompileError Width :=
  match ty.width? with
  | some w => .ok w
  | none => .error (.type (.notFloat what ty))

end Comparand
