import Comparand.Compare.Relation
import Comparand.Decimal.Layout
import Comparand.Width

/-!
Syntax trees of programs. A program is one function whose exit status is its verdict.
-/

namespace Comparand

/-- The types of variables and cells. -/
inductive Scalar where
  | int
  | float32
  | float64
deriving DecidableEq

namespace Scalar

def name : Scalar → String
  | int => "int"
  | float32 => "float32"
  | float64 => "float64"

def ofName? : String → Option Scalar
  | "int" => some int
  | "float32" => some float32
  | "float64" => some float64
  | _ => none

/-- The width of a float type. -/
def width? : Scalar → Option Width
  | int => none
  | float32 => some .single
  | float64 => some .double

end Scalar

/-- A number that is known before a program runs. -/
inductive Constant where
  | int (v : Int64)
  | float (v : Binary64)
deriving DecidableEq

namespace Constant

def text : Constant → String
  | int v => toString v.toInt
  | float v => Decimal.Layout.general.writeAny ⟨"NaN", "Inf"⟩ v

/-- The number as a double. -/
def toBinary64 : Constant → Binary64
  | int v => .ofInt64 v
  | float v => v

end Constant

inductive Expr where
  | literal (c : Constant)
  | name (x : String)
  /-- The contents of the cell that a pointer points to. -/
  | deref (x : String)
  /-- A pointer to a new cell. -/
  | new (ty : Scalar)
  | compare (op : Relation) (lhs rhs : Expr)
  | not (e : Expr)
  | neg (e : Expr)
  | paren (e : Expr)
deriving DecidableEq

namespace Expr

def kind : Expr → NodeKind
  | literal _ => .LITERAL
  | name _ => .NAME
  | deref _ => .IND
  | new _ => .NEW
  | compare op _ _ => op.kind
  | not _ => .NOT
  | neg _ => .MINUS
  | paren _ => .PAREN

/-- The expression inside any parentheses around it. -/
def unparen : Expr → Expr
  | paren e => e.unparen
  | e => e

end Expr

inductive Stmt where
  /-- Written `x := e`. -/
  | define (x : String) (value : Expr)
  /-- Written `var x ty` or `var x ty = e`. -/
  | var (x : String) (ty : Scalar) (init : Option Expr)
  /-- Written `x = e`. -/
  | assign (x : String) (value : Expr)
  /-- Written `*x = e`. -/
  | store (x : String) (value : Expr)
  /-- Written `x++`. -/
  | inc (x : String)
  /-- Written `x--`. -/
  | dec (x : String)
  | cond (test : Expr) (body : List Stmt) (otherwise : Option (List Stmt))
  /-- Written `riscvexit(e)`. -/
  | exit (code : Expr)

def Stmt.kind : Stmt → NodeKind
  | .define .. | .assign .. | .store .. => .AS
  | .var .. => .DCL
  | .inc _ => .INC
  | .dec _ => .DEC
  | .cond .. => .IF
  | .exit _ => .RISCVEXIT

structure Program where
  package : Option String
  name : String
  body : List Stmt

end Comparand
