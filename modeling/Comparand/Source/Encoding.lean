import Comparand.Json
import Comparand.Source.Syntax

/-!
Programs as JSON. A node is an object whose only field is named for the variant.
-/

namespace Comparand

def Scalar.jsonName : Scalar → String
  | int => "Int"
  | float32 => "Float32"
  | float64 => "Float64"

def Constant.toJson : Constant → Json
  | int v => .tagged "Int" (.int v.toInt)
  | float v => .tagged "Float" (.float v)

namespace Expr

def toJson : Expr → Json
  | literal c => .tagged "Literal" c.toJson
  | name x => .tagged "Name" (.str x)
  | deref x => .tagged "Deref" (.str x)
  | new ty => .tagged "New" (.str ty.jsonName)
  | compare op lhs rhs =>
    .tagged "Compare" (.obj [("op", .str op.jsonName), ("lhs", lhs.toJson), ("rhs", rhs.toJson)])
  | not e => .tagged "Not" e.toJson
  | neg e => .tagged "Neg" e.toJson
  | paren e => .tagged "Paren" e.toJson

end Expr

namespace Stmt

mutual

def toJson : Stmt → Json
  | .define x e => .tagged "Define" (.obj [("name", .str x), ("value", e.toJson)])
  | .var x ty init =>
    let init := match init with
      | some e => e.toJson
      | none => .null
    .tagged "Var" (.obj [("name", .str x), ("ty", .str ty.jsonName), ("init", init)])
  | .assign x e => .tagged "Assign" (.obj [("name", .str x), ("value", e.toJson)])
  | .store x e => .tagged "Store" (.obj [("target", .str x), ("value", e.toJson)])
  | .inc x => .tagged "Inc" (.obj [("name", .str x)])
  | .dec x => .tagged "Dec" (.obj [("name", .str x)])
  | .cond test body none =>
    .tagged "If" (.obj [("cond", test.toJson), ("then", .obj [("stmts", .arr (listToJson body))]),
      ("otherwise", .null)])
  | .cond test body (some otherwise) =>
    .tagged "If" (.obj [("cond", test.toJson), ("then", .obj [("stmts", .arr (listToJson body))]),
      ("otherwise", .obj [("stmts", .arr (listToJson otherwise))])])
  | .exit e => .tagged "Exit" (.obj [("code", e.toJson)])

def listToJson : List Stmt → List Json
  | [] => []
  | s :: ss => s.toJson :: listToJson ss

end

end Stmt

def Program.toJson (p : Program) : Json :=
  let package := match p.package with
    | some x => .str x
    | none => .null
  .obj [("package", package), ("name", .str p.name), ("body", .obj [("stmts", .arr (Stmt.listToJson p.body))])]

end Comparand
