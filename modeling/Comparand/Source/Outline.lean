import Comparand.Source.Syntax

/-!
Programs as outlines: the kinds of all nodes in pre-order, and a text with one node a line, indented by depth.
-/

namespace Comparand

/-- A line of an outline. -/
def outlineLine (depth : Nat) (kind : NodeKind) (details : List String) : String :=
  String.ofList (List.replicate (2 * depth) ' ') ++ String.intercalate " " (kind.name :: details) ++ "\n"

namespace Expr

def kinds : Expr → List NodeKind
  | compare op lhs rhs => op.kind :: (lhs.kinds ++ rhs.kinds)
  | not e => .NOT :: e.kinds
  | neg e => .MINUS :: e.kinds
  | paren e => .PAREN :: e.kinds
  | e => [e.kind]

def outline (depth : Nat) : Expr → String
  | literal c => outlineLine depth .LITERAL [c.text]
  | name x => outlineLine depth .NAME [x]
  | deref x => outlineLine depth .IND [x]
  | new ty => outlineLine depth .NEW [ty.name]
  | compare op lhs rhs => outlineLine depth op.kind [] ++ lhs.outline (depth + 1) ++ rhs.outline (depth + 1)
  | not e => outlineLine depth .NOT [] ++ e.outline (depth + 1)
  | neg e => outlineLine depth .MINUS [] ++ e.outline (depth + 1)
  | paren e => outlineLine depth .PAREN [] ++ e.outline (depth + 1)

end Expr

namespace Stmt

mutual

def kinds : Stmt → List NodeKind
  | .define _ e | .assign _ e => .AS :: e.kinds
  | .store _ e => .AS :: .IND :: e.kinds
  | .var _ _ none => [.DCL]
  | .var _ _ (some e) => .DCL :: e.kinds
  | .inc _ => [.INC]
  | .dec _ => [.DEC]
  | .cond test body none => .IF :: (test.kinds ++ .BLOCK :: listKinds body)
  | .cond test body (some otherwise) =>
    .IF :: (test.kinds ++ .BLOCK :: listKinds body ++ .BLOCK :: listKinds otherwise)
  | .exit e => .RISCVEXIT :: e.kinds

def listKinds : List Stmt → List NodeKind
  | [] => []
  | s :: ss => s.kinds ++ listKinds ss

end

mutual

def outline (depth : Nat) : Stmt → String
  | .define x e | .assign x e => outlineLine depth .AS [x] ++ e.outline (depth + 1)
  | .store x e => outlineLine depth .AS [] ++ outlineLine (depth + 1) .IND [x] ++ e.outline (depth + 1)
  | .var x ty none => outlineLine depth .DCL [x, ty.name]
  | .var x ty (some e) => outlineLine depth .DCL [x, ty.name] ++ e.outline (depth + 1)
  | .inc x => outlineLine depth .INC [x]
  | .dec x => outlineLine depth .DEC [x]
  | .cond test body none =>
    outlineLine depth .IF [] ++ test.outline (depth + 1) ++
      outlineLine (depth + 1) .BLOCK [] ++ listOutline (depth + 2) body
  | .cond test body (some otherwise) =>
    outlineLine depth .IF [] ++ test.outline (depth + 1) ++
      outlineLine (depth + 1) .BLOCK [] ++ listOutline (depth + 2) body ++
      outlineLine (depth + 1) .BLOCK [] ++ listOutline (depth + 2) otherwise
  | .exit e => outlineLine depth .RISCVEXIT [] ++ e.outline (depth + 1)

def listOutline (depth : Nat) : List Stmt → String
  | [] => ""
  | s :: ss => s.outline depth ++ listOutline depth ss

end

end Stmt

namespace Program

/-- The kinds of all nodes, in pre-order. -/
def kinds (p : Program) : List NodeKind := .DCLFUNC :: .BLOCK :: Stmt.listKinds p.body

/-- The tree with one node a line. -/
def outline (p : Program) : String :=
  outlineLine 0 .DCLFUNC [p.name] ++ outlineLine 1 .BLOCK [] ++ Stmt.listOutline 2 p.body

end Program
end Comparand
