import Comparand.CodeError

/-!
The six relational operators.
-/

namespace Comparand

inductive Relation where
  | eq | ne | lt | le | gt | ge
deriving DecidableEq

namespace Relation

def all : List Relation := [eq, ne, lt, le, gt, ge]

def symbol : Relation → String
  | eq => "=="
  | ne => "!="
  | lt => "<"
  | le => "<="
  | gt => ">"
  | ge => ">="

def ofSymbol? (s : String) : Option Relation := all.find? (·.symbol == s)

def kind : Relation → NodeKind
  | eq => .EQ
  | ne => .NE
  | lt => .LT
  | le => .LE
  | gt => .GT
  | ge => .GE

/-- The name of a relation in JSON. -/
def jsonName : Relation → String
  | eq => "Eq"
  | ne => "Ne"
  | lt => "Lt"
  | le => "Le"
  | gt => "Gt"
  | ge => "Ge"

/-- The relation that gives the same answer with its operands exchanged. -/
def swap : Relation → Relation
  | eq => eq
  | ne => ne
  | lt => gt
  | le => ge
  | gt => lt
  | ge => le

/-- Whether the relation holds of operands that compare in the given way. -/
def holdsOf : Relation → Ordering → Bool
  | eq, o => o.isEq
  | ne, o => o.isNe
  | lt, o => o.isLT
  | le, o => o.isLE
  | gt, o => o.isGT
  | ge, o => o.isGE

end Relation

namespace NodeKind

/-- The relation that a node kind stands for. -/
def relation? : NodeKind → Option Relation
  | .EQ => some .eq
  | .NE => some .ne
  | .LT => some .lt
  | .LE => some .le
  | .GT => some .gt
  | .GE => some .ge
  | _ => none

/-- The relation that a node kind has to stand for. -/
def relation (k : NodeKind) : Except CodeError Relation :=
  match k.relation? with
  | some r => .ok r
  | none => .error (.notRelational k)

/-- The kind of the comparison with exchanged operands. -/
def swap? (k : NodeKind) : Option NodeKind := k.relation?.map fun r => r.swap.kind

end NodeKind
end Comparand
