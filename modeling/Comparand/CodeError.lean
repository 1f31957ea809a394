import Comparand.NodeKind
import Comparand.Riscv.Label
import Comparand.Width

/-!
What can be wrong with code, operands and the requests that produce them.
-/

namespace Comparand

inductive RegisterClass where
  | integer
  | float
deriving DecidableEq

def RegisterClass.name : RegisterClass → String
  | integer => "integer"
  | float => "float"

inductive CodeError where
  | unknownKind (name : String)
  | notRelational (kind : NodeKind)
  /-- A node that is no comparison reached the lowering of comparisons. -/
  | misrouted (kind : NodeKind)
  | widthMismatch (lhs rhs : Width)
  | offsetOutOfRange (offset : Int)
  | scratchExhausted (cls : RegisterClass)
  | invalidRegister (text : String)
  | invalidOperand (text : String)
  | duplicateLabel (label : Label)
deriving DecidableEq

def CodeError.message : CodeError → String
  | unknownKind name => "Unknown op kind: " ++ name
  | notRelational kind => "Not a relational operator: " ++ kind.name
  | misrouted kind => "Compiler contract violation: " ++ kind.name ++ " routed to float comparison lowering"
  | widthMismatch lhs rhs => "Operand width mismatch: " ++ lhs.typeName ++ " compared with " ++ rhs.typeName
  | offsetOutOfRange offset => "Stack offset " ++ toString offset ++ " does not fit a 12-bit immediate"
  | scratchExhausted cls => "Out of scratch " ++ cls.name ++ " registers"
  | invalidRegister text => "Invalid register: " ++ text
  | invalidOperand text => "Invalid operand: " ++ text
  | duplicateLabel label => "Label " ++ label.text ++ " bound more than once"

end Comparand
