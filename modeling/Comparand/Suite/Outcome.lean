import Comparand.Json

/-!
Verdicts of programs. A program reports through its exit status: 0 if all its checks passed, 1 if its count of
comparisons came out wrong, 2 if an operand was changed. Other statuses belong to the program.
-/

namespace Comparand

inductive Outcome where
  | pass
  | countMismatch
  | operandCorrupted
  | other (code : Int32)
deriving DecidableEq

namespace Outcome

def ofCode (code : Int32) : Outcome :=
  if code = 0 then pass
  else if code = 1 then countMismatch
  else if code = 2 then operandCorrupted
  else other code

def code : Outcome → Int32
  | pass => 0
  | countMismatch => 1
  | operandCorrupted => 2
  | other code => code

def isPass : Outcome → Bool
  | pass => true
  | _ => false

def text : Outcome → String
  | pass => "pass (0)"
  | countMismatch => "count mismatch (1)"
  | operandCorrupted => "operand corrupted (2)"
  | other code => "exit " ++ toString code.toInt

def toJson : Outcome → Json
  | pass => .str "Pass"
  | countMismatch => .str "CountMismatch"
  | operandCorrupted => .str "OperandCorrupted"
  | other code => .tagged "Other" (.int code.toInt)

end Outcome
end Comparand
