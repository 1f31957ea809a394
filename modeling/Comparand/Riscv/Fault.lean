import Comparand.CodeError

/-!
Why a run ends without an exit status.
-/

namespace Comparand

inductive Fault where
  | memory (address : UInt64)
  | misaligned (address : UInt64) (size : Nat)
  | unboundLabel (label : Label)
  | stepLimit (limit : Nat)
  | unsupportedCall (number : UInt64)
  | fellOffEnd (routine : String)
  | badCode (error : CodeError)
deriving DecidableEq

/-- A number in hexadecimal digits, with its mark. -/
def hexText (n : Nat) : String := "0x" ++ String.ofList (Nat.toDigits 16 n)

def Fault.message : Fault → String
  | memory address => "Memory fault at " ++ hexText address.toNat
  | misaligned address size =>
    "Misaligned " ++ toString size ++ "-byte access at " ++ hexText address.toNat
  | unboundLabel label => "Branch to unbound label " ++ label.text
  | stepLimit limit => "Step limit of " ++ toString limit ++ " reached"
  | unsupportedCall number => "Unsupported ecall " ++ toString number.toNat
  | fellOffEnd routine => "Execution fell off the end of " ++ routine
  | badCode error => error.message

end Comparand
