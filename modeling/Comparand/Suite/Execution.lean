import Comparand.Compile.Statement
import Comparand.Riscv.Run
import Comparand.Source.Diagnosis
import Comparand.Suite.Outcome

/-!
From the text of a program to its exit status.
-/

namespace Comparand

/-- The stage at which a program failed, and why. -/
inductive ExecutionError where
  | parse (e : ParseError)
  | compile (e : CompileError)
  | run (e : Fault)
deriving DecidableEq

def ExecutionError.message : ExecutionError → String
  | parse e => "failed to parse program: " ++ e.message
  | compile e => "failed to compile program: " ++ e.message
  | run e => "program did not exit cleanly: " ++ e.message

/-- Reads and compiles a program. -/
def compileSource (source : String) (o : CompileOptions) : Except ExecutionError Routine := do
  let p ← (Program.parse source).mapError .parse
  (p.compile o).mapError .compile

/-- Reads, compiles and runs a program. -/
def execute (source : String) (o : CompileOptions) (limits : Limits) : Except ExecutionError Exit := do
  let r ← compileSource source o
  (r.run limits).mapError .run

/-- The verdict of a program. -/
def verdict (source : String) (o : CompileOptions) : Except ExecutionError Outcome :=
  (execute source o {}).map fun e => .ofCode e.code

end Comparand
