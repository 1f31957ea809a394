import Comparand.Command.Arguments
import Comparand.Riscv.Run

/-!
What can be asked of the tool.
-/

namespace Comparand

inductive Command where
  /-- Lists the node kinds. -/
  | names (json : Bool)
  /-- Lowers one comparison. -/
  | lower (op lhs rhs : String) (single branch color : Bool)
  /-- Compiles a program, to the output or to a file. -/
  | compile (input : String) (output : Option String) (fold color : Bool)
  /-- Runs a program and takes over its status. -/
  | run (input : String) (fold : Bool) (maxSteps : Nat)
  /-- Runs the programs of a directory against their headers. -/
  | test (dir : String) (fold json : Bool)
  /-- Shows how a program is understood. -/
  | dump (input : String) (json : Bool)
deriving DecidableEq

namespace Command

def verbs : List String := ["names", "lower", "compile", "run", "test", "dump", "help"]

/-- Reads a command from its verb and the arguments behind it. -/
def ofArguments (verb : String) (args : List String) : Except Refusal Command := do
  match verb with
  | "names" =>
    let g ← Signature.read { flags := ["json"] } args
    return .names (g.has "json")
  | "lower" =>
    let g ← Signature.read {
      flags := ["single", "branch", "color"]
      plain := [⟨.text, false⟩, ⟨.text, true⟩, ⟨.text, true⟩] } args
    match g.plain with
    | [op, lhs, rhs] => return .lower op lhs rhs (g.has "single") (g.has "branch") (g.has "color")
    | _ => .error .misuse
  | "compile" =>
    let g ← Signature.read {
      flags := ["no-fold", "color"]
      valued := [("output", .path)]
      shorts := [('o', "output"), ('v', "verbose"), ('h', "help")]
      plain := [⟨.path, false⟩] } args
    return .compile (g.plain.headD "") (g.values.lookup "output") (!g.has "no-fold") (g.has "color")
  | "run" =>
    let g ← Signature.read {
      flags := ["no-fold"]
      valued := [("max-steps", .count)]
      plain := [⟨.path, false⟩] } args
    let maxSteps := ((g.values.lookup "max-steps").bind readCount?).getD ({} : Limits).maxSteps
    return .run (g.plain.headD "") (!g.has "no-fold") maxSteps
  | "test" =>
    let g ← Signature.read { flags := ["no-fold", "json"], plain := [⟨.path, false⟩] } args
    return .test (g.plain.headD "") (!g.has "no-fold") (g.has "json")
  | "dump" =>
    let g ← Signature.read { flags := ["json"], plain := [⟨.path, false⟩] } args
    return .dump (g.plain.headD "") (g.has "json")
  | "help" =>
    match args with
    | [] => .error .help
    | [verb] => .error (if verbs.contains verb then .help else .misuse)
    | _ => .error .misuse
  | _ => .error .misuse

/-- The options before the verb. -/
def general : Signature :=
  { flags := ["version"], shorts := [('v', "verbose"), ('h', "help"), ('V', "version")] }

/-- Reads a command line. -/
def readFrom : Given → List String → Except Refusal Command
  | _, [] => .error .misuse
  | g, arg :: args => do
    if arg = "--" then .error .misuse
    else if general.isPlain g arg then ofArguments arg args
    else readFrom (← general.option g arg).1 args

def read (args : List String) : Except Refusal Command := readFrom {} args

end Command
end Comparand
