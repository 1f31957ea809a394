import Comparand.Assembly
import Comparand.Command.Request
import Comparand.Source.Encoding
import Comparand.Source.Outline
import Comparand.Suite.Report

/-!
What the commands do. Failures of the tool have a status of their own, which no program of a suite exits with.
-/

namespace Comparand

/-- What a command leaves behind, apart from files. -/
structure Output where
  status : UInt8 := 0
  stdout : String := ""
  stderr : String := ""
deriving DecidableEq

namespace Output

def failureStatus : UInt8 := 125

def failure (message : String) : Output := { status := failureStatus, stderr := "Error: " ++ message ++ "\n" }

def ofText (text : String) : Output := { stdout := text }

/-- The output of a computation, or the message that it failed with. -/
def ofExcept : Except String Output → Output
  | .ok out => out
  | .error message => failure message

end Output

def usage : String :=
  "Usage: rvc [-v] <COMMAND>\n\n"
    ++ "  names [--json]\n"
    ++ "  lower [--single] [--branch] [--color] <OP> <LHS> <RHS>\n"
    ++ "  compile [-o <OUTPUT>] [--no-fold] [--color] <INPUT>\n"
    ++ "  run [--no-fold] [--max-steps <N>] <INPUT>\n"
    ++ "  test [--no-fold] [--json] <DIR>\n"
    ++ "  dump [--json] <INPUT>\n"

def Refusal.output : Refusal → Output
  | help => .ofText usage
  | version => .ofText "rvc 0.1.0\n"
  | misuse => { status := Output.failureStatus, stderr := usage }

namespace Command

/-- A list of the node kinds with their positions. -/
def namesText (json : Bool) : String :=
  if json then (Json.arr (NodeKind.all.map fun k => .str k.name)).pretty ++ "\n"
  else String.join (NodeKind.all.zipIdx.map fun (k, i) =>
    let digits := toString i
    String.ofList (List.replicate (3 - digits.length) ' ') ++ digits ++ "  " ++ k.name ++ "\n")

/-- A kind by the symbol of a relation, or by its name in letters of either case. -/
def nodeKind (op : String) : Except CodeError NodeKind :=
  match Relation.ofSymbol? op with
  | some r => .ok r.kind
  | none =>
    let name := String.ofList (op.toList.map Char.toUpper)
    match NodeKind.ofName? name with
    | some k => .ok k
    | none => .error (.unknownKind name)

/-- Reads an operand of a comparison. -/
def operand (w : Width) (text : String) : Except String Operand :=
  match Place.ofText text with
  | .ok place => .ok ⟨place, w⟩
  | .error e => .error ("bad operand `" ++ text ++ "`: " ++ e.message)

/-- Lowers a comparison with fresh scratch registers. -/
def lowerText (op lhs rhs : String) (single branch colors : Bool) : Except String String := do
  let kind ← (nodeKind op).mapError CodeError.message
  let w := if single then Width.single else Width.double
  let lhs ← operand w lhs
  let rhs ← operand w rhs
  let dest := if branch then Destination.branch ⟨0⟩ ⟨1⟩ else Destination.value .a0
  let lowered ← (kind.lower lhs rhs dest {}).1.mapError CodeError.message
  return ({ colors } : Style).lowered lowered

def readError (path : String) (e : FileError) : String := "failed to read " ++ path ++ ": " ++ e.message

def options (fold : Bool) : CompileOptions := { fold }

/-- The output for a program that ran to its end. Statuses that a process cannot have are failures. -/
def exitOutput (colors : Bool) (path : String) (e : Exit) : Output :=
  let outcome := Outcome.ofCode e.code
  let code := e.code.toInt
  if 0 ≤ code ∧ code ≤ 255 then
    let line := path ++ ": " ++ outcome.text ++ " after " ++ toString e.steps ++ " steps"
    { status := .ofNat code.toNat
      stdout := Text.paintIf colors (if outcome.isPass then .brightGreen else .brightRed) line ++ "\n" }
  else .failure (path ++ " exited with " ++ toString code ++ ", which is not a process status (0..=255)")

def reportLine (colors : Bool) (r : Report) : String :=
  match r.result with
  | .error e => " " ++ Text.paintIf colors .boldRed "ERROR" ++ " " ++ r.path ++ ": " ++ e ++ "\n"
  | .ok outcome =>
    if r.passed then " " ++ Text.paintIf colors .boldGreen "PASS" ++ " " ++ r.path ++ " (" ++ outcome.text ++ ")\n"
    else
      " " ++ Text.paintIf colors .boldRed "FAIL" ++ " " ++ r.path ++ ": want exit " ++ toString r.expected ++ ", got "
        ++ outcome.text ++ "\n"

/-- The output for the reports of a suite. -/
def suiteOutput (colors json : Bool) (reports : List Report) : Output :=
  let failed := reports.countP fun r => !r.passed
  let summary := toString (reports.length - failed) ++ " passed, " ++ toString failed ++ " failed"
  { status := if failed = 0 then 0 else 1
    stdout :=
      if json then (Json.arr (reports.map Report.toJson)).pretty ++ "\n"
      else
        String.join (reports.map (reportLine colors)) ++ "\n"
          ++ Text.paintIf colors (if failed = 0 then .boldGreen else .boldRed) summary ++ "\n" }

def dumpText (json : Bool) (p : Program) : String := if json then p.toJson.pretty ++ "\n" else p.outline

variable {m : Type → Type} [Monad m]

/-- Compiles a program. Files never get colors. -/
def runCompile (fs : Files m) (colors : Bool) (input : String) (output : Option String) (fold color : Bool) :
    m Output := do
  match ← fs.read input with
  | .error e => return .failure (readError input e)
  | .ok source =>
    match compileSource source (options fold), output with
    | .error e, _ => return .failure e.message
    | .ok r, none => return .ofText (({ colors := color && colors } : Style).routine r)
    | .ok r, some path =>
      match ← fs.write path (({} : Style).routine r) with
      | .error e => return .failure e.message
      | .ok () =>
        return { stderr := " " ++ Text.paintIf colors .boldGreen "SUCCESS:" ++ " " ++ toString r.length
          ++ " instructions, " ++ toString r.compareCount ++ " float compares -> " ++ path ++ "\n" }

/-- Carries out a command; `colors` says whether the terminal shows them. -/
def perform (fs : Files m) (colors : Bool) : Command → m Output
  | names json => return .ofText (namesText json)
  | lower op lhs rhs single branch color =>
    return .ofExcept ((lowerText op lhs rhs single branch (color && colors)).map .ofText)
  | compile input output fold color => runCompile fs colors input output fold color
  | run input fold maxSteps => do
    match ← fs.read input with
    | .error e => return .failure (readError input e)
    | .ok source =>
      match execute source (options fold) { maxSteps } with
      | .error e => return .failure e.message
      | .ok e => return exitOutput colors input e
  | test dir fold json => do
    match ← Suite.run fs (options fold) dir with
    | .error e => return .failure e.message
    | .ok reports => return suiteOutput colors json reports
  | dump input json => do
    match ← fs.read input with
    | .error e => return .failure ("Failed to read " ++ input ++ ": " ++ e.message)
    | .ok source =>
      match Program.parse source with
      | .error e => return .failure e.message
      | .ok p => return .ofText (dumpText json p)

end Command
end Comparand
