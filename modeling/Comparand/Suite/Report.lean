import Comparand.Files.Path
import Comparand.Suite.Execution
import Comparand.Suite.Header

/-!
Running the programs of a directory against their headers.
-/

namespace Comparand

/-- What came of a program: its verdict, or why there is none. -/
structure Report where
  path : String
  expected : Int
  result : Except String Outcome

namespace Report

def passed (r : Report) : Bool :=
  match r.result with
  | .ok outcome => outcome.code.toInt == r.expected
  | .error _ => false

def toJson (r : Report) : Json :=
  let (actual, error) := match r.result with
    | .ok outcome => (outcome.toJson, Json.null)
    | .error e => (Json.null, Json.str e)
  .obj [("path", .str r.path), ("expected", .int r.expected), ("actual", actual), ("error", error),
    ("passed", .bool r.passed)]

end Report

/-- Why a suite cannot be run. -/
inductive SuiteError where
  | unreadable (path : String) (e : FileError)
  | noHeader (path : String)
  | unwalkable (dir path : String) (e : FileError)
deriving DecidableEq

def SuiteError.message : SuiteError → String
  | unreadable path e => "failed to read " ++ path ++ ": " ++ e.message
  | noHeader path => path ++ " has no `// want: N` header"
  | unwalkable dir path e =>
    "failed to walk " ++ dir ++ ": IO error for operation on " ++ path ++ ": " ++ e.message ++ ": " ++ e.message

/-- Runs one program. A program that fails is reported; a program without a header is no part of a suite. -/
def Report.ofSource (o : CompileOptions) (path source : String) : Except SuiteError Report :=
  match Header.expected? source with
  | none => .error (.noHeader path)
  | some expected => .ok ⟨path, expected, (verdict source o).mapError ExecutionError.message⟩

namespace Suite

variable {m : Type → Type} [Monad m]

/-- Programs are told by the extension of their files. -/
def isProgram (path : String) : Bool := Path.extension? path == some "rv"

/-- Runs the programs found one after the other, up to the first failure that is not a program's own. -/
def runAll (fs : Files m) (o : CompileOptions) (dir : String) : List Found → m (Except SuiteError (List Report))
  | [] => pure (.ok [])
  | .failed path e :: _ => pure (.error (.unwalkable dir path e))
  | .file path :: rest => do
    if !isProgram path then runAll fs o dir rest
    else
      match ← fs.read path with
      | .error e => pure (.error (.unreadable path e))
      | .ok source =>
        match Report.ofSource o path source with
        | .error e => pure (.error e)
        | .ok report => return (← runAll fs o dir rest).map (report :: ·)

/-- Runs every program at or below a path. -/
def run (fs : Files m) (o : CompileOptions) (dir : String) : m (Except SuiteError (List Report)) := do
  runAll fs o dir (← fs.walk dir)

end Suite
end Comparand
