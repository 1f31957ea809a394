import Comparand.Command.Action

/-!
The command line.
-/

namespace Comparand

/-- The error of an operation on disk. Codes of the system come with either sign. -/
def FileError.ofIO (e : IO.Error) : FileError :=
  let isCode (code n : UInt32) : Bool := code = n || code = 0 - n
  match e with
  | .noFileOrDirectory .. => .notFound
  | .inappropriateType _ code _ => if isCode code 20 then .notDirectory else .isDirectory
  | .invalidArgument _ code _ => if isCode code 36 then .nameTooLong else .other (toString e)
  | e => .other (toString e)

/-- Runs an action on files and tells why it failed. -/
def tryFile {α : Type} (path : String) (action : IO α) : IO (Except FileError α) := do
  match Path.check path with
  | .error e => return .error e
  | .ok () =>
    try return .ok (← action)
    catch e => return .error (.ofIO e)

/-- All that is at or below a path. No path has more names than bytes, so `depth` never runs out. -/
def foundBelow : Nat → String → IO (List Found)
  | 0, path => return [.failed path .nameTooLong]
  | depth + 1, path => do
    let entry : IO.FS.DirEntry := ⟨path, ""⟩
    match ← tryFile path entry.root.metadata with
    | .error e => return [.failed path e]
    | .ok data =>
      match data.type with
      | .file => return [.file path]
      | .dir =>
        match ← tryFile path entry.root.readDir with
        | .error e => return [.failed path e]
        | .ok entries =>
          let names := (entries.toList.map fun e => e.fileName).mergeSort fun a b => !(b < a)
          return (← names.mapM fun n => foundBelow depth (Path.join path n)).flatten
      | _ => return []

/-- The operations on files on disk. -/
def Files.onDisk : Files IO where
  read path := do
    match ← tryFile path (IO.FS.readBinFile path) with
    | .error e => return .error e
    | .ok bytes =>
      match String.fromUTF8? bytes with
      | some text => return .ok text
      | none => return .error .notText
  write path text := tryFile path (IO.FS.writeFile path text)
  walk := foundBelow Path.sizeLimit

/-- Whether to use colors: as the environment says, or else if a terminal shows them. -/
def wantsColors : IO Bool := do
  let isOn (v : Option String) (dflt : Bool) : Bool := (v.map (· != "0")).getD dflt
  if isOn (← IO.getEnv "CLICOLOR_FORCE") false then return true
  else if (← IO.getEnv "NO_COLOR").isSome then return false
  else return isOn (← IO.getEnv "CLICOLOR") true && (← (← IO.getStdout).isTty)

end Comparand

open Comparand in
def main (args : List String) : IO UInt32 := do
  let out ← match Command.read args with
    | .ok command => command.perform Files.onDisk (← wantsColors)
    | .error refusal => pure refusal.output
  IO.print out.stdout
  IO.eprint out.stderr
  return out.status.toUInt32
