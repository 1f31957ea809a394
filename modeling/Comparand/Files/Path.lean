import Comparand.Files.Basic

/-!
Paths as texts: names divided by slashes.
-/

namespace Comparand.Path

/-- The size in bytes that a path must not reach. -/
def sizeLimit : Nat := 4096

/-- The size in bytes that a name must not exceed. -/
def nameLimit : Nat := 255

/-- The names on a path. One is empty where slashes meet and at a slash at either end. -/
def parts (path : String) : List String := path.splitOn "/"

def isAbsolute (path : String) : Bool := path.startsWith "/"

def endsInSlash (path : String) : Bool := path.endsWith "/"

/-- What is wrong with a path whatever files there are. -/
def check (path : String) : Except FileError Unit :=
  if path.contains '\x00' then .error .nulByte
  else if path.isEmpty then .error .notFound
  else if sizeLimit ≤ path.utf8ByteSize then .error .nameTooLong
  else .ok ()

/-- A path with one more name behind it. -/
def join (path name : String) : String := if endsInSlash path then path ++ name else path ++ "/" ++ name

/-- The last name on a path, unless it leads back. -/
def fileName? (path : String) : Option String := do
  let name ← ((parts path).filter fun n => n ≠ "" && n ≠ ".").getLast?
  if name = ".." then none else some name

/-- The part of a file name after its last dot, which must not be its first character. -/
def extension? (path : String) : Option String := do
  let cs := (← fileName? path).toList.reverse
  let before := (cs.dropWhile (· != '.')).drop 1
  if before.isEmpty then none else some (String.ofList (cs.takeWhile (· != '.')).reverse)

end Comparand.Path
