/-!
Files, as far as programs and their suites need them. The operations are a parameter, so that what is done with files is
the same for a disk and for a store in memory.
-/

namespace Comparand

inductive FileError where
  | notFound
  | notDirectory
  | isDirectory
  | nameTooLong
  | nulByte
  | notText
  | other (text : String)
deriving DecidableEq

def FileError.message : FileError → String
  | notFound => "No such file or directory (os error 2)"
  | notDirectory => "Not a directory (os error 20)"
  | isDirectory => "Is a directory (os error 21)"
  | nameTooLong => "File name too long (os error 36)"
  | nulByte => "file name contained an unexpected NUL byte"
  | notText => "stream did not contain valid UTF-8"
  | other text => text

/-- What turns up on a walk through a directory: a file, or something that cannot be looked at. -/
inductive Found where
  | file (path : String)
  | failed (path : String) (e : FileError)
deriving DecidableEq

/-- Operations on files. -/
structure Files (m : Type → Type) where
  read : String → m (Except FileError String)
  write : String → String → m (Except FileError Unit)
  /-- All that is at or below a path. Entries of a directory come in the order of their names, those of a directory
  among them at its place. -/
  walk : String → m (List Found)

end Comparand
