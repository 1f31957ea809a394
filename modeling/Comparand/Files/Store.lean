import Comparand.Files.Path

/-!
Files in memory. A path is followed name by name, and each name but the last has to lead to a directory. That holds for
names that lead back as well, so a path through something that does not exist leads nowhere.
-/

namespace Comparand

/-- Where the names of a place start: at the root, or some levels above the working directory. -/
inductive Anchor where
  | root
  | above (levels : Nat)
deriving DecidableEq

/-- A place in the file system. -/
structure Location where
  anchor : Anchor := .above 0
  names : List String := []
deriving DecidableEq

namespace Location

/-- The directory around a place; the root is around itself. -/
def parent (l : Location) : Location :=
  match l.names, l.anchor with
  | _ :: _, _ => { l with names := l.names.dropLast }
  | [], .root => l
  | [], .above n => ⟨.above (n + 1), []⟩

def child (l : Location) (name : String) : Location := { l with names := l.names ++ [name] }

/-- The place that a path leads to from the working directory, if all that it passes through are directories. -/
def ofPath (path : String) : Location :=
  (Path.parts path).foldl (fun l n =>
    if n = "" || n = "." then l else if n = ".." then l.parent else l.child n) {}

/-- The names from one place to another below it, or at it. -/
def below? (l inner : Location) : Option (List String) :=
  if l.anchor = inner.anchor && l.names.isPrefixOf inner.names then some (inner.names.drop l.names.length) else none

end Location

/-- Files by their places. The root and the directories above the working directory exist; of others, those with files
below them. -/
structure Store where
  files : List (Location × ByteArray) := []

namespace Store

def isFile (s : Store) (l : Location) : Bool := (s.files.lookup l).isSome

def isDirectory (s : Store) (l : Location) : Bool :=
  !s.isFile l && (l.names.isEmpty || s.files.any fun f => (l.below? f.1).isSome)

/-- The place of a name in what has to be a directory, whether or not there is anything. -/
def child (s : Store) (here : Location) (name : String) : Except FileError Location :=
  if s.isFile here then .error .notDirectory
  else if Path.nameLimit < name.utf8ByteSize then .error .nameTooLong
  else .ok (here.child name)

/-- Follows one name from a place. -/
def step (s : Store) (here : Location) (name : String) : Except FileError Location :=
  if name = "" || name = "." then (if s.isFile here then .error .notDirectory else .ok here)
  else if name = ".." then (if s.isFile here then .error .notDirectory else .ok here.parent)
  else do
    let there ← s.child here name
    if s.isFile there || s.isDirectory there then .ok there else .error .notFound

/-- Follows names one after the other. -/
def follow (s : Store) (path : String) (names : List String) : Except FileError Location :=
  names.foldlM s.step { anchor := if Path.isAbsolute path then .root else .above 0 }

/-- The place that a path leads to. -/
def locate (s : Store) (path : String) : Except FileError Location := do
  Path.check path
  s.follow path (Path.parts path)

def read (s : Store) (path : String) : Except FileError String := do
  match s.files.lookup (← s.locate path) with
  | none => .error .isDirectory
  | some bytes =>
    match String.fromUTF8? bytes with
    | some text => .ok text
    | none => .error .notText

/-- Puts a file in its place, with the directories on the way to it. -/
def put (s : Store) (l : Location) (bytes : ByteArray) : Store := ⟨(l, bytes) :: s.files.filter fun f => f.1 ≠ l⟩

/-- Where a file with a path can be written: the directory has to be there, the file need not. -/
def target (s : Store) (path : String) : Except FileError Location := do
  Path.check path
  let names := ((Path.parts path).reverse.dropWhile (· = "")).reverse
  match names.getLast? with
  | none => .error .isDirectory
  | some name =>
    if name = "." || name = ".." then
      let _ ← s.follow path names
      .error .isDirectory
    else
      let there ← s.child (← s.follow path names.dropLast) (if Path.endsInSlash path then "" else name)
      if Path.endsInSlash path || s.isDirectory there then .error .isDirectory else .ok there

def write (s : Store) (path text : String) : Except FileError Store := do
  return s.put (← s.target path) text.toUTF8

/-- The order of places in which entries of a directory are ordered by name. -/
def le : List String → List String → Bool
  | [], _ => true
  | _ :: _, [] => false
  | a :: as, b :: bs => if a = b then le as bs else a < b

/-- Goes down to a file by the given names. A directory whose path is too long cannot be looked at. -/
def visit (path : String) : List String → Found
  | [] => .file path
  | name :: names =>
    match Path.check path with
    | .error e => .failed path e
    | .ok () => visit (Path.join path name) names

def walk (s : Store) (path : String) : List Found :=
  match s.locate path with
  | .error e => [.failed path e]
  | .ok l => ((s.files.filterMap fun f => l.below? f.1).mergeSort le).map (visit path)

end Store

/-- The operations on files in memory. -/
def Files.inMemory : Files (StateM Store) where
  read path := fun s => (s.read path, s)
  write path text := fun s =>
    match s.write path text with
    | .ok s => (.ok (), s)
    | .error e => (.error e, s)
  walk path := fun s => (s.walk path, s)

end Comparand
