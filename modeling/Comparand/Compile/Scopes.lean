import Comparand.Compare.Operand
import Comparand.Compile.Error

/-!
Lexical scopes. The innermost scope is apart from the others, so there always is one.
-/

namespace Comparand

/-- What a name stands for. A pointer is known by the slot of its cell: it never changes and never escapes. -/
structure Symbol where
  type : VarType
  slot : Slot
deriving DecidableEq

abbrev Scope := List (String × Symbol)

structure Scopes where
  current : Scope := []
  /-- The scopes around the current one, innermost first. -/
  enclosing : List Scope := []
deriving DecidableEq

namespace Scopes

def push (s : Scopes) : Scopes := ⟨[], s.current :: s.enclosing⟩

/-- Leaves the current scope; the outermost one cannot be left. -/
def pop (s : Scopes) : Scopes :=
  match s.enclosing with
  | [] => s
  | scope :: rest => ⟨scope, rest⟩

/-- What a name stands for in the innermost scope that declares it. -/
def lookup? (s : Scopes) (x : String) : Option Symbol :=
  (s.current :: s.enclosing).findSome? fun scope => scope.lookup x

def lookup (s : Scopes) (x : String) : Except CompileError Symbol :=
  match s.lookup? x with
  | some symbol => .ok symbol
  | none => .error (.notFound x)

/-- Declares a name in the current scope, which must not have it yet. -/
def declare (s : Scopes) (x : String) (symbol : Symbol) : Except CompileError Scopes :=
  if (s.current.lookup x).isSome then .error (.redeclared x)
  else .ok { s with current := (x, symbol) :: s.current }

end Scopes
end Comparand
