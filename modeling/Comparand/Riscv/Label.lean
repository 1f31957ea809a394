/-!
Labels of a routine.
-/

namespace Comparand

/-- A place in the code, known by its number. -/
structure Label where
  index : Nat
deriving DecidableEq

def Label.text (l : Label) : String := ".L" ++ toString l.index

end Comparand
