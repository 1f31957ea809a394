import Comparand.Compare.Lowering
import Comparand.Riscv.Routine
import Comparand.Text.Paint

/-!
Assembly text of routines and of single lowered comparisons.
-/

namespace Comparand

/-- How deep a level of indentation is. -/
inductive Indent where
  | tabs
  | spaces (n : Nat)
deriving DecidableEq

def Indent.text : Indent → String
  | tabs => "\t"
  | spaces n => String.ofList (List.replicate n ' ')

/-- How assembly is written. -/
structure Style where
  colors : Bool := false
  indent : Indent := .tabs
  /-- Whether label hints and conditions are shown as comments. -/
  comments : Bool := true
  /-- Whether the section and the global symbol are declared. -/
  directives : Bool := true
deriving DecidableEq

namespace Style

def paint (st : Style) (c : Text.Color) (s : String) : String := Text.paintIf st.colors c s

/-- A line at a level of indentation. -/
def line (st : Style) (level : Nat) (s : String) : String :=
  String.join (List.replicate level st.indent.text) ++ s ++ "\n"

/-- The colour of a mnemonic tells comparisons and transfers of control from the rest. -/
def color (i : Instr) : Text.Color :=
  if i.isFloatCompare then .magenta else if i.target?.isSome then .blue else .cyan

/-- The line of an instruction or label. A label stands at the margin, with the hint for it behind. -/
def instr (st : Style) (hint? : Label → Option String) : Instr → String
  | .label l =>
    let name := st.paint .yellow (l.text ++ ":")
    st.line 0 <| match hint? l with
      | some hint => if st.comments then name ++ st.paint .dimmed (st.indent.text ++ "# " ++ hint) else name
      | none => name
  | .ecall => st.line 1 (st.paint .cyan "ecall")
  | i => st.line 1 (st.paint (color i) i.mnemonic ++ " " ++ i.operands)

/-- The lines of a piece of code. -/
def code (st : Style) (hint? : Label → Option String) (is : List Instr) : String :=
  String.join (is.map (st.instr hint?))

/-- The text of a routine. -/
def routine (st : Style) (r : Routine) : String :=
  let directives := if st.directives then st.line 1 ".text" ++ st.line 1 (".globl " ++ r.name) else ""
  directives ++ st.line 0 (st.paint .brightBlue (r.name ++ ":")) ++ st.code r.hint? r.code

/-- The text of a lowered comparison, with its condition before it and the place of its answer behind. -/
def lowered (st : Style) (l : Lowered) : String :=
  let comment (s : String) := if st.comments then st.line 0 (st.paint .dimmed ("# " ++ s)) else ""
  let place := match l.destination with
    | .value rd => "result in " ++ rd.name
    | .branch yes no => "true -> " ++ yes.text ++ ", false -> " ++ no.text
  comment l.condition.name ++ st.code (fun _ => none) l.code ++ comment place

end Style
end Comparand
