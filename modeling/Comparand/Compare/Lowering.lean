import Comparand.Compare.Condition
import Comparand.Compare.Operand
import Comparand.Compare.Scratch

/-!
Lowering a condition on two operands to instructions.

Operands are first brought into float registers without touching the places they come from, then the native
comparisons of the condition's recipe run, and last the answer goes to a register or decides a branch. Scratch
registers are drawn from a `Scratch`, which is back in its old state afterwards, also after a failure.
-/

namespace Comparand

/-- Where the answer is wanted. -/
inductive Destination where
  /-- As 0 or 1 in a register. -/
  | value (rd : IntReg)
  /-- As a transfer of control. -/
  | branch (yes no : Label)
deriving DecidableEq

/-- A lowered comparison. -/
structure Lowered where
  code : List Instr
  destination : Destination
  condition : Condition
deriving DecidableEq

def Lowered.compareCount (l : Lowered) : Nat := l.code.countP (·.isFloatCompare)

/-- Steps of a lowering draw scratch registers and may run out of them. -/
abbrev Drawing := ExceptT CodeError (StateM Scratch)

namespace Drawing

def int : Drawing IntReg := ExceptT.mk Scratch.allocInt

def float : Drawing FloatReg := ExceptT.mk Scratch.allocFloat

/-- Brings an operand into a register. -/
def materialize (o : Operand) : Drawing (List Instr × FloatReg) :=
  match o.place with
  | .register r => pure ([], r)
  | .slot s => do
    let fd ← float
    return ([.fload o.width fd .sp s.offset], fd)
  | .constant v => do
    let rd ← int
    let fd ← float
    return ([.li rd (o.width.immediate v), .fmv o.width fd rd], fd)

/-- The register that gets the answer of the native comparisons. -/
def answer : Destination → Drawing IntReg
  | .value rd => pure rd
  | .branch .. => int

/-- The native comparisons of a recipe; `probe p rd` puts the answer of `p` into `rd`. -/
def decision (recipe : Recipe) (probe : Probe → IntReg → Instr) (rd : IntReg) : Drawing (List Instr) :=
  match recipe with
  | .single p => pure [probe p rd]
  | .all p q => do
    let tmp ← int
    return [probe p rd, probe q tmp, .and rd rd tmp]
  | .any p q => do
    let tmp ← int
    return [probe p rd, probe q tmp, .or rd rd tmp]

end Drawing

namespace Condition

/-- Hands over the answer in `rd`. For a branch a negated recipe is taken on 0 instead of 1. -/
def delivery (c : Condition) (rd : IntReg) : Destination → List Instr
  | .value _ => if c.isNegated then [.xori rd rd 1] else []
  | .branch yes no => [.branch (if c.isNegated then .eq else .ne) rd .zero yes, .jump no]

/-- The registers that a lowering must leave alone: those of the operands and of the destination. -/
def reservation (lhs rhs : Operand) (dest : Destination) (s : Scratch) : Scratch :=
  let reserveOperand (s : Scratch) (o : Operand) : Scratch :=
    match o.place with
    | .register r => s.reserveFloat r
    | _ => s
  let s := reserveOperand (reserveOperand s lhs) rhs
  match dest with
  | .value rd => s.reserveInt rd
  | .branch .. => s

/-- The code for a condition on two operands of one width. -/
def draw (c : Condition) (lhs rhs : Operand) (dest : Destination) : Drawing (List Instr) := do
  modify (reservation lhs rhs dest)
  let (loadLhs, a) ← Drawing.materialize lhs
  let (loadRhs, b) ← if lhs.aliases rhs then pure ([], a) else Drawing.materialize rhs
  let side (s : Side) : FloatReg := match s with
    | .lhs => a
    | .rhs => b
  let probe (p : Probe) (rd : IntReg) : Instr := .fcmp p.test lhs.width rd (side p.first) (side p.second)
  let rd ← Drawing.answer dest
  let decision ← Drawing.decision c.recipe probe rd
  return loadLhs ++ loadRhs ++ decision ++ c.delivery rd dest

/-- Lowers a condition on two operands, which have to be of one width. -/
def lower (c : Condition) (lhs rhs : Operand) (dest : Destination) (s : Scratch) :
    Except CodeError Lowered × Scratch :=
  if lhs.width = rhs.width then
    let (result, after) := (c.draw lhs rhs dest).run.run s
    (result.map fun code => ⟨code, dest, c⟩, after.reset s.mark)
  else (.error (.widthMismatch lhs.width rhs.width), s)

end Condition

/-- Lowers a relational operator. -/
def Relation.lower (r : Relation) (lhs rhs : Operand) (dest : Destination) (s : Scratch) :
    Except CodeError Lowered × Scratch :=
  (Condition.ofRelation r).lower lhs rhs dest s

/-- Lowers a comparison given by the kind of its node. Other kinds have no business here. -/
def NodeKind.lower (k : NodeKind) (lhs rhs : Operand) (dest : Destination) (s : Scratch) :
    Except CodeError Lowered × Scratch :=
  match k.relation? with
  | some r => r.lower lhs rhs dest s
  | none => (.error (.misrouted k), s)

/-- A way to lower relational operators, as code generation uses it. -/
abbrev Lowering := Relation → Operand → Operand → Destination → Scratch → Except CodeError Lowered × Scratch

/-- The lowering that is right for every operand. -/
def Lowering.nanSafe : Lowering := Relation.lower

end Comparand
