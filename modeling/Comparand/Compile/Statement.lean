import Comparand.Compile.Frame
import Comparand.Compile.Test
import Comparand.Riscv.Routine

/-!
Code for statements. Statements use the registers `t0` and `ft0`; comparisons draw scratch registers of their own.
-/

namespace Comparand

structure CompileOptions where
  /-- Whether tests are decided beforehand where enough is known. -/
  fold : Bool := true
  lowering : Lowering := .nanSafe

/-- What the compiler keeps track of between statements. -/
structure GenState where
  scopes : Scopes := {}
  frame : Frame := {}
  known : Knowledge := {}
  /-- The purposes of the labels made so far. -/
  hints : List String := []
deriving DecidableEq

namespace GenState

def newLabel (g : GenState) (hint : String) : Label × GenState :=
  (⟨g.hints.length⟩, { g with hints := g.hints ++ [hint] })

def newSlot (g : GenState) : Except CompileError (Slot × GenState) :=
  match g.frame.alloc with
  | .ok (s, frame) => .ok (s, { g with frame })
  | .error e => .error (.code e)

def declare (g : GenState) (x : String) (type : VarType) (slot : Slot) : Except CompileError GenState := do
  return { g with scopes := ← g.scopes.declare x ⟨type, slot⟩ }

/-- Notes what a plain store leaves in a slot. -/
def note (g : GenState) (s : Slot) (v : Option Constant) : GenState := { g with known := g.known.set s v }

end GenState

/-- The constant that a new variable or cell holds. -/
def Scalar.zero : Scalar → Constant
  | int => .int 0
  | float32 | float64 => .float .zero

/-- A piece of code generation: it produces code and moves the state on. -/
abbrev Gen := GenState → Except CompileError (List Instr × GenState)

namespace Gen

def nothing : Gen := fun g => .ok ([], g)

/-- One piece after the other. -/
def andThen (a b : Gen) : Gen := fun g => do
  let (code, g) ← a g
  let (more, g) ← b g
  return (code ++ more, g)

/-- A piece in a scope of its own. -/
def inScope (a : Gen) : Gen := fun g => do
  let (code, g) ← a { g with scopes := g.scopes.push }
  return (code, { g with scopes := g.scopes.pop })

end Gen

def zeroCode (s : Slot) : List Instr := [.sd .zero .sp s.offset]

/-- Code that stores a value into a slot of a type, and the constant that the slot then is known to hold. -/
def storeCode (k : Knowledge) (ty : Scalar) (target : Slot) (v : Value) :
    Except CompileError (List Instr × Option Constant) :=
  match ty.width?, v with
  | none, .constant (.int v) =>
    let code := if v = 0 then zeroCode target else [.li .t0 v, .sd .t0 .sp target.offset]
    .ok (code, some (.int v))
  | none, .constant (.float v) => .error (.type (.floatToInt v))
  | some w, .constant c =>
    let code : List Instr :=
      [.li .t0 (w.immediate c.toBinary64), .fmv w .ft0 .t0, .fstore w .ft0 .sp target.offset]
    .ok (code, some (.float (w.round c.toBinary64)))
  | width, .slot sourceTy source =>
    if sourceTy ≠ ty then .error (.type (.assign sourceTy ty))
    else
      let code : List Instr := match width with
        | none => [.ld .t0 .sp source.offset, .sd .t0 .sp target.offset]
        | some w => [.fload w .ft0 .sp source.offset, .fstore w .ft0 .sp target.offset]
      .ok (code, k.get? source)

/-- Stores the value of an expression into a slot. -/
def storeExpr (ty : Scalar) (target : Slot) (e : Expr) : Gen := fun g => do
  let (code, v) ← storeCode g.known ty target (← e.value g.scopes)
  return (code, g.note target v)

/-- Code that ends the program with a value. -/
def exitCode (v : Value) : Except CompileError (List Instr) :=
  let call : List Instr := [.li .a7 exitCall.toInt64, .ecall]
  match v with
  | .constant (.int v) => .ok (.li .a0 v :: call)
  | .slot .int s => .ok (.ld .a0 .sp s.offset :: call)
  | _ => .error (.type .exitStatus)

namespace Stmt

/-- Code for `x := e`, which makes a cell if `e` is `new`, and else a variable of the type of its value. -/
def defineGen (x : String) (e : Expr) : Gen := fun g =>
  match e.unparen with
  | .new ty => do
    let (cell, g) ← g.newSlot
    let g := { g with known := (g.known.registerCell cell).set cell (some ty.zero) }
    return (zeroCode cell, ← g.declare x (.pointer ty) cell)
  | _ => do
    let ty := (← e.value g.scopes).type
    let (slot, g) ← g.newSlot
    let (code, g) ← storeExpr ty slot e g
    return (code, ← g.declare x (.scalar ty) slot)

def varGen (x : String) (ty : Scalar) (init : Option Expr) : Gen := fun g => do
  let (slot, g) ← g.newSlot
  let (code, g) ← match init with
    | some e => storeExpr ty slot e g
    | none => pure (zeroCode slot, g.note slot (some ty.zero))
  return (code, ← g.declare x (.scalar ty) slot)

def assignGen (x : String) (e : Expr) : Gen := fun g => do
  let symbol ← g.scopes.lookup x
  match symbol.type with
  | .scalar ty => storeExpr ty symbol.slot e g
  | .pointer _ => .error (.unsupported (.pointerAssignment x))

def storeGen (x : String) (e : Expr) : Gen := fun g => do
  let symbol ← g.scopes.lookup x
  match symbol.type with
  | .pointer ty =>
    let (code, v) ← storeCode g.known ty symbol.slot (← e.value g.scopes)
    return (code, { g with known := g.known.storeThrough symbol.slot v })
  | .scalar _ => .error (.type (.storeThrough x symbol.type))

/-- The integer one up or down, if it does not wrap. -/
def stepConstant (delta : Int) : Constant → Option Constant
  | .int v =>
    let n := v.toInt + delta
    if Int64.minValue.toInt ≤ n ∧ n ≤ Int64.maxValue.toInt then some (.int (.ofInt n)) else none
  | .float _ => none

/-- Code for `x++` and `x--`. -/
def stepGen (x : String) (delta : Int) : Gen := fun g => do
  let symbol ← g.scopes.lookup x
  match symbol.type with
  | .scalar .int =>
    let offset := symbol.slot.offset
    let code : List Instr := [.ld .t0 .sp offset, .addi .t0 .t0 delta, .sd .t0 .sp offset]
    return (code, g.note symbol.slot ((g.known.get? symbol.slot).bind (stepConstant delta)))
  | ty => .error (.type (.increment x ty))

/-- Ends the program; nothing after it can be reached. -/
def exitGen (e : Expr) : Gen := fun g => do
  let code ← exitCode (← e.value g.scopes)
  return (code, { g with known := g.known.markUnreachable })

/-- An `if`. A test that is decided beforehand leaves only the branch that is taken. -/
def condGen (o : CompileOptions) (test : Expr) (body : Gen) (otherwise : Option Gen) : Gen := fun g => do
  match ← if o.fold then test.decide g.scopes g.known else pure none with
  | some true => body.inScope g
  | some false => (otherwise.map Gen.inScope).getD .nothing g
  | none =>
    let (yes, g) := g.newLabel "then"
    let (no, g) := g.newLabel (if otherwise.isSome then "else" else "endif")
    let testCode ← test.testCode o.lowering g.scopes yes no
    let (bodyCode, after) ← body.inScope g
    match otherwise with
    | none =>
      return (testCode ++ .label yes :: bodyCode ++ [.label no],
        { after with known := after.known.merge g.known })
    | some otherwise =>
      let (done, entry) := after.newLabel "endif"
      let (elseCode, last) ← otherwise.inScope { entry with known := g.known }
      return (testCode ++ .label yes :: bodyCode ++ .jump done :: .label no :: elseCode ++ [.label done],
        { last with known := after.known.merge last.known })

mutual

/-- The code of a statement. -/
def gen (o : CompileOptions) : Stmt → Gen
  | .define x e => defineGen x e
  | .var x ty init => varGen x ty init
  | .assign x e => assignGen x e
  | .store x e => storeGen x e
  | .inc x => stepGen x 1
  | .dec x => stepGen x (-1)
  | .cond test body none => condGen o test (genList o body) none
  | .cond test body (some otherwise) => condGen o test (genList o body) (some (genList o otherwise))
  | .exit e => exitGen e

/-- The code of statements one after the other. -/
def genList (o : CompileOptions) : List Stmt → Gen
  | [] => .nothing
  | s :: ss => .andThen (gen o s) (genList o ss)

end

def isExit : Stmt → Bool
  | .exit _ => true
  | _ => false

end Stmt

namespace Program

/-- Falling off the end exits with status 0. -/
def finish (p : Program) : List Instr :=
  if (p.body.getLast?.map Stmt.isExit).getD false then []
  else [.li .a0 0, .li .a7 exitCall.toInt64, .ecall]

/-- Code that takes the frame, if there is one. -/
def prologue (frameSize : Nat) : List Instr :=
  if frameSize = 0 then [] else [.addi .sp .sp (-frameSize)]

/-- Compiles a program. -/
def compile (p : Program) (o : CompileOptions) : Except CompileError Routine := do
  let (code, g) ← Stmt.genList o p.body {}
  return {
    name := p.name
    code := prologue g.frame.size ++ code ++ p.finish
    hints := g.hints
    frameSize := g.frame.size }

end Program
end Comparand
