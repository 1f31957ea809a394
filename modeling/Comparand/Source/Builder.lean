import Comparand.Source.Grammar
import Comparand.Text.Integer

/-!
From the pieces that rules of the grammar fit to syntax trees. Pieces are taken by their order. A piece in a place
where none of its rule belongs is an error, as is one that is missing.
-/

namespace Comparand

/-- A part of a text that a rule fits: the text from its start on, the text behind it, and the parts of it that rules
fit. -/
inductive Piece where
  | mk (rule : Rule) (start rest : List Char) (inner : List Piece)

/-- A literal that stands for no number of its type, and how much of the text there is from its start on. -/
structure BadLiteral where
  text : String
  ahead : Nat
deriving DecidableEq

/-- Why pieces make no syntax tree. -/
inductive BuildError where
  | literal (bad : BadLiteral)
  | unexpectedRule (r : Rule) (ahead : Nat)
  | missingFunction
deriving DecidableEq

namespace Piece

def rule : Piece → Rule
  | mk r .. => r

def start : Piece → List Char
  | mk _ start .. => start

/-- The text of a piece. -/
def text : Piece → List Char
  | mk _ start rest _ => start.take (start.length - rest.length)

def name (p : Piece) : String := String.ofList p.text

def unexpected (p : Piece) : BuildError := .unexpectedRule p.rule p.start.length

def badLiteral (p : Piece) : BuildError := .literal ⟨p.name, p.start.length⟩

def scalar (p : Piece) : Except BuildError Scalar :=
  match Scalar.ofName? p.name with
  | some ty => .ok ty
  | none => .error p.unexpected

def relation (p : Piece) : Except BuildError Relation :=
  match Relation.ofSymbol? p.name with
  | some op => .ok op
  | none => .error p.unexpected

/-- The integer of 64 bits that a text stands for. -/
def readInt64? (cs : List Char) : Option Int64 :=
  (Text.readInt? Int64.minValue.toInt Int64.maxValue.toInt cs).map .ofInt

def int (p : Piece) : Except BuildError Expr :=
  match readInt64? p.text with
  | some v => .ok (.literal (.int v))
  | none => .error p.badLiteral

def float (p : Piece) : Except BuildError Expr :=
  match Decimal.read? p.text with
  | some v => .ok (.literal (.float v))
  | none => .error p.badLiteral

/-- The integer that digits stand for behind a minus but not alone. -/
def negativeOnly? (p : Piece) : Option Int64 :=
  if p.rule ≠ .intLit || (readInt64? p.text).isSome then none else readInt64? ('-' :: p.text)

def buildExpr : Piece → Except BuildError Expr
  | .mk .expr start _ (lhs :: others) => do
    let l ← lhs.buildExpr
    match others with
    | [] => return l
    | op :: others =>
      let r ← op.relation
      match others with
      | [] => .error (.unexpectedRule .expr start.length)
      | rhs :: _ => return .compare r l (← rhs.buildExpr)
  | .mk .notExpr _ _ (operand :: _) => do return .not (← operand.buildExpr)
  | .mk .negExpr _ _ (operand :: _) =>
    match operand.negativeOnly? with
    | some v => .ok (.literal (.int v))
    | none => do return .neg (← operand.buildExpr)
  | .mk .paren _ _ (operand :: _) => do return .paren (← operand.buildExpr)
  | .mk .newExpr _ _ (ty :: _) => do return .new (← ty.scalar)
  | .mk .deref _ _ (x :: _) => .ok (.deref x.name)
  | .mk .ident start rest inner => .ok (.name (mk .ident start rest inner).name)
  | .mk .intLit start rest inner => (mk .intLit start rest inner).int
  | .mk .floatLit start rest inner => (mk .floatLit start rest inner).float
  | .mk .nanLit .. => .ok (.literal (.float .nan))
  | .mk .infLit .. => .ok (.literal (.float .infinity))
  | p => .error p.unexpected
termination_by structural p => p

/-- Statements that do not branch. -/
def buildPlain : Piece → Except BuildError Stmt
  | .mk .defineStmt _ _ (x :: e :: _) => do return .define x.name (← e.buildExpr)
  | .mk .assignStmt _ _ (x :: e :: _) => do return .assign x.name (← e.buildExpr)
  | .mk .storeStmt _ _ (x :: e :: _) => do return .store x.name (← e.buildExpr)
  | .mk .incStmt _ _ (x :: _) => .ok (.inc x.name)
  | .mk .decStmt _ _ (x :: _) => .ok (.dec x.name)
  | .mk .varDecl _ _ [x, ty] => do return .var x.name (← ty.scalar) none
  | .mk .varDecl _ _ (x :: ty :: init :: _) => do return .var x.name (← ty.scalar) (some (← init.buildExpr))
  | .mk .exitStmt _ _ (e :: _) => do return .exit (← e.buildExpr)
  | p => .error p.unexpected

mutual

/-- An `if`. One right behind an `else` makes a block of its own. -/
def buildIf : Piece → Except BuildError Stmt
  | .mk r start _ (test :: others) => do
    let t ← test.buildExpr
    match others with
    | [] => .error (.unexpectedRule r start.length)
    | .mk _ _ _ body :: others =>
      let b ← buildList body
      match others with
      | [] => return .cond t b none
      | .mk _ _ _ (.mk .block _ _ ss :: _) :: _ => return .cond t b (some (← buildList ss))
      | .mk _ _ _ (.mk .ifStmt start rest inner :: _) :: _ =>
        return .cond t b (some [← buildIf (.mk .ifStmt start rest inner)])
      | .mk _ _ _ (other :: _) :: _ => .error other.unexpected
      | clause :: _ => .error clause.unexpected
  | p => .error p.unexpected
termination_by structural p => p

/-- The statements of a block. -/
def buildList : List Piece → Except BuildError (List Stmt)
  | [] => .ok []
  | p :: ps => do
    let s ← if p.rule = .ifStmt then p.buildIf else p.buildPlain
    return s :: (← buildList ps)
termination_by structural ps => ps

end

/-- The package and the function of a program, the last of each. -/
def gather (package : Option String) (function : Option Piece) :
    List Piece → Except BuildError (Option String × Option Piece)
  | [] => .ok (package, function)
  | .mk .packageClause _ _ (x :: _) :: ps => gather (some x.name) function ps
  | .mk .funcDecl start rest inner :: ps => gather package (some (.mk .funcDecl start rest inner)) ps
  | .mk .endOfInput .. :: ps => gather package function ps
  | p :: _ => .error p.unexpected

def buildProgram : Piece → Except BuildError Program
  | .mk _ _ _ inner => do
    match ← gather none none inner with
    | (package, some (.mk _ _ _ (x :: .mk _ _ _ body :: _))) => return ⟨package, x.name, ← buildList body⟩
    | (_, some function) => .error function.unexpected
    | (_, none) => .error .missingFunction

end Piece

/-- The program that pieces make up: the first of them has to be one. -/
def Program.build : List Piece → Except BuildError Program
  | [] => .error .missingFunction
  | p :: _ => p.buildProgram

end Comparand
