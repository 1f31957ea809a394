import Comparand.Source.Lexeme
import Comparand.Source.Syntax

/-!
The grammar as data: which rules there are, under which names messages show them, and what each of them is made of. It
is one of ordered choices: alternatives are tried in turn and the first that fits is taken for good.
-/

namespace Comparand

namespace Lexeme

/-- The relational operators, longer ones first. -/
def relation (cs : List Char) : Option (Relation × List Char) :=
  [Relation.eq, .ne, .le, .ge, .lt, .gt].findSome? fun r => (fixed r.symbol cs).map fun rest => (r, rest)

def scalar (cs : List Char) : Option (Scalar × List Char) :=
  [Scalar.float64, .float32, .int].findSome? fun ty => (fixed ty.name cs).map fun rest => (ty, rest)

end Lexeme

/-- The rules that a message can name, in the order in which it names them. -/
inductive Rule where
  | endOfInput | ident | program | packageClause | funcDecl | block
  | defineStmt | incStmt | decStmt | assignStmt | storeStmt | varDecl | ifStmt | elseClause | exitStmt
  | expr | relOp | notExpr | negExpr | paren | newExpr | deref | typeName
  | floatLit | intLit | nanLit | infLit
deriving DecidableEq

namespace Rule

def all : List Rule :=
  [endOfInput, ident, program, packageClause, funcDecl, block,
    defineStmt, incStmt, decStmt, assignStmt, storeStmt, varDecl, ifStmt, elseClause, exitStmt,
    expr, relOp, notExpr, negExpr, paren, newExpr, deref, typeName, floatLit, intLit, nanLit, infLit]

def name : Rule → String
  | endOfInput => "EOI"
  | ident => "ident"
  | program => "program"
  | packageClause => "package_clause"
  | funcDecl => "func_decl"
  | block => "block"
  | defineStmt => "define_stmt"
  | incStmt => "inc_stmt"
  | decStmt => "dec_stmt"
  | assignStmt => "assign_stmt"
  | storeStmt => "store_stmt"
  | varDecl => "var_decl"
  | ifStmt => "if_stmt"
  | elseClause => "else_clause"
  | exitStmt => "exit_stmt"
  | expr => "expr"
  | relOp => "rel_op"
  | notExpr => "not_expr"
  | negExpr => "neg_expr"
  | paren => "paren"
  | newExpr => "new_expr"
  | deref => "deref"
  | typeName => "type_name"
  | floatLit => "float_lit"
  | intLit => "int_lit"
  | nanLit => "nan_lit"
  | infLit => "inf_lit"

end Rule

/-- What a rule is made of. Layout may stand between the parts of a sequence and before each repetition. -/
inductive Phrase where
  | fixed (s : String)
  | rule (r : Rule)
  | seq (p q : Phrase)
  | alt (p q : Phrase)
  | opt (p : Phrase)
  | many (p : Phrase)
  /-- A lexeme, given by what is left after it. -/
  | lexeme (rest? : List Char → Option (List Char))

namespace Phrase

/-- The parts one after the other. -/
def sequence : List Phrase → Phrase
  | [] => fixed ""
  | [p] => p
  | p :: ps => seq p (sequence ps)

/-- The first of the alternatives that fits. -/
def choice : List Phrase → Phrase
  | [] => lexeme fun _ => none
  | [p] => p
  | p :: ps => alt p (choice ps)

def statement : Phrase :=
  choice [rule .defineStmt, rule .incStmt, rule .decStmt, rule .assignStmt, rule .storeStmt, rule .varDecl,
    rule .ifStmt, rule .exitStmt]

def operand : Phrase :=
  choice [rule .notExpr, rule .negExpr, rule .newExpr, rule .deref, rule .floatLit, rule .intLit, rule .nanLit,
    rule .infLit, rule .ident, rule .paren]

end Phrase

open Phrase in
/-- The phrase of a rule. -/
def Rule.phrase : Rule → Phrase
  | endOfInput => lexeme fun cs => if cs.isEmpty then some [] else none
  | ident => lexeme fun cs => (Lexeme.ident cs).map (·.2)
  | program => sequence [fixed "", opt (rule packageClause), rule funcDecl, rule endOfInput]
  | packageClause => sequence [fixed "package", rule ident]
  | funcDecl => sequence [fixed "func", rule ident, fixed "(", fixed ")", rule block]
  | block => sequence [fixed "\x7b", many (seq statement (opt (fixed ";"))), fixed "\x7d"]
  | defineStmt => sequence [rule ident, fixed ":=", rule expr]
  | incStmt => sequence [rule ident, fixed "++"]
  | decStmt => sequence [rule ident, fixed "--"]
  | assignStmt => sequence [rule ident, fixed "=", rule expr]
  | storeStmt => sequence [fixed "*", rule ident, fixed "=", rule expr]
  | varDecl => sequence [fixed "var", rule ident, rule typeName, opt (seq (fixed "=") (rule expr))]
  | ifStmt => sequence [fixed "if", rule expr, rule block, opt (rule elseClause)]
  | elseClause => seq (fixed "else") (alt (rule ifStmt) (rule block))
  | exitStmt => sequence [fixed "riscvexit", fixed "(", rule expr, fixed ")"]
  | expr => seq operand (opt (seq (rule relOp) operand))
  | relOp => lexeme fun cs => (Lexeme.relation cs).map (·.2)
  | notExpr => seq (fixed "!") operand
  | negExpr => seq (fixed "-") operand
  | paren => sequence [fixed "(", rule expr, fixed ")"]
  | newExpr => sequence [fixed "new", fixed "(", rule typeName, fixed ")"]
  | deref => seq (fixed "*") (rule ident)
  | typeName => lexeme fun cs => (Lexeme.scalar cs).map (·.2)
  | floatLit => lexeme fun cs => (Lexeme.float cs).map (·.2)
  | intLit => lexeme fun cs => (Lexeme.int cs).map (·.2)
  | nanLit => lexeme (Lexeme.whole "NaN")
  | infLit => lexeme (Lexeme.whole "Inf")

end Comparand
