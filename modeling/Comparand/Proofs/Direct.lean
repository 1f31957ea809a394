import Comparand.Source.Builder

/-!
Reading programs in one go, from a text to a syntax tree. Choices are tried in turn as the grammar has them, and the
first that fits is taken for good. A phrase that fits may still hold an integer that is too large; such a phrase is read
to its end, and the first such integer is what is wrong with the program.
-/

namespace Comparand

/-- What a phrase stands for, unless a literal in it is bad. -/
abbrev Checked := Except BadLiteral

/-- A reader takes a phrase from the front of a text and gives the rest. -/
abbrev Reader (α : Type) := List Char → Option (α × List Char)

namespace Reader

open Lexeme

/-- A text, and then what `p` reads, with layout allowed between. -/
def after {α : Type} (s : String) (p : Reader α) : Reader α := fun cs => do
  p (skip (← fixed s cs))

/-- What `p` reads, and then a text. -/
def before {α : Type} (p : Reader α) (s : String) : Reader α := fun cs => do
  let (a, cs) ← p cs
  return (a, ← fixed s (skip cs))

def newCell : Reader (Checked Expr) := fun cs => do
  let (ty, cs) ← after "new" (after "(" (before scalar ")")) cs
  return (.ok (.new ty), cs)

def deref : Reader (Checked Expr) := fun cs => do
  let (x, cs) ← after "*" ident cs
  return (.ok (.deref x), cs)

/-- A float literal always reads as a number. -/
def floatLiteral : Reader (Checked Expr) := fun cs => do
  let (text, rest) ← Lexeme.float cs
  let v ← Decimal.read? text
  return (.ok (.literal (.float v)), rest)

def intLiteral : Reader (Checked Expr) := fun cs => do
  let (digits, rest) ← Lexeme.int cs
  let n := Decimal.ofDigits digits
  if n < Nat.pow 2 63 then return (.ok (.literal (.int (.ofNat n))), rest)
  else return (.error ⟨String.ofList digits, cs.length⟩, rest)

/-- A literal that is a word. -/
def namedLiteral (word : String) (v : Binary64) : Reader (Checked Expr) := fun cs => do
  return (.ok (.literal (.float v)), ← whole word cs)

def named : Reader (Checked Expr) := fun cs => do
  let (x, cs) ← ident cs
  return (.ok (.name x), cs)

def parenthesized (inner : Reader (Checked Expr)) : Reader (Checked Expr) := fun cs => do
  let (e, cs) ← after "(" (before inner ")") cs
  return (e.map .paren, cs)

/-- An operand without sign; `inner` reads what stands in parentheses. -/
def primary (inner : Reader (Checked Expr)) : Reader (Checked Expr) := fun cs =>
  newCell cs <|> deref cs <|> floatLiteral cs <|> intLiteral cs <|> namedLiteral "NaN" .nan cs <|>
    namedLiteral "Inf" .infinity cs <|> named cs <|> parenthesized inner cs

/-- The least integer. Its digits alone would not fit, so it is read together with its sign. -/
def leastInt : Reader (Checked Expr) := fun cs =>
  match Lexeme.float cs with
  | some _ => none
  | none => do
    let (digits, rest) ← Lexeme.int cs
    if Decimal.ofDigits digits = Nat.pow 2 63 then some (.ok (.literal (.int Int64.minValue)), rest) else none

/-- An operand, or a comparison of two. -/
def comparison (operand : Reader (Checked Expr)) : Reader (Checked Expr) := fun cs => do
  let (lhs, cs) ← operand cs
  let compared : Option (Checked Expr × List Char) := do
    let (op, rest) ← relation (skip cs)
    let (rhs, rest) ← operand (skip rest)
    return (lhs.bind fun l => rhs.map fun r => .compare op l r, rest)
  return compared.getD (lhs, cs)

/-- An operand with signs and negations. Each of them takes a character, so as many as there are characters suffice
for `depth`. -/
def unary : Nat → Reader (Checked Expr)
  | 0, _ => none
  | depth + 1, cs =>
    match cs with
    | '!' :: rest => do
      let (e, rest) ← unary depth (skip rest)
      return (e.map .not, rest)
    | '-' :: rest =>
      leastInt (skip rest) <|> do
        let (e, rest) ← unary depth (skip rest)
        return (e.map .neg, rest)
    | cs => primary (comparison (unary depth)) cs

def expr : Reader (Checked Expr) := fun cs => comparison (unary (cs.length + 1)) cs

/-- A name, a mark and an expression. -/
def binding (mark : String) (make : String → Expr → Stmt) : Reader (Checked Stmt) := fun cs => do
  let (x, cs) ← ident cs
  let (e, cs) ← after mark expr (skip cs)
  return (e.map (make x), cs)

/-- A name and a mark. -/
def counting (mark : String) (make : String → Stmt) : Reader (Checked Stmt) := fun cs => do
  let (x, cs) ← before ident mark cs
  return (.ok (make x), cs)

def declaration : Reader (Checked Stmt) := fun cs => do
  let (x, cs) ← after "var" ident cs
  let (ty, cs) ← scalar (skip cs)
  match after "=" expr (skip cs) with
  | some (e, rest) => return (e.map fun e => .var x ty (some e), rest)
  | none => return (.ok (.var x ty none), cs)

def exiting : Reader (Checked Stmt) := fun cs => do
  let (e, cs) ← after "riscvexit" (after "(" (before expr ")")) cs
  return (e.map .exit, cs)

/-- Statements that neither branch nor end the program. -/
def simple : Reader (Checked Stmt) := fun cs =>
  binding ":=" .define cs <|> counting "++" .inc cs <|> counting "--" .dec cs <|> binding "=" .assign cs <|>
    after "*" (binding "=" .store) cs <|> declaration cs

/-- As many statements as there are, each with an optional semicolon behind it. -/
def statements (stmt : Reader (Checked Stmt)) : Nat → List Char → Checked (List Stmt) × List Char
  | 0, cs => (.ok [], cs)
  | n + 1, cs =>
    match stmt (skip cs) with
    | none => (.ok [], cs)
    | some (s, rest) =>
      let (ss, rest) := statements stmt n ((fixed ";" (skip rest)).getD rest)
      (s.bind fun s => ss.map (s :: ·), rest)

def block (stmt : Reader (Checked Stmt)) : Reader (Checked (List Stmt)) := fun cs => do
  let cs ← fixed "\x7b" cs
  let (ss, cs) := statements stmt cs.length cs
  return (ss, ← fixed "\x7d" (skip cs))

mutual

/-- A statement. Nesting takes characters, so a little more than there are characters suffices for `depth`. -/
def statement : Nat → Reader (Checked Stmt)
  | 0, _ => none
  | depth + 1, cs => simple cs <|> conditional depth cs <|> exiting cs

/-- An `if` with its alternative, which is a block or another `if`. -/
def conditional : Nat → Reader (Checked Stmt)
  | 0, _ => none
  | depth + 1, cs => do
    let (test, cs) ← after "if" expr cs
    let (body, cs) ← block (statement depth) (skip cs)
    let chained : Reader (Checked (List Stmt)) := fun cs => do
      let (s, cs) ← conditional depth cs
      return (s.map fun s => [s], cs)
    match after "else" (fun cs => chained cs <|> block (statement depth) cs) (skip cs) with
    | some (otherwise, rest) =>
      return (test.bind fun t => body.bind fun b => otherwise.map fun o => .cond t b (some o), rest)
    | none => return (test.bind fun t => body.map fun b => .cond t b none, cs)

end

/-- What follows the `else` of an `if`. -/
def alternative (depth : Nat) : Reader (Checked (List Stmt)) := fun cs =>
  (do
    let (s, cs) ← conditional depth cs
    return (s.map fun s => [s], cs)) <|> block (statement depth) cs

theorem conditional_succ (depth : Nat) (cs : List Char) : conditional (depth + 1) cs = (do
    let (test, cs) ← after "if" expr cs
    let (body, cs) ← block (statement depth) (skip cs)
    match after "else" (alternative depth) (skip cs) with
    | some (otherwise, rest) =>
      return (test.bind fun t => body.bind fun b => otherwise.map fun o => .cond t b (some o), rest)
    | none => return (test.bind fun t => body.map fun b => .cond t b none, cs)) := rfl

/-- The name of the package, if there is one. -/
def packageName (cs : List Char) : Option String × List Char :=
  match after "package" ident cs with
  | some (x, rest) => (some x, rest)
  | none => (none, cs)

/-- A function without parameters: its name and its body. -/
def function : Reader (String × Checked (List Stmt)) := fun cs => do
  let (name, cs) ← after "func" ident cs
  let cs ← fixed "(" (skip cs)
  let cs ← fixed ")" (skip cs)
  let (body, cs) ← block (statement (cs.length + 2)) (skip cs)
  return ((name, body), cs)

/-- A program, which has to fill the whole text. -/
def program (cs : List Char) : Option (Checked Program) := do
  let (package, cs) := packageName (skip cs)
  let ((name, body), cs) ← function (skip cs)
  if (skip cs).isEmpty then return body.map fun b => ⟨package, name, b⟩ else none

end Reader
end Comparand
