import Comparand.Proofs.SignedNumerals

/-!
Functions that use a number, one for each way to use an integer, and how they are read. All that is said here of the
number itself is that an operand begins where it stands.
-/
namespace Comparand

open Lexeme

namespace Reader

variable {cs mid rest rest' : List Char} {v : Checked Expr} {w : Checked (List Stmt)} {s : String} {x : Ident}
  {d n : Nat} {op : Relation} {stmt : Reader (Checked Stmt)}

/-- A text begins with an operand and goes on with `rest`, with layout before each of them. -/
structure Begins (cs : List Char) (v : Checked Expr) (rest : List Char) : Prop where
  unequal : Stops (· ∈ ['=']) cs
  operand : ∃ mid, skip mid = rest ∧ ∀ d, (skip cs).length < d → unary d (skip cs) = some (v, mid)

theorem stops_text {p : Char → Bool} (h : s.toList.head?.map p = some false) (rest : List Char) :
    Stops p (s.toList ++ rest) := by
  intro c hc
  cases hs : s.toList with
  | nil =>
    rw [hs] at h
    cases h
  | cons d ds =>
    rw [hs] at h hc
    cases hc
    exact Option.some.inj h

theorem skip_ident (rest : List Char) : skip (x.text ++ rest) = x.text ++ rest := skip_word x.text_word

/-! Expressions -/

theorem Begins.alone (h : Begins cs v rest) (hrest : relation rest = none) :
    ∃ mid, skip mid = rest ∧ expr (skip cs) = some (v, mid) := by
  obtain ⟨mid, rfl, hunary⟩ := h.operand
  refine ⟨mid, rfl, ?_⟩
  simp [expr, comparison, hunary _ (Nat.lt_succ_self _), hrest]

theorem relation_symbol (h : Stops (· ∈ ['=']) rest) : relation (op.symbol.toList ++ rest) = some (op, rest) := by
  cases op with
  | eq | ne | le | ge => rfl
  | lt =>
    have hle : fixed "<=" ('<' :: rest) = none := Option.eq_none_iff_forall_ne_some.mpr fun cs hcs =>
      h.ne (by decide) (List.tail_eq_of_cons_eq (fixed_eq_some.mp hcs))
    show relation ('<' :: rest) = some (.lt, rest)
    rw [relation]
    simp only [List.findSome?, Relation.symbol, hle]
    rfl
  | gt =>
    have hge : fixed ">=" ('>' :: rest) = none := Option.eq_none_iff_forall_ne_some.mpr fun cs hcs =>
      h.ne (by decide) (List.tail_eq_of_cons_eq (fixed_eq_some.mp hcs))
    show relation ('>' :: rest) = some (.gt, rest)
    rw [relation]
    simp only [List.findSome?, Relation.symbol, hge]
    rfl

theorem Begins.compare (h : Begins cs v (op.symbol.toList ++ (x.text ++ rest))) (hrest : Bounded rest) :
    expr (skip cs) = some (v.map fun e => .compare op e (.name x.name), rest) := by
  obtain ⟨mid, hmid, hunary⟩ := h.operand
  have hsymbol : relation (skip mid) = some (op, x.text ++ rest) := by
    rw [hmid]
    exact relation_symbol (x.stops.only (by decide))
  have hname : named (x.text ++ rest) = some (.ok (.name x.name), rest) := by
    simp [named, Ident.ident_text hrest.word]
  simp only [expr, comparison, hunary _ (Nat.lt_succ_self _), hsymbol, skip_ident, unary_ident hrest, hname,
    Option.bind_eq_bind, Option.bind_some]
  cases v <;> rfl

theorem Begins.compareTo (h : Begins cs v rest) (x : Ident) (op : Relation) :
    ∃ mid, skip mid = rest ∧ expr (x.text ++ ' ' :: (op.symbol.toList ++ cs)) =
      some (v.map fun e => .compare op (.name x.name) e, mid) := by
  obtain ⟨mid, hmid, hunary⟩ := h.operand
  refine ⟨mid, hmid, ?_⟩
  have hbounded : Bounded (' ' :: (op.symbol.toList ++ cs)) := bounded_cons (by decide) _
  have hname : named (x.text ++ ' ' :: (op.symbol.toList ++ cs)) =
      some (.ok (.name x.name), ' ' :: (op.symbol.toList ++ cs)) := by
    simp [named, Ident.ident_text hbounded.word]
  have hskip : skip (' ' :: (op.symbol.toList ++ cs)) = op.symbol.toList ++ cs := by cases op <;> rfl
  have hlength : (skip cs).length < (x.text ++ ' ' :: (op.symbol.toList ++ cs)).length + 1 := by
    have hle := length_skip_le cs
    simp only [List.length_append, List.length_cons]
    omega
  simp only [expr, comparison, unary_ident hbounded, hname, Option.bind_eq_bind, Option.bind_some, hskip,
    relation_symbol h.unequal, hunary _ hlength]
  rfl

theorem expr_new (hrest : relation (skip rest) = none) :
    expr ("new".toList ++ '(' :: ("int".toList ++ ')' :: rest)) = some (.ok (.new .int), rest) := by
  have hnew : newCell ("new".toList ++ '(' :: ("int".toList ++ ')' :: rest)) = some (.ok (.new .int), rest) := by
    have hskip : skip ('(' :: ("int".toList ++ ')' :: rest)) = '(' :: ("int".toList ++ ')' :: rest) := rfl
    have hopen : fixed "(" ('(' :: ("int".toList ++ ')' :: rest)) = some ("int".toList ++ ')' :: rest) := rfl
    have hskip' : skip ("int".toList ++ ')' :: rest) = "int".toList ++ ')' :: rest := rfl
    have hint : scalar ("int".toList ++ ')' :: rest) = some (.int, ')' :: rest) := rfl
    have hskip'' : skip (')' :: rest) = ')' :: rest := rfl
    have hclose : fixed ")" (')' :: rest) = some rest := rfl
    simp only [newCell, after, before, fixed_append, Option.bind_eq_bind, Option.bind_some, hskip, hopen, hskip', hint,
      hskip'', hclose]
    rfl
  have hsigns : Stops (· ∈ ['!', '-']) ("new".toList ++ '(' :: ("int".toList ++ ')' :: rest)) :=
    stops_text (by decide) _
  have hunary (d : Nat) : unary (d + 1) ("new".toList ++ '(' :: ("int".toList ++ ')' :: rest)) =
      some (.ok (.new .int), rest) := by
    rw [unary_eq_primary hsigns, primary, hnew]
    rfl
  simp only [expr, comparison, hunary, Option.bind_eq_bind, Option.bind_some, hrest, Option.bind_none]
  rfl

/-! Statements -/

theorem binding_eq_some {make : String → Expr → Stmt} {x : String} (hname : ident cs = some (x, mid))
    (hmark : fixed s (skip mid) = some rest) (h : expr (skip rest) = some (v, rest')) :
    binding s make cs = some (v.map (make x), rest') := by
  simp [binding, hname, after, hmark, h]

theorem simple_of_keyword (hs : s ∈ keywords) (hhead : s.toList.head?.map (decide <| · ∈ ['*', 'v']) = some false)
    (hrest : Stops isWordChar rest) : simple (s.toList ++ rest) = none := by
  have hmarks : Stops (· ∈ ['*', 'v']) (s.toList ++ rest) := stops_text hhead rest
  have hstar : fixed "*" (s.toList ++ rest) = none := hmarks.fixed (by decide)
  have hvar : fixed "var" (s.toList ++ rest) = none := hmarks.fixed (by decide)
  rw [simple_eq (ident_keyword hs hrest), after_eq_none hstar, declaration_eq_none hvar]
  rfl

theorem statement_of_simple {t : Checked Stmt} (h : simple cs = some (t, rest)) :
    statement (d + 1) cs = some (t, rest) := by
  rw [statement, h]
  rfl

theorem statement_exit (h : expr (skip cs) = some (v, mid)) (hmid : skip mid = ')' :: rest) :
    statement (d + 1) ("riscvexit".toList ++ '(' :: cs) = some (v.map .exit, rest) := by
  have hsimple : simple ("riscvexit".toList ++ '(' :: cs) = none :=
    simple_of_keyword (by decide) (by decide) (stops_cons (by decide) cs)
  have hcond : conditional d ("riscvexit".toList ++ '(' :: cs) = none := by
    cases d with
    | zero => rfl
    | succ d =>
      have hfixed : fixed "if" ("riscvexit".toList ++ '(' :: cs) = none := rfl
      rw [conditional_succ, after_eq_none hfixed]
      rfl
  have hexit : exiting ("riscvexit".toList ++ '(' :: cs) = some (v.map .exit, rest) := by
    have hskip : skip ('(' :: cs) = '(' :: cs := rfl
    have hopen : fixed "(" ('(' :: cs) = some cs := rfl
    have hclose : fixed ")" (')' :: rest) = some rest := rfl
    simp only [exiting, after, fixed_append, Option.bind_eq_bind, Option.bind_some, hskip, hopen, before, h, hmid,
      hclose]
    rfl
  rw [statement, hsimple, hcond, hexit]
  rfl

theorem statement_brace : statement d ('\x7d' :: rest) = none := by
  cases d with
  | zero => rfl
  | succ d =>
    have hcond : conditional d ('\x7d' :: rest) = none := by cases d <;> rfl
    rw [statement, hcond]
    rfl

/-- An `if` with an empty body and nothing behind it. -/
theorem statement_if {test : Expr → Expr} (h : expr (skip cs) = some (v.map test, mid))
    (hmid : skip mid = ['\x7b', '\x7d', '\x7d']) :
    statement (d + 2) ("if".toList ++ ' ' :: cs) = some (v.map fun e => .cond (test e) [] none, ['\x7d']) := by
  have hsimple : simple ("if".toList ++ ' ' :: cs) = none :=
    simple_of_keyword (by decide) (by decide) (stops_cons (by decide) cs)
  have htest : after "if" expr ("if".toList ++ ' ' :: cs) = some (v.map test, mid) := by
    have hskip : skip (' ' :: cs) = skip cs := rfl
    simp only [after, fixed_append, Option.bind_eq_bind, Option.bind_some, hskip, h]
  have hblock : block (statement d) ['\x7b', '\x7d', '\x7d'] = some (.ok [], ['\x7d']) := by
    have hbody : statements (statement d) 2 ['\x7d', '\x7d'] = (.ok [], ['\x7d', '\x7d']) := by
      have hskip : skip ['\x7d', '\x7d'] = ['\x7d', '\x7d'] := rfl
      rw [statements, hskip, statement_brace]
    have hopen : fixed "\x7b" ['\x7b', '\x7d', '\x7d'] = some ['\x7d', '\x7d'] := rfl
    have hclose : fixed "\x7d" (skip ['\x7d', '\x7d']) = some ['\x7d'] := rfl
    simp only [block, hopen, Option.bind_eq_bind, Option.bind_some, List.length_cons, List.length_nil, hbody, hclose]
    rfl
  have helse : after "else" (alternative d) (skip ['\x7d']) = none := rfl
  have hcond : conditional (d + 1) ("if".toList ++ ' ' :: cs) =
      some (v.map fun e => .cond (test e) [] none, ['\x7d']) := by
    rw [conditional_succ, htest]
    simp only [Option.bind_eq_bind, Option.bind_some, hmid, hblock, helse]
    cases v <;> rfl
  rw [statement, hsimple, hcond]
  rfl

theorem simple_define (h : expr (skip cs) = some (v, rest)) :
    simple (x.text ++ ':' :: '=' :: cs) = some (v.map (.define x.name), rest) := by
  have hname : ident (x.text ++ ':' :: '=' :: cs) = some (x.name, ':' :: '=' :: cs) :=
    Ident.ident_text (stops_cons (by decide) _)
  have hdefine : binding ":=" .define (x.text ++ ':' :: '=' :: cs) = some (v.map (.define x.name), rest) :=
    binding_eq_some hname rfl h
  rw [simple, hdefine]
  rfl

theorem simple_assign (h : expr (skip cs) = some (v, rest)) :
    simple (x.text ++ '=' :: cs) = some (v.map (.assign x.name), rest) := by
  have hname : ident (x.text ++ '=' :: cs) = some (x.name, '=' :: cs) := Ident.ident_text (stops_cons (by decide) _)
  have hassign : binding "=" .assign (x.text ++ '=' :: cs) = some (v.map (.assign x.name), rest) :=
    binding_eq_some hname rfl h
  have hskip : skip ('=' :: cs) = '=' :: cs := rfl
  have hdefine : fixed ":=" ('=' :: cs) = none := rfl
  have hinc : fixed "++" ('=' :: cs) = none := rfl
  have hdec : fixed "--" ('=' :: cs) = none := rfl
  simp only [simple, hassign]
  simp [binding, counting, before, hname, after, hskip, hdefine, hinc, hdec]

theorem simple_store (h : expr (skip cs) = some (v, rest)) :
    simple ('*' :: (x.text ++ '=' :: cs)) = some (v.map (.store x.name), rest) := by
  have hname : ident (x.text ++ '=' :: cs) = some (x.name, '=' :: cs) := Ident.ident_text (stops_cons (by decide) _)
  have hstore : binding "=" .store (x.text ++ '=' :: cs) = some (v.map (.store x.name), rest) :=
    binding_eq_some hname rfl h
  have hstar : fixed "*" ('*' :: (x.text ++ '=' :: cs)) = some (x.text ++ '=' :: cs) := rfl
  rw [simple_eq rfl]
  simp [after, hstar, skip_ident, hstore]

/-- The front of a declaration, and what is behind it. -/
theorem simple_var : simple ("var".toList ++ ' ' :: (x.text ++ ' ' :: ("int".toList ++ cs))) =
    match after "=" expr (skip cs) with
    | some (e, rest) => some (e.map fun e => .var x.name .int (some e), rest)
    | none => some (.ok (.var x.name .int none), cs) := by
  generalize hrest : ' ' :: ("int".toList ++ cs) = rest
  have hname : after "var" ident ("var".toList ++ ' ' :: (x.text ++ rest)) = some (x.name, rest) := by
    have hskip : skip (' ' :: (x.text ++ rest)) = x.text ++ rest := skip_ident rest
    have hstops : Stops isWordChar rest := hrest ▸ stops_cons (by decide) _
    simp only [after, fixed_append, Option.bind_eq_bind, Option.bind_some, hskip, Ident.ident_text hstops]
  have hint : scalar (skip rest) = some (.int, cs) := hrest ▸ rfl
  have hstar : fixed "*" ("var".toList ++ ' ' :: (x.text ++ rest)) = none := rfl
  rw [simple_eq (ident_keyword (by decide) (stops_cons (by decide) _)), after_eq_none hstar]
  rcases hinit : after "=" expr (skip cs) with _ | ⟨e, rest'⟩ <;>
    simp only [declaration, hname, hint, hinit, Option.bind_eq_bind, Option.bind_some] <;> rfl

/-! Programs -/

theorem statements_single {t : Checked Stmt} (h : stmt (skip cs) = some (t, mid)) (hmid : skip mid = '\x7d' :: rest)
    (hend : stmt ('\x7d' :: rest) = none) (n : Nat) :
    statements stmt (n + 1) cs = (t.map fun s => [s], mid) := by
  have hsemicolon : fixed ";" (skip mid) = none := by
    rw [hmid]
    rfl
  have hnone : statements stmt n mid = (.ok [], mid) := by
    cases n with
    | zero => rfl
    | succ n => rw [statements, hmid, hend]
  rw [statements, h]
  simp only [hsemicolon, Option.getD_none, hnone]
  cases t <;> rfl

theorem statements_cons {t : Stmt} (h : stmt (skip cs) = some (.ok t, ';' :: mid))
    (hrest : statements stmt n mid = (w, rest)) : statements stmt (n + 1) cs = (w.map (t :: ·), rest) := by
  have hsemicolon : fixed ";" (skip (';' :: mid)) = some mid := rfl
  rw [statements, h]
  simp only [hsemicolon, Option.getD_some, hrest]
  rfl

theorem program_function {f : Ident} (h : ∀ d n, statements (statement (d + 2)) (n + 2) cs = (w, mid))
    (hlength : 2 ≤ cs.length) (hmid : skip mid = ['\x7d']) :
    program ("func".toList ++ ' ' :: (f.text ++ '(' :: ')' :: '\x7b' :: cs)) =
      some (w.map fun b => ⟨none, f.name, b⟩) := by
  obtain ⟨n, hn⟩ := Nat.exists_eq_add_of_le' hlength
  have hblock (d : Nat) : block (statement (d + 2)) ('\x7b' :: cs) = some (w, []) := by
    have hopen : fixed "\x7b" ('\x7b' :: cs) = some cs := rfl
    have hclose : fixed "\x7d" ['\x7d'] = some [] := rfl
    simp only [block, hopen, Option.bind_eq_bind, Option.bind_some, hn, h, hmid, hclose]
    rfl
  generalize htext : "func".toList ++ ' ' :: (f.text ++ '(' :: ')' :: '\x7b' :: cs) = text
  have hstart : skip text = text := htext ▸ rfl
  have hpackage : packageName text = (none, text) := by
    have hfixed : fixed "package" text = none := htext ▸ rfl
    rw [packageName, after_eq_none hfixed]
  have hname : after "func" ident text = some (f.name, '(' :: ')' :: '\x7b' :: cs) := by
    have hskip : skip (' ' :: (f.text ++ '(' :: ')' :: '\x7b' :: cs)) = f.text ++ '(' :: ')' :: '\x7b' :: cs :=
      skip_ident _
    have hident := f.ident_text (stops_cons (by decide : isWordChar '(' = false) (')' :: '\x7b' :: cs))
    simp only [← htext, after, fixed_append, Option.bind_eq_bind, Option.bind_some, hskip, hident]
  have hfunction : function text = some ((f.name, w), []) := by
    have hopen : fixed "(" (skip ('(' :: ')' :: '\x7b' :: cs)) = some (')' :: '\x7b' :: cs) := rfl
    have hclose : fixed ")" (skip (')' :: '\x7b' :: cs)) = some ('\x7b' :: cs) := rfl
    have hskip : skip ('\x7b' :: cs) = '\x7b' :: cs := rfl
    simp only [function, hname, Option.bind_eq_bind, Option.bind_some, hopen, hclose, hskip, hblock]
    rfl
  simp only [program, hstart, hpackage, hfunction, Option.bind_eq_bind, Option.bind_some]
  rfl

end Reader

/-- The ways to use a number as an integer. -/
inductive Use where
  | exit
  | define
  | declare
  | assign
  | store
  | comparedLeft (op : Relation)
  | comparedRight (op : Relation)

namespace Use

/-- A fixed text in front of another one. -/
def word (s : String) (cs : List Char) : List Char := s.toList ++ cs

/-! The front of each statement, with `cs` behind it. -/

def exitText (cs : List Char) : List Char := word "riscvexit" ('(' :: cs)

def testText (cs : List Char) : List Char := word "if" (' ' :: cs)

def cellText (cs : List Char) : List Char := word "new" ('(' :: word "int" (')' :: cs))

variable (f x : Ident)

def variableText (cs : List Char) : List Char := word "var" (' ' :: (x.text ++ ' ' :: word "int" cs))

/-- The body of a function up to the number, with `cs` from there on. -/
def opening (cs : List Char) : Use → List Char
  | exit => exitText cs
  | define => x.text ++ ':' :: '=' :: cs
  | declare => variableText x ('=' :: cs)
  | assign => variableText x (';' :: (x.text ++ '=' :: cs))
  | store => x.text ++ ':' :: '=' :: cellText (';' :: '*' :: (x.text ++ '=' :: cs))
  | comparedLeft _ => variableText x (';' :: testText cs)
  | comparedRight op => variableText x (';' :: testText (x.text ++ ' ' :: (op.symbol.toList ++ cs)))

/-- The rest of the function behind the number. -/
def closing : Use → List Char
  | exit => [')', '\x7d']
  | comparedLeft op => op.symbol.toList ++ (x.text ++ [' ', '\x7b', '\x7d', '\x7d'])
  | comparedRight _ => ['\x7b', '\x7d', '\x7d']
  | _ => ['\x7d']

/-- A function up to the number, with `cs` from there on. -/
def front (u : Use) (cs : List Char) : List Char :=
  word "func" (' ' :: (f.text ++ '(' :: ')' :: '\x7b' :: u.opening x cs))

/-- The text of a function that uses a number. -/
def source (u : Use) (number : List Char) : String := String.ofList (u.front f x (number ++ u.closing x))

def setup : Use → List Stmt
  | exit | define | declare => []
  | assign | comparedLeft _ | comparedRight _ => [.var x.name .int none]
  | store => [.define x.name (.new .int)]

def last (e : Expr) : Use → Stmt
  | exit => .exit e
  | define => .define x.name e
  | declare => .var x.name .int (some e)
  | assign => .assign x.name e
  | store => .store x.name e
  | comparedLeft op => .cond (.compare op e (.name x.name)) [] none
  | comparedRight op => .cond (.compare op (.name x.name) e) [] none

/-- What the text is read as. -/
def program (u : Use) (e : Expr) : Program := ⟨none, f.name, u.setup x ++ [u.last x e]⟩

open Reader

variable {f x} {cs : List Char} {v : Checked Expr} {u : Use}

theorem word_append {s : String} (cs cs' : List Char) : word s (cs ++ cs') = word s cs ++ cs' :=
  (List.append_assoc s.toList cs cs').symm

theorem front_append (cs cs' : List Char) : u.front f x (cs ++ cs') = u.front f x cs ++ cs' := by
  cases u <;>
    simp only [front, opening, exitText, testText, cellText, variableText, ← word_append, List.append_assoc,
      List.cons_append]

section Reading

variable {text mid rest : List Char} {d n : Nat}

theorem skip_text {s : String} (h : s.toList.head?.map isWordChar = some true) (rest : List Char) :
    skip (s.toList ++ rest) = s.toList ++ rest := by
  cases hs : s.toList with
  | nil =>
    rw [hs] at h
    cases h
  | cons c ds =>
    rw [hs] at h
    exact skip_of_solid (solid_of_word (Option.some.inj h))

theorem statements_last {make : Expr → Stmt} (hskip : skip text = text)
    (h : statement (d + 2) text = some (v.map make, mid)) (hmid : skip mid = ['\x7d']) (n : Nat) :
    statements (statement (d + 2)) (n + 1) text = (v.map fun e => [make e], mid) := by
  rw [statements_single (by rwa [hskip]) hmid statement_brace n]
  cases v <;> rfl

theorem statements_simple {make : Expr → Stmt} (hskip : skip text = text) (h : simple text = some (v.map make, mid))
    (hmid : skip mid = ['\x7d']) (n : Nat) :
    statements (statement (d + 2)) (n + 1) text = (v.map fun e => [make e], mid) :=
  statements_last hskip (statement_of_simple h) hmid n

theorem statements_after {t : Stmt} {make : Expr → List Stmt} (hskip : skip text = text)
    (ht : simple text = some (.ok t, ';' :: rest))
    (h : statements (statement (d + 2)) n rest = (v.map make, mid)) :
    statements (statement (d + 2)) (n + 1) text = (v.map fun e => t :: make e, mid) := by
  have hstmt : statement (d + 2) (skip text) = some (.ok t, ';' :: rest) := by
    rw [hskip]
    exact statement_of_simple ht
  rw [statements_cons hstmt h]
  cases v <;> rfl

/-- The variable is declared, and the number is used in the statement behind that. -/
theorem statements_variable {make : Expr → List Stmt} (h : statements (statement (d + 2)) n rest = (v.map make, mid)) :
    statements (statement (d + 2)) (n + 1) (variableText x (';' :: rest)) =
      (v.map fun e => .var x.name .int none :: make e, mid) := by
  have hend : after "=" expr (skip (';' :: rest)) = none := rfl
  refine statements_after (skip_text (by decide) _) ?_ h
  exact simple_var.trans (by rw [hend])

theorem simple_declare (h : expr (skip cs) = some (v, rest)) :
    simple (variableText x ('=' :: cs)) = some (v.map fun e => .var x.name .int (some e), rest) := by
  have hskip : skip ('=' :: cs) = '=' :: cs := rfl
  have hmark : fixed "=" ('=' :: cs) = some cs := rfl
  have hinit : after "=" expr (skip ('=' :: cs)) = some (v, rest) := by
    simp only [after, hskip, hmark, h, Option.bind_eq_bind, Option.bind_some]
  exact simple_var.trans (by rw [hinit])

theorem simple_cell : simple (x.text ++ ':' :: '=' :: cellText (';' :: rest)) =
    some (.ok (.define x.name (.new .int)), ';' :: rest) := by
  have hskip : skip (cellText (';' :: rest)) = cellText (';' :: rest) := skip_text (by decide) _
  have hnew : expr (skip (cellText (';' :: rest))) = some (.ok (.new .int), ';' :: rest) := by
    rw [hskip]
    exact expr_new rfl
  exact simple_define hnew

/-- The body of the function, for every way to use a number. -/
theorem statements_opening (h : Begins cs v (u.closing x)) : ∃ mid, skip mid = ['\x7d'] ∧
    ∀ d n, statements (statement (d + 2)) (n + 2) (u.opening x cs) =
      (v.map fun e => u.setup x ++ [u.last x e], mid) := by
  have hbrace : relation ['\x7d'] = none := rfl
  cases u with
  | exit =>
    have hclosing : relation [')', '\x7d'] = none := rfl
    obtain ⟨mid, hmid, hexpr⟩ := h.alone hclosing
    exact ⟨['\x7d'], rfl, fun d n => statements_last (skip_text (by decide) _) (statement_exit hexpr hmid) rfl _⟩
  | define =>
    obtain ⟨mid, hmid, hexpr⟩ := h.alone hbrace
    exact ⟨mid, hmid, fun d n => statements_simple (skip_ident _) (simple_define hexpr) hmid _⟩
  | declare =>
    obtain ⟨mid, hmid, hexpr⟩ := h.alone hbrace
    exact ⟨mid, hmid, fun d n => statements_simple (skip_text (by decide) _) (simple_declare hexpr) hmid _⟩
  | assign =>
    obtain ⟨mid, hmid, hexpr⟩ := h.alone hbrace
    exact ⟨mid, hmid, fun d n =>
      statements_variable (statements_simple (skip_ident _) (simple_assign hexpr) hmid n)⟩
  | store =>
    obtain ⟨mid, hmid, hexpr⟩ := h.alone hbrace
    exact ⟨mid, hmid, fun d n =>
      statements_after (skip_ident _) simple_cell (statements_simple rfl (simple_store hexpr) hmid n)⟩
  | comparedLeft op =>
    have hexpr := h.compare (bounded_cons (by decide) ['\x7b', '\x7d', '\x7d'])
    exact ⟨['\x7d'], rfl, fun d n =>
      statements_variable (statements_last (skip_text (by decide) _) (statement_if hexpr rfl) rfl n)⟩
  | comparedRight op =>
    obtain ⟨mid, hmid, hexpr⟩ := h.compareTo x op
    rw [← skip_ident] at hexpr
    exact ⟨['\x7d'], rfl, fun d n =>
      statements_variable (statements_last (skip_text (by decide) _) (statement_if hexpr hmid) rfl n)⟩

theorem length_word (s : String) (cs : List Char) : (word s cs).length = s.toList.length + cs.length :=
  List.length_append

theorem program_front (h : Begins cs v (u.closing x)) :
    Reader.program (u.front f x cs) = some (v.map (u.program f x)) := by
  obtain ⟨mid, hmid, hbody⟩ := statements_opening h
  have hlength : 2 ≤ (u.opening x cs).length := by
    have hexit : "riscvexit".toList.length = 9 := by decide
    cases u <;> simp only [opening, exitText, testText, cellText, variableText, length_word, List.length_append,
      List.length_cons] <;> omega
  refine (program_function hbody hlength hmid).trans ?_
  cases v <;> rfl

theorem skip_closing : skip (u.closing x) = u.closing x := by
  cases u with
  | comparedLeft op => cases op <;> rfl
  | _ => rfl

theorem stops_closing : Stops numberGoesOn (u.closing x) := by
  cases u with
  | comparedLeft op => exact stops_text (by cases op <;> decide) _
  | _ => exact stops_cons (by decide) _

end Reading

end Use
end Comparand
