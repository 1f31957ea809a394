import Comparand.Proofs.NumberUses
import Comparand.Proofs.WellFormed
import Comparand.Suite.Execution

/-!
What becomes of a number in a program: it is read with all its signs and parentheses, and compiled as one constant. The
parser rejects digits that are too large, the compiler a negation that leaves 64 bits, and nothing wraps in between.
-/
namespace Comparand

open Lexeme

namespace Signed

open Reader

variable {e : Signed} {gap gap' lead tail rest : List Char}

theorem Spelling.unequal (h : Spelling e lead tail) : Stops (· ∈ ['=']) (lead ++ (e.core.digits ++ rest)) := by
  cases h with
  | numeral n => exact n.stops.only (by decide)
  | neg => exact stops_cons (by decide) _
  | paren => exact stops_cons (by decide) _

theorem Spelling.begins (h : Spelling e lead tail) (hgap : Layout gap) (hgap' : Layout gap') (hrest : skip rest = rest)
    (hstops : Stops numberGoesOn rest) :
    Begins (gap ++ (lead ++ (e.core.digits ++ (tail ++ (gap' ++ rest)))))
      (e.reading (e.core.digits ++ (tail ++ (gap' ++ rest))).length) rest where
  unequal := stops_layout hgap (by decide) h.unequal
  operand := by
    refine ⟨gap' ++ rest, by rw [hgap'.skip_append, hrest], fun d hd => ?_⟩
    rw [hgap.skip_append, h.skip_eq] at hd ⊢
    refine unary_spelling h (stops_layout hgap' (by decide) hstops) ?_
    rw [List.length_append] at hd
    omega

end Signed

/-- The last statement is compiled in the state that the others leave. -/
theorem Stmt.genList_snoc {o : CompileOptions} {ss : List Stmt} {s : Stmt} {g g' : GenState} {code : List Instr}
    (h : genList o ss g = .ok (code, g')) :
    genList o (ss ++ [s]) g = (s.gen o g').map fun last => (code ++ last.1, last.2) := by
  induction ss generalizing g code with
  | nil =>
    cases h
    rw [List.nil_append, genList, Gen.andThen]
    cases s.gen o g' with
    | error e => rfl
    | ok last => simp [genList, Gen.nothing, Except.map, bind, Except.bind, pure, Except.pure]
  | cons t ss ih =>
    obtain ⟨first, g₁, second, ht, hss, rfl⟩ := Gen.andThen_eq_ok.mp h
    rw [List.cons_append, genList, Gen.andThen, ht]
    cases hs : s.gen o g' with
    | error e => simp [ih hss, hs, Except.map, bind, Except.bind]
    | ok last => simp [ih hss, hs, Except.map, bind, Except.bind, pure, Except.pure]

namespace Use

variable {f x : Ident} {u : Use} {o : CompileOptions} {a b : Expr} {c : Constant} {g : GenState}

/-- What the statement with the number finds. -/
def Ready (x : Ident) (g : GenState) : Use → Prop
  | exit => True
  | define | declare => g = {}
  | assign | comparedLeft _ | comparedRight _ => ∃ s, g.scopes.lookup x.name = .ok ⟨.scalar .int, s⟩
  | store => ∃ s, g.scopes.lookup x.name = .ok ⟨.pointer .int, s⟩

theorem exists_ready (u : Use) (x : Ident) (o : CompileOptions) :
    ∃ code g, Stmt.genList o (u.setup x) {} = .ok (code, g) ∧ u.Ready x g := by
  cases u with
  | exit => exact ⟨_, _, rfl, trivial⟩
  | define | declare => exact ⟨_, _, rfl, rfl⟩
  | assign | store | comparedLeft op | comparedRight op =>
    exact ⟨_, _, rfl, ⟨0, by decide⟩, Scopes.lookup_eq_ok.mpr (by simp [Scopes.lookup?])⟩

/-- A comparison of integers is decided beforehand or has code, whatever is known. -/
theorem gen_test {op : Relation} {lhs rhs : Expr} {l r : Value}
    (h : Comparison.ofExprs g.scopes lhs rhs = .ok (.int l r)) :
    ∃ last, (Stmt.cond (.compare op lhs rhs) [] none).gen o g = .ok last := by
  rw [Stmt.gen, Stmt.condGen_eq]
  have hforeseen : ∃ d, Stmt.foreseen o (.compare op lhs rhs) g = .ok d := by
    rw [Stmt.foreseen]
    split
    · exact ⟨_, bind_ok h rfl⟩
    · exact ⟨_, rfl⟩
  obtain ⟨d, hd⟩ := hforeseen
  rw [hd]
  rcases d with _ | _ | _
  · exact ⟨_, bind_ok rfl (bind_ok rfl (bind_ok (bind_ok h rfl) rfl))⟩
  · exact ⟨_, rfl⟩
  · exact ⟨_, rfl⟩

theorem gen_literal (h : u.Ready x g) (v : Int64) : ∃ last, (u.last x (.literal (.int v))).gen o g = .ok last := by
  cases u with
  | exit => exact ⟨_, rfl⟩
  | define | declare =>
    cases h
    exact ⟨_, rfl⟩
  | assign | store =>
    obtain ⟨s, hs⟩ := h
    exact ⟨_, bind_ok hs rfl⟩
  | comparedLeft op =>
    obtain ⟨s, hs⟩ := h
    exact gen_test (bind_ok rfl (bind_ok (bind_ok hs rfl) rfl))
  | comparedRight op =>
    obtain ⟨s, hs⟩ := h
    exact gen_test (bind_ok (bind_ok hs rfl) (bind_ok rfl rfl))

-- `a` has no slot, so its value or the lack of it is all that the statement depends on.
theorem gen_constant {c : Except CompileError Constant} (hready : u.Ready x g) (hnew : ∀ ty, a.unparen ≠ .new ty)
    (h : ∀ scopes, a.value scopes = c.map .constant) :
    (u.last x a).gen o g = c >>= fun c => (u.last x (.literal c)).gen o g := by
  cases u with
  | exit =>
    simp only [last, Stmt.gen, Stmt.exitGen, h]
    cases c <;> rfl
  | define =>
    simp only [last, Stmt.gen, Stmt.defineGen, storeExpr, h]
    cases c <;> rfl
  | declare =>
    cases hready
    simp only [last, Stmt.gen, Stmt.varGen, storeExpr, h]
    cases c <;> rfl
  | assign =>
    obtain ⟨s, hs⟩ := hready
    simp only [last, Stmt.gen, Stmt.assignGen, hs, storeExpr, h]
    cases c <;> rfl
  | store =>
    obtain ⟨s, hs⟩ := hready
    simp only [last, Stmt.gen, Stmt.storeGen, hs, h]
    cases c <;> rfl
  | comparedLeft op =>
    simp only [last, Stmt.gen, Stmt.condGen, Expr.decide, Expr.testCode, Comparison.ofExprs, h]
    cases c with
    | error e => cases o.fold <;> rfl
    | ok c => rfl
  | comparedRight op =>
    obtain ⟨s, hs⟩ := hready
    have hname : Expr.value g.scopes (.name x.name) = .ok (.slot .int s) := bind_ok hs rfl
    simp only [last, Stmt.gen, Stmt.condGen, Expr.decide, Expr.testCode, Comparison.ofExprs, GenState.newLabel, hname,
      h]
    cases c with
    | error e => cases o.fold <;> rfl
    | ok c => rfl

/-- Only the code of the last statement depends on the number. -/
theorem exists_compile (u : Use) (f x : Ident) (o : CompileOptions) :
    ∃ (g : GenState) (finish : List Instr × GenState → Routine), u.Ready x g ∧
      ∀ a, (u.program f x a).compile o = ((u.last x a).gen o g).map finish := by
  obtain ⟨code, g, hsetup, hready⟩ := exists_ready u x o
  let finish (last : List Instr × GenState) : Routine :=
    ⟨f.name, Program.prologue last.2.frame.size ++ (code ++ last.1) ++ (u.program f x (.literal (.int 0))).finish,
      last.2.hints, last.2.frame.size⟩
  refine ⟨g, finish, hready, fun a => ?_⟩
  have hfinish : (u.program f x a).finish = (u.program f x (.literal (.int 0))).finish := by cases u <;> rfl
  have hbody : Stmt.genList o (u.program f x a).body {} = _ := Stmt.genList_snoc hsetup
  rw [Program.compile, hbody, hfinish]
  cases (u.last x a).gen o g <;> rfl

/-- A constant is compiled as a literal, and what has no value is rejected for the reason that it has none. -/
theorem compile_constant {c : Except CompileError Constant} (hnew : ∀ ty, a.unparen ≠ .new ty)
    (h : ∀ scopes, a.value scopes = c.map .constant) :
    (u.program f x a).compile o = c >>= fun c => (u.program f x (.literal c)).compile o := by
  obtain ⟨g, finish, hready, hcompile⟩ := exists_compile u f x o
  simp only [hcompile, gen_constant hready hnew h]
  cases c <;> rfl

theorem compile_literal (u : Use) (f x : Ident) (o : CompileOptions) (v : Int64) :
    ∃ r, (u.program f x (.literal (.int v))).compile o = .ok r := by
  obtain ⟨g, finish, hready, hcompile⟩ := exists_compile u f x o
  obtain ⟨last, hlast⟩ := gen_literal (o := o) hready v
  rw [hcompile, hlast]
  exact ⟨_, rfl⟩

theorem value_of_constant (h : a.constant? = some c) (scopes : Scopes) : a.value scopes = .ok (.constant c) :=
  Expr.value_eq_ok.mpr (.inl ⟨c, h, rfl⟩)

theorem compile_of_constant (h : a.constant? = some c) :
    (u.program f x a).compile o = (u.program f x (.literal c)).compile o :=
  compile_constant (c := .ok c) (Expr.unparen_ne_new (value_of_constant h {})) (value_of_constant h)

theorem compile_of_negation (h : a.constant? = none) (hneg : a.unparen = .neg b) :
    (u.program f x a).compile o = .error (.unsupported .negation) := by
  refine compile_constant (c := .error (.unsupported .negation)) (fun ty hty => ?_) fun scopes => ?_
  · cases hneg.symm.trans hty
  · rw [Expr.value, h, hneg]
    rfl

/-- Digits that do not fit are reported at their own place, not at that of the signs before them. -/
theorem parse_source {e : Signed} {gap gap' lead tail number : List Char} (hgap : Layout gap) (hgap' : Layout gap')
    (h : e.Spelling lead tail) (hnumber : number = gap ++ (lead ++ (e.core.digits ++ (tail ++ gap')))) :
    Program.parse (u.source f x number) =
      if e.term.fits then .ok (u.program f x e.term.ast)
      else .error (.invalidLiteral (String.ofList e.core.digits) (lineColumn (u.front f x (gap ++ lead))).1
        (lineColumn (u.front f x (gap ++ lead))).2) := by
  generalize hahead : e.core.digits ++ (tail ++ (gap' ++ u.closing x)) = ahead
  have htext : (u.source f x number).toList = u.front f x (gap ++ lead) ++ ahead := by
    rw [source, String.toList_ofList, ← front_append, hnumber, ← hahead]
    simp only [List.append_assoc]
  have hbegins : Reader.Begins (gap ++ lead ++ ahead) (e.reading ahead.length) (u.closing x) := by
    rw [← hahead, List.append_assoc]
    exact h.begins hgap hgap' skip_closing stops_closing
  have hread : Reader.program (u.source f x number).toList = some ((e.reading ahead.length).map (u.program f x)) := by
    rw [htext, ← front_append]
    exact program_front hbegins
  have hplace (t : String) : BadLiteral.located (u.source f x number).toList ⟨t, ahead.length⟩ =
      .invalidLiteral t (lineColumn (u.front f x (gap ++ lead))).1 (lineColumn (u.front f x (gap ++ lead))).2 := by
    simp [BadLiteral.located, htext]
  rw [Program.parse_of_some hread, Signed.reading]
  split
  · rfl
  · exact congrArg Except.error (hplace _)

end Use

section

variable {e : Signed} {gap gap' lead tail : List Char} {source : String}

/-- Integer constants are exact or rejected, however the number is spelled and whatever it is used for. A program that
uses a number compiles exactly if all parts of the number fit 64 bits. Then the number is read as an expression with
that constant as its value, in all scopes, and is compiled as the constant is. If a part does not fit, the program is
rejected: for its digits, which are named with their place, or for a negation if the digits are not too large. -/
theorem compileSource_exact (u : Use) (f x : Ident) (o : CompileOptions) (hgap : Layout gap) (hgap' : Layout gap')
    (h : e.Spelling lead tail) (hsource : source = u.source f x (gap ++ (lead ++ (e.core.digits ++ (tail ++ gap'))))) :
    ((∃ r, compileSource source o = .ok r) ↔ e.Fits) ∧
    (e.Fits → ∃ (a : Expr) (v : Int64), v.toInt = e.exact ∧ Program.parse source = .ok (u.program f x a) ∧
      (∀ scopes, a.value scopes = .ok (.constant (.int v))) ∧
      (u.program f x a).compile o = (u.program f x (.literal (.int v))).compile o) ∧
    (¬ e.Fits → compileSource source o = .error (
      if e.term.fits then .compile (.unsupported .negation)
      else .parse (.invalidLiteral (String.ofList e.core.digits)
        (lineColumn (u.front f x (gap ++ lead))).1 (lineColumn (u.front f x (gap ++ lead))).2))) := by
  have hparse := Use.parse_source (u := u) (f := f) (x := x) hgap hgap' h rfl
  rw [← hsource] at hparse
  cases hterm : e.term.fits with
  | false =>
    have hfits := Signed.not_fits_of_literal hterm
    rw [hterm] at hparse
    refine ⟨iff_of_false (fun ⟨r, hr⟩ => ?_) hfits, fun hfits' => absurd hfits' hfits, fun _ => ?_⟩
    · rw [compileSource, hparse] at hr
      cases hr
    · rw [compileSource, hparse]
      rfl
  | true =>
    rw [hterm] at hparse
    have hcompile : compileSource source o = ((u.program f x e.term.ast).compile o).mapError .compile := by
      rw [compileSource, hparse]
      rfl
    rcases Signed.constant?_ast hterm with ⟨hfits, v, hv, hconstant⟩ | ⟨hfits, hnone, b, hneg⟩
    · obtain ⟨r, hr⟩ := Use.compile_literal u f x o v
      have hliteral := Use.compile_of_constant (u := u) (f := f) (x := x) (o := o) hconstant
      refine ⟨iff_of_true ⟨r, ?_⟩ hfits, fun _ => ?_, fun hfits' => absurd hfits hfits'⟩
      · rw [hcompile, hliteral, hr]
        rfl
      · exact ⟨_, v, hv, hparse, Use.value_of_constant hconstant, hliteral⟩
    · have herror : compileSource source o = .error (.compile (.unsupported .negation)) := by
        rw [hcompile, Use.compile_of_negation hnone hneg]
        rfl
      refine ⟨iff_of_false (fun ⟨r, hr⟩ => ?_) hfits, fun hfits' => absurd hfits' hfits, fun _ => herror⟩
      cases herror.symm.trans hr

theorem compileSource_exact_borderline :
    (∃ r, compileSource "func f()\x7briscvexit(-9223372036854775808)\x7d" {} = .ok r) ∧
    compileSource "func f()\x7briscvexit(-(-9223372036854775808))\x7d" {} = .error (.compile (.unsupported .negation)) ∧
    compileSource "func f()\x7bx:=-(\n9223372036854775808)\x7d" {} =
      .error (.parse (.invalidLiteral "9223372036854775808" 2 1)) := by
  let f : Ident := ⟨'f', [], by decide, by decide, by decide⟩
  let x : Ident := ⟨'x', [], by decide, by decide, by decide⟩
  let n : Numeral := ⟨"9223372036854775808".toList, by decide, by decide⟩
  have hleast : Signed.Spelling (.neg (.numeral n)) ['-'] [] := .neg .nil (.numeral n)
  have hnegated : Signed.Spelling (.neg (.paren (.neg (.numeral n)))) ['-', '(', '-'] [')'] :=
    .neg .nil (.paren .nil .nil hleast)
  have hbare : Signed.Spelling (.neg (.paren (.numeral n))) ['-', '(', '\n'] [')'] :=
    .neg .nil (.paren (.space (by decide) .nil) .nil (.numeral n))
  refine ⟨?_, ?_, ?_⟩
  · exact (compileSource_exact .exit f x {} .nil .nil hleast (by decide)).1.mpr (by decide)
  · exact (compileSource_exact .exit f x {} .nil .nil hnegated (by decide)).2.2 (by decide)
  · exact (compileSource_exact .define f x {} .nil .nil hbare (by decide)).2.2 (by decide)

end

end Comparand
