import Comparand.Proofs.Sighting

/-!
What the readers take from a text: the tokens of a concrete tree with layout before them, and nothing else. What they
read is what the tree stands for, or the first bad literal in it.
-/
namespace Comparand

open Lexeme

namespace Reader

variable {cs rest : List Char} {α : Type} {p : Reader α} {a : α} {s : String} {inner : Reader (Checked Expr)}
  {v : Checked Expr} {d : Nat}

theorem after_eq_some :
    after s p cs = some (a, rest) ↔ ∃ mid, cs = s.toList ++ mid ∧ p (skip mid) = some (a, rest) := by
  simp only [after, Option.bind_eq_bind, Option.bind_eq_some_iff, fixed_eq_some]

theorem before_eq_some :
    before p s cs = some (a, rest) ↔ ∃ mid, p cs = some (a, mid) ∧ skip mid = s.toList ++ rest := by
  simp only [before, Option.bind_eq_bind, Option.bind_eq_some_iff, fixed_eq_some]
  constructor
  · rintro ⟨⟨a', mid⟩, hp, rest', hfixed, heq⟩
    cases heq
    exact ⟨mid, hp, hfixed⟩
  · rintro ⟨mid, hp, hfixed⟩
    exact ⟨(a, mid), hp, rest, hfixed, rfl⟩

/-- What a reader of operands takes. An integer is taken only if no longer number is there. -/
structure Operand (t : Concrete.Term) (v : Checked Expr) (cs rest : List Char) : Prop where
  taken : Taken t.tokens t.fits t.ast v cs rest
  int : ∀ n, t = .int n → Lexeme.float cs = none ∧ Lexeme.int cs = some (n.digits, rest)

theorem operand_newCell (h : newCell cs = some (v, rest)) : ∃ t, Operand t v cs rest := by
  obtain ⟨⟨ty, rest'⟩, hnew, heq⟩ := Option.bind_eq_some_iff.mp h
  cases heq
  obtain ⟨cs₁, rfl, hopen⟩ := after_eq_some.mp hnew
  obtain ⟨cs₂, hcs₁, hinner⟩ := after_eq_some.mp hopen
  obtain ⟨cs₃, hty, hcs₃⟩ := before_eq_some.mp hinner
  have hscalar : Taken [.scalar ty] true (Expr.new ty) (.ok (.new ty)) (skip cs₂) cs₃ := by
    rw [eq_append_of_scalar hty]
    exact .leaf (Token.isPlain_scalar ty) _ _
  have hparen : Taken [.mark "(", .scalar ty, .mark ")"] true (Expr.new ty) (.ok (.new ty)) (skip cs₁) rest := by
    rw [hcs₁]
    exact .cons (by decide) (hscalar.snoc (by decide) hcs₃) (by simp)
  exact ⟨.new ty, .cons (by decide) hparen (by simp), nofun⟩

theorem operand_deref (h : deref cs = some (v, rest)) : ∃ t, Operand t v cs rest := by
  obtain ⟨⟨x, rest'⟩, hderef, heq⟩ := Option.bind_eq_some_iff.mp h
  cases heq
  obtain ⟨cs₁, rfl, hx⟩ := after_eq_some.mp hderef
  obtain ⟨i, rfl, hcs₁⟩ := exists_ident hx
  refine ⟨.deref i, .cons (by decide) ?_ (by simp), nofun⟩
  rw [hcs₁]
  exact .leaf (Token.isPlain_ident i) _ _

theorem floatLiteral_eq_none : floatLiteral cs = none ↔ Lexeme.float cs = none := by
  constructor
  · intro h
    rcases hfloat : Lexeme.float cs with _ | ⟨text, rest⟩
    · rfl
    · obtain ⟨t, rfl, -⟩ := exists_floatText hfloat
      simp [floatLiteral, hfloat, FloatText.read?_text] at h
  · intro h
    simp [floatLiteral, h]

theorem operand_floatLiteral (h : floatLiteral cs = some (v, rest)) : ∃ t, Operand t v cs rest := by
  obtain ⟨⟨text, rest'⟩, hfloat, hread⟩ := Option.bind_eq_some_iff.mp h
  obtain ⟨t, rfl, rfl⟩ := exists_floatText hfloat
  simp only [FloatText.read?_text, Option.bind_eq_bind, Option.bind_some] at hread
  cases hread
  exact ⟨.float t, .leaf (Token.isPlain_float t) _ _, nofun⟩

theorem isMinus_numeral (n : Numeral) : (Token.numeral n).isMinus = false := by
  obtain ⟨d, ds, hdigits, hd⟩ := n.exists_cons
  rw [Token.isMinus, Token.text_numeral, hdigits, beq_eq_false_iff_ne]
  intro h
  cases h
  cases hd

/-- An integer by itself, and the bad literal that it is if it is too large. -/
theorem taken_numeral (n : Numeral) (rest : List Char) :
    Taken [.numeral n] (decide (n.value < Nat.pow 2 63)) (Expr.literal (.int (.ofNat n.value)))
      (if n.value < Nat.pow 2 63 then .ok (.literal (.int (.ofNat n.value)))
        else .error ⟨String.ofList n.digits, (n.digits ++ rest).length⟩) (n.digits ++ rest) rest := by
  have hbad : Sighting.bad? false ⟨.numeral n, (n.digits ++ rest).length⟩ =
      if n.value < Nat.pow 2 63 then none else some ⟨String.ofList n.digits, (n.digits ++ rest).length⟩ := by
    simp only [Sighting.bad?, Token.text_numeral, n.allDigits, Bool.true_and, Bool.false_and, Bool.not_false,
      Bool.and_true, decide_eq_true_eq, ← Nat.not_lt, ite_not]
    rfl
  have hfirst : firstBad false [⟨.numeral n, (n.digits ++ rest).length⟩] = _ := (Option.or_none ..).trans hbad
  refine ⟨[⟨.numeral n, (n.digits ++ rest).length⟩], .cons .nil .nil, rfl, isMinus_numeral n, ?_, ?_⟩
  · rw [hfirst]
    split <;> simp_all
  · rw [hfirst]
    split <;> rfl

theorem operand_intLiteral (hfloat : Lexeme.float cs = none) (h : intLiteral cs = some (v, rest)) :
    ∃ t, Operand t v cs rest := by
  obtain ⟨⟨digits, rest'⟩, hint, hread⟩ := Option.bind_eq_some_iff.mp h
  obtain ⟨n, rfl, rfl⟩ := exists_numeral_of_int hint
  have htaken := taken_numeral n rest'
  dsimp only at hread
  rw [← Numeral.value] at hread
  split at hread
  next hn =>
    cases hread
    rw [if_pos hn] at htaken
    exact ⟨.int n, htaken, fun _ heq => by cases heq; exact ⟨hfloat, hint⟩⟩
  next hn =>
    cases hread
    rw [if_neg hn] at htaken
    exact ⟨.int n, htaken, fun _ heq => by cases heq; exact ⟨hfloat, hint⟩⟩

theorem operand_namedLiteral {t : Concrete.Term} {x : Binary64} {hs : solid s.toList = true}
    (ht : t.tokens = [.mark s hs] ∧ t.fits = true ∧ t.ast = .literal (.float x) ∧ ∀ n, t ≠ .int n)
    (hplain : (Token.mark s hs).isPlain = true) (h : namedLiteral s x cs = some (v, rest)) : Operand t v cs rest := by
  obtain ⟨htokens, hfits, hast, hint⟩ := ht
  obtain ⟨rest', hwhole, heq⟩ := Option.bind_eq_some_iff.mp h
  cases heq
  obtain rfl := eq_append_of_whole hwhole
  refine ⟨?_, fun n hn => absurd hn (hint n)⟩
  rw [htokens, hfits, hast]
  exact .leaf hplain _ _

theorem operand_named (h : named cs = some (v, rest)) : ∃ t, Operand t v cs rest := by
  obtain ⟨⟨x, rest'⟩, hx, heq⟩ := Option.bind_eq_some_iff.mp h
  cases heq
  obtain ⟨i, rfl, rfl⟩ := exists_ident hx
  exact ⟨.name i, .leaf (Token.isPlain_ident i) _ _, nofun⟩

/-- What a reader of expressions takes. -/
def TakesExpr (inner : Reader (Checked Expr)) : Prop :=
  ∀ ⦃cs v rest⦄, inner cs = some (v, rest) → ∃ e : Concrete.Expr, Taken e.tokens e.fits e.ast v cs rest

theorem operand_parenthesized (hinner : TakesExpr inner) (h : parenthesized inner cs = some (v, rest)) :
    ∃ t, Operand t v cs rest := by
  obtain ⟨⟨v', rest'⟩, hparen, heq⟩ := Option.bind_eq_some_iff.mp h
  cases heq
  obtain ⟨cs₁, rfl, hbefore⟩ := after_eq_some.mp hparen
  obtain ⟨cs₂, he, hcs₂⟩ := before_eq_some.mp hbefore
  obtain ⟨e, htaken⟩ := hinner he
  have hclosed := (htaken.map Expr.paren).snoc (by decide : (Token.mark ")").isPlain = true) hcs₂
  exact ⟨.paren e, .cons (by decide) hclosed (by simp), nofun⟩

theorem operand_primary (hinner : TakesExpr inner) (h : primary inner cs = some (v, rest)) :
    ∃ t, Operand t v cs rest := by
  simp only [primary, Option.orElse_eq_orElse, Option.orElse_eq_or, Option.or_eq_some_iff] at h
  rcases h with h | ⟨-, h | ⟨-, h | ⟨hfloat, h | ⟨-, h | ⟨-, h | ⟨-, h | ⟨-, h⟩⟩⟩⟩⟩⟩⟩
  · exact operand_newCell h
  · exact operand_deref h
  · exact operand_floatLiteral h
  · exact operand_intLiteral (floatLiteral_eq_none.mp hfloat) h
  · exact ⟨.nan, operand_namedLiteral ⟨rfl, rfl, rfl, nofun⟩ (by decide) h⟩
  · exact ⟨.inf, operand_namedLiteral ⟨rfl, rfl, rfl, nofun⟩ (by decide) h⟩
  · exact operand_named h
  · exact operand_parenthesized hinner h

/-! Signs -/

theorem operand_not {t : Concrete.Term} (h : Operand t v (skip cs) rest) :
    Operand (.not t) (v.map .not) ('!' :: cs) rest :=
  ⟨.cons (by decide : (Token.mark "!").isPlain = true) (h.taken.map Expr.not) t.tokens_ne_nil, nofun⟩

/-- A minus matters only before the integer that is least with it. -/
theorem firstBad_signed {ss : List Sighting}
    (h : ∀ s ∈ ss.head?, s.token.text.all Char.isDigit = true → Decimal.ofDigits s.token.text ≠ Nat.pow 2 63) :
    firstBad true ss = firstBad false ss := by
  cases ss with
  | nil => rfl
  | cons s ss =>
    have hbad : s.bad? true = s.bad? false := by
      rw [Sighting.bad?, Sighting.bad?]
      cases hdigits : s.token.text.all Char.isDigit with
      | false => rfl
      | true => simp [h s rfl hdigits]
    rw [firstBad, firstBad, hbad]

/-- Only an integer begins with digits alone. -/
theorem head_of_not_isLeast {t : Concrete.Term} (ht : t.isLeast = false) :
    ∀ u ∈ t.tokens.head?, u.text.all Char.isDigit = true → Decimal.ofDigits u.text ≠ Nat.pow 2 63 := by
  intro u hu hdigits
  have hplain : u.isPlain = false := by simp [Token.isPlain, hdigits]
  rw [Concrete.Term.tokens.eq_def] at hu
  cases t with
  | int n =>
    cases hu
    simpa [Concrete.Term.isLeast, Numeral.value, Token.text_numeral] using ht
  | float t =>
    cases hu
    cases hplain.symm.trans (Token.isPlain_float t)
  | name x =>
    cases hu
    cases hplain.symm.trans (Token.isPlain_ident x)
  | new | deref | nan | inf | paren | not | neg =>
    cases hu
    exact absurd hdigits (by decide)

theorem not_isLeast_of_leastInt {t : Concrete.Term} (h : Operand t v cs rest) (hleast : leastInt cs = none) :
    t.isLeast = false := by
  cases t with
  | int n =>
    obtain ⟨hfloat, hint⟩ := h.int n rfl
    simpa [leastInt, hfloat, hint, Concrete.Term.isLeast, Numeral.value] using hleast
  | _ => rfl

theorem signedAfter_of_ne_nil {ts : List Token} (hts : ts ≠ []) (b b' : Bool) :
    signedAfter b ts = signedAfter b' ts := by
  cases ts with
  | nil => exact absurd rfl hts
  | cons t ts => rfl

theorem firstBad_minus (n : Nat) (ss : List Sighting) : firstBad false (⟨.mark "-", n⟩ :: ss) = firstBad true ss := rfl

theorem operand_neg {t : Concrete.Term} (h : Operand t v (skip cs) rest) (hleast : leastInt (skip cs) = none) :
    Operand (.neg t) (v.map .neg) ('-' :: cs) rest := by
  have ht := not_isLeast_of_leastInt h hleast
  obtain ⟨ss, hwritten, hts, hsigned, hfits, hv⟩ := h.taken.map Expr.neg
  have hne : ss ≠ [] := by
    rintro rfl
    exact t.tokens_ne_nil hts.symm
  have hsame : firstBad true ss = firstBad false ss := by
    refine firstBad_signed fun s hs => head_of_not_isLeast ht s.token ?_
    rw [← hts, List.head?_map]
    exact Option.mem_map_of_mem _ hs
  refine ⟨⟨⟨.mark "-", ('-' :: cs).length⟩ :: ss, .cons .nil (hwritten.skip hne), congrArg _ hts, ?_, ?_, ?_⟩, nofun⟩
  · exact (signedAfter_of_ne_nil t.tokens_ne_nil true false).trans hsigned
  · rw [firstBad_minus, hsame, hfits, Concrete.Term.fits, ht, Bool.false_or]
  · rw [firstBad_minus, hsame, Concrete.Term.ast, ht]
    exact hv

theorem leastInt_eq_some (h : leastInt cs = some (v, rest)) : v = .ok (.literal (.int Int64.minValue)) ∧
    ∃ n : Numeral, n.value = Nat.pow 2 63 ∧ cs = n.digits ++ rest ∧ Lexeme.float cs = none ∧
      Lexeme.int cs = some (n.digits, rest) := by
  unfold leastInt at h
  split at h
  next => cases h
  next hfloat =>
    obtain ⟨⟨digits, rest'⟩, hint, hread⟩ := Option.bind_eq_some_iff.mp h
    obtain ⟨n, rfl, hcs⟩ := exists_numeral_of_int hint
    dsimp only at hread
    split at hread
    next hn =>
      cases hread
      exact ⟨rfl, n, hn, hcs, hfloat, hint⟩
    next => cases hread

theorem operand_least (h : leastInt (skip cs) = some (v, rest)) : ∃ t, Operand t v ('-' :: cs) rest := by
  obtain ⟨rfl, n, hn, hcs, -⟩ := leastInt_eq_some h
  have hwritten : Written [⟨.numeral n, (n.digits ++ rest).length⟩] cs rest := by
    refine Written.skip ?_ (by simp)
    rw [hcs]
    exact .cons .nil .nil
  have hbad : Sighting.bad? true ⟨.numeral n, (n.digits ++ rest).length⟩ = none := by
    have hvalue : Decimal.ofDigits n.digits = Nat.pow 2 63 := hn
    simp [Sighting.bad?, Token.text_numeral, hvalue]
  have hleast : (Concrete.Term.int n).isLeast = true := by simpa [Concrete.Term.isLeast] using hn
  refine ⟨.neg (.int n),
    ⟨⟨.mark "-", ('-' :: cs).length⟩ :: _, .cons .nil hwritten, rfl, isMinus_numeral n, ?_, ?_⟩, by simp⟩
  · rw [firstBad_minus, firstBad, hbad, Concrete.Term.fits, hleast]
    rfl
  · rw [firstBad_minus, firstBad, hbad, Concrete.Term.ast, hleast]
    rfl

/-- What a reader of operands takes. -/
def TakesTerm (operand : Reader (Checked Expr)) : Prop :=
  ∀ ⦃cs v rest⦄, operand cs = some (v, rest) → ∃ t, Operand t v cs rest

theorem takesExpr_comparison {operand : Reader (Checked Expr)} (h : TakesTerm operand) :
    TakesExpr (comparison operand) := by
  intro cs v rest hread
  obtain ⟨⟨lhs, cs₁⟩, hlhs, hread⟩ := Option.bind_eq_some_iff.mp hread
  obtain ⟨l, hl⟩ := h hlhs
  rcases hop : relation (skip cs₁) with _ | ⟨op, cs₂⟩
  · simp only [hop, Option.bind_eq_bind, Option.bind_none, Option.getD_none] at hread
    cases hread
    exact ⟨.term l, hl.taken⟩
  · rcases hrhs : operand (skip cs₂) with _ | ⟨rhs, cs₃⟩
    · simp only [hop, hrhs, Option.bind_eq_bind, Option.bind_some, Option.bind_none, Option.getD_none] at hread
      cases hread
      exact ⟨.term l, hl.taken⟩
    · simp only [hop, hrhs, Option.bind_eq_bind, Option.bind_some] at hread
      cases hread
      obtain ⟨r, hr⟩ := h hrhs
      have hright : Taken (.relation op :: r.tokens) r.fits r.ast rhs (skip cs₁) rest := by
        rw [eq_append_of_relation hop]
        exact .cons (Token.isPlain_relation op) hr.taken r.tokens_ne_nil
      exact ⟨.compare op l r, hl.taken.append (Expr.compare op) (hright.skip (by simp))⟩

theorem takesTerm_unary (d : Nat) : TakesTerm (unary d) := by
  induction d with
  | zero => exact fun _ _ _ h => by cases h
  | succ d ih =>
    intro cs v rest h
    unfold unary at h
    split at h
    next cs =>
      obtain ⟨⟨e, rest'⟩, he, heq⟩ := Option.bind_eq_some_iff.mp h
      cases heq
      obtain ⟨t, ht⟩ := ih he
      exact ⟨.not t, operand_not ht⟩
    next cs =>
      simp only [Option.orElse_eq_orElse, Option.orElse_eq_or, Option.or_eq_some_iff] at h
      rcases h with hleast | ⟨hleast, h⟩
      · exact operand_least hleast
      · obtain ⟨⟨e, rest'⟩, he, heq⟩ := Option.bind_eq_some_iff.mp h
        cases heq
        obtain ⟨t, ht⟩ := ih he
        exact ⟨.neg t, operand_neg ht hleast⟩
    next => exact operand_primary (takesExpr_comparison ih) h

theorem takesExpr_expr : TakesExpr expr := fun _ _ _ h => takesExpr_comparison (takesTerm_unary _) h

/-! Statements -/

variable {w : Checked Stmt} {mark : String} {x : Ident}

/-- A name, a mark and an expression. -/
theorem taken_binding {make : String → Expr → Stmt} (hs : solid mark.toList = true)
    (hplain : (Token.mark mark hs).isPlain = true) (h : binding mark make cs = some (w, rest)) :
    ∃ (x : Ident) (e : Concrete.Expr),
      Taken (.ident x :: .mark mark hs :: e.tokens) e.fits (make x.name e.ast) w cs rest := by
  obtain ⟨⟨x, cs₁⟩, hx, h⟩ := Option.bind_eq_some_iff.mp h
  obtain ⟨⟨v, rest'⟩, hafter, heq⟩ := Option.bind_eq_some_iff.mp h
  cases heq
  obtain ⟨i, rfl, rfl⟩ := exists_ident hx
  obtain ⟨cs₂, hcs₁, he⟩ := after_eq_some.mp hafter
  obtain ⟨e, htaken⟩ := takesExpr_expr he
  refine ⟨i, e, .cons (Token.isPlain_ident i) ?_ (by simp)⟩
  rw [hcs₁]
  exact .cons hplain (htaken.map (make i.name)) e.tokens_ne_nil

theorem taken_counting {make : String → Stmt} (hs : solid mark.toList = true)
    (hplain : (Token.mark mark hs).isPlain = true) (h : counting mark make cs = some (w, rest)) :
    ∃ x : Ident, Taken [.ident x, .mark mark hs] true (make x.name) w cs rest := by
  obtain ⟨⟨x, rest'⟩, hbefore, heq⟩ := Option.bind_eq_some_iff.mp h
  cases heq
  obtain ⟨cs₁, hx, hcs₁⟩ := before_eq_some.mp hbefore
  obtain ⟨i, rfl, rfl⟩ := exists_ident hx
  exact ⟨i, (Taken.leaf (Token.isPlain_ident i) (make i.name) cs₁).snoc hplain hcs₁⟩

/-- What a reader of statements takes. -/
def TakesStmt (stmt : Reader (Checked Stmt)) : Prop :=
  ∀ ⦃cs w rest⦄, stmt cs = some (w, rest) → ∃ s : Concrete.Stmt, Taken s.tokens s.fits s.ast w cs rest

theorem takesStmt_declaration : TakesStmt declaration := by
  intro cs w rest h
  obtain ⟨⟨x, cs₂⟩, hafter, h⟩ := Option.bind_eq_some_iff.mp h
  obtain ⟨⟨ty, cs₃⟩, hty, h⟩ := Option.bind_eq_some_iff.mp h
  obtain ⟨cs₁, rfl, hx⟩ := after_eq_some.mp hafter
  obtain ⟨i, rfl, hcs₁⟩ := exists_ident hx
  have hname : ∀ {α : Type} {ts : List Token} {fits : Bool} {a : α} {v : Checked α},
      Taken (.scalar ty :: ts) fits a v (skip cs₂) rest →
      Taken (.mark "var" :: .ident i :: .scalar ty :: ts) fits a v ("var".toList ++ cs₁) rest := by
    intro α ts fits a v hts
    refine .cons (by decide) ?_ (by simp)
    rw [hcs₁]
    exact .cons (Token.isPlain_ident i) hts (by simp)
  have hcs₂ := eq_append_of_scalar hty
  rcases hinit : after "=" expr (skip cs₃) with _ | ⟨v, rest'⟩
  · simp only [hinit] at h
    cases h
    refine ⟨.var i ty none, hname ?_⟩
    rw [hcs₂]
    exact .leaf (Token.isPlain_scalar ty) _ _
  · simp only [hinit] at h
    cases h
    obtain ⟨cs₄, hcs₃, he⟩ := after_eq_some.mp hinit
    obtain ⟨e, htaken⟩ := takesExpr_expr he
    have hinit : Taken (.mark "=" :: e.tokens) e.fits (Stmt.var i.name ty (some e.ast))
        (v.map fun e => .var i.name ty (some e)) (skip cs₃) rest := by
      rw [hcs₃]
      exact .cons (by decide) (htaken.map fun e => Stmt.var i.name ty (some e)) e.tokens_ne_nil
    refine ⟨.var i ty (some e), hname ?_⟩
    rw [hcs₂]
    exact .cons (Token.isPlain_scalar ty) hinit (by simp [Concrete.initTokens])

theorem takesStmt_simple : TakesStmt simple := by
  intro cs w rest h
  simp only [simple, Option.orElse_eq_orElse, Option.orElse_eq_or, Option.or_eq_some_iff] at h
  rcases h with h | ⟨-, h | ⟨-, h | ⟨-, h | ⟨-, h | ⟨-, h⟩⟩⟩⟩⟩
  · obtain ⟨x, e, htaken⟩ := taken_binding (by decide) (by decide) h
    exact ⟨.define x e, htaken⟩
  · obtain ⟨x, htaken⟩ := taken_counting (by decide) (by decide) h
    exact ⟨.inc x, htaken⟩
  · obtain ⟨x, htaken⟩ := taken_counting (by decide) (by decide) h
    exact ⟨.dec x, htaken⟩
  · obtain ⟨x, e, htaken⟩ := taken_binding (by decide) (by decide) h
    exact ⟨.assign x e, htaken⟩
  · obtain ⟨cs₁, rfl, hbinding⟩ := after_eq_some.mp h
    obtain ⟨x, e, htaken⟩ := taken_binding (by decide) (by decide) hbinding
    exact ⟨.store x e, .cons (by decide) htaken (by simp)⟩
  · exact takesStmt_declaration h

theorem takesStmt_exiting : TakesStmt exiting := by
  intro cs w rest h
  obtain ⟨⟨v, rest'⟩, hexit, heq⟩ := Option.bind_eq_some_iff.mp h
  cases heq
  obtain ⟨cs₁, rfl, hopen⟩ := after_eq_some.mp hexit
  obtain ⟨cs₂, hcs₁, hinner⟩ := after_eq_some.mp hopen
  obtain ⟨cs₃, he, hcs₃⟩ := before_eq_some.mp hinner
  obtain ⟨e, htaken⟩ := takesExpr_expr he
  have hclosed := (htaken.map Stmt.exit).snoc (by decide : (Token.mark ")").isPlain = true) hcs₃
  refine ⟨.exit e, .cons (by decide) ?_ (by simp)⟩
  rw [hcs₁]
  exact .cons (by decide) hclosed (by simp)

/-! Blocks -/

variable {stmt : Reader (Checked Stmt)} {depth : Nat}

theorem taken_semicolon {β : Type} {ts : List Token} {fits : Bool} {b : β} {v : Checked β}
    (h : Taken ts fits b v mid rest) (hfixed : fixed ";" (skip cs) = some mid) :
    Taken (.mark ";" :: ts) fits b v cs rest := by
  refine .skip ?_ (by simp)
  rw [fixed_eq_some.mp hfixed]
  exact .prepend (by decide) h

theorem taken_statements (hstmt : TakesStmt stmt) (n : Nat) (cs : List Char) :
    ∃ b : Concrete.Block, Taken b.tokens b.fits b.ast (statements stmt n cs).1 cs (statements stmt n cs).2 := by
  induction n generalizing cs with
  | zero => exact ⟨.nil, .nothing _ _⟩
  | succ n ih =>
    rcases hread : stmt (skip cs) with _ | ⟨w, mid⟩
    · rw [statements, hread]
      exact ⟨.nil, .nothing _ _⟩
    · obtain ⟨s, hs⟩ := hstmt hread
      obtain ⟨b, hb⟩ := ih ((fixed ";" (skip mid)).getD mid)
      rw [statements, hread]
      dsimp only
      rcases hfixed : fixed ";" (skip mid) with _ | mid'
      · rw [hfixed] at hb
        exact ⟨.cons s false b, (hs.skip s.tokens_ne_nil).append List.cons hb⟩
      · rw [hfixed] at hb
        exact ⟨.cons s true b, (hs.skip s.tokens_ne_nil).append List.cons (taken_semicolon hb hfixed)⟩

/-- What a reader of blocks takes. -/
def TakesBlock (p : Reader (Checked (List Stmt))) : Prop :=
  ∀ ⦃cs w rest⦄, p cs = some (w, rest) →
    ∃ b : Concrete.Block, Taken (Concrete.braced b.tokens) b.fits b.ast w cs rest

theorem takesBlock_block (hstmt : TakesStmt stmt) : TakesBlock (block stmt) := by
  intro cs w rest h
  obtain ⟨cs₁, hopen, h⟩ := Option.bind_eq_some_iff.mp h
  obtain ⟨b, hb⟩ := taken_statements hstmt cs₁.length cs₁
  obtain ⟨rest', hclose, heq⟩ := Option.bind_eq_some_iff.mp h
  cases heq
  rw [fixed_eq_some.mp hopen]
  exact ⟨b, .prepend (by decide) (hb.snoc (by decide) (fixed_eq_some.mp hclose))⟩

/-- What a reader of an `if` takes. -/
def TakesBranch (p : Reader (Checked Stmt)) : Prop :=
  ∀ ⦃cs w rest⦄, p cs = some (w, rest) → ∃ b : Concrete.Branch, Taken b.tokens b.fits b.ast w cs rest

theorem taken_alternative (hbranch : TakesBranch (conditional depth)) (hstmt : TakesStmt (statement depth))
    {w : Checked (List Stmt)} (h : after "else" (alternative depth) cs = some (w, rest)) :
    ∃ (a : Concrete.Alternative) (body : List Stmt), a.ast = some body ∧ a.tokens ≠ [] ∧
      Taken a.tokens a.fits body w cs rest := by
  obtain ⟨cs₁, rfl, halternative⟩ := after_eq_some.mp h
  simp only [alternative, Option.orElse_eq_orElse, Option.orElse_eq_or, Option.or_eq_some_iff] at halternative
  rcases halternative with hchain | ⟨-, hblock⟩
  · obtain ⟨⟨s, rest'⟩, hs, heq⟩ := Option.bind_eq_some_iff.mp hchain
    cases heq
    obtain ⟨b, hb⟩ := hbranch hs
    have hne : b.tokens ≠ [] := by
      cases b
      simp [Concrete.Branch.tokens]
    exact ⟨.chain b, _, rfl, by simp [Concrete.Alternative.tokens], .cons (by decide) (hb.map fun s => [s]) hne⟩
  · obtain ⟨b, hb⟩ := takesBlock_block hstmt hblock
    exact ⟨.block b, _, rfl, by simp [Concrete.Alternative.tokens], .cons (by decide) hb (by simp [Concrete.braced])⟩

theorem takesBranch_conditional (hbranch : TakesBranch (conditional depth)) (hstmt : TakesStmt (statement depth)) :
    TakesBranch (conditional (depth + 1)) := by
  intro cs w rest h
  rw [conditional_succ] at h
  obtain ⟨⟨test, cs₂⟩, hafter, hread⟩ := Option.bind_eq_some_iff.mp h
  obtain ⟨⟨body, cs₃⟩, hbody, hread⟩ := Option.bind_eq_some_iff.mp hread
  obtain ⟨cs₁, rfl, htest⟩ := after_eq_some.mp hafter
  obtain ⟨e, he⟩ := takesExpr_expr htest
  obtain ⟨b, hb⟩ := takesBlock_block hstmt hbody
  have hb' := hb.skip (by simp [Concrete.braced])
  rcases helse : after "else" (alternative depth) (skip cs₃) with _ | ⟨otherwise, rest'⟩
  · simp only [helse] at hread
    cases hread
    have htaken := he.append (fun t b => Stmt.cond t b none) hb'
    refine ⟨.mk e b .none, ?_⟩
    rw [Concrete.Branch.tokens, Concrete.Alternative.tokens, List.append_nil, Concrete.Branch.fits,
      Concrete.Alternative.fits, Bool.and_true]
    exact .cons (by decide) htaken (by simp [Concrete.braced])
  · simp only [helse] at hread
    cases hread
    obtain ⟨a, branch, hast, hne, ha⟩ := taken_alternative hbranch hstmt helse
    have hpair := hb'.append Prod.mk (ha.skip hne)
    have htaken := he.append (fun t (b : List Stmt × List Stmt) => Stmt.cond t b.1 (some b.2)) hpair
    have hverdict : (test.bind fun t => (body.bind fun b => otherwise.map (Prod.mk b)).map
        fun b => Stmt.cond t b.1 (some b.2)) =
        test.bind fun t => body.bind fun b => otherwise.map fun o => Stmt.cond t b (some o) := by
      cases test <;> cases body <;> cases otherwise <;> rfl
    refine ⟨.mk e b a, ?_⟩
    rw [Concrete.Branch.tokens, Concrete.Branch.fits, Concrete.Branch.ast, hast, Bool.and_assoc]
    rw [hverdict] at htaken
    exact .cons (by decide) htaken (by simp [Concrete.braced])

theorem takes_nested (depth : Nat) : TakesStmt (statement depth) ∧ TakesBranch (conditional depth) := by
  induction depth with
  | zero => exact ⟨(fun _ _ _ h => nomatch h), (fun _ _ _ h => nomatch h)⟩
  | succ depth ih =>
    obtain ⟨hstmt, hbranch⟩ := ih
    refine ⟨fun cs w rest h => ?_, takesBranch_conditional hbranch hstmt⟩
    simp only [statement, Option.orElse_eq_orElse, Option.orElse_eq_or, Option.or_eq_some_iff] at h
    rcases h with h | ⟨-, h | ⟨-, h⟩⟩
    · exact takesStmt_simple h
    · obtain ⟨b, hb⟩ := hbranch h
      exact ⟨.cond b, hb⟩
    · exact takesStmt_exiting h

/-- The package stands before whatever begins with `func`. -/
theorem taken_package {α : Type} {ts : List Token} {fits : Bool} {a : α} {v : Checked α} (cs : List Char)
    (h : Taken (.mark "func" :: ts) fits a v (skip (packageName (skip cs)).2) rest) :
    ∃ x : Option Ident, (packageName (skip cs)).1 = x.map Ident.name ∧
      Taken (Concrete.packageTokens x ++ .mark "func" :: ts) fits a v cs rest := by
  unfold packageName at h ⊢
  rcases hpackage : after "package" ident (skip cs) with _ | ⟨x, cs₁⟩ <;> simp only [hpackage] at h ⊢
  · exact ⟨none, rfl, (h.skip (by simp)).skip (by simp)⟩
  · obtain ⟨cs₂, hcs, hx⟩ := after_eq_some.mp hpackage
    obtain ⟨i, rfl, hcs₂⟩ := exists_ident hx
    refine ⟨some i, rfl, .skip ?_ (by simp [Concrete.packageTokens])⟩
    rw [hcs]
    refine .cons (by decide) ?_ (by simp)
    rw [hcs₂]
    exact .cons (Token.isPlain_ident i) h (by simp)

theorem taken_function {f : String} {w : Checked (List Stmt)} (h : function cs = some ((f, w), rest)) :
    ∃ (x : Ident) (b : Concrete.Block), f = x.name ∧
      Taken (.mark "func" :: .ident x :: .mark "(" :: .mark ")" :: Concrete.braced b.tokens) b.fits b.ast w cs
        rest := by
  simp only [function, Option.bind_eq_bind, Option.bind_eq_some_iff] at h
  obtain ⟨⟨name, cs₂⟩, hfunc, cs₃, hopen, cs₄, hclose, ⟨body, rest'⟩, hbody, heq⟩ := h
  cases heq
  obtain ⟨cs₁, rfl, hname⟩ := after_eq_some.mp hfunc
  obtain ⟨x, rfl, hcs₁⟩ := exists_ident hname
  obtain ⟨b, hb⟩ := takesBlock_block (takes_nested _).1 hbody
  refine ⟨x, b, rfl, .cons (by decide) ?_ (by simp)⟩
  rw [hcs₁]
  refine .cons (Token.isPlain_ident x) ?_ (by simp)
  rw [fixed_eq_some.mp hopen]
  refine .cons (by decide) ?_ (by simp)
  rw [fixed_eq_some.mp hclose]
  exact .cons (by decide) hb (by simp [Concrete.braced])

/-- A program takes the whole text: only layout is behind its last token, and a comment there may be open. -/
theorem taken_program {v : Checked Program} (h : program cs = some v) :
    ∃ (p : Concrete.Program) (rest : List Char), Taken p.tokens p.fits p.ast v cs rest ∧ Trailing rest := by
  simp only [program, Option.bind_eq_bind, Option.bind_eq_some_iff] at h
  obtain ⟨⟨⟨name, body⟩, rest⟩, hfunction, hread⟩ := h
  obtain ⟨f, b, rfl, hb⟩ := taken_function hfunction
  obtain ⟨x, hx, htaken⟩ := taken_package cs (hb.map fun b => (⟨(packageName (skip cs)).1, f.name, b⟩ : Program))
  split at hread
  next hend =>
    cases hread
    rw [hx] at htaken ⊢
    exact ⟨⟨x, f, b⟩, rest, htaken, trailing_of_skip (List.isEmpty_iff.mp hend)⟩
  next => cases hread

end Reader

end Comparand
