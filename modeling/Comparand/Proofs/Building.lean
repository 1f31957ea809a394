import Comparand.Proofs.Following

/-!
Expressions are built of pieces as they are read directly, with the same bad literal if there is one. A rule that comes
back to itself has taken a character before, and 32 levels are more than any way round the grammar goes down.
-/
namespace Comparand

open Lexeme

/-! Building -/

/-- What is built of pieces that mean `v`. -/
def Checked.built {α : Type} (v : Checked α) : Except BuildError α := v.mapError .literal

namespace Piece

variable {cs rest text : List Char} {r : Rule} {inner : List Piece} {β : Type}

/-- There is one piece, and `f` makes `b` of it. -/
def Single (f : Piece → β) (b : β) (ps : List Piece) : Prop := ∃ p, ps = [p] ∧ f p = b

theorem text_append : (mk r (text ++ rest) rest inner).text = text := by simp [Piece.text]

theorem readDigits?_digits (n : Numeral) : Text.readDigits? n.digits = some n.value := by
  simp [Text.readDigits?, n.ne, n.allDigits, Numeral.value]

theorem readInt64?_of_spanSign {n : Numeral} {negative : Bool} {v : Int}
    (hspan : Decimal.spanSign cs = (negative, n.digits)) (hv : v = if negative then -(n.value : Int) else n.value) :
    readInt64? cs = if -9223372036854775808 ≤ v ∧ v ≤ 9223372036854775807 then some (.ofInt v) else none := by
  have hmin : Int64.minValue.toInt = -9223372036854775808 := rfl
  have hmax : Int64.maxValue.toInt = 9223372036854775807 := rfl
  simp only [readInt64?, Text.readInt?, hspan, readDigits?_digits, Option.bind_eq_bind, Option.bind_some, ← hv, hmin,
    hmax, Bool.and_eq_true, decide_eq_true_eq]
  split <;> rfl

theorem readInt64?_digits (n : Numeral) :
    readInt64? n.digits = if n.value < Nat.pow 2 63 then some (.ofNat n.value) else none := by
  have hspan : Decimal.spanSign n.digits = (false, n.digits) := by
    simpa only [List.append_nil] using @Numeral.spanSign_append [] n
  have hpow : Nat.pow 2 63 = 9223372036854775808 := rfl
  rw [readInt64?_of_spanSign (v := n.value) hspan rfl, hpow]
  exact if_congr (by omega) (congrArg some Int64.ofInt_eq_ofNat) rfl

theorem readInt64?_minus (n : Numeral) :
    readInt64? ('-' :: n.digits) = if n.value ≤ Nat.pow 2 63 then some (.ofInt (-n.value)) else none := by
  have hpow : Nat.pow 2 63 = 9223372036854775808 := rfl
  have hspan : Decimal.spanSign ('-' :: n.digits) = (true, n.digits) := rfl
  rw [readInt64?_of_spanSign (v := -n.value) hspan rfl, hpow]
  exact if_congr (by omega) rfl rfl

end Piece

open Piece

namespace Reader

variable {cs rest : List Char} {N d : Nat} {v : Checked Expr} {operand inner : Reader (Checked Expr)}

/-! Leaves -/

theorem agrees_ident (cs : List Char) : Agrees 1 (.rule .ident) (fun ps x => Single Piece.name x ps) cs (ident cs) := by
  refine .leaf rfl rfl fun x rest hread => ⟨_, rfl, ?_⟩
  obtain ⟨i, rfl, rfl⟩ := exists_ident hread
  rw [Piece.name, text_append]
  rfl

theorem agrees_scalar (cs : List Char) :
    Agrees 1 (.rule .typeName) (fun ps ty => Single Piece.scalar (.ok ty) ps) cs (scalar cs) := by
  refine .leaf rfl rfl fun ty rest hread => ⟨_, rfl, ?_⟩
  obtain rfl := eq_append_of_scalar hread
  rw [Piece.scalar, Piece.name, text_append]
  cases ty <;> rfl

theorem agrees_relation (cs : List Char) :
    Agrees 1 (.rule .relOp) (fun ps op => Single Piece.relation (.ok op) ps) cs (relation cs) := by
  refine .leaf rfl rfl fun op rest hread => ⟨_, rfl, ?_⟩
  obtain rfl := eq_append_of_relation hread
  rw [Piece.relation, Piece.name, text_append]
  cases op <;> rfl

/-! What the pieces of expressions are built from -/

section

variable {start : List Char} {p q op : Piece} {inner : List Piece}

theorem buildExpr_alone : (Piece.mk .expr start rest [p]).buildExpr = p.buildExpr := by
  show (p.buildExpr >>= pure) = p.buildExpr
  cases p.buildExpr <;> rfl

theorem buildExpr_compare : (Piece.mk .expr start rest [p, op, q]).buildExpr = (do
    let lhs ← p.buildExpr
    let r ← op.relation
    return .compare r lhs (← q.buildExpr)) := rfl

theorem buildExpr_not : (Piece.mk .notExpr start rest [p]).buildExpr = (do return .not (← p.buildExpr)) := rfl

theorem buildExpr_neg : (Piece.mk .negExpr start rest [p]).buildExpr =
    (p.negativeOnly?.map fun k => Except.ok (.literal (.int k))).getD (do return .neg (← p.buildExpr)) := by
  rw [buildExpr]
  cases p.negativeOnly? <;> rfl

theorem buildExpr_paren : (Piece.mk .paren start rest [p]).buildExpr = (do return .paren (← p.buildExpr)) := rfl

theorem buildExpr_new : (Piece.mk .newExpr start rest [p]).buildExpr = (do return .new (← p.scalar)) := rfl

theorem buildExpr_ident : (Piece.mk .ident start rest inner).buildExpr =
    .ok (.name (Piece.mk .ident start rest inner).name) := rfl

theorem buildExpr_int : (Piece.mk .intLit start rest inner).buildExpr = (Piece.mk .intLit start rest inner).int := rfl

theorem buildExpr_float : (Piece.mk .floatLit start rest inner).buildExpr =
    (Piece.mk .floatLit start rest inner).float := rfl

end

/-! Operands -/

/-- One piece that builds `v`. Behind a minus it stands for an integer of its own if the text begins with the least. -/
def IsOperand (cs : List Char) (ps : List Piece) (v : Checked Expr) : Prop :=
  ∃ p, ps = [p] ∧ p.buildExpr = v.built ∧ p.negativeOnly? = (leastInt cs).map fun _ => Int64.minValue

/-- One piece that builds `v`. -/
def IsExpr (ps : List Piece) (v : Checked Expr) : Prop := Single buildExpr v.built ps

theorem IsOperand.isExpr {ps : List Piece} (h : IsOperand cs ps v) : IsExpr ps v := by
  obtain ⟨p, hps, hp, -⟩ := h
  exact ⟨p, hps, hp⟩

theorem leastInt_of_stops (h : Stops Char.isDigit cs) : leastInt cs = none := by
  simp [leastInt, h.float, h.int]

theorem isOperand_of_rule {r : Rule} {inner : List Piece} (hr : r ≠ .intLit) (hleast : leastInt cs = none)
    (hbuild : (Piece.mk r cs rest inner).buildExpr = v.built) : IsOperand cs [.mk r cs rest inner] v :=
  ⟨_, rfl, hbuild, by simp [negativeOnly?, Piece.rule, hr, hleast]⟩

theorem agrees_newCell (cs : List Char) : Agrees 5 (.rule .newExpr) (IsOperand cs) cs (newCell cs) := by
  have hinner : Agrees 4 Rule.newExpr.phrase (fun ps ty => Single Piece.scalar (.ok ty) ps) cs
      (after "new" (after "(" (before scalar ")")) cs) :=
    .after fun _ _ => .after fun _ _ => .before (agrees_scalar _)
  refine hinner.build (fun ty => Except.ok (Expr.new ty)) ?_
  rintro _ ty _ rest hnew ⟨p, rfl, hp⟩
  obtain ⟨mid, rfl, -⟩ := after_eq_some.mp hnew
  refine isOperand_of_rule nofun rfl ?_
  rw [buildExpr_new, hp]
  rfl

theorem agrees_deref (cs : List Char) : Agrees 3 (.rule .deref) (IsOperand cs) cs (deref cs) := by
  have hinner : Agrees 2 Rule.deref.phrase (fun ps x => Single Piece.name x ps) cs (after "*" ident cs) :=
    .after fun _ _ => agrees_ident _
  refine hinner.build (fun x => Except.ok (Expr.deref x)) ?_
  rintro _ x _ rest hderef ⟨p, rfl, rfl⟩
  obtain ⟨mid, rfl, -⟩ := after_eq_some.mp hderef
  exact isOperand_of_rule nofun rfl rfl

theorem agrees_floatLiteral (cs : List Char) : Agrees 1 (.rule .floatLit) (IsOperand cs) cs (floatLiteral cs) := by
  refine .leaf rfl ?_ fun v rest hread => ?_
  · rcases hfloat : Lexeme.float cs with _ | ⟨text, rest⟩
    · simp [floatLiteral, hfloat]
    · obtain ⟨t, rfl, -⟩ := exists_floatText hfloat
      simp [floatLiteral, hfloat, FloatText.read?_text]
  · obtain ⟨⟨text, rest'⟩, hfloat, hvalue⟩ := Option.bind_eq_some_iff.mp hread
    obtain ⟨t, rfl, rfl⟩ := exists_floatText hfloat
    simp only [FloatText.read?_text, Option.bind_eq_bind, Option.bind_some] at hvalue
    cases hvalue
    refine isOperand_of_rule (by simp) (by simp [leastInt, hfloat]) ?_
    rw [buildExpr_float, Piece.float, text_append, FloatText.read?_text]
    rfl

/-- An integer, which may be too large by itself and still fit behind a minus. -/
theorem isOperand_numeral {n : Numeral} (hfloat : Lexeme.float (n.digits ++ rest) = none)
    (hint : Lexeme.int (n.digits ++ rest) = some (n.digits, rest)) :
    IsOperand (n.digits ++ rest) [.mk .intLit (n.digits ++ rest) rest []]
      (if n.value < Nat.pow 2 63 then .ok (.literal (.int (.ofNat n.value)))
        else .error ⟨String.ofList n.digits, (n.digits ++ rest).length⟩) := by
  have hleast : leastInt (n.digits ++ rest) = if n.value = Nat.pow 2 63 then
      some (.ok (.literal (.int Int64.minValue)), rest) else none := by
    simp only [leastInt, hfloat, hint]
    rfl
  refine ⟨_, rfl, ?_, ?_⟩
  · rw [buildExpr_int, Piece.int, badLiteral, Piece.name, text_append, readInt64?_digits]
    by_cases hn : n.value < Nat.pow 2 63
    · rw [if_pos hn, if_pos hn]
      rfl
    · rw [if_neg hn, if_neg hn]
      rfl
  · rw [negativeOnly?, text_append, readInt64?_digits, readInt64?_minus, hleast]
    rcases Nat.lt_trichotomy n.value (Nat.pow 2 63) with hlt | heq | hgt
    · rw [if_pos hlt, if_neg (Nat.ne_of_lt hlt)]
      rfl
    · rw [heq]
      rfl
    · rw [if_neg (Nat.lt_asymm hgt), if_neg (Nat.not_le_of_gt hgt), if_neg (Nat.ne_of_gt hgt)]
      rfl

theorem agrees_intLiteral (hfloat : Lexeme.float cs = none) :
    Agrees 1 (.rule .intLit) (IsOperand cs) cs (intLiteral cs) := by
  have hread : intLiteral cs = (Lexeme.int cs).map fun read =>
      (if Decimal.ofDigits read.1 < Nat.pow 2 63 then .ok (.literal (.int (.ofNat (Decimal.ofDigits read.1))))
        else .error ⟨String.ofList read.1, cs.length⟩, read.2) := by
    unfold intLiteral
    rcases Lexeme.int cs with _ | ⟨digits, rest⟩
    · rfl
    · simp only [Option.bind_eq_bind, Option.bind_some, Option.map_some]
      split <;> rfl
  rw [hread]
  refine .leaf rfl (by simp [Function.comp_def]) fun v rest hsome => ?_
  obtain ⟨⟨digits, rest'⟩, hint, heq⟩ := Option.map_eq_some_iff.mp hsome
  obtain ⟨n, rfl, rfl⟩ := exists_numeral_of_int hint
  cases heq
  exact isOperand_numeral hfloat hint

theorem agrees_namedLiteral {r : Rule} {word : String} {x : Binary64} (hr : r.phrase = .lexeme (whole word))
    (hne : r ≠ .intLit) (hsolid : solid word.toList = true)
    (hbuild : ∀ start rest, (Piece.mk r start rest []).buildExpr = .ok (.literal (.float x)))
    (hword : word.toList.head?.any Char.isDigit = false) (cs : List Char) :
    Agrees 1 (.rule r) (IsOperand cs) cs (namedLiteral word x cs) := by
  refine .leaf hr ?_ fun v rest hread => ?_
  · simp only [namedLiteral]
    cases whole word cs <;> rfl
  · obtain ⟨rest', hwhole, heq⟩ := Option.bind_eq_some_iff.mp hread
    cases heq
    have hstops : Stops Char.isDigit cs := by
      rw [eq_append_of_whole hwhole]
      exact @Token.stops_mark _ hsolid _ _ hword
    exact isOperand_of_rule hne (leastInt_of_stops hstops) (hbuild cs rest)

theorem agrees_named (cs : List Char) : Agrees 1 (.rule .ident) (IsOperand cs) cs (named cs) := by
  refine .leaf rfl ?_ fun v rest hread => ?_
  · simp only [named]
    cases ident cs <;> rfl
  · obtain ⟨⟨x, rest'⟩, hident, heq⟩ := Option.bind_eq_some_iff.mp hread
    cases heq
    obtain ⟨i, rfl, rfl⟩ := exists_ident hident
    refine isOperand_of_rule nofun (leastInt_of_stops i.stops_digit) ?_
    rw [buildExpr_ident, Piece.name, text_append]
    rfl

theorem agrees_parenthesized
    (h : ∀ rest, cs = "(".toList ++ rest → Agrees N (.rule .expr) IsExpr (skip rest) (inner (skip rest))) :
    Agrees (N + 3) (.rule .paren) (IsOperand cs) cs (parenthesized inner cs) := by
  have hinner : Agrees (N + 2) Rule.paren.phrase IsExpr cs (after "(" (before inner ")") cs) :=
    .after fun rest hcs => .before (h rest hcs)
  refine hinner.build (Except.map Expr.paren) ?_
  rintro _ e _ rest hparen ⟨p, rfl, hp⟩
  obtain ⟨mid, rfl, -⟩ := after_eq_some.mp hparen
  refine isOperand_of_rule nofun rfl ?_
  rw [buildExpr_paren, hp]
  cases e <;> rfl

/-! Signs -/

/-- A negation. -/
def negation (operand : Reader (Checked Expr)) : Reader (Checked Expr) := fun cs => do
  let (e, cs) ← after "!" operand cs
  return (e.map .not, cs)

/-- An operand behind a minus. -/
def negative (operand : Reader (Checked Expr)) : Reader (Checked Expr) := fun cs =>
  leastInt cs <|> (operand cs).map fun read => (read.1.map .neg, read.2)

theorem unary_succ (d : Nat) (cs : List Char) : unary (d + 1) cs =
    (negation (unary d) cs <|> after "-" (negative (unary d)) cs <|> primary (comparison (unary d)) cs) := by
  unfold unary
  split
  next rest =>
    have hnot : negation (unary d) ('!' :: rest) = (do
      let (e, rest) ← unary d (skip rest)
      return (e.map .not, rest)) := rfl
    have hneg : after "-" (negative (unary d)) ('!' :: rest) = none := rfl
    have hprimary : primary (comparison (unary d)) ('!' :: rest) = none := rfl
    rw [hnot, hneg, hprimary]
    rcases unary d (skip rest) with _ | ⟨e, rest'⟩ <;> rfl
  next rest =>
    have hnot : negation (unary d) ('-' :: rest) = none := rfl
    have hneg : after "-" (negative (unary d)) ('-' :: rest) = negative (unary d) (skip rest) := rfl
    have hprimary : primary (comparison (unary d)) ('-' :: rest) = none := rfl
    rw [hnot, hneg, hprimary, negative]
    rcases leastInt (skip rest) with _ | ⟨w, rest'⟩
    · rcases unary d (skip rest) with _ | ⟨e, rest'⟩ <;> rfl
    · rfl
  next hnot hneg =>
    have hnot : fixed "!" cs = none := by
      rw [Option.eq_none_iff_forall_ne_some]
      exact fun rest h => hnot rest (fixed_eq_some.mp h)
    have hneg : fixed "-" cs = none := by
      rw [Option.eq_none_iff_forall_ne_some]
      exact fun rest h => hneg rest (fixed_eq_some.mp h)
    simp [negation, after, hnot, hneg]

theorem agrees_negation
    (h : ∀ rest, cs = "!".toList ++ rest →
      Agrees N .operand (IsOperand (skip rest)) (skip rest) (operand (skip rest))) :
    Agrees (N + 2) (.rule .notExpr) (IsOperand cs) cs (negation operand cs) := by
  have hinner : Agrees (N + 1) Rule.notExpr.phrase IsExpr cs (after "!" operand cs) :=
    .after fun rest hcs => (h rest hcs).imp fun _ _ hp => hp.isExpr
  refine hinner.build (Except.map Expr.not) ?_
  rintro _ e _ rest hnot ⟨p, rfl, hp⟩
  obtain ⟨mid, rfl, -⟩ := after_eq_some.mp hnot
  refine isOperand_of_rule nofun rfl ?_
  rw [buildExpr_not, hp]
  cases e <;> rfl

/-- A minus makes an integer of its own of the operand, or the negative of what the operand builds. -/
theorem agrees_negative (h : Agrees N .operand (IsOperand cs) cs (operand cs))
    (hleast : ∀ w rest, leastInt cs = some (w, rest) → ∃ v, operand cs = some (v, rest)) :
    Agrees N .operand (fun ps v => ∀ start rest, (Piece.mk .negExpr start rest ps).buildExpr = v.built) cs
      (negative operand cs) := by
  unfold negative
  rcases hw : leastInt cs with _ | ⟨w, rest⟩
  · refine h.map fun ps v hps start rest => ?_
    obtain ⟨p, rfl, hp, hneg⟩ := hps
    rw [hw] at hneg
    rw [buildExpr_neg, hneg, hp]
    cases v <;> rfl
  · obtain ⟨v, hv⟩ := hleast w rest hw
    obtain ⟨rfl, -⟩ := leastInt_eq_some hw
    rw [hv] at h
    refine h.map (f := fun _ => _) fun ps v hps start rest => ?_
    obtain ⟨p, rfl, hp, hneg⟩ := hps
    rw [hw] at hneg
    rw [buildExpr_neg, hneg]
    rfl

theorem agrees_minus
    (h : ∀ rest, cs = "-".toList ++ rest → Agrees N .operand (IsOperand (skip rest)) (skip rest) (operand (skip rest)))
    (hleast : ∀ rest, cs = "-".toList ++ rest → ∀ w rest', leastInt (skip rest) = some (w, rest') →
      ∃ v, operand (skip rest) = some (v, rest')) :
    Agrees (N + 2) (.rule .negExpr) (IsOperand cs) cs (after "-" (negative operand) cs) := by
  have hinner : Agrees (N + 1) Rule.negExpr.phrase
      (fun ps v => ∀ start rest, (Piece.mk .negExpr start rest ps).buildExpr = v.built) cs
      (after "-" (negative operand) cs) :=
    .after fun rest hcs => agrees_negative (h rest hcs) (hleast rest hcs)
  refine hinner.rule fun ps v mid rest hread hbuild => ?_
  obtain ⟨_, rfl, -⟩ := after_eq_some.mp hread
  exact isOperand_of_rule nofun rfl (hbuild _ _)

theorem unary_of_leastInt {w : Checked Expr} (hd : d ≠ 0) (h : leastInt cs = some (w, rest)) :
    ∃ v, unary d cs = some (v, rest) := by
  obtain ⟨d, rfl⟩ := Nat.exists_eq_succ_of_ne_zero hd
  obtain ⟨-, n, hn, rfl, hfloat, hint⟩ := leastInt_eq_some h
  have hnot : fixed "!" (n.digits ++ rest) = none := n.stops.fixed rfl
  have hneg : fixed "-" (n.digits ++ rest) = none := n.stops.fixed rfl
  have hnew : fixed "new" (n.digits ++ rest) = none := n.stops.fixed rfl
  have hderef : fixed "*" (n.digits ++ rest) = none := n.stops.fixed rfl
  have hread : intLiteral (n.digits ++ rest) =
      some (.error ⟨String.ofList n.digits, (n.digits ++ rest).length⟩, rest) := by
    have hvalue : Decimal.ofDigits n.digits = Nat.pow 2 63 := hn
    simp [intLiteral, hint, hvalue]
  refine ⟨.error ⟨String.ofList n.digits, (n.digits ++ rest).length⟩, ?_⟩
  rw [Nat.succ_eq_add_one, unary_succ]
  simp only [negation, after, primary, newCell, deref, hnot, hneg, hnew, hderef, floatLiteral, hfloat, hread]
  rfl

/-! Comparisons -/

/-- The second half of a comparison. -/
def compared (operand : Reader (Checked Expr)) : Reader (Relation × Checked Expr) := fun cs => do
  let (op, rest) ← relation cs
  let (rhs, rest) ← operand (skip rest)
  return ((op, rhs), rest)

theorem comparison_of_some {lhs : Checked Expr} {mid : List Char}
    (h : operand cs = some (lhs, mid)) : comparison operand cs =
      some (((compared operand (skip mid)).map fun read =>
        (lhs.bind fun l => read.1.2.map fun r => .compare read.1.1 l r, read.2)).getD (lhs, mid)) := by
  rcases hop : relation (skip mid) with _ | ⟨op, rest⟩
  · simp [comparison, compared, h, hop]
  · rcases hrhs : operand (skip rest) with _ | ⟨rhs, rest'⟩ <;> simp [comparison, compared, h, hop, hrhs]

theorem agrees_compared
    (h : ∀ cs', cs'.length ≤ cs.length → Agrees N .operand (IsOperand cs') cs' (operand cs')) :
    Agrees (N + 2) (.seq (.rule .relOp) .operand)
      (fun ps read => ∃ op p, ps = [op, p] ∧ op.relation = .ok read.1 ∧ p.buildExpr = read.2.built) cs
      (compared operand cs) := by
  refine .seq ((agrees_relation cs).mono (by omega)) (fun hnone => by simp [compared, hnone])
    fun ps op rest hop hps => ?_
  obtain ⟨o, rfl, ho⟩ := hps
  have hlength := length_behind_le (eq_append_of_relation hop)
  have hread : compared operand cs = (operand (skip rest)).map fun read => ((op, read.1), read.2) := by
    rcases hrhs : operand (skip rest) with _ | ⟨rhs, rest'⟩ <;> simp [compared, hop, hrhs]
  rw [hread]
  refine ((h (skip rest) (by omega)).map ?_).mono (by omega)
  rintro qs rhs ⟨p, rfl, hp, -⟩
  exact ⟨o, p, rfl, ho, hp⟩

theorem agrees_comparison (htakes : TakesTerm operand)
    (h : ∀ cs', cs'.length ≤ cs.length → Agrees N .operand (IsOperand cs') cs' (operand cs')) :
    Agrees (N + 5) (.rule .expr) IsExpr cs (comparison operand cs) := by
  have hinner : Agrees (N + 4) Rule.expr.phrase
      (fun ps v => ∀ start rest, (Piece.mk .expr start rest ps).buildExpr = v.built) cs (comparison operand cs) := by
    refine .seq ((h cs (Nat.le_refl _)).mono (by omega)) (fun hnone => by simp [comparison, hnone])
      fun ps lhs mid hlhs hps => ?_
    obtain ⟨p, rfl, hp, -⟩ := hps
    obtain ⟨t, ht⟩ := htakes hlhs
    have hmid := ht.taken.length_le
    have hskip := length_skip_le mid
    rw [comparison_of_some hlhs]
    refine .opt (agrees_compared fun cs' hcs' => h cs' (by omega)) (fun hnone => ?_) fun ps read rest hsome hread => ?_
    · rw [hnone]
      refine ⟨skip_skip mid, fun start rest => ?_⟩
      rw [List.append_nil, buildExpr_alone, hp]
      cases lhs <;> rfl
    · obtain ⟨op, q, rfl, hop, hq⟩ := hread
      rw [hsome]
      refine ⟨rfl, fun start rest => ?_⟩
      rw [List.cons_append, List.nil_append, buildExpr_compare, hp, hop, hq]
      obtain ⟨op, rhs⟩ := read
      cases lhs <;> cases rhs <;> rfl
  exact hinner.rule fun inner v _ rest _ hbuild => ⟨_, rfl, hbuild cs rest⟩

theorem agrees_unary (d : Nat) (cs : List Char) (hd : cs.length < d) :
    Agrees (32 * cs.length + 20) .operand (IsOperand cs) cs (unary d cs) := by
  induction d generalizing cs with
  | zero => cases hd
  | succ d ih =>
    -- What stands behind a character of the text is shorter.
    have hbehind : ∀ {c : Char} {rest cs' : List Char}, cs = c :: rest → cs'.length ≤ (skip rest).length →
        Agrees (32 * cs.length - 12) .operand (IsOperand cs') cs' (unary d cs') := by
      rintro c rest cs' rfl hcs'
      have hskip := length_skip_le rest
      simp only [List.length_cons] at hd ⊢
      exact (ih cs' (by omega)).mono (by omega)
    have hnot : Agrees (32 * cs.length + 8) (.rule .notExpr) (IsOperand cs) cs (negation (unary d) cs) :=
      (agrees_negation fun rest hcs => hbehind hcs (Nat.le_refl _)).mono (by omega)
    have hneg : Agrees (32 * cs.length + 8) (.rule .negExpr) (IsOperand cs) cs (after "-" (negative (unary d)) cs) := by
      refine (agrees_minus (fun rest hcs => hbehind hcs (Nat.le_refl _)) fun rest hcs w rest' hw => ?_).mono (by omega)
      exact unary_of_leastInt (by rintro rfl; simp [hcs] at hd) hw
    have hparen : Agrees (32 * cs.length + 8) (.rule .paren) (IsOperand cs) cs
        (parenthesized (comparison (unary d)) cs) := by
      refine .mono (N := 32 * cs.length - 12 + 8) (agrees_parenthesized fun rest hcs => ?_) ?_
      · exact agrees_comparison (takesTerm_unary d) fun cs' hcs' => hbehind hcs hcs'
      · omega
    rw [unary_succ]
    refine .alt (hnot.mono (by omega)) fun _ => .alt (hneg.mono (by omega)) fun _ => ?_
    refine .alt ((agrees_newCell cs).mono (by omega)) fun _ => .alt ((agrees_deref cs).mono (by omega)) fun _ => ?_
    refine .alt ((agrees_floatLiteral cs).mono (by omega)) fun hfloat => ?_
    refine .alt ((agrees_intLiteral (floatLiteral_eq_none.mp hfloat)).mono (by omega)) fun _ => ?_
    refine .alt ((agrees_namedLiteral (r := .nanLit) rfl nofun rfl (fun _ _ => rfl) rfl cs).mono (by omega)) fun _ => ?_
    refine .alt ((agrees_namedLiteral (r := .infLit) rfl nofun rfl (fun _ _ => rfl) rfl cs).mono (by omega)) fun _ => ?_
    exact .alt ((agrees_named cs).mono (by omega)) fun _ => hparen.mono (by omega)

theorem agrees_expr (cs : List Char) : Agrees (32 * cs.length + 25) (.rule .expr) IsExpr cs (expr cs) :=
  agrees_comparison (takesTerm_unary _) fun cs' hcs' => (agrees_unary _ cs' (by omega)).mono (by omega)

end Reader

end Comparand
