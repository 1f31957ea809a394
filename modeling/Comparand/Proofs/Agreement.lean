import Comparand.Proofs.Building

/-!
The grammar with its builder agrees with the direct readers, rule by rule: where one fails the other does, and the
pieces that a rule finds build what the reader reads. So a text is parsed as it is read directly.
-/
namespace Comparand

open Lexeme Piece

namespace Piece

/-- What is built of the piece of a statement. -/
def buildStmt (p : Piece) : Except BuildError Stmt := if p.rule = .ifStmt then p.buildIf else p.buildPlain

theorem buildList_cons (p : Piece) (ps : List Piece) : buildList (p :: ps) = (do
    let s ← p.buildStmt
    return s :: (← buildList ps)) := by
  by_cases hif : p.rule = .ifStmt
  · rw [buildStmt, if_pos hif]
    exact if_pos hif
  · rw [buildStmt, if_neg hif]
    exact if_neg hif

end Piece

namespace Reader

variable {cs rest : List Char} {N d : Nat}

/-! Plain statements -/

variable {s mark : String} {r : Rule} {w : Checked Stmt} {inner : List Piece}

theorem agrees_after_expr (hs : s.toList ≠ []) (cs : List Char) :
    Agrees (32 * cs.length + 1) (.seq (.fixed s) (.rule .expr)) IsExpr cs (after s expr cs) := by
  refine .after fun rest hcs => (agrees_expr (skip rest)).mono ?_
  have hlength := length_behind hs hcs
  omega

/-- One piece that builds `w`. -/
def IsStmt (ps : List Piece) (w : Checked Stmt) : Prop := Single buildStmt w.built ps

theorem isStmt_of_plain (hr : r ≠ .ifStmt) (h : (Piece.mk r cs rest inner).buildPlain = w.built) :
    IsStmt [.mk r cs rest inner] w := ⟨_, rfl, (if_neg hr).trans h⟩

/-- The pieces of a name and an expression, of which `make` makes `w`. -/
def IsBinding (make : String → Expr → Stmt) (ps : List Piece) (w : Checked Stmt) : Prop :=
  ∃ x e v, ps = [x, e] ∧ e.buildExpr = Checked.built v ∧ w = v.map (make x.name)

theorem agrees_binding (hmark : mark.toList ≠ []) (make : String → Expr → Stmt) (cs : List Char) :
    Agrees (32 * cs.length + 2) (.sequence [.rule .ident, .fixed mark, .rule .expr]) (IsBinding make) cs
      (binding mark make cs) := by
  refine .seq ((agrees_ident cs).mono (by omega)) (fun hnone => by simp [binding, hnone]) fun ps x rest hx hps => ?_
  obtain ⟨p, rfl, rfl⟩ := hps
  obtain ⟨i, -, hcs⟩ := exists_ident hx
  have hlength := length_behind_le hcs
  have hread : binding mark make cs =
      (after mark expr (skip rest)).map fun read => (read.1.map (make p.name), read.2) := by
    rcases he : after mark expr (skip rest) with _ | ⟨e, rest'⟩ <;> simp [binding, hx, he]
  rw [hread]
  refine ((agrees_after_expr hmark (skip rest)).map ?_).mono (by omega)
  rintro qs v ⟨e, rfl, he⟩
  exact ⟨p, e, v, rfl, he, rfl⟩

theorem isStmt_of_isBinding {make : String → Expr → Stmt} (hr : r ≠ .ifStmt)
    (hbuild : ∀ start rest x e, (Piece.mk r start rest [x, e]).buildPlain = do return make x.name (← e.buildExpr))
    (h : IsBinding make inner w) : IsStmt [.mk r cs rest inner] w := by
  obtain ⟨x, e, v, rfl, he, rfl⟩ := h
  refine isStmt_of_plain hr ?_
  rw [hbuild, he]
  cases v <;> rfl

theorem agrees_counting {make : String → Stmt} (hphrase : r.phrase = .sequence [.rule .ident, .fixed mark])
    (hr : r ≠ .ifStmt) (hbuild : ∀ start rest x, (Piece.mk r start rest [x]).buildPlain = .ok (make x.name))
    (cs : List Char) : Agrees 3 (.rule r) IsStmt cs (counting mark make cs) := by
  have hinner : Agrees 2 r.phrase (fun ps x => Single Piece.name x ps) cs (before ident mark cs) := by
    rw [hphrase]
    exact .before (agrees_ident cs)
  refine hinner.build (fun x => Except.ok (make x)) ?_
  rintro _ x _ rest - ⟨p, rfl, rfl⟩
  exact isStmt_of_plain hr (hbuild cs rest p)

theorem agrees_exiting (cs : List Char) : Agrees (32 * cs.length + 4) (.rule .exitStmt) IsStmt cs (exiting cs) := by
  have hinner : Agrees (32 * cs.length + 3) Rule.exitStmt.phrase IsExpr cs
      (after "riscvexit" (after "(" (before expr ")")) cs) := by
    refine .after fun rest hcs => .after fun rest' hrest => .before ((agrees_expr (skip rest')).mono ?_)
    have hlength := length_behind (by decide) hcs
    have hlength' := length_behind (by decide) hrest
    omega
  refine hinner.build (Except.map Stmt.exit) ?_
  rintro _ e _ rest - ⟨p, rfl, hp⟩
  refine isStmt_of_plain nofun ?_
  rw [buildPlain, hp]
  cases e <;> rfl

theorem agrees_declaration (cs : List Char) :
    Agrees (32 * cs.length + 5) (.rule .varDecl) IsStmt cs (declaration cs) := by
  have hinner : Agrees (32 * cs.length + 4) Rule.varDecl.phrase
      (fun ps w => ∀ start rest, (Piece.mk .varDecl start rest ps).buildPlain = Checked.built w) cs
      (declaration cs) := by
    refine .mark (fun hnone => by simp [declaration, after, hnone]) fun cs₁ hvar => ?_
    have hlength := length_behind (by decide) (fixed_eq_some.mp hvar)
    refine .seq ((agrees_ident _).mono (by omega)) (fun hnone => by simp [declaration, after, hvar, hnone])
      fun ps x cs₂ hx hps => ?_
    obtain ⟨px, rfl, rfl⟩ := hps
    refine .seq ((agrees_scalar _).mono (by omega)) (fun hnone => by simp [declaration, after, hvar, hx, hnone])
      fun ps ty cs₃ hty hps => ?_
    obtain ⟨pty, rfl, hpty⟩ := hps
    obtain ⟨i, -, hcs₂⟩ := exists_ident hx
    have hlength₂ := length_behind_le hcs₂
    have hlength₃ := length_behind_le (eq_append_of_scalar hty)
    have hread : declaration cs = some (((after "=" expr (skip cs₃)).map fun read =>
        (read.1.map fun e => Stmt.var px.name ty (some e), read.2)).getD (.ok (.var px.name ty none), cs₃)) := by
      have hname : after "var" ident cs = some (px.name, cs₂) :=
        after_eq_some.mpr ⟨cs₁, fixed_eq_some.mp hvar, hx⟩
      rcases he : after "=" expr (skip cs₃) with _ | ⟨e, rest⟩ <;> simp [declaration, hname, hty, he]
    rw [hread]
    refine .opt ((agrees_after_expr (by decide) (skip cs₃)).mono (by omega)) (fun hnone => ?_)
      fun ps e rest hsome hps => ?_
    · rw [hnone]
      refine ⟨skip_skip cs₃, fun start rest => ?_⟩
      simp only [buildPlain, List.cons_append, List.nil_append, hpty]
      rfl
    · obtain ⟨pe, rfl, hpe⟩ := hps
      rw [hsome]
      refine ⟨rfl, fun start rest => ?_⟩
      simp only [buildPlain, List.cons_append, List.nil_append, hpty, hpe]
      cases e <;> rfl
  exact hinner.rule fun inner w _ rest _ hbuild => isStmt_of_plain (by decide) (hbuild cs rest)

/-! Blocks -/

variable {stmt : Reader (Checked Stmt)}

/-- A statement and the semicolon behind it, if there is one. -/
theorem agrees_terminated (h : Agrees N .statement IsStmt cs (stmt cs)) :
    Agrees (N + 2) (.seq .statement (.opt (.fixed ";"))) IsStmt cs
      ((stmt cs).map fun read => (read.1, (fixed ";" (skip read.2)).getD read.2)) := by
  refine .seq (h.mono (by omega)) (fun hnone => by rw [hnone]; rfl) fun ps w rest hw hps => ?_
  rw [hw, Option.map_some]
  refine .opt ((Agrees.fixed ";" (skip rest)).mono (Nat.zero_le _)) (fun hnone => ?_) fun qs _ mid hsome hqs => ?_
  · rw [Option.map_eq_none_iff] at hnone
    simpa [hnone, skip_skip] using hps
  · obtain ⟨mid', hfixed, heq⟩ := Option.map_eq_some_iff.mp hsome
    cases heq
    subst hqs
    simpa [hfixed] using hps

/-- The pieces of statements. -/
def IsBody (ps : List Piece) (v : Checked (List Stmt)) : Prop := buildList ps = v.built

theorem length_lt_of_takesStmt (htakes : TakesStmt stmt) (h : stmt cs = some (w, rest)) : rest.length < cs.length := by
  obtain ⟨s, hs⟩ := htakes h
  have hlength := hs.length_le
  have hpos := List.length_pos_iff.mpr s.tokens_ne_nil
  omega

theorem length_semicolon_le (rest : List Char) : ((fixed ";" (skip rest)).getD rest).length ≤ rest.length := by
  rcases hfixed : fixed ";" (skip rest) with _ | mid
  · exact Nat.le_refl _
  · have hskip := length_skip_le rest
    rw [fixed_eq_some.mp hfixed, List.length_append] at hskip
    simp only [Option.getD_some]
    omega

theorem agrees_statements (htakes : TakesStmt stmt) (n : Nat) {cs cs' : List Char} (hn : cs.length ≤ n)
    (hcs' : skip cs' = skip cs)
    (h : ∀ text, text.length ≤ cs.length → Agrees (32 * text.length + 24) .statement IsStmt text (stmt text)) :
    Agrees (32 * cs.length + 27) (.many (.seq .statement (.opt (.fixed ";")))) IsBody cs'
      (some (statements stmt n cs)) := by
  induction n generalizing cs cs' with
  | zero =>
    have hskip := length_skip_le cs
    have hround := (agrees_terminated (h (skip cs) hskip)).mono (by omega : _ ≤ 32 * cs.length + 26)
    have hnone : stmt (skip cs) = none := by
      rw [Option.eq_none_iff_forall_ne_some]
      rintro ⟨w, rest⟩ hread
      have hlength := length_lt_of_takesStmt htakes hread
      omega
    rw [hnone, ← hcs'] at hround
    exact .many hround (fun _ => ⟨hcs', rfl⟩) (by simp)
  | succ n ih =>
    have hskip := length_skip_le cs
    have hround := (agrees_terminated (h (skip cs) hskip)).mono (by omega : _ ≤ 32 * cs.length + 26)
    rw [statements]
    rcases hread : stmt (skip cs) with _ | ⟨w, rest⟩ <;> rw [hread, ← hcs'] at hround
    · exact .many hround (fun _ => ⟨hcs', rfl⟩) (by simp)
    · refine .many hround (by simp) fun ps w' mid mid' heq hmid' hps => ?_
      cases heq
      obtain ⟨p, rfl, hp⟩ := hps
      have hlength := length_lt_of_takesStmt htakes hread
      have hmid := length_semicolon_le rest
      have hrest := ih (Nat.le_trans hmid (by omega)) hmid' fun text htext => h text (by omega)
      refine .mono (.map (f := fun ss => w.bind fun s => ss.map (s :: ·)) hrest fun qs ss hqs => ?_) (by omega)
      rw [IsBody] at hqs ⊢
      rw [List.cons_append, List.nil_append, buildList_cons, hp, hqs]
      cases w <;> cases ss <;> rfl

/-- The piece of a block. -/
def IsBlock (ps : List Piece) (v : Checked (List Stmt)) : Prop :=
  ∃ start rest body, ps = [.mk .block start rest body] ∧ IsBody body v

theorem agrees_block (htakes : TakesStmt stmt)
    (h : ∀ text, text.length < cs.length → Agrees (32 * text.length + 24) .statement IsStmt text (stmt text)) :
    Agrees (32 * cs.length + 3) (.rule .block) IsBlock cs (block stmt cs) := by
  have hinner : Agrees (32 * cs.length + 2) Rule.block.phrase IsBody cs (block stmt cs) := by
    refine .mark (fun hnone => by simp [block, hnone]) fun rest hopen => ?_
    have hread : block stmt cs = before (fun _ => some (statements stmt rest.length rest)) "\x7d" (skip rest) := by
      simp [block, before, hopen]
    have hlength : rest.length < cs.length := by
      rw [fixed_eq_some.mp hopen]
      exact Nat.lt_succ_self _
    rw [hread]
    refine .before ((agrees_statements htakes _ (Nat.le_refl _) (skip_skip rest) fun text htext => ?_).mono (by omega))
    exact h text (by omega)
  exact hinner.rule fun body v _ rest _ hbody => ⟨cs, rest, body, rfl, hbody⟩

/-! Branches -/

/-- The piece of an `if`. -/
def IsBranch (ps : List Piece) (w : Checked Stmt) : Prop :=
  ∃ start rest inner, ps = [.mk .ifStmt start rest inner] ∧ (Piece.mk .ifStmt start rest inner).buildIf = w.built

theorem IsBranch.isStmt {ps : List Piece} (h : IsBranch ps w) : IsStmt ps w := by
  obtain ⟨start, rest, inner, rfl, hbuild⟩ := h
  exact ⟨_, rfl, hbuild⟩

/-- The piece of a block, or of an `if` that makes a block of its own. -/
def IsAlternative (ps : List Piece) (v : Checked (List Stmt)) : Prop :=
  IsBlock ps v ∨ ∃ w, IsBranch ps w ∧ v = w.map fun s => [s]

theorem agrees_alternative (hbranch : Agrees N (.rule .ifStmt) IsBranch cs (conditional d cs))
    (hblock : Agrees N (.rule .block) IsBlock cs (block (statement d) cs)) :
    Agrees (N + 1) (.alt (.rule .ifStmt) (.rule .block)) IsAlternative cs (alternative d cs) := by
  have hread : alternative d cs =
      (((conditional d cs).map fun read => (read.1.map fun s => [s], read.2)) <|> block (statement d) cs) := by
    unfold alternative
    cases conditional d cs <;> rfl
  rw [hread]
  refine .alt (hbranch.map fun ps w hw => ?_) fun _ => hblock.imp fun ps v hv => .inl hv
  exact .inr ⟨w, hw, rfl⟩

/-- The piece of an `else` with what follows it. -/
def IsElse (ps : List Piece) (v : Checked (List Stmt)) : Prop :=
  ∃ start rest inner, ps = [.mk .elseClause start rest inner] ∧ IsAlternative inner v

theorem agrees_else
    (h : ∀ text, text.length < cs.length →
      Agrees (32 * cs.length) (.alt (.rule .ifStmt) (.rule .block)) IsAlternative text (alternative d text)) :
    Agrees (32 * cs.length + 2) (.rule .elseClause) IsElse cs (after "else" (alternative d) cs) := by
  have hinner : Agrees (32 * cs.length + 1) Rule.elseClause.phrase IsAlternative cs (after "else" (alternative d) cs) :=
    .after fun rest hcs => h _ (length_behind (by decide) hcs)
  exact hinner.rule fun inner v _ rest _ hv => ⟨cs, rest, inner, rfl, hv⟩

/-- An `if` without an alternative. -/
theorem buildIf_of_body {start rest : List Char} {test block : Piece} {e : Checked Expr} {b : Checked (List Stmt)}
    (htest : test.buildExpr = e.built) (hblock : IsBlock [block] b) :
    (Piece.mk .ifStmt start rest [test, block]).buildIf =
      Checked.built (e.bind fun t => b.map fun b => Stmt.cond t b none) := by
  obtain ⟨start', rest', body, heq, hbody⟩ := hblock
  cases heq
  rw [IsBody] at hbody
  show (do return Stmt.cond (← test.buildExpr) (← buildList body) none) = _
  rw [htest, hbody]
  cases e <;> cases b <;> rfl

theorem buildIf_of_else {start rest : List Char} {test block clause : Piece} {e : Checked Expr}
    {b o : Checked (List Stmt)} (htest : test.buildExpr = e.built) (hblock : IsBlock [block] b)
    (helse : IsElse [clause] o) :
    (Piece.mk .ifStmt start rest [test, block, clause]).buildIf =
      Checked.built (e.bind fun t => b.bind fun b => o.map fun o => Stmt.cond t b (some o)) := by
  obtain ⟨start', rest', body, heq, hbody⟩ := hblock
  cases heq
  obtain ⟨start', rest', inner, heq, halternative⟩ := helse
  cases heq
  rw [IsBody] at hbody
  rcases halternative with ⟨start', rest', body', rfl, hbody'⟩ | ⟨w, ⟨start', rest', inner', rfl, hbranch⟩, rfl⟩
  · show (do return Stmt.cond (← test.buildExpr) (← buildList body) (some (← buildList body'))) = _
    rw [IsBody] at hbody'
    rw [htest, hbody, hbody']
    cases e <;> cases b <;> cases o <;> rfl
  · show (do
      return Stmt.cond (← test.buildExpr) (← buildList body)
        (some [← (Piece.mk .ifStmt start' rest' inner').buildIf])) = _
    rw [htest, hbody, hbranch]
    cases e <;> cases b <;> cases w <;> rfl

theorem agrees_conditional
    (hblock : ∀ text, text.length < cs.length →
      Agrees (32 * text.length + 3) (.rule .block) IsBlock text (block (statement d) text))
    (hbranch : ∀ text, text.length < cs.length →
      Agrees (32 * text.length + 8) (.rule .ifStmt) IsBranch text (conditional d text)) :
    Agrees (32 * cs.length + 8) (.rule .ifStmt) IsBranch cs (conditional (d + 1) cs) := by
  have hinner : Agrees (32 * cs.length + 7) Rule.ifStmt.phrase
      (fun ps w => ∀ start rest, (Piece.mk .ifStmt start rest ps).buildIf = Checked.built w) cs
      (conditional (d + 1) cs) := by
    refine .mark (fun hnone => by simp [conditional_succ, after, hnone]) fun cs₁ hif => ?_
    have hlength₁ := length_behind (by decide) (fixed_eq_some.mp hif)
    refine .seq ((agrees_expr (skip cs₁)).mono (by omega)) (fun hnone => by simp [conditional_succ, after, hif, hnone])
      fun ps test cs₂ htest hps => ?_
    obtain ⟨p, rfl, hp⟩ := hps
    obtain ⟨e, he⟩ := takesExpr_expr htest
    have hlength₂ := Nat.le_trans (length_skip_le cs₂) (Nat.le_of_add_left_le he.length_le)
    have hafter : after "if" expr cs = some (test, cs₂) := after_eq_some.mpr ⟨cs₁, fixed_eq_some.mp hif, htest⟩
    refine .seq ((hblock (skip cs₂) (by omega)).mono (by omega))
      (fun hnone => by simp [conditional_succ, hafter, hnone]) fun ps body cs₃ hbody hps => ?_
    obtain ⟨b, hb⟩ := takesBlock_block (takes_nested d).1 hbody
    have hlength₃ := Nat.le_trans (length_skip_le cs₃) (Nat.le_of_add_left_le hb.length_le)
    have hread : conditional (d + 1) cs = some (((after "else" (alternative d) (skip cs₃)).map fun read =>
        (test.bind fun t => body.bind fun b => read.1.map fun o => Stmt.cond t b (some o), read.2)).getD
          (test.bind fun t => body.map fun b => .cond t b none, cs₃)) := by
      rcases helse : after "else" (alternative d) (skip cs₃) with _ | ⟨o, rest⟩ <;>
        simp [conditional_succ, hafter, hbody, helse]
    have helse : Agrees (32 * cs.length) (.rule .elseClause) IsElse (skip cs₃)
        (after "else" (alternative d) (skip cs₃)) := by
      refine .mono (agrees_else fun text htext => ?_) (by omega : 32 * (skip cs₃).length + 2 ≤ _)
      exact .mono (agrees_alternative ((hbranch text (by omega)).mono (by omega))
        ((hblock text (by omega)).mono (by omega))) (by omega : 32 * text.length + 9 ≤ _)
    obtain ⟨start, rest, inner, rfl, hinner⟩ := hps
    rw [hread]
    refine .opt (helse.mono (by omega)) (fun hnone => ?_) fun ps o rest hsome hps => ?_
    · rw [hnone]
      exact ⟨skip_skip cs₃, fun _ _ => buildIf_of_body hp ⟨_, _, _, rfl, hinner⟩⟩
    · rw [hsome]
      obtain ⟨start', rest', inner', rfl, halternative⟩ := hps
      exact ⟨rfl, fun _ _ => buildIf_of_else hp ⟨_, _, _, rfl, hinner⟩ ⟨_, _, _, rfl, halternative⟩⟩
  exact hinner.rule fun inner w _ rest _ hbuild => ⟨cs, rest, inner, rfl, hbuild cs rest⟩

theorem statement_succ (d : Nat) (cs : List Char) : statement (d + 1) cs =
    (binding ":=" .define cs <|> counting "++" .inc cs <|> counting "--" .dec cs <|> binding "=" .assign cs <|>
      after "*" (binding "=" .store) cs <|> declaration cs <|> conditional d cs <|> exiting cs) := by
  simp [statement, simple, Option.or_assoc]

theorem agrees_statement (h : Agrees (32 * cs.length + 8) (.rule .ifStmt) IsBranch cs (conditional d cs)) :
    Agrees (32 * cs.length + 24) .statement IsStmt cs (statement (d + 1) cs) := by
  have hdefine : Agrees (32 * cs.length + 3) (.rule .defineStmt) IsStmt cs (binding ":=" .define cs) :=
    .rule (agrees_binding (by decide) _ cs) fun _ _ _ _ _ => isStmt_of_isBinding nofun fun _ _ _ _ => rfl
  have hassign : Agrees (32 * cs.length + 3) (.rule .assignStmt) IsStmt cs (binding "=" .assign cs) :=
    .rule (agrees_binding (by decide) _ cs) fun _ _ _ _ _ => isStmt_of_isBinding nofun fun _ _ _ _ => rfl
  have hstore : Agrees (32 * cs.length + 4) (.rule .storeStmt) IsStmt cs (after "*" (binding "=" .store) cs) := by
    refine .rule (.after fun rest hcs => (agrees_binding (by decide) _ _).mono ?_) fun _ _ _ _ _ =>
      isStmt_of_isBinding nofun fun _ _ _ _ => rfl
    have hlength := length_behind (by decide) hcs
    omega
  rw [statement_succ]
  refine .alt (hdefine.mono (by omega)) fun _ => ?_
  refine .alt ((agrees_counting (r := .incStmt) rfl nofun (fun _ _ _ => rfl) cs).mono (by omega)) fun _ => ?_
  refine .alt ((agrees_counting (r := .decStmt) rfl nofun (fun _ _ _ => rfl) cs).mono (by omega)) fun _ => ?_
  refine .alt (hassign.mono (by omega)) fun _ => .alt (hstore.mono (by omega)) fun _ => ?_
  refine .alt ((agrees_declaration cs).mono (by omega)) fun _ => ?_
  exact .alt ((h.imp fun _ _ hw => hw.isStmt).mono (by omega)) fun _ => (agrees_exiting cs).mono (by omega)

theorem agrees_nested (d : Nat) (cs : List Char) :
    (cs.length < d → Agrees (32 * cs.length + 8) (.rule .ifStmt) IsBranch cs (conditional d cs)) ∧
      (cs.length + 1 < d → Agrees (32 * cs.length + 24) .statement IsStmt cs (statement d cs)) := by
  induction d generalizing cs with
  | zero => exact ⟨nofun, nofun⟩
  | succ d ih =>
    constructor
    · intro hd
      refine agrees_conditional (fun text htext => ?_) fun text htext => (ih text).1 (by omega)
      exact agrees_block (takes_nested d).1 fun text' htext' => (ih text').2 (by omega)
    · intro hd
      exact agrees_statement ((ih cs).1 (by omega))

/-! Programs -/

/-- The piece of a package clause, or none. -/
def IsPackage (ps : List Piece) (package : Option String) : Prop :=
  ps = [] ∧ package = none ∨
    ∃ start rest x, ps = [.mk .packageClause start rest [x]] ∧ package = some x.name

theorem agrees_packageName (cs : List Char) :
    Agrees 4 (.opt (.rule .packageClause)) IsPackage cs (some (packageName cs)) := by
  have hinner : Agrees 2 Rule.packageClause.phrase (fun ps x => Single Piece.name x ps) cs (after "package" ident cs) :=
    .after fun _ _ => agrees_ident _
  have hclause : Agrees 3 (.rule .packageClause) (fun ps x => IsPackage ps (some x)) cs (after "package" ident cs) := by
    refine hinner.rule ?_
    rintro _ _ _ rest - ⟨p, rfl, rfl⟩
    exact .inr ⟨cs, rest, p, rfl, rfl⟩
  unfold packageName
  rcases hread : after "package" ident cs with _ | ⟨x, rest⟩ <;> rw [hread] at hclause
  · exact .opt hclause (fun _ => ⟨rfl, .inl ⟨rfl, rfl⟩⟩) nofun
  · refine .opt hclause nofun fun ps y mid heq hps => ?_
    cases heq
    exact ⟨rfl, hps⟩

/-- The piece of a function. -/
def IsFunction (ps : List Piece) (read : String × Checked (List Stmt)) : Prop :=
  ∃ start rest x block, ps = [.mk .funcDecl start rest [x, block]] ∧ x.name = read.1 ∧ IsBlock [block] read.2

theorem agrees_function (cs : List Char) :
    Agrees (32 * cs.length + 6) (.rule .funcDecl) IsFunction cs (function cs) := by
  have hinner : Agrees (32 * cs.length + 5) Rule.funcDecl.phrase
      (fun ps read => ∃ x block, ps = [x, block] ∧ x.name = read.1 ∧ IsBlock [block] read.2) cs (function cs) := by
    refine .mark (fun hnone => by simp [function, after, hnone]) fun cs₁ hfunc => ?_
    have hlength₁ := length_behind (by decide) (fixed_eq_some.mp hfunc)
    refine .seq ((agrees_ident _).mono (by omega)) (fun hnone => by simp [function, after, hfunc, hnone])
      fun ps x cs₂ hx hps => ?_
    obtain ⟨p, rfl, rfl⟩ := hps
    obtain ⟨i, -, hcs₂⟩ := exists_ident hx
    have hlength₂ := length_behind_le hcs₂
    have hafter : after "func" ident cs = some (p.name, cs₂) := after_eq_some.mpr ⟨cs₁, fixed_eq_some.mp hfunc, hx⟩
    refine .mark (fun hnone => by simp [function, hafter, hnone]) fun cs₃ hopen => ?_
    have hlength₃ := length_behind (by decide) (fixed_eq_some.mp hopen)
    refine .mark (fun hnone => by simp [function, hafter, hopen, hnone]) fun cs₄ hclose => ?_
    have hlength₄ := length_behind (by decide) (fixed_eq_some.mp hclose)
    have hread : function cs = (block (statement (cs₄.length + 2)) (skip cs₄)).map
        fun read => ((p.name, read.1), read.2) := by
      rcases hbody : block (statement (cs₄.length + 2)) (skip cs₄) with _ | ⟨body, rest⟩ <;>
        simp [function, hafter, hopen, hclose, hbody]
    have hskip := length_skip_le cs₄
    have hblock : Agrees (32 * cs.length + 1) (.rule .block) IsBlock (skip cs₄)
        (block (statement (cs₄.length + 2)) (skip cs₄)) :=
      .mono (agrees_block (takes_nested _).1 fun text htext => (agrees_nested _ text).2 (by omega)) (by omega)
    rw [hread]
    refine hblock.map ?_
    rintro _ body ⟨start, rest, inner, rfl, hinner⟩
    exact ⟨p, _, rfl, rfl, start, rest, inner, rfl, hinner⟩
  refine hinner.rule ?_
  rintro _ read _ rest - ⟨x, block, rfl, hx, hblock⟩
  exact ⟨cs, rest, x, block, rfl, hx, hblock⟩

/-- The end of the text. -/
def ending : Reader Unit := fun cs => if cs.isEmpty then some ((), []) else none

theorem agrees_ending (cs : List Char) :
    Agrees 1 (.rule .endOfInput) (fun ps _ => ∃ e : Piece, ps = [e] ∧ e.rule = .endOfInput) cs (ending cs) := by
  refine .leaf rfl ?_ fun _ rest _ => ⟨_, rfl, rfl⟩
  unfold ending
  split <;> rfl

theorem length_packageName_le (cs : List Char) : (packageName cs).2.length ≤ cs.length := by
  unfold packageName
  rcases hread : after "package" ident cs with _ | ⟨x, rest⟩
  · exact Nat.le_refl _
  · obtain ⟨mid, hcs, hx⟩ := after_eq_some.mp hread
    obtain ⟨i, -, hmid⟩ := exists_ident hx
    have hlength := length_behind_le hcs
    rw [hmid, List.length_append] at hlength
    show rest.length ≤ cs.length
    omega

/-- The pieces of a program: perhaps a package, a function, and the end of the text. -/
theorem buildProgram_of_function {start rest : List Char} {package : Option String} {ps qs : List Piece} {name : String}
    {body : Checked (List Stmt)} {e : Piece} (he : e.rule = .endOfInput) (hps : IsPackage ps package)
    (hqs : IsFunction qs (name, body)) :
    (Piece.mk .program start rest (ps ++ (qs ++ [e]))).buildProgram =
      Checked.built (body.map fun b => ⟨package, name, b⟩) := by
  obtain ⟨_, _, x, _, rfl, rfl, _, _, inner, heq, hinner⟩ := hqs
  cases heq
  obtain ⟨_, _, _, _⟩ := e
  cases he
  rw [IsBody] at hinner
  rcases hps with ⟨rfl, rfl⟩ | ⟨_, _, y, rfl, rfl⟩
  · show (do return (⟨none, x.name, ← buildList inner⟩ : Program)) = _
    rw [hinner]
    cases body <;> rfl
  · show (do return (⟨some y.name, x.name, ← buildList inner⟩ : Program)) = _
    rw [hinner]
    cases body <;> rfl

theorem agrees_program (cs : List Char) :
    Agrees (32 * cs.length + 12) (.rule .program) (fun ps v => Program.build ps = Checked.built v) cs
      ((program cs).map fun v => (v, [])) := by
  have hinner : Agrees (32 * cs.length + 11) Rule.program.phrase
      (fun ps v => ∀ start rest, (Piece.mk .program start rest ps).buildProgram = Checked.built v) cs
      ((program cs).map fun v => (v, [])) := by
    refine .mark nofun fun rest hrest => ?_
    cases hrest
    refine .seq ((agrees_packageName (skip cs)).mono (by omega)) nofun fun ps package cs₁ hpackage hps => ?_
    have hpackage : packageName (skip cs) = (package, cs₁) := Option.some.inj hpackage
    have hlength₁ : cs₁.length ≤ (skip cs).length := by simpa [hpackage] using length_packageName_le (skip cs)
    have hskip := length_skip_le cs
    have hskip₁ := length_skip_le cs₁
    have hfunction : Agrees (32 * cs.length + 8) _ _ (skip cs₁) _ := (agrees_function (skip cs₁)).mono (by omega)
    refine .seq hfunction (fun hnone => by simp [program, hpackage, hnone]) fun qs read cs₂ hread hqs => ?_
    obtain ⟨name, body⟩ := read
    have hresult : (program cs).map (fun v => (v, [])) =
        (ending (skip cs₂)).map fun read => (body.map fun b => (⟨package, name, b⟩ : Program), read.2) := by
      by_cases hend : skip cs₂ = [] <;> simp [program, ending, hpackage, hread, hend]
    rw [hresult]
    have hend := (agrees_ending (skip cs₂)).mono (by omega : 1 ≤ 32 * cs.length + 8)
    refine hend.map (f := fun _ => body.map fun b => (⟨package, name, b⟩ : Program)) ?_
    rintro _ _ ⟨e, rfl, he⟩ start rest
    exact buildProgram_of_function he hps hqs
  exact hinner.rule fun inner v _ rest _ hbuild => hbuild cs rest

end Reader

/-! Parsing -/

open Reader

/-- Following the grammar finds pieces where the direct reader reads a program, and builds that of them. -/
theorem found_walkProgram (cs : List Char) :
    Matches (fun ps v => Program.build ps = Checked.built v)
      ((Phrase.walkProgram cs).1.map fun found => (found.1, found.2.rest)) ((program cs).map fun v => (v, [])) := by
  rw [Phrase.walkProgram, Phrase.map_walk]
  exact agrees_program cs _ (by omega)

theorem walkProgram_of_none {cs : List Char} (h : program cs = none) : (Phrase.walkProgram cs).1 = none := by
  have hfound := found_walkProgram cs
  rw [h] at hfound
  exact Option.map_eq_none_iff.mp hfound

theorem walkProgram_of_some {cs : List Char} {v : Checked Program} (h : program cs = some v) :
    ∃ ps c, (Phrase.walkProgram cs).1 = some (ps, c) ∧ Program.build ps = v.built := by
  have hfound := found_walkProgram cs
  rw [h] at hfound
  obtain ⟨ps, rest, hwalk, -, hbuild⟩ := hfound
  obtain ⟨⟨ps', c⟩, hc, heq⟩ := Option.map_eq_some_iff.mp hwalk
  cases heq
  exact ⟨ps', c, hc, hbuild⟩

/-- The error for a bad literal in a text. -/
def BadLiteral.located (cs : List Char) (bad : BadLiteral) : ParseError :=
  let place := lineColumn (cs.take (cs.length - bad.ahead))
  .invalidLiteral bad.text place.1 place.2

namespace Program

theorem parse_of_none {source : String} (h : program source.toList = none) :
    parse source = .error (.ungrammatical (.ofTrace source.toList (Phrase.walkProgram source.toList).2)) := by
  have hwalk := walkProgram_of_none h
  rw [parse]
  rcases hfound : Phrase.walkProgram source.toList with ⟨_ | found, t⟩ <;> rw [hfound] at hwalk
  · rfl
  · cases hwalk

theorem parse_of_some {source : String} {v : Checked Program} (h : program source.toList = some v) :
    parse source = v.mapError (BadLiteral.located source.toList) := by
  obtain ⟨ps, c, hwalk, hbuild⟩ := walkProgram_of_some h
  rw [parse]
  rcases hfound : Phrase.walkProgram source.toList with ⟨_ | found, t⟩ <;> rw [hfound] at hwalk
  · cases hwalk
  · cases hwalk
    rw [ofWalk, hbuild]
    cases v <;> rfl

end Program

end Comparand
