import Comparand.Proofs.WellFormed

/-! What folding does to the programs that compile. A branch that is decided against is not looked at, so whatever is
wrong in it is not found: with folding, a program compiles if the rest of it is well-formed. -/
namespace Comparand

namespace Stmt

mutual

/-- A statement with nothing left in the branches that are decided against. -/
@[simp] def prune (o : CompileOptions) : Stmt → GenState → Stmt
  | .cond test body none, g =>
    match foreseen o test g with
    | .ok (some true) => .cond test (pruneList o body g.enter) none
    | .ok (some false) => .cond test [] none
    | _ => .cond test (pruneList o body ((g.labelled "then").labelled "endif").enter) none
  | .cond test body (some otherwise), g =>
    match foreseen o test g with
    | .ok (some true) => .cond test (pruneList o body g.enter) (some [])
    | .ok (some false) => .cond test [] (some (pruneList o otherwise g.enter))
    | _ =>
      .cond test (pruneList o body ((g.labelled "then").labelled "else").enter) (some
        (match Gen.inScope (genList o body) ((g.labelled "then").labelled "else") with
        | .ok (_, after) => pruneList o otherwise { after.labelled "endif" with known := g.known }.enter
        | .error _ => otherwise))
  | s, _ => s

@[simp] def pruneList (o : CompileOptions) : List Stmt → GenState → List Stmt
  | [], _ => []
  | s :: ss, g => s.prune o g ::
    match gen o s g with
    | .ok (_, g) => pruneList o ss g
    | .error _ => ss

end

/-- The statements are well-formed in the context of a state, and take the slots up to those of another. -/
structure Accepted (g : GenState) (ss : List Stmt) (g' : GenState) : Prop where
  wellFormed : AllWellFormed g.scopes.context ss g'.scopes.context
  frame : g'.frame.next = g.frame.next + 8 * declarationsList ss

variable {o : CompileOptions} {g g' : GenState} {code : List Instr} {ctx : Context} {ss : List Stmt} {test : Expr}

theorem accepted_of_inScope (ho : o.lowering = .nanSafe)
    (hss : ∀ ⦃g code g'⦄, genList o ss g = .ok (code, g') → Accepted g (pruneList o ss g) g')
    (h : Gen.inScope (genList o ss) g = .ok (code, g')) :
    (∃ last, AllWellFormed g.scopes.context.enter (pruneList o ss g.enter) last) ∧ g'.scopes = g.scopes ∧
      g'.frame.next = g.frame.next + 8 * declarationsList (pruneList o ss g.enter) := by
  obtain ⟨g₁, hcode, rfl⟩ := Gen.inScope_eq_ok.mp h
  obtain ⟨hwf, hframe⟩ := hss hcode
  rw [Scopes.context_push] at hwf
  exact ⟨⟨_, hwf⟩, (genList_advances ho ss hcode).pop, hframe⟩

theorem isTest_of_decide {e : Expr} {scopes : Scopes} {k : Knowledge} {b : Bool}
    (h : e.decide scopes k = .ok (some b)) : e.IsTest scopes.context := by
  induction e generalizing b with
  | compare op lhs rhs =>
    obtain ⟨c, hc, -⟩ := ok_of_bind h
    exact .compare (Expr.comparable_iff.mpr ⟨c, hc⟩)
  | not e ih =>
    obtain ⟨decided, hdecided, h⟩ := ok_of_bind h
    cases decided with
    | none => cases h
    | some b' => exact .not (ih hdecided)
  | paren e ih => exact .paren (ih h)
  | _ => cases h

/-- Only tests are decided beforehand. -/
theorem isTest_of_foreseen {b : Bool} (h : foreseen o test g = .ok (some b)) : test.IsTest g.scopes.context := by
  unfold foreseen at h
  split at h
  · exact isTest_of_decide h
  · cases h

theorem Accepted.single {s : Stmt} (hwf : WellFormed g.scopes.context s g'.scopes.context)
    (hframe : g'.frame.next = g.frame.next + 8 * s.declarations) : Accepted g [s] g' :=
  ⟨.cons hwf .nil, hframe⟩

/-- Statements without branches are compiled the same way with folding and without it. -/
theorem accepted_of_plain (ho : o.lowering = .nanSafe) {s : Stmt}
    (h : s.gen { o with fold := false } g = .ok (code, g')) : Accepted g [s] g' :=
  .single (wellFormed_of_gen (o := { o with fold := false }) rfl ho s h)
    ((gen_advances (o := { o with fold := false }) ho s h).frame_eq rfl)

theorem accepted_of_cond_none (ho : o.lowering = .nanSafe) {body : List Stmt}
    (hbody : ∀ ⦃g code g'⦄, genList o body g = .ok (code, g') → Accepted g (pruneList o body g) g')
    (h : gen o (.cond test body none) g = .ok (code, g')) : Accepted g [prune o (.cond test body none) g] g' := by
  cases condGen_eq_ok.mp h with
  | @decided b _ _ _ hb hcode =>
    have htest := isTest_of_foreseen hb
    cases b with
    | true =>
      obtain ⟨⟨last, hwf⟩, hscopes, hframe⟩ := accepted_of_inScope ho hbody hcode
      simp only [prune, hb]
      refine .single ?_ hframe
      rw [hscopes]
      exact .cond htest hwf
    | false =>
      cases hcode
      simp only [prune, hb]
      exact .single (.cond htest .nil) rfl
  | @short testCode bodyCode after hopen htest hcode =>
    obtain ⟨⟨last, hwf⟩, hscopes, hframe⟩ := accepted_of_inScope ho hbody hcode
    simp only [prune, hopen]
    refine .single ?_ hframe
    simp only [hscopes]
    exact .cond (Expr.isTest_iff.mpr ⟨_, ho ▸ htest⟩) hwf

theorem accepted_of_cond_some (ho : o.lowering = .nanSafe) {body otherwise : List Stmt}
    (hbody : ∀ ⦃g code g'⦄, genList o body g = .ok (code, g') → Accepted g (pruneList o body g) g')
    (helse : ∀ ⦃g code g'⦄, genList o otherwise g = .ok (code, g') → Accepted g (pruneList o otherwise g) g')
    (h : gen o (.cond test body (some otherwise)) g = .ok (code, g')) :
    Accepted g [prune o (.cond test body (some otherwise)) g] g' := by
  cases condGen_eq_ok.mp h with
  | @decided b _ _ _ hb hcode =>
    have htest := isTest_of_foreseen hb
    cases b with
    | true =>
      obtain ⟨⟨last, hwf⟩, hscopes, hframe⟩ := accepted_of_inScope ho hbody hcode
      simp only [prune, hb]
      refine .single ?_ hframe
      rw [hscopes]
      exact .condElse htest hwf .nil
    | false =>
      obtain ⟨⟨last, hwf⟩, hscopes, hframe⟩ := accepted_of_inScope ho helse hcode
      simp only [prune, hb]
      refine .single ?_ ?_
      · rw [hscopes]
        exact .condElse htest .nil hwf
      · simpa [declarations, declarationsList] using hframe
  | @long testCode bodyCode after _ elseCode last hopen htest hcode hcode' =>
    obtain ⟨⟨last, hwf⟩, hscopes, hframe⟩ := accepted_of_inScope ho hbody hcode
    obtain ⟨⟨last', hwf'⟩, hscopes', hframe'⟩ := accepted_of_inScope ho helse hcode'
    have hctx : after.scopes.context = g.scopes.context := congrArg _ hscopes
    have hwf' : AllWellFormed after.scopes.context.enter _ last' := hwf'
    rw [hctx] at hwf'
    simp only [prune, hopen, hcode]
    refine .single ?_ ?_
    · simp only [hscopes'.trans hscopes]
      exact .condElse (Expr.isTest_iff.mpr ⟨_, ho ▸ htest⟩) hwf hwf'
    · rw [declarations, Nat.mul_add, ← Nat.add_assoc]
      exact hframe'.trans (congrArg (· + _) hframe)

mutual

/-- What is left of a statement that has code is well-formed. -/
theorem accepted_of_gen (ho : o.lowering = .nanSafe) (s : Stmt) ⦃g code g'⦄ (h : s.gen o g = .ok (code, g')) :
    Accepted g [s.prune o g] g' := by
  cases s with
  | cond test body otherwise =>
    cases otherwise with
    | none => exact accepted_of_cond_none ho (accepted_of_genList ho body) h
    | some otherwise =>
      exact accepted_of_cond_some ho (accepted_of_genList ho body) (accepted_of_genList ho otherwise) h
  | _ => exact accepted_of_plain ho h

theorem accepted_of_genList (ho : o.lowering = .nanSafe) (ss : List Stmt) ⦃g code g'⦄
    (h : genList o ss g = .ok (code, g')) : Accepted g (pruneList o ss g) g' := by
  cases ss with
  | nil =>
    cases h
    exact ⟨.nil, rfl⟩
  | cons s ss =>
    obtain ⟨first, g₁, second, hs, hss, -⟩ := Gen.andThen_eq_ok.mp h
    obtain ⟨hwf, hframe⟩ := accepted_of_gen ho s hs
    obtain ⟨hwf', hframe'⟩ := accepted_of_genList ho ss hss
    simp only [pruneList, hs]
    cases hwf with
    | cons hwf hnil =>
      cases hnil
      refine ⟨.cons hwf hwf', ?_⟩
      simp only [declarationsList] at hframe ⊢
      omega

end

/-- Statements have code in a state if what is left of them is well-formed there and its declarations have room. -/
def Compiles (o : CompileOptions) (ss : List Stmt) : Prop :=
  ∀ ⦃g : GenState⦄ ⦃ctx' : Context⦄, AllWellFormed g.scopes.context (pruneList o ss g) ctx' →
    g.frame.next + 8 * declarationsList (pruneList o ss g) ≤ 2048 →
    ∃ code g', genList o ss g = .ok (code, g') ∧ g'.scopes.context = ctx'

theorem Compiles.inScope (hss : Compiles o ss) (ho : o.lowering = .nanSafe) {last : Context} {g : GenState}
    (hwf : AllWellFormed g.scopes.context.enter (pruneList o ss g.enter) last)
    (hframe : g.frame.next + 8 * declarationsList (pruneList o ss g.enter) ≤ 2048) :
    ∃ code g', Gen.inScope (genList o ss) g = .ok (code, g') ∧ g'.scopes = g.scopes := by
  rw [← Scopes.context_push] at hwf
  obtain ⟨code, g₁, hcode, -⟩ := @hss g.enter last hwf hframe
  exact ⟨code, _, Gen.inScope_eq_ok.mpr ⟨g₁, hcode, rfl⟩, (genList_advances ho ss hcode).pop⟩

theorem testCode_of_isTest (ho : o.lowering = .nanSafe) (h : test.IsTest g.scopes.context) (yes no : Label) :
    ∃ code, test.testCode o.lowering g.scopes yes no = .ok code :=
  ho ▸ Expr.isTest_iff.mp h

theorem cond_compiles_none (ho : o.lowering = .nanSafe) {body : List Stmt} (hbody : Compiles o body)
    (h : WellFormed g.scopes.context (prune o (.cond test body none) g) ctx)
    (hframe : g.frame.next + 8 * (prune o (.cond test body none) g).declarations ≤ 2048) :
    ∃ code g', gen o (.cond test body none) g = .ok (code, g') ∧ g'.scopes.context = ctx := by
  cases hb : foreseen o test g with
  | error e =>
    simp only [prune, hb] at h
    cases h with
    | cond htest =>
      obtain ⟨b, hok⟩ := foreseen_ok (o := o) htest
      cases hb.symm.trans hok
  | ok b =>
    rcases b with _ | _ | _ <;> simp only [prune, hb] at h hframe <;> cases h with | cond htest hwf => ?_
    · obtain ⟨testCode, htestCode⟩ := testCode_of_isTest ho htest g.nextLabel (g.labelled "then").nextLabel
      obtain ⟨bodyCode, after, hcode, hscopes⟩ :=
        hbody.inScope ho (g := (g.labelled "then").labelled "endif") hwf hframe
      exact ⟨_, _, condGen_eq_ok.mpr (.short hb htestCode hcode), congrArg Scopes.context hscopes⟩
    · exact ⟨[], g, condGen_eq_ok.mpr (.decided hb rfl), rfl⟩
    · obtain ⟨bodyCode, after, hcode, hscopes⟩ := hbody.inScope ho hwf hframe
      exact ⟨_, _, condGen_eq_ok.mpr (.decided hb hcode), congrArg Scopes.context hscopes⟩

theorem cond_compiles_some (ho : o.lowering = .nanSafe) {body otherwise : List Stmt} (hbody : Compiles o body)
    (helse : Compiles o otherwise)
    (h : WellFormed g.scopes.context (prune o (.cond test body (some otherwise)) g) ctx)
    (hframe : g.frame.next + 8 * (prune o (.cond test body (some otherwise)) g).declarations ≤ 2048) :
    ∃ code g', gen o (.cond test body (some otherwise)) g = .ok (code, g') ∧ g'.scopes.context = ctx := by
  cases hb : foreseen o test g with
  | error e =>
    simp only [prune, hb] at h
    cases h with
    | condElse htest =>
      obtain ⟨b, hok⟩ := foreseen_ok (o := o) htest
      cases hb.symm.trans hok
  | ok b =>
    rcases b with _ | _ | _ <;> simp only [prune, hb, declarations] at h hframe <;>
      cases h with | condElse htest hwf hwf' => ?_
    · obtain ⟨testCode, htestCode⟩ := testCode_of_isTest ho htest g.nextLabel (g.labelled "then").nextLabel
      have hroom : g.frame.next +
          8 * declarationsList (pruneList o body ((g.labelled "then").labelled "else").enter) ≤ 2048 := by omega
      obtain ⟨bodyCode, after, hcode, hscopes⟩ :=
        hbody.inScope ho (g := (g.labelled "then").labelled "else") hwf hroom
      -- the frame is as large as the body says, since the body has code
      obtain ⟨-, -, hafter⟩ := accepted_of_inScope ho (accepted_of_genList ho body) hcode
      simp only [hcode] at hwf' hframe
      have hctx : after.scopes.context = g.scopes.context := congrArg _ hscopes
      rw [← hctx] at hwf'
      rw [Nat.mul_add, ← Nat.add_assoc] at hframe
      obtain ⟨elseCode, last, hcode', hscopes'⟩ :=
        helse.inScope ho (g := { after.labelled "endif" with known := g.known }) hwf'
          (Nat.le_trans (Nat.add_le_add_right (Nat.le_of_eq hafter) _) hframe)
      exact ⟨_, _, condGen_eq_ok.mpr (.long hb htestCode hcode hcode'),
        congrArg Scopes.context (hscopes'.trans hscopes)⟩
    · obtain ⟨elseCode, last, hcode, hscopes⟩ := helse.inScope ho hwf' (by simpa [declarationsList] using hframe)
      exact ⟨_, _, condGen_eq_ok.mpr (.decided hb hcode), congrArg Scopes.context hscopes⟩
    · obtain ⟨bodyCode, after, hcode, hscopes⟩ := hbody.inScope ho hwf hframe
      exact ⟨_, _, condGen_eq_ok.mpr (.decided hb hcode), congrArg Scopes.context hscopes⟩

mutual

theorem gen_of_pruned (ho : o.lowering = .nanSafe) (s : Stmt) ⦃g : GenState⦄ ⦃ctx : Context⦄
    (h : WellFormed g.scopes.context (s.prune o g) ctx)
    (hframe : g.frame.next + 8 * (s.prune o g).declarations ≤ 2048) :
    ∃ code g', s.gen o g = .ok (code, g') ∧ g'.scopes.context = ctx := by
  cases s with
  | cond test body otherwise =>
    cases otherwise with
    | none => exact cond_compiles_none ho (genList_compiles ho body) h hframe
    | some otherwise => exact cond_compiles_some ho (genList_compiles ho body) (genList_compiles ho otherwise) h hframe
  | _ => exact gen_of_wellFormed ho _ h hframe

theorem genList_compiles (ho : o.lowering = .nanSafe) (ss : List Stmt) : Compiles o ss := by
  intro g ctx h hframe
  cases ss with
  | nil =>
    cases h
    exact ⟨[], g, rfl, rfl⟩
  | cons s ss =>
    cases h with
    | @cons _ _ ctx₁ _ _ hs hss =>
      simp only [pruneList, declarationsList] at hframe
      obtain ⟨first, g₁, hfirst, rfl⟩ := gen_of_pruned ho s hs (by omega)
      have hgrowth := (accepted_of_gen ho s hfirst).frame
      simp only [declarationsList] at hgrowth
      simp only [hfirst] at hss hframe
      obtain ⟨second, g', hsecond, rfl⟩ := genList_compiles ho ss hss (by omega)
      exact ⟨_, g', Gen.andThen_eq_ok.mpr ⟨first, g₁, second, hfirst, hsecond, rfl⟩, rfl⟩

end

end Stmt

namespace Program

/-- A program without the contents of the branches that are decided against. -/
def pruned (p : Program) (o : CompileOptions) : Program := { p with body := Stmt.pruneList o p.body {} }

theorem compile_isOk_iff_pruned {o : CompileOptions} (ho : o.lowering = .nanSafe) (p : Program) :
    (∃ r, p.compile o = .ok r) ↔ (p.pruned o).WellFormed := by
  constructor
  · rintro ⟨r, h⟩
    obtain ⟨code, g, hcode, -⟩ := compile_eq_ok.mp h
    obtain ⟨hwf, hframe⟩ := Stmt.accepted_of_genList ho p.body hcode
    have hreach := ((Stmt.genList_advances ho p.body hcode).sound ⟨rfl, Nat.zero_le _⟩).reachable
    refine ⟨⟨_, hwf⟩, ?_⟩
    simp only [pruned] at hframe ⊢
    omega
  · rintro ⟨⟨last, hbody⟩, hdeclarations⟩
    simp only [pruned] at hbody hdeclarations
    obtain ⟨code, g, hcode, -⟩ := @Stmt.genList_compiles o ho p.body {} last hbody (by simp only; omega)
    exact ⟨_, compile_eq_ok.mpr ⟨code, g, hcode, rfl⟩⟩

/-- With folding, a program compiles if and only if it does so without, once the branches that folding decides against
are emptied. So folding has no say in what compiles exactly if those branches hold nothing that is ill-formed. -/
theorem compile_fold_isOk_iff (p : Program) :
    ((∃ r, p.compile { fold := true, lowering := .nanSafe } = .ok r) ↔
      ∃ r, (p.pruned { fold := true, lowering := .nanSafe }).compile { fold := false, lowering := .nanSafe } = .ok r) ∧
    (((∃ r, p.compile { fold := true, lowering := .nanSafe } = .ok r) ↔
        ∃ r, p.compile { fold := false, lowering := .nanSafe } = .ok r) ↔
      ((p.pruned { fold := true, lowering := .nanSafe }).WellFormed → p.WellFormed)) := by
  have hfold := p.compile_isOk_iff_pruned (o := { fold := true, lowering := .nanSafe }) rfl
  have hplain (q : Program) : (∃ r, q.compile { fold := false, lowering := .nanSafe } = .ok r) ↔ q.WellFormed :=
    ⟨fun ⟨_, h⟩ => wellFormed_of_compile rfl rfl h, compile_of_wellFormed rfl⟩
  rw [hfold, hplain, hplain]
  refine ⟨Iff.rfl, Iff.mp, fun h => ⟨h, fun hwf => ?_⟩⟩
  exact hfold.mp (compile_of_wellFormed rfl hwf)

/-- A name that is declared nowhere, in a branch that is never taken. -/
def deadBranch : Program where
  package := none
  name := "main"
  body := [
    .cond (.compare .eq (.literal (.int 0)) (.literal (.int 1))) [.assign "x" (.literal (.int 1))] none,
    .exit (.literal (.int 0))]

/-- The name is missed only without folding. -/
theorem compile_fold_deadBranch :
    (∃ r, deadBranch.compile { fold := true, lowering := .nanSafe } = .ok r) ∧
      deadBranch.compile { fold := false, lowering := .nanSafe } = .error (.notFound "x") := by
  have hfold : (deadBranch.compile { fold := true, lowering := .nanSafe }).toOption.any (fun _ => true) = true := by
    decide
  obtain ⟨r, h, -⟩ := ok_of_any hfold
  exact ⟨⟨r, h⟩, rfl⟩

end Program
end Comparand
