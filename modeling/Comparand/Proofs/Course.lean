import Comparand.Proofs.Allocation

/-! The course of compilation: the order in which statements are compiled, where compilation is between two of them, and
how a fact about single statements becomes one about all. -/
namespace Comparand

namespace Stmt

variable {o : CompileOptions} {g g₁ g' : GenState} {code : List Instr} {ss : List Stmt} {s : Stmt}

def isCond : Stmt → Bool
  | .cond .. => true
  | _ => false

/-- What a statement other than `if` does to the state. -/
inductive Effect : Stmt → GenState → GenState → Prop where
  | declare {s x ty slot kept g g'} (hx : s.declared? = some x)
      (h : g.Declares x ⟨.scalar ty, slot⟩ (g.known.set slot kept) g') : Effect s g g'
  | new {s x ty cell g g'} (hx : s.declared? = some x)
      (h : g.Declares x ⟨.pointer ty, cell⟩ ((g.known.registerCell cell).set cell (some ty.zero)) g') : Effect s g g'
  | assign {s x ty slot kept g} (hx : g.scopes.lookup? x = some ⟨.scalar ty, slot⟩) :
      Effect s g { g with known := g.known.set slot kept }
  | store {x e ty cell kept g} (hx : g.scopes.lookup? x = some ⟨.pointer ty, cell⟩) :
      Effect (.store x e) g { g with known := g.known.storeThrough cell kept }
  | exit {e g} : Effect (.exit e) g { g with known := g.known.markUnreachable }

theorem effect_of_gen (hplain : s.isCond = false) (h : s.gen o g = .ok (code, g')) : Effect s g g' := by
  cases s with
  | define x e =>
    by_cases he : ∃ ty, e.unparen = .new ty
    · obtain ⟨ty, he⟩ := he
      obtain ⟨cell, -, hdeclares⟩ := (defineGen_new he).mp h
      exact .new rfl hdeclares
    · obtain ⟨v, slot, kept, -, -, hdeclares⟩ := (defineGen_value fun ty hty => he ⟨ty, hty⟩).mp h
      exact .declare rfl hdeclares
  | var x ty init =>
    cases init with
    | none =>
      obtain ⟨slot, -, hdeclares⟩ := varGen_none.mp h
      exact .declare rfl hdeclares
    | some e =>
      obtain ⟨v, slot, kept, -, -, hdeclares⟩ := varGen_some.mp h
      exact .declare rfl hdeclares
  | assign x e =>
    obtain ⟨ty, slot, v, kept, hx, -, -, rfl⟩ := assignGen_eq_ok.mp h
    exact .assign hx
  | store x e =>
    obtain ⟨ty, cell, v, kept, hx, -, -, rfl⟩ := storeGen_eq_ok.mp h
    exact .store hx
  | inc x | dec x =>
    obtain ⟨slot, hx, -, rfl⟩ := stepGen_eq_ok.mp h
    exact .assign hx
  | exit e =>
    obtain ⟨v, -, -, rfl⟩ := exitGen_eq_ok.mp h
    exact .exit
  | cond test body otherwise => cases hplain

theorem Effect.enclosing (h : Effect s g g') : g'.scopes.enclosing = g.scopes.enclosing := by
  cases h with
  | declare _ h | new _ h => rw [h.state]
  | assign | store | exit => rfl

theorem scopes_of_inScope {a : Gen}
    (ha : ∀ ⦃g code g'⦄, a g = .ok (code, g') → g'.scopes.enclosing = g.scopes.enclosing)
    (h : a.inScope g = .ok (code, g')) : g'.scopes = g.scopes := by
  obtain ⟨g₁, hbody, rfl⟩ := Gen.inScope_eq_ok.mp h
  have henclosing : g₁.scopes.enclosing = g.scopes.current :: g.scopes.enclosing := ha hbody
  simp only [Scopes.pop, henclosing]

mutual

theorem gen_enclosing (s : Stmt) ⦃g code g'⦄ (h : s.gen o g = .ok (code, g')) :
    g'.scopes.enclosing = g.scopes.enclosing := by
  cases s with
  | cond test body otherwise =>
    cases otherwise with
    | none =>
      cases condGen_eq_ok.mp h with
      | @decided b _ _ _ hb hcode =>
        cases b with
        | true => rw [scopes_of_inScope (genList_enclosing body) hcode]
        | false =>
          cases hcode
          rfl
      | short hopen htest hbody =>
        have hafter := scopes_of_inScope (genList_enclosing body) hbody
        exact congrArg Scopes.enclosing hafter
    | some otherwise =>
      cases condGen_eq_ok.mp h with
      | @decided b _ _ _ hb hcode =>
        cases b with
        | true => rw [scopes_of_inScope (genList_enclosing body) hcode]
        | false => rw [scopes_of_inScope (genList_enclosing otherwise) hcode]
      | long hopen htest hbody helse =>
        have hafter := scopes_of_inScope (genList_enclosing body) hbody
        have hlast := scopes_of_inScope (genList_enclosing otherwise) helse
        exact congrArg Scopes.enclosing (hlast.trans hafter)
  | _ => exact (effect_of_gen rfl h).enclosing

theorem genList_enclosing (ss : List Stmt) ⦃g code g'⦄ (h : genList o ss g = .ok (code, g')) :
    g'.scopes.enclosing = g.scopes.enclosing := by
  cases ss with
  | nil =>
    cases h
    rfl
  | cons s ss =>
    obtain ⟨first, g₁, second, hs, hss, -⟩ := Gen.andThen_eq_ok.mp h
    exact (genList_enclosing ss hss).trans (gen_enclosing s hs)

end

theorem block_scopes (ss : List Stmt) (h : Gen.inScope (genList o ss) g = .ok (code, g')) : g'.scopes = g.scopes :=
  scopes_of_inScope (genList_enclosing ss) h

/-- After a block the names are those from before it, whatever lowering is used. -/
theorem block_eq_ok (h : Gen.inScope (genList o ss) g = .ok (code, g')) :
    ∃ g₁, genList o ss g.enter = .ok (code, g₁) ∧ g' = { g₁ with scopes := g.scopes } := by
  have hscopes := block_scopes ss h
  obtain ⟨g₁, hss, rfl⟩ := Gen.inScope_eq_ok.mp h
  exact ⟨g₁, hss, by rw [← hscopes]⟩

/-- A relation between the states before and after compiling something, and the statements compiled meanwhile, that is
kept when compilation is put together from its parts. -/
structure Compositional (o : CompileOptions) (R : List (Stmt × GenState) → GenState → GenState → Prop) : Prop where
  nothing : ∀ g, R [] g g
  plain : ∀ ⦃s g code g'⦄, s.isCond = false → s.gen o g = .ok (code, g') → R [(s, g)] g g'
  append : ∀ ⦃visited more g g₁ g'⦄, R visited g g₁ → R more g₁ g' → R (visited ++ more) g g'
  cond : ∀ ⦃test body otherwise visited g g'⦄, R visited g g' → R ((.cond test body otherwise, g) :: visited) g g'
  enter : ∀ g, R [] g g.enter
  block : ∀ ⦃visited g g'⦄, R visited g.enter g' → R visited g { g' with scopes := g.scopes }
  labelled : ∀ ⦃visited g g'⦄ (hint : String), R visited (g.labelled hint) g' → R visited g g'
  /-- Between two branches: the second starts with what was known before the first. -/
  restore : ∀ ⦃visited g g'⦄, g'.scopes = g.scopes → R visited g g' → R visited g { g' with known := g.known }
  /-- Past a branch that may not have been taken. -/
  short : ∀ ⦃visited g g'⦄, g'.scopes = g.scopes → R visited g g' →
    R visited g { g' with known := g'.known.merge g.known }
  /-- Past two branches of which one was taken. -/
  long : ∀ ⦃visited more g g₁ g'⦄, g₁.scopes = g.scopes → g'.scopes = g.scopes → R visited g g₁ →
    R more { g₁ with known := g.known } g' → R (visited ++ more) g { g' with known := g₁.known.merge g'.known }

variable {R : List (Stmt × GenState) → GenState → GenState → Prop}

theorem Compositional.inScope (hR : Compositional o R)
    (hss : ∀ ⦃g code g'⦄, genList o ss g = .ok (code, g') → R (visitsList o ss g) g g')
    (h : Gen.inScope (genList o ss) g = .ok (code, g')) : R (visitsList o ss g.enter) g g' := by
  obtain ⟨g₁, hbody, rfl⟩ := block_eq_ok h
  exact hR.block (hss hbody)

theorem Compositional.cond_none (hR : Compositional o R) {test : Expr} {body : List Stmt}
    (hbody : ∀ ⦃g code g'⦄, genList o body g = .ok (code, g') → R (visitsList o body g) g g')
    (h : gen o (.cond test body none) g = .ok (code, g')) : R (visits o (.cond test body none) g) g g' := by
  cases condGen_eq_ok.mp h with
  | @decided b _ _ _ hb hcode =>
    simp only [visits, hb]
    cases b with
    | true => exact hR.cond (hR.inScope hbody hcode)
    | false =>
      cases hcode
      exact hR.cond (hR.nothing g)
  | short hopen htest hcode =>
    simp only [visits, hopen]
    have hafter := hR.labelled "then" (hR.labelled "endif" (hR.inScope hbody hcode))
    have hscopes := block_scopes body hcode
    exact hR.cond (hR.short hscopes hafter)

theorem Compositional.cond_some (hR : Compositional o R) {test : Expr} {body otherwise : List Stmt}
    (hbody : ∀ ⦃g code g'⦄, genList o body g = .ok (code, g') → R (visitsList o body g) g g')
    (helse : ∀ ⦃g code g'⦄, genList o otherwise g = .ok (code, g') → R (visitsList o otherwise g) g g')
    (h : gen o (.cond test body (some otherwise)) g = .ok (code, g')) :
    R (visits o (.cond test body (some otherwise)) g) g g' := by
  cases condGen_eq_ok.mp h with
  | @decided b _ _ _ hb hcode =>
    simp only [visits, hb]
    cases b with
    | true => exact hR.cond (hR.inScope hbody hcode)
    | false => exact hR.cond (hR.inScope helse hcode)
  | @long _ _ after _ _ last hopen htest hcode hcode' =>
    simp only [visits, hopen, hcode]
    have hafter := hR.labelled "then" (hR.labelled "else" (hR.inScope hbody hcode))
    have hlast : R _ { after with known := g.known } last := hR.labelled "endif" (hR.inScope helse hcode')
    have hscopes := block_scopes body hcode
    have hscopes' := block_scopes otherwise hcode'
    exact hR.cond (hR.long hscopes (hscopes'.trans hscopes) hafter hlast)

mutual

theorem Compositional.gen (hR : Compositional o R) (s : Stmt) ⦃g code g'⦄ (h : s.gen o g = .ok (code, g')) :
    R (s.visits o g) g g' := by
  cases s with
  | cond test body otherwise =>
    cases otherwise with
    | none => exact hR.cond_none (hR.genList body) h
    | some otherwise => exact hR.cond_some (hR.genList body) (hR.genList otherwise) h
  | _ => exact hR.plain rfl h

theorem Compositional.genList (hR : Compositional o R) (ss : List Stmt) ⦃g code g'⦄
    (h : genList o ss g = .ok (code, g')) : R (visitsList o ss g) g g' := by
  cases ss with
  | nil =>
    cases h
    exact hR.nothing g
  | cons s ss =>
    obtain ⟨first, g₁, second, hs, hss, -⟩ := Gen.andThen_eq_ok.mp h
    simp only [visitsList, hs]
    exact hR.append (hR.gen s hs) (hR.genList ss hss)

end

/-! Places between statements -/

/-- From the start of a block, compilation has come to `ss`, the rest of this block or of one inside it. It is in the
state given last, and `trace` has the statements compiled since, those around `ss` among them. -/
inductive Reached (o : CompileOptions) (block : List Stmt) (start : GenState) :
    List (Stmt × GenState) → List Stmt → GenState → Prop where
  | start : Reached o block start [] block start
  | next {trace s ss g code g'} (h : Reached o block start trace (s :: ss) g) (hs : s.gen o g = .ok (code, g')) :
      Reached o block start (trace ++ s.visits o g) ss g'
  | body {trace test body otherwise ss g} (h : Reached o block start trace (.cond test body otherwise :: ss) g)
      (hopen : foreseen o test g = .ok none) :
      Reached o block start (trace ++ [(.cond test body otherwise, g)]) body
        ((g.labelled "then").labelled (if otherwise.isSome then "else" else "endif")).enter
  | otherwise {trace test body otherwise ss g code after}
      (h : Reached o block start trace (.cond test body (some otherwise) :: ss) g)
      (hopen : foreseen o test g = .ok none)
      (hbody : Gen.inScope (genList o body) ((g.labelled "then").labelled "else") = .ok (code, after)) :
      Reached o block start
        (trace ++ (.cond test body (some otherwise), g) ::
          visitsList o body ((g.labelled "then").labelled "else").enter)
        otherwise { after.labelled "endif" with known := g.known }.enter
  /-- The only branch left. -/
  | taken {trace test body otherwise ss g} (h : Reached o block start trace (.cond test body otherwise :: ss) g)
      (hb : foreseen o test g = .ok (some true)) :
      Reached o block start (trace ++ [(.cond test body otherwise, g)]) body g.enter
  | refused {trace test body otherwise ss g}
      (h : Reached o block start trace (.cond test body (some otherwise) :: ss) g)
      (hb : foreseen o test g = .ok (some false)) :
      Reached o block start (trace ++ [(.cond test body (some otherwise), g)]) otherwise g.enter

variable {block rest : List Stmt} {start mid last : GenState} {trace more : List (Stmt × GenState)}
  {whole : List Instr}

theorem Reached.trans (h : Reached o block start trace rest mid) (h' : Reached o rest mid more ss g) :
    Reached o block start (trace ++ more) ss g := by
  induction h' with
  | start => simpa using h
  | next _ hs ih => simpa using ih.next hs
  | body _ hopen ih => simpa using ih.body hopen
  | otherwise _ hopen hbody ih => simpa using ih.otherwise hopen hbody
  | taken _ hb ih => simpa using ih.taken hb
  | refused _ hb ih => simpa using ih.refused hb

/-- Past the first statements of a block. -/
theorem reached_of_genList (first : List Stmt) (h : genList o first start = .ok (code, g)) :
    Reached o (first ++ rest) start (visitsList o first start) rest g := by
  induction first generalizing start code with
  | nil =>
    cases h
    exact .start
  | cons s first ih =>
    obtain ⟨code₁, g₁, code₂, hs, hfirst, rfl⟩ := Gen.andThen_eq_ok.mp h
    simp only [visitsList, hs]
    have hone : Reached o (s :: first ++ rest) start _ _ g₁ := Reached.start.next hs
    exact hone.trans (ih hfirst)

theorem Compositional.label (hR : Compositional o R) (g : GenState) (hint : String) : R [] g (g.labelled hint) :=
  hR.labelled hint (hR.nothing _)

theorem Compositional.branch (hR : Compositional o R) (h : R trace start g) (test : Expr) (body : List Stmt)
    (otherwise : Option (List Stmt)) : R (trace ++ [(.cond test body otherwise, g)]) start g :=
  hR.append h (hR.cond (hR.nothing g))

/-- What holds of all that is put together holds up to every place that compilation comes to. -/
theorem Reached.related (h : Reached o block start trace ss g) (hR : Compositional o R) : R trace start g := by
  induction h with
  | start => exact hR.nothing start
  | next _ hs ih => exact hR.append ih (hR.gen _ hs)
  | @body _ test body otherwise _ g _ _ ih =>
    have hlabels := hR.append (hR.label g "then") (hR.label _ (if otherwise.isSome then "else" else "endif"))
    simpa using hR.append (hR.branch ih test body otherwise) (hR.append hlabels (hR.enter _))
  | @otherwise _ test body otherwise _ g _ after _ _ hbody ih =>
    have hafter := hR.labelled "then" (hR.labelled "else" (hR.inScope (hR.genList body) hbody))
    have hscopes : after.scopes = g.scopes := by
      have hafter := block_scopes body hbody
      exact hafter
    have hdone : R (_ ++ ([] ++ [])) g { after.labelled "endif" with known := g.known }.enter :=
      hR.append (hR.restore hscopes hafter) (hR.append (hR.label _ "endif") (hR.enter _))
    simpa using hR.append (hR.branch ih test body (some otherwise)) hdone
  | @taken _ test body otherwise _ g _ _ ih =>
    simpa using hR.append (hR.branch ih test body otherwise) (hR.enter g)
  | @refused _ test body otherwise _ g _ _ ih =>
    simpa using hR.append (hR.branch ih test body (some otherwise)) (hR.enter g)

theorem split_at_visit {l m before after : List (Stmt × GenState)} {visit : Stmt × GenState}
    (h : l ++ m = before ++ visit :: after) :
    (∃ rest, l = before ++ visit :: rest) ∨ ∃ more, before = l ++ more ∧ m = more ++ visit :: after := by
  rcases List.append_eq_append_iff.mp h with ⟨more, hbefore, hm⟩ | ⟨rest, hl, hrest⟩
  · exact .inr ⟨more, hbefore, hm⟩
  · cases rest with
    | nil => exact .inr ⟨[], by simpa using hl.symm, hrest.symm⟩
    | cons first rest =>
      obtain ⟨rfl, -⟩ := List.cons.inj hrest
      exact .inl ⟨rest, hl⟩

mutual

/-- Compilation comes to every statement that it visits, after those visited before. -/
theorem Reached.visits (s : Stmt) ⦃trace ss g⦄ (h : Reached o block start trace (s :: ss) g)
    ⦃before visit after⦄ (hs : Stmt.visits o s g = before ++ visit :: after) :
    ∃ more, Reached o block start (trace ++ before) (visit.1 :: more) visit.2 := by
  have hself : ∀ tail, (s, g) :: tail = before ++ visit :: after →
      (∀ more, tail = more ++ visit :: after →
        ∃ ss, Reached o block start (trace ++ (s, g) :: more) (visit.1 :: ss) visit.2) →
      ∃ ss, Reached o block start (trace ++ before) (visit.1 :: ss) visit.2 := by
    intro tail htail hmore
    rcases List.cons_eq_append_iff.mp htail with ⟨rfl, hvisit⟩ | ⟨more, rfl, hrest⟩
    · obtain ⟨rfl, -⟩ := List.cons.inj hvisit
      exact ⟨ss, by simpa using h⟩
    · exact hmore more hrest
  cases s with
  | cond test body otherwise =>
    cases otherwise with
    | none =>
      refine hself _ hs fun more hmore => ?_
      split at hmore
      next hopen => simpa using Reached.visitsList body (h.body hopen) hmore
      next hb => simpa using Reached.visitsList body (h.taken hb) hmore
      next => simp at hmore
    | some otherwise =>
      refine hself _ hs fun more hmore => ?_
      split at hmore
      next hopen =>
        rcases split_at_visit hmore with ⟨rest, hbody⟩ | ⟨more, rfl, helse⟩
        · simpa using Reached.visitsList body (h.body hopen) hbody
        · split at helse
          next hbody => simpa using Reached.visitsList otherwise (h.otherwise hopen hbody) helse
          next => simp at helse
      next hb => simpa using Reached.visitsList body (h.taken hb) hmore
      next hb => simpa using Reached.visitsList otherwise (h.refused hb) hmore
      next => simp at hmore
  | _ => exact hself [] hs fun more hmore => by simp at hmore

theorem Reached.visitsList (ss : List Stmt) ⦃trace g⦄ (h : Reached o block start trace ss g)
    ⦃before visit after⦄ (hs : Stmt.visitsList o ss g = before ++ visit :: after) :
    ∃ more, Reached o block start (trace ++ before) (visit.1 :: more) visit.2 := by
  cases ss with
  | nil => simp [Stmt.visitsList] at hs
  | cons s ss =>
    rcases split_at_visit hs with ⟨rest, hfirst⟩ | ⟨more, rfl, hrest⟩
    · exact Reached.visits s h hfirst
    · split at hrest
      next hgen => simpa using Reached.visitsList ss (h.next hgen) hrest
      next => simp at hrest

end

/-- The code that is left to make is a part of the code of the whole block, and the declarations compiled so far have
the slots that the frame has grown by. -/
structure Underway (o : CompileOptions) (start : GenState) (whole : List Instr) (trace : List (Stmt × GenState))
    (ss : List Stmt) (g : GenState) : Prop where
  code : ∃ code last, genList o ss g = .ok (code, last) ∧ code <:+: whole
  lays : Lays o trace start whole g

theorem Lays.snoc_cond (h : Lays o trace start whole g) (test : Expr) (body : List Stmt)
    (otherwise : Option (List Stmt)) : Lays o (trace ++ [(.cond test body otherwise, g)]) start whole g :=
  h.append (.none rfl rfl)

theorem thenBranch_within (testCode bodyCode rest : List Instr) (yes : Label) :
    bodyCode <:+: testCode ++ .label yes :: bodyCode ++ rest :=
  ⟨testCode ++ [.label yes], rest, by simp⟩

theorem elseBranch_within (testCode bodyCode elseCode : List Instr) (yes no done : Label) :
    elseCode <:+: testCode ++ .label yes :: bodyCode ++ .jump done :: .label no :: elseCode ++ [.label done] :=
  ⟨testCode ++ .label yes :: bodyCode ++ [.jump done, .label no], [.label done], by simp⟩

/-- What is left of a block into which compilation enters. -/
theorem underway_block {code : List Instr} (h : Gen.inScope (genList o ss) g = .ok (code, g')) (hin : code <:+: whole)
    (hlays : Lays o trace start whole g) : Underway o start whole trace ss g.enter := by
  obtain ⟨g₁, hss, -⟩ := block_eq_ok h
  exact ⟨⟨code, g₁, hss, hin⟩, hlays.frame, hlays.takes⟩

theorem Underway.cond {test : Expr} {body : List Stmt} {otherwise : Option (List Stmt)}
    (h : Underway o start whole trace (.cond test body otherwise :: ss) g) :
    ∃ code g', CondCode o test (genList o body) g (otherwise.map (genList o)) code g' ∧ code <:+: whole := by
  obtain ⟨code, last, hcode, hin⟩ := h.code
  obtain ⟨first, g₁, second, hfirst, -, rfl⟩ := Gen.andThen_eq_ok.mp hcode
  refine ⟨first, g₁, condGen_eq_ok.mp ?_, (List.prefix_append ..).isInfix.trans hin⟩
  cases otherwise <;> exact hfirst

theorem Reached.underway (h : Reached o block start trace ss g) (hblock : genList o block start = .ok (whole, last)) :
    Underway o start whole trace ss g := by
  induction h with
  | start => exact ⟨⟨whole, last, hblock, List.infix_rfl⟩, .none rfl rfl⟩
  | @next trace s ss g code g' _ hs ih =>
    obtain ⟨code, last, hcode, hin⟩ := ih.code
    obtain ⟨first, g₁, second, hfirst, hsecond, rfl⟩ := Gen.andThen_eq_ok.mp hcode
    cases hs.symm.trans hfirst
    refine ⟨⟨second, last, hsecond, (List.suffix_append ..).isInfix.trans hin⟩, ih.lays.append ?_⟩
    exact (gen_laid s hs).mono ((List.prefix_append ..).isInfix.trans hin)
  | @body _ test body otherwise _ g _ hopen ih =>
    obtain ⟨code, g', hcode, hin⟩ := ih.cond
    have hlays := ih.lays.snoc_cond test body otherwise
    cases otherwise with
    | none =>
      cases hcode with
      | decided hb _ => cases hopen.symm.trans hb
      | short _ _ hbody => exact underway_block hbody ((thenBranch_within ..).trans hin) ⟨hlays.frame, hlays.takes⟩
    | some otherwise =>
      cases hcode with
      | decided hb _ => cases hopen.symm.trans hb
      | long _ _ hbody _ =>
        rw [List.append_assoc] at hin
        exact underway_block hbody ((thenBranch_within ..).trans hin) ⟨hlays.frame, hlays.takes⟩
  | @otherwise _ test body otherwise _ g _ _ _ hopen hbody ih =>
    obtain ⟨code, g', hcode, hin⟩ := ih.cond
    cases hcode with
    | decided hb _ => cases hopen.symm.trans hb
    | long _ _ hbody' helse =>
      cases hbody.symm.trans hbody'
      have hfirst := List.append_assoc .. ▸ hin
      have hlays := (lays_of_inScope hbody (genList_laid body)).mono ((thenBranch_within ..).trans hfirst)
      have hbranch : Lays o ((.cond test body (some otherwise), g) :: Stmt.visitsList o body _) g whole _ :=
        .branch ⟨hlays.frame, hlays.takes⟩
      have htrace := ih.lays.append hbranch
      exact underway_block helse ((elseBranch_within ..).trans hin) ⟨htrace.frame, htrace.takes⟩
  | @taken _ test body otherwise _ g _ hb ih =>
    obtain ⟨code, g', hcode, hin⟩ := ih.cond
    have hlays := ih.lays.snoc_cond test body otherwise
    generalize otherwise.map (genList o) = alternative at hcode
    cases hcode with
    | decided hb' hcode =>
      cases hb.symm.trans hb'
      exact underway_block hcode hin hlays
    | short hopen => cases hopen.symm.trans hb
    | long hopen => cases hopen.symm.trans hb
  | @refused _ test body otherwise _ g _ hb ih =>
    obtain ⟨code, g', hcode, hin⟩ := ih.cond
    have hlays := ih.lays.snoc_cond test body (some otherwise)
    cases hcode with
    | decided hb' hcode =>
      cases hb.symm.trans hb'
      exact underway_block hcode hin hlays
    | long hopen => cases hopen.symm.trans hb

/-! What declarations stand for -/

/-- A declaration makes its name stand for a variable or a cell. Only `new` makes a cell. -/
def Declared (o : CompileOptions) (visit : Stmt × GenState) (symbol : Symbol) : Prop :=
  ∃ x code g, visit.1.declared? = some x ∧ visit.1.gen o visit.2 = .ok (code, g) ∧ g.scopes.lookup? x = some symbol

variable {visit visit' : Stmt × GenState} {symbol symbol' : Symbol} {offset : Nat}

theorem Declared.takes (h : Declared o visit symbol) (ht : Takes o whole visit offset) :
    symbol.slot.offset = offset := by
  obtain ⟨x, code, g, hx, hgen, hsymbol⟩ := h
  obtain ⟨x', code', g', symbol', hx', hgen', hsymbol', hoffset, -⟩ := ht
  cases hx.symm.trans hx'
  cases hgen.symm.trans hgen'
  cases hsymbol.symm.trans hsymbol'
  exact hoffset

theorem Declared.unique (h : Declared o visit symbol) (h' : Declared o visit symbol') : symbol = symbol' := by
  obtain ⟨x, code, g, hx, hgen, hsymbol⟩ := h
  obtain ⟨x', code', g', hx', hgen', hsymbol'⟩ := h'
  cases hx.symm.trans hx'
  cases hgen.symm.trans hgen'
  exact Option.some.inj (hsymbol.symm.trans hsymbol')

theorem Declared.mem (h : Declared o visit symbol) (hvisit : visit ∈ trace) : visit ∈ declaring trace := by
  obtain ⟨x, -, -, hx, -⟩ := h
  exact List.mem_filter.mpr ⟨hvisit, by simp [hx]⟩

theorem Declares.declared {x : String} {known : Knowledge} (h : g.Declares x symbol known g')
    (hx : s.declared? = some x) (hgen : s.gen o g = .ok (code, g')) : Declared o (s, g) symbol := by
  refine ⟨x, code, g', hx, hgen, ?_⟩
  rw [h.state, Scopes.lookup?_eq, List.cons_append, List.lookup_cons_self]

/-- Declarations have slots in the order in which they were compiled. -/
theorem Lays.slot_eq (h : Lays o trace start whole g) (hv : visit ∈ trace) (hd : Declared o visit symbol) :
    ∃ i, (declaring trace)[i]? = some visit ∧ symbol.slot.offset = (start.frame.next + 8 * i : Nat) := by
  obtain ⟨i, hi, rfl⟩ := List.mem_iff_getElem.mp (hd.mem hv)
  have htakes := h.takes.get hi (by simpa using hi)
  refine ⟨i, List.getElem?_eq_getElem hi, ?_⟩
  simpa using hd.takes htakes

/-- Two declarations with one slot are the same. -/
theorem Lays.slot_unique (h : Lays o trace start whole g) (hv : visit ∈ trace) (hv' : visit' ∈ trace)
    (hd : Declared o visit symbol) (hd' : Declared o visit' symbol') (hslot : symbol.slot = symbol'.slot) :
    symbol = symbol' := by
  obtain ⟨i, hi, hoffset⟩ := h.slot_eq hv hd
  obtain ⟨j, hj, hoffset'⟩ := h.slot_eq hv' hd'
  obtain rfl : i = j := by
    rw [hslot] at hoffset
    omega
  cases hi.symm.trans hj
  exact hd.unique hd'

/-- The slots of declarations are in the frame. -/
theorem Lays.slot_lt (h : Lays o trace start whole g) (hv : visit ∈ trace) (hd : Declared o visit symbol) :
    symbol.slot.offset < g.frame.next := by
  obtain ⟨i, hi, hoffset⟩ := h.slot_eq hv hd
  obtain ⟨hlt, -⟩ := List.getElem?_eq_some_iff.mp hi
  rw [h.frame, hoffset]
  omega

end Stmt
end Comparand
