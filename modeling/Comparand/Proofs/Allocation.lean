import Mathlib.Data.List.Forall2
import Comparand.Proofs.Shape

/-! Which statements are compiled, and the slots that declarations among them take. -/
namespace Comparand

namespace Stmt

mutual

/-- The statements that code is made for, each with the state it is compiled in. A branch that is decided against is
not among them. -/
def visits (o : CompileOptions) : Stmt → GenState → List (Stmt × GenState)
  | .cond test body none, g => (.cond test body none, g) ::
    match foreseen o test g with
    | .ok none => visitsList o body ((g.labelled "then").labelled "endif").enter
    | .ok (some true) => visitsList o body g.enter
    | _ => []
  | .cond test body (some otherwise), g => (.cond test body (some otherwise), g) ::
    match foreseen o test g with
    | .ok none =>
      visitsList o body ((g.labelled "then").labelled "else").enter ++
        match Gen.inScope (genList o body) ((g.labelled "then").labelled "else") with
        | .ok (_, after) => visitsList o otherwise { after.labelled "endif" with known := g.known }.enter
        | .error _ => []
    | .ok (some true) => visitsList o body g.enter
    | .ok (some false) => visitsList o otherwise g.enter
    | .error _ => []
  | s, g => [(s, g)]

def visitsList (o : CompileOptions) : List Stmt → GenState → List (Stmt × GenState)
  | [], _ => []
  | s :: ss, g => visits o s g ++
    match gen o s g with
    | .ok (_, g) => visitsList o ss g
    | .error _ => []

end

/-- The name that a statement declares. -/
def declared? : Stmt → Option String
  | .define x _ | .var x _ _ => some x
  | _ => none

/-- The declarations among statements that were visited. -/
def declaring (visited : List (Stmt × GenState)) : List (Stmt × GenState) := visited.filter (·.1.declared?.isSome)

/-- A declaration takes a slot: its name stands for the slot from then on, and its code stores there and nowhere
else. -/
def Takes (o : CompileOptions) (whole : List Instr) (visit : Stmt × GenState) (offset : Nat) : Prop :=
  ∃ x code g symbol, visit.1.declared? = some x ∧ visit.1.gen o visit.2 = .ok (code, g) ∧
    g.scopes.lookup? x = some symbol ∧ symbol.slot.offset = offset ∧
    code.filterMap Instr.storedSlot? = [(offset : Int)] ∧ code <:+: whole

/-- The declarations that were visited take the slots that the frame has grown by, one after the other. -/
structure Lays (o : CompileOptions) (visited : List (Stmt × GenState)) (g : GenState) (code : List Instr)
    (g' : GenState) : Prop where
  frame : g'.frame.next = g.frame.next + 8 * (declaring visited).length
  takes : List.Forall₂ (Takes o code) (declaring visited) (List.range' g.frame.next (declaring visited).length 8)

/-- All successes of a piece of code generation are so. -/
def Laid (o : CompileOptions) (a : Gen) (visits : GenState → List (Stmt × GenState)) : Prop :=
  ∀ ⦃g code g'⦄, a g = .ok (code, g') → Lays o (visits g) g code g'

variable {o : CompileOptions} {g g₁ g₂ g' : GenState} {code more whole : List Instr}
  {visited visited' : List (Stmt × GenState)}

theorem Takes.mono {visit : Stmt × GenState} {offset : Nat} (h : Takes o code visit offset) (hin : code <:+: whole) :
    Takes o whole visit offset := by
  obtain ⟨x, own, g, symbol, hx, hgen, hsymbol, hoffset, hstores, hown⟩ := h
  exact ⟨x, own, g, symbol, hx, hgen, hsymbol, hoffset, hstores, hown.trans hin⟩

theorem Lays.mono (h : Lays o visited g code g') (hin : code <:+: whole) : Lays o visited g whole g' :=
  ⟨h.frame, h.takes.imp fun _ _ ht => ht.mono hin⟩

theorem Lays.append (h : Lays o visited g whole g₁) (h' : Lays o visited' g₁ whole g') :
    Lays o (visited ++ visited') g whole g' := by
  obtain ⟨hframe, htakes⟩ := h
  obtain ⟨hframe', htakes'⟩ := h'
  rw [hframe] at hframe' htakes'
  constructor
  · rw [declaring, List.filter_append, List.length_append, hframe']
    simp only [declaring]
    omega
  · rw [declaring, List.filter_append, List.length_append, ← List.range'_append]
    exact List.rel_append htakes htakes'

/-- Statements that declare nothing leave the frame alone. -/
theorem Lays.none (hvisited : declaring visited = []) (hframe : g'.frame = g.frame) : Lays o visited g code g' := by
  constructor
  · rw [hvisited, hframe]
    rfl
  · rw [hvisited]
    exact .nil

theorem storeCode_stores {k : Knowledge} {ty : Scalar} {target : Slot} {v : Value} {kept : Option Constant}
    (h : storeCode k ty target v = .ok (code, kept)) : code.filterMap Instr.storedSlot? = [target.offset] := by
  rcases v with (v | v) | ⟨sourceTy, source⟩
  case constant.int =>
    cases ty <;> cases h
    · split <;> rfl
    all_goals rfl
  case constant.float => cases ty <;> cases h <;> rfl
  case slot =>
    by_cases hty : sourceTy = ty
    · subst hty
      cases sourceTy <;> simp only [storeCode, Scalar.width?, ne_eq, not_true_eq_false, if_false] at h <;> cases h <;>
        rfl
    · cases ty <;> simp [storeCode, Scalar.width?, hty] at h

/-- A declaration takes the slot that the frame had next. -/
theorem lays_of_declares {s : Stmt} {x : String} {symbol : Symbol} {known : Knowledge}
    (h : g.Declares x symbol known g') (hx : s.declared? = some x) (hgen : s.gen o g = .ok (code, g'))
    (hstores : code.filterMap Instr.storedSlot? = [symbol.slot.offset]) : Lays o [(s, g)] g code g' := by
  have hdeclaring : declaring [(s, g)] = [(s, g)] := by simp [declaring, hx]
  have hsymbol : g'.scopes.lookup? x = some symbol := by
    rw [h.state, Scopes.lookup?_eq, List.cons_append, List.lookup_cons_self]
  constructor
  · rw [hdeclaring, h.state]
    rfl
  · rw [hdeclaring]
    refine .cons ⟨x, code, g', symbol, hx, hgen, hsymbol, h.slot, ?_, List.infix_rfl⟩ .nil
    rw [hstores, h.slot]

/-- A block takes the slots of its statements. -/
theorem lays_of_inScope {ss : List Stmt} (h : Gen.inScope (genList o ss) g = .ok (code, g'))
    (hlist : Laid o (genList o ss) (visitsList o ss)) :
    Lays o (visitsList o ss g.enter) g code g' := by
  obtain ⟨g₁, hbody, rfl⟩ := Gen.inScope_eq_ok.mp h
  exact ⟨(hlist hbody).frame, (hlist hbody).takes⟩

/-- An `if` itself takes no slot. -/
theorem Lays.branch {test : Expr} {body : List Stmt} {otherwise : Option (List Stmt)}
    (h : Lays o visited g code g') : Lays o ((.cond test body otherwise, g₁) :: visited) g code g' := ⟨h.frame, h.takes⟩

theorem cond_laid_none (test : Expr) {body : List Stmt} (hbody : Laid o (genList o body) (visitsList o body)) :
    Laid o (gen o (.cond test body none)) (visits o (.cond test body none)) := by
  intro g code g' h
  cases condGen_eq_ok.mp h with
  | @decided b _ _ _ hb hcode =>
    cases b with
    | true =>
      simp only [visits, hb]
      exact (lays_of_inScope hcode hbody).branch
    | false =>
      cases hcode
      simp only [visits, hb]
      exact .none rfl rfl
  | @short testCode bodyCode after hopen htest hcode =>
    simp only [visits, hopen]
    have hin : bodyCode <:+: testCode ++ .label g.nextLabel :: bodyCode ++ [.label (g.labelled "then").nextLabel] :=
      ⟨testCode ++ [.label g.nextLabel], [.label (g.labelled "then").nextLabel], by simp⟩
    have hlays := (lays_of_inScope hcode hbody).mono hin
    exact ⟨hlays.frame, hlays.takes⟩

theorem cond_laid_some (test : Expr) {body otherwise : List Stmt}
    (hbody : Laid o (genList o body) (visitsList o body))
    (helse : Laid o (genList o otherwise) (visitsList o otherwise)) :
    Laid o (gen o (.cond test body (some otherwise))) (visits o (.cond test body (some otherwise))) := by
  intro g code g' h
  cases condGen_eq_ok.mp h with
  | @decided b _ _ _ hb hcode =>
    cases b with
    | true =>
      simp only [visits, hb]
      exact (lays_of_inScope hcode hbody).branch
    | false =>
      simp only [visits, hb]
      exact (lays_of_inScope hcode helse).branch
  | @long testCode bodyCode after _ elseCode last hopen htest hcode hcode' =>
    simp only [visits, hopen, hcode]
    have hin : bodyCode <:+: testCode ++ .label g.nextLabel :: bodyCode ++ .jump after.nextLabel ::
        .label (g.labelled "then").nextLabel :: elseCode ++ [.label after.nextLabel] :=
      ⟨testCode ++ [.label g.nextLabel], .jump after.nextLabel ::
        .label (g.labelled "then").nextLabel :: elseCode ++ [.label after.nextLabel], by simp⟩
    have hin' : elseCode <:+: testCode ++ .label g.nextLabel :: bodyCode ++ .jump after.nextLabel ::
        .label (g.labelled "then").nextLabel :: elseCode ++ [.label after.nextLabel] :=
      ⟨testCode ++ .label g.nextLabel :: bodyCode ++ [.jump after.nextLabel, .label (g.labelled "then").nextLabel],
        [.label after.nextLabel], by simp⟩
    have hfirst := (lays_of_inScope hcode hbody).mono hin
    have hsecond := (lays_of_inScope hcode' helse).mono hin'
    have hlays := hfirst.append ⟨hsecond.frame, hsecond.takes⟩
    exact ⟨hlays.frame, hlays.takes⟩

mutual

theorem gen_laid (s : Stmt) : Laid o (s.gen o) (s.visits o) := by
  intro g code g' h
  cases s with
  | define x e =>
    by_cases he : ∃ ty, e.unparen = .new ty
    · obtain ⟨ty, he⟩ := he
      obtain ⟨cell, rfl, hdeclares⟩ := (defineGen_new he).mp h
      exact lays_of_declares hdeclares rfl h rfl
    · obtain ⟨v, slot, kept, -, hcode, hdeclares⟩ := (defineGen_value fun ty hty => he ⟨ty, hty⟩).mp h
      exact lays_of_declares hdeclares rfl h (storeCode_stores hcode)
  | var x ty init =>
    cases init with
    | none =>
      obtain ⟨slot, rfl, hdeclares⟩ := varGen_none.mp h
      exact lays_of_declares hdeclares rfl h rfl
    | some e =>
      obtain ⟨v, slot, kept, -, hcode, hdeclares⟩ := varGen_some.mp h
      exact lays_of_declares hdeclares rfl h (storeCode_stores hcode)
  | assign x e =>
    obtain ⟨ty, slot, v, kept, -, -, -, rfl⟩ := assignGen_eq_ok.mp h
    exact .none rfl rfl
  | store x e =>
    obtain ⟨ty, cell, v, kept, -, -, -, rfl⟩ := storeGen_eq_ok.mp h
    exact .none rfl rfl
  | inc x | dec x =>
    obtain ⟨slot, -, -, rfl⟩ := stepGen_eq_ok.mp h
    exact .none rfl rfl
  | exit e =>
    obtain ⟨v, -, -, rfl⟩ := exitGen_eq_ok.mp h
    exact .none rfl rfl
  | cond test body otherwise =>
    cases otherwise with
    | none => exact cond_laid_none test (genList_laid body) h
    | some otherwise => exact cond_laid_some test (genList_laid body) (genList_laid otherwise) h

theorem genList_laid (ss : List Stmt) : Laid o (genList o ss) (visitsList o ss) := by
  intro g code g' h
  cases ss with
  | nil =>
    cases h
    exact .none rfl rfl
  | cons s ss =>
    obtain ⟨first, g₁, second, hs, hss, rfl⟩ := Gen.andThen_eq_ok.mp h
    simp only [visitsList, hs]
    exact ((gen_laid s hs).mono (List.prefix_append ..).isInfix).append
      ((genList_laid ss hss).mono (List.suffix_append ..).isInfix)

end

end Stmt

namespace Program

variable {p : Program} {r : Routine} {fold : Bool}

/-- The declarations that a program's code is made from. -/
def declaring (p : Program) (o : CompileOptions) : List (Stmt × GenState) :=
  Stmt.declaring (Stmt.visitsList o p.body {})

theorem slots_of_compile {o : CompileOptions} (h : p.compile o = .ok r) :
    ∃ offsets : List Nat, offsets.Nodup ∧ List.Forall₂ (Stmt.Takes o r.code) (p.declaring o) offsets ∧
      r.frameSize = Frame.size ⟨8 * offsets.length⟩ := by
  obtain ⟨code, g, hcode, rfl⟩ := compile_eq_ok.mp h
  obtain ⟨hframe, htakes⟩ := Stmt.genList_laid p.body hcode
  have hin : code <:+: prologue g.frame.size ++ code ++ p.finish := ⟨_, _, rfl⟩
  refine ⟨_, List.nodup_range' 8 (by decide), htakes.imp fun _ _ ht => ht.mono hin, ?_⟩
  simp [Frame.size, hframe]

/-- The code of a program stays in its frame and goes only forward, its declarations have slots of their own, and so its
runs end without a fault within as many steps as it has instructions, wherever they start. -/
theorem compile_safe (h : p.compile { fold, lowering := .nanSafe } = .ok r) :
    r.Safe ∧
    (∃ offsets : List Nat, offsets.Nodup ∧
      List.Forall₂ (Stmt.Takes { fold, lowering := .nanSafe } r.code) (p.declaring { fold, lowering := .nanSafe })
        offsets ∧
      r.frameSize = Frame.size ⟨8 * offsets.length⟩) ∧
    ∀ m : Machine, (0 < r.frameSize → m.HasRoom r.frameSize) → m.Ends (m.maxSteps - m.steps) r.length (m.run r) := by
  have hsafe : r.Safe := safe_of_compile rfl h
  exact ⟨hsafe, slots_of_compile h, fun m hm => hsafe.run_ends hm⟩

/-- As many declarations as fit, one in each of 256 blocks. -/
def brimful : Program where
  package := none
  name := "main"
  body := List.replicate 256
    (.cond (.compare .eq (.literal (.int 1)) (.literal (.int 1))) [.var "x" .float32 none] none)

/-- The largest frame, whose size as an immediate is the least there is. -/
theorem compile_safe_brimful : ∃ r, brimful.compile { fold := false, lowering := .nanSafe } = .ok r ∧
    r.frameSize = 2048 ∧ r.hints.length = 512 ∧ r.Safe ∧
    ∀ m : Machine, m.HasRoom 2048 → m.Ends (m.maxSteps - m.steps) r.length (m.run r) := by
  have hcompile : ((brimful.compile { fold := false, lowering := .nanSafe }).map fun r =>
      (r.frameSize, r.hints.length)) = .ok (2048, 512) := by decide +kernel
  obtain ⟨r, hr, hsizes⟩ := ok_of_map hcompile
  obtain ⟨hframe, hlabels⟩ := Prod.mk.inj hsizes
  obtain ⟨hsafe, -, hends⟩ := compile_safe hr
  exact ⟨r, hr, hframe, hlabels, hsafe, fun m hm => hends m fun _ => hframe ▸ hm⟩

end Program
end Comparand
