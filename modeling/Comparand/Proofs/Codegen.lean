import Comparand.Compile.Statement
import Comparand.Proofs.Result

/-! What each piece of code generation does when it succeeds, and when it does. -/
namespace Comparand

theorem Scopes.lookup_eq_ok {scopes : Scopes} {x : String} {symbol : Symbol} :
    scopes.lookup x = .ok symbol ↔ scopes.lookup? x = some symbol := by
  unfold lookup
  cases scopes.lookup? x with
  | none => exact ⟨nofun, nofun⟩
  | some found => simp

/-- Scopes are searched from the inside out. -/
theorem Scopes.lookup?_eq (scopes : Scopes) (x : String) :
    scopes.lookup? x = (scopes.current ++ scopes.enclosing.flatten).lookup x := by
  obtain ⟨current, enclosing⟩ := scopes
  rw [lookup?]
  induction enclosing generalizing current with
  | nil => simp
  | cons scope enclosing ih =>
    have := ih scope
    rw [List.findSome?_cons, List.flatten_cons, List.lookup_append]
    cases current.lookup x with
    | none => simpa using this
    | some symbol => rfl

namespace Expr

variable {e : Expr} {scopes : Scopes} {v : Value}

theorem constant?_unparen (e : Expr) : e.unparen.constant? = e.constant? := by
  induction e with
  | paren e ih => exact ih
  | _ => rfl

/-- The values of expressions: constants, variables and contents of cells. -/
theorem value_eq_ok : e.value scopes = .ok v ↔
    (∃ c, e.constant? = some c ∧ v = .constant c) ∨
    (∃ x ty s, e.unparen = .name x ∧ scopes.lookup? x = some ⟨.scalar ty, s⟩ ∧ v = .slot ty s) ∨
    (∃ x ty s, e.unparen = .deref x ∧ scopes.lookup? x = some ⟨.pointer ty, s⟩ ∧ v = .slot ty s) := by
  have hunparen := e.constant?_unparen
  constructor
  · intro h
    unfold value at h
    split at h
    next c hc => exact .inl ⟨c, hc, (Except.ok.inj h).symm⟩
    next =>
      split at h
      next x hx =>
        obtain ⟨⟨type, s⟩, hs, h⟩ := ok_of_bind h
        cases type with
        | scalar ty => exact .inr (.inl ⟨x, ty, s, hx, Scopes.lookup_eq_ok.mp hs, (Except.ok.inj h).symm⟩)
        | pointer ty => cases h
      next x hx =>
        obtain ⟨⟨type, s⟩, hs, h⟩ := ok_of_bind h
        cases type with
        | scalar ty => cases h
        | pointer ty => exact .inr (.inr ⟨x, ty, s, hx, Scopes.lookup_eq_ok.mp hs, (Except.ok.inj h).symm⟩)
      all_goals cases h
  · rintro (⟨c, hc, rfl⟩ | ⟨x, ty, s, hx, hs, rfl⟩ | ⟨x, ty, s, hx, hs, rfl⟩)
    · simp only [value, hc]
    all_goals
      have hc : e.constant? = none := by
        rw [← hunparen, hx]
        rfl
      simp only [value, hc, hx, Scopes.lookup_eq_ok.mpr hs]
      rfl

end Expr

namespace Value

/-- The instructions that bring a value into a float register. -/
def loads : Value → Nat
  | constant _ => 2
  | slot .. => 1

/-- Whether two values are one slot. -/
def aliases : Value → Value → Bool
  | slot _ s, slot _ t => s == t
  | _, _ => false

end Value

/-- With fresh scratch registers every comparison of values can be lowered. -/
theorem Relation.lower_branch_ok (op : Relation) (w : Width) (lhs rhs : Value) (yes no : Label) :
    ∃ l, (op.lower (lhs.operand w) (rhs.operand w) (.branch yes no) {}).1 = .ok l ∧
      l.code.length = lhs.loads + (if lhs.aliases rhs then 0 else rhs.loads) + 3 ∧
      l.code.all (!·.isLabel) = true := by
  have haliases : (lhs.operand w).aliases (rhs.operand w) = lhs.aliases rhs := by
    cases lhs <;> cases rhs <;> rfl
  have hwidth : (lhs.operand w).width = (rhs.operand w).width := by
    cases lhs <;> cases rhs <;> rfl
  rw [Relation.lower, Condition.lower, if_pos hwidth]
  unfold Condition.draw
  rw [haliases]
  generalize lhs.aliases rhs = b
  cases op <;> cases lhs <;> cases rhs <;> cases b <;> exact ⟨_, rfl, rfl, rfl⟩

namespace Comparison

variable {a b : Value} {c : Comparison} {scopes : Scopes} {lhs rhs : Expr}

/-- Two values compare at the width of their common type, or as integers if both are. -/
theorem ofValues_eq_ok : ofValues a b = .ok c ↔ ∃ ty, scalar a b = .ok ty ∧
    ((∃ w, ty.width? = some w ∧ c = .float w a b) ∨ (ty = .int ∧ a.type = .int ∧ b.type = .int ∧ c = .int a b)) := by
  unfold ofValues
  constructor
  · intro h
    obtain ⟨ty, hty, h⟩ := ok_of_bind h
    refine ⟨ty, hty, ?_⟩
    cases ty with
    | int =>
      refine .inr ⟨rfl, ?_⟩
      rcases a with (v | v) | ⟨tyA, s⟩ <;> rcases b with (v' | v') | ⟨tyB, s'⟩
      case slot.slot =>
        have hAB : tyA = tyB := Decidable.byContradiction fun hne => by simp [scalar, hne] at hty
        simp only [scalar, hAB, if_true, Except.ok.injEq] at hty
        exact ⟨hAB.trans hty, hty, (Except.ok.inj h).symm⟩
      all_goals cases h
      all_goals
        cases hty
        exact ⟨rfl, rfl, rfl⟩
    | float32 | float64 => exact .inl ⟨_, rfl, (Except.ok.inj h).symm⟩
  · rintro ⟨ty, hty, ⟨w, hw, rfl⟩ | ⟨rfl, ha, hb, rfl⟩⟩
    · exact bind_ok hty (by rw [hw])
    · refine bind_ok hty ?_
      rcases a with (v | v) | ⟨tyA, s⟩ <;> rcases b with (v' | v') | ⟨tyB, s'⟩ <;> cases ha <;> cases hb <;> rfl

theorem ofExprs_eq_ok : ofExprs scopes lhs rhs = .ok c ↔
    ∃ a b, lhs.value scopes = .ok a ∧ rhs.value scopes = .ok b ∧ ofValues a b = .ok c := by
  constructor
  · intro h
    obtain ⟨a, ha, h⟩ := ok_of_bind h
    obtain ⟨b, hb, h⟩ := ok_of_bind h
    exact ⟨a, b, ha, hb, h⟩
  · rintro ⟨a, b, ha, hb, h⟩
    exact bind_ok ha (bind_ok hb h)

theorem code_int (lowering : Lowering) (op : Relation) (yes no : Label) :
    code lowering op yes no (.int a b) = .ok ((a.intoReg .t0).1 ++ (b.intoReg .t1).1 ++
      [op.branch (a.intoReg .t0).2 (b.intoReg .t1).2 yes, .jump no]) := rfl

/-- Every comparison has code, and the code binds no label. -/
theorem code_ok (c : Comparison) (op : Relation) (yes no : Label) :
    ∃ code, c.code .nanSafe op yes no = .ok code ∧ code.all (!·.isLabel) = true := by
  cases c with
  | float w lhs rhs =>
    obtain ⟨l, hl, -, hlabels⟩ := op.lower_branch_ok w lhs rhs yes no
    refine ⟨l.code, ?_, hlabels⟩
    rw [code, Lowering.nanSafe, hl]
    rfl
  | int lhs rhs =>
    refine ⟨_, code_int .nanSafe op yes no, ?_⟩
    have hloads (v : Value) (r : IntReg) : (v.intoReg r).1.all (!·.isLabel) = true := by
      rcases v with (v | v) | ⟨ty, s⟩
      · rw [Value.intoReg]
        split <;> rfl
      all_goals rfl
    have hbranch (a b : IntReg) : (op.branch a b yes).isLabel = false := by cases op <;> rfl
    simp only [List.all_append, hloads, List.all_cons, hbranch]
    rfl

end Comparison

namespace GenState

variable {g g' : GenState} {x : String} {type : VarType} {s : Slot}

theorem newSlot_eq_ok : g.newSlot = .ok (s, g') ↔
    s.offset = g.frame.next ∧ g' = { g with frame := ⟨g.frame.next + 8⟩ } := by
  unfold newSlot Frame.alloc Slot.ofOffset
  split
  next s₁ frame h =>
    split at h
    next hrange =>
      cases h
      obtain ⟨offset, _⟩ := s
      simp only [Except.ok.injEq, Prod.mk.injEq, Slot.mk.injEq]
      exact ⟨fun ⟨ho, hg⟩ => ⟨ho.symm, hg.symm⟩, fun ⟨ho, hg⟩ => ⟨ho.symm, hg.symm⟩⟩
    next => cases h
  next e h =>
    split at h
    next => cases h
    next hrange =>
      refine ⟨nofun, fun ⟨ho, _⟩ => absurd ?_ hrange⟩
      exact ho ▸ s.inRange

theorem declare_eq_ok : g.declare x type s = .ok g' ↔
    g.scopes.current.lookup x = none ∧
      g' = { g with scopes := { g.scopes with current := (x, ⟨type, s⟩) :: g.scopes.current } } := by
  unfold declare Scopes.declare
  cases hx : g.scopes.current.lookup x with
  | none => exact ⟨fun h => ⟨rfl, (Except.ok.inj h).symm⟩, fun h => congrArg Except.ok h.2.symm⟩
  | some found => exact ⟨nofun, fun h => nomatch h.1⟩

/-- The effect of a declaration: a new name in the current scope with the next slot, and new knowledge. -/
structure Declares (g : GenState) (x : String) (symbol : Symbol) (known : Knowledge) (g' : GenState) : Prop where
  fresh : g.scopes.current.lookup x = none
  slot : symbol.slot.offset = g.frame.next
  state : g' = { g with
    scopes := { g.scopes with current := (x, symbol) :: g.scopes.current }
    frame := ⟨g.frame.next + 8⟩
    known }

/-- The label that is made next. -/
def nextLabel (g : GenState) : Label := ⟨g.hints.length⟩

/-- The state with one more label made. -/
def labelled (g : GenState) (hint : String) : GenState := { g with hints := g.hints ++ [hint] }

/-- The state at the start of a block. -/
def enter (g : GenState) : GenState := { g with scopes := g.scopes.push }

end GenState

namespace Stmt

variable {x : String} {e : Expr} {ty : Scalar} {g g' : GenState} {code : List Instr}

theorem storeExpr_eq_ok {target : Slot} : storeExpr ty target e g = .ok (code, g') ↔
    ∃ v kept, e.value g.scopes = .ok v ∧ storeCode g.known ty target v = .ok (code, kept) ∧
      g' = { g with known := g.known.set target kept } := by
  constructor
  · intro h
    obtain ⟨v, hv, h⟩ := ok_of_bind h
    obtain ⟨⟨code, kept⟩, hcode, h⟩ := ok_of_bind h
    cases h
    exact ⟨v, kept, hv, hcode, rfl⟩
  · rintro ⟨v, kept, hv, hcode, rfl⟩
    exact bind_ok hv (bind_ok hcode rfl)

theorem defineGen_new (he : e.unparen = .new ty) : defineGen x e g = .ok (code, g') ↔
    ∃ cell, code = zeroCode cell ∧
      g.Declares x ⟨.pointer ty, cell⟩ ((g.known.registerCell cell).set cell (some ty.zero)) g' := by
  unfold defineGen
  rw [he]
  constructor
  · intro h
    obtain ⟨⟨cell, g₁⟩, halloc, h⟩ := ok_of_bind h
    obtain ⟨g₂, hdeclare, h⟩ := ok_of_bind h
    obtain ⟨hslot, rfl⟩ := GenState.newSlot_eq_ok.mp halloc
    obtain ⟨hfresh, rfl⟩ := GenState.declare_eq_ok.mp hdeclare
    cases h
    exact ⟨cell, rfl, hfresh, hslot, rfl⟩
  · rintro ⟨cell, rfl, hfresh, hslot, rfl⟩
    exact bind_ok (GenState.newSlot_eq_ok.mpr ⟨hslot, rfl⟩) (bind_ok (GenState.declare_eq_ok.mpr ⟨hfresh, rfl⟩) rfl)

theorem defineGen_value (he : ∀ ty, e.unparen ≠ .new ty) : defineGen x e g = .ok (code, g') ↔
    ∃ v slot kept, e.value g.scopes = .ok v ∧ storeCode g.known v.type slot v = .ok (code, kept) ∧
      g.Declares x ⟨.scalar v.type, slot⟩ (g.known.set slot kept) g' := by
  unfold defineGen
  split
  next hnew => exact absurd hnew (he _)
  next =>
    constructor
    · intro h
      obtain ⟨v, hv, h⟩ := ok_of_bind h
      obtain ⟨⟨slot, g₁⟩, halloc, h⟩ := ok_of_bind h
      obtain ⟨⟨code₁, g₂⟩, hstore, h⟩ := ok_of_bind h
      obtain ⟨g₃, hdeclare, h⟩ := ok_of_bind h
      obtain ⟨hslot, rfl⟩ := GenState.newSlot_eq_ok.mp halloc
      obtain ⟨v', kept, hv', hcode, rfl⟩ := storeExpr_eq_ok.mp hstore
      obtain ⟨hfresh, rfl⟩ := GenState.declare_eq_ok.mp hdeclare
      cases h
      cases hv.symm.trans hv'
      exact ⟨v, slot, kept, hv, hcode, hfresh, hslot, rfl⟩
    · rintro ⟨v, slot, kept, hv, hcode, hfresh, hslot, rfl⟩
      refine bind_ok hv (bind_ok (GenState.newSlot_eq_ok.mpr ⟨hslot, rfl⟩) ?_)
      exact bind_ok (storeExpr_eq_ok.mpr ⟨v, kept, hv, hcode, rfl⟩)
        (bind_ok (GenState.declare_eq_ok.mpr ⟨hfresh, rfl⟩) rfl)

theorem varGen_none : varGen x ty none g = .ok (code, g') ↔
    ∃ slot, code = zeroCode slot ∧ g.Declares x ⟨.scalar ty, slot⟩ (g.known.set slot (some ty.zero)) g' := by
  constructor
  · intro h
    obtain ⟨⟨slot, g₁⟩, halloc, h⟩ := ok_of_bind h
    obtain ⟨⟨code₁, g₂⟩, hzero, h⟩ := ok_of_bind h
    obtain ⟨g₃, hdeclare, h⟩ := ok_of_bind h
    cases hzero
    obtain ⟨hslot, rfl⟩ := GenState.newSlot_eq_ok.mp halloc
    obtain ⟨hfresh, rfl⟩ := GenState.declare_eq_ok.mp hdeclare
    cases h
    exact ⟨slot, rfl, hfresh, hslot, rfl⟩
  · rintro ⟨slot, rfl, hfresh, hslot, rfl⟩
    refine bind_ok (GenState.newSlot_eq_ok.mpr ⟨hslot, rfl⟩) (bind_ok rfl ?_)
    exact bind_ok (GenState.declare_eq_ok.mpr ⟨hfresh, rfl⟩) rfl

theorem varGen_some : varGen x ty (some e) g = .ok (code, g') ↔
    ∃ v slot kept, e.value g.scopes = .ok v ∧ storeCode g.known ty slot v = .ok (code, kept) ∧
      g.Declares x ⟨.scalar ty, slot⟩ (g.known.set slot kept) g' := by
  constructor
  · intro h
    obtain ⟨⟨slot, g₁⟩, halloc, h⟩ := ok_of_bind h
    obtain ⟨⟨code₁, g₂⟩, hstore, h⟩ := ok_of_bind h
    obtain ⟨g₃, hdeclare, h⟩ := ok_of_bind h
    obtain ⟨hslot, rfl⟩ := GenState.newSlot_eq_ok.mp halloc
    obtain ⟨v, kept, hv, hcode, rfl⟩ := storeExpr_eq_ok.mp hstore
    obtain ⟨hfresh, rfl⟩ := GenState.declare_eq_ok.mp hdeclare
    cases h
    exact ⟨v, slot, kept, hv, hcode, hfresh, hslot, rfl⟩
  · rintro ⟨v, slot, kept, hv, hcode, hfresh, hslot, rfl⟩
    refine bind_ok (GenState.newSlot_eq_ok.mpr ⟨hslot, rfl⟩) ?_
    exact bind_ok (storeExpr_eq_ok.mpr ⟨v, kept, hv, hcode, rfl⟩)
      (bind_ok (GenState.declare_eq_ok.mpr ⟨hfresh, rfl⟩) rfl)

theorem assignGen_eq_ok : assignGen x e g = .ok (code, g') ↔
    ∃ ty slot v kept, g.scopes.lookup? x = some ⟨.scalar ty, slot⟩ ∧ e.value g.scopes = .ok v ∧
      storeCode g.known ty slot v = .ok (code, kept) ∧ g' = { g with known := g.known.set slot kept } := by
  constructor
  · intro h
    obtain ⟨⟨type, slot⟩, hx, h⟩ := ok_of_bind h
    cases type with
    | scalar ty =>
      obtain ⟨v, kept, hv, hcode, hg⟩ := storeExpr_eq_ok.mp h
      exact ⟨ty, slot, v, kept, Scopes.lookup_eq_ok.mp hx, hv, hcode, hg⟩
    | pointer ty => cases h
  · rintro ⟨ty, slot, v, kept, hx, hv, hcode, hg⟩
    exact bind_ok (Scopes.lookup_eq_ok.mpr hx) (storeExpr_eq_ok.mpr ⟨v, kept, hv, hcode, hg⟩)

theorem storeGen_eq_ok : storeGen x e g = .ok (code, g') ↔
    ∃ ty cell v kept, g.scopes.lookup? x = some ⟨.pointer ty, cell⟩ ∧ e.value g.scopes = .ok v ∧
      storeCode g.known ty cell v = .ok (code, kept) ∧ g' = { g with known := g.known.storeThrough cell kept } := by
  constructor
  · intro h
    obtain ⟨⟨type, cell⟩, hx, h⟩ := ok_of_bind h
    cases type with
    | scalar ty => cases h
    | pointer ty =>
      obtain ⟨v, hv, h⟩ := ok_of_bind h
      obtain ⟨⟨code₁, kept⟩, hcode, h⟩ := ok_of_bind h
      cases h
      exact ⟨ty, cell, v, kept, Scopes.lookup_eq_ok.mp hx, hv, hcode, rfl⟩
  · rintro ⟨ty, cell, v, kept, hx, hv, hcode, rfl⟩
    exact bind_ok (Scopes.lookup_eq_ok.mpr hx) (bind_ok hv (bind_ok hcode rfl))

theorem stepGen_eq_ok {delta : Int} : stepGen x delta g = .ok (code, g') ↔
    ∃ slot, g.scopes.lookup? x = some ⟨.scalar .int, slot⟩ ∧
      code = [.ld .t0 .sp slot.offset, .addi .t0 .t0 delta, .sd .t0 .sp slot.offset] ∧
      g' = { g with known := g.known.set slot ((g.known.get? slot).bind (stepConstant delta)) } := by
  constructor
  · intro h
    obtain ⟨⟨type, slot⟩, hx, h⟩ := ok_of_bind h
    cases type with
    | scalar ty =>
      cases ty <;> cases h
      exact ⟨slot, Scopes.lookup_eq_ok.mp hx, rfl, rfl⟩
    | pointer ty => cases h
  · rintro ⟨slot, hx, rfl, rfl⟩
    exact bind_ok (Scopes.lookup_eq_ok.mpr hx) rfl

theorem exitGen_eq_ok : exitGen e g = .ok (code, g') ↔
    ∃ v, e.value g.scopes = .ok v ∧ exitCode v = .ok code ∧ g' = { g with known := g.known.markUnreachable } := by
  constructor
  · intro h
    obtain ⟨v, hv, h⟩ := ok_of_bind h
    obtain ⟨code₁, hcode, h⟩ := ok_of_bind h
    cases h
    exact ⟨v, hv, hcode, rfl⟩
  · rintro ⟨v, hv, hcode, rfl⟩
    exact bind_ok hv (bind_ok hcode rfl)

end Stmt

namespace Gen

variable {a b : Gen} {g g' : GenState} {code : List Instr}

theorem andThen_eq_ok : a.andThen b g = .ok (code, g') ↔
    ∃ first g₁ second, a g = .ok (first, g₁) ∧ b g₁ = .ok (second, g') ∧ code = first ++ second := by
  constructor
  · intro h
    obtain ⟨⟨first, g₁⟩, ha, h⟩ := ok_of_bind h
    obtain ⟨⟨second, g₂⟩, hb, h⟩ := ok_of_bind h
    cases h
    exact ⟨first, g₁, second, ha, hb, rfl⟩
  · rintro ⟨first, g₁, second, ha, hb, rfl⟩
    exact bind_ok ha (bind_ok hb rfl)

theorem inScope_eq_ok : a.inScope g = .ok (code, g') ↔
    ∃ g₁, a { g with scopes := g.scopes.push } = .ok (code, g₁) ∧ g' = { g₁ with scopes := g₁.scopes.pop } := by
  constructor
  · intro h
    obtain ⟨⟨code₁, g₁⟩, ha, h⟩ := ok_of_bind h
    cases h
    exact ⟨g₁, ha, rfl⟩
  · rintro ⟨g₁, ha, rfl⟩
    exact bind_ok ha rfl

end Gen

namespace Stmt

variable {o : CompileOptions} {test : Expr} {body : Gen} {otherwise : Option Gen} {g g' : GenState} {code : List Instr}

/-- The outcome of a test as far as it is decided beforehand. -/
def foreseen (o : CompileOptions) (test : Expr) (g : GenState) : Except CompileError (Option Bool) :=
  if o.fold then test.decide g.scopes g.known else .ok none

/-- The three forms of code for an `if`: one branch alone, a branch that is passed over, and two branches. -/
inductive CondCode (o : CompileOptions) (test : Expr) (body : Gen) (g : GenState) :
    Option Gen → List Instr → GenState → Prop where
  | decided {b : Bool} {otherwise code g'} (hb : foreseen o test g = .ok (some b))
      (hcode : (if b then body.inScope else (otherwise.map Gen.inScope).getD .nothing) g = .ok (code, g')) :
      CondCode o test body g otherwise code g'
  | short {testCode bodyCode after} (hopen : foreseen o test g = .ok none)
      (htest : test.testCode o.lowering g.scopes g.nextLabel (g.labelled "then").nextLabel = .ok testCode)
      (hbody : body.inScope ((g.labelled "then").labelled "endif") = .ok (bodyCode, after)) :
      CondCode o test body g none
        (testCode ++ .label g.nextLabel :: bodyCode ++ [.label (g.labelled "then").nextLabel])
        { after with known := after.known.merge g.known }
  | long {testCode bodyCode after elseBody elseCode last} (hopen : foreseen o test g = .ok none)
      (htest : test.testCode o.lowering g.scopes g.nextLabel (g.labelled "then").nextLabel = .ok testCode)
      (hbody : body.inScope ((g.labelled "then").labelled "else") = .ok (bodyCode, after))
      (helse : Gen.inScope elseBody { after.labelled "endif" with known := g.known } = .ok (elseCode, last)) :
      CondCode o test body g (some elseBody)
        (testCode ++ .label g.nextLabel :: bodyCode ++ .jump after.nextLabel ::
          .label (g.labelled "then").nextLabel :: elseCode ++ [.label after.nextLabel])
        { last with known := after.known.merge last.known }

theorem condGen_eq : condGen o test body otherwise g = (foreseen o test g >>= fun
    | some b => (if b then body.inScope else (otherwise.map Gen.inScope).getD .nothing) g
    | none => condGen { o with fold := false } test body otherwise g) := by
  unfold condGen foreseen
  cases o.fold with
  | false => rfl
  | true =>
    simp only [if_true]
    cases test.decide g.scopes g.known with
    | error e => rfl
    | ok b => rcases b with _ | _ | _ <;> rfl

theorem condGen_eq_ok :
    condGen o test body otherwise g = .ok (code, g') ↔ CondCode o test body g otherwise code g' := by
  rw [condGen_eq]
  constructor
  · intro h
    obtain ⟨b, hb, h⟩ := ok_of_bind h
    cases b with
    | some b => exact .decided hb h
    | none =>
      obtain ⟨_, hpure, h⟩ := ok_of_bind h
      cases hpure
      obtain ⟨testCode, htest, h⟩ := ok_of_bind h
      obtain ⟨⟨bodyCode, after⟩, hbody, h⟩ := ok_of_bind h
      cases otherwise with
      | none =>
        cases h
        exact .short hb htest hbody
      | some elseBody =>
        obtain ⟨⟨elseCode, last⟩, helse, h⟩ := ok_of_bind h
        cases h
        exact .long hb htest hbody helse
  · intro h
    cases h with
    | decided hb hcode => exact bind_ok hb hcode
    | short hopen htest hbody =>
      refine bind_ok hopen ?_
      exact bind_ok rfl (bind_ok htest (bind_ok hbody rfl))
    | long hopen htest hbody helse =>
      refine bind_ok hopen ?_
      exact bind_ok rfl (bind_ok htest (bind_ok hbody (bind_ok helse rfl)))

end Stmt

theorem Program.compile_eq_ok {p : Program} {o : CompileOptions} {r : Routine} : p.compile o = .ok r ↔
    ∃ code g, Stmt.genList o p.body {} = .ok (code, g) ∧
      r = ⟨p.name, prologue g.frame.size ++ code ++ p.finish, g.hints, g.frame.size⟩ := by
  constructor
  · intro h
    obtain ⟨⟨code, g⟩, hcode, h⟩ := ok_of_bind h
    exact ⟨code, g, hcode, (Except.ok.inj h).symm⟩
  · rintro ⟨code, g, hcode, rfl⟩
    exact bind_ok hcode rfl

end Comparand
