import Comparand.Proofs.Growth

/-! The programs that compile are the well-formed ones, as rules on syntax trees say what that is. -/
namespace Comparand

/-- The names in scope with their types. Only the current scope matters to whether a name may be declared. -/
structure Context where
  current : List (String × VarType) := []
  outer : List (String × VarType) := []
deriving DecidableEq

namespace Context

/-- The type of a name by its innermost declaration. -/
def type? (ctx : Context) (x : String) : Option VarType := (ctx.current ++ ctx.outer).lookup x

def declare (ctx : Context) (x : String) (type : VarType) : Context := { ctx with current := (x, type) :: ctx.current }

/-- The context in which a block starts. -/
def enter (ctx : Context) : Context := { outer := ctx.current ++ ctx.outer }

end Context

namespace Expr

/-- Literals under signs and parentheses. The least integer has no negation. -/
inductive HasConstant : Expr → Constant → Prop where
  | literal (c : Constant) : HasConstant (.literal c) c
  | paren {e c} (h : HasConstant e c) : HasConstant (.paren e) c
  | negInt {e v} (h : HasConstant e (.int v)) (hv : v ≠ Int64.minValue) : HasConstant (.neg e) (.int (-v))
  | negFloat {e v} (h : HasConstant e (.float v)) : HasConstant (.neg e) (.float v.neg)

/-- Scalar variables and contents of cells, by their type. -/
inductive Reads (ctx : Context) : Expr → Scalar → Prop where
  | name {x ty} (h : ctx.type? x = some (.scalar ty)) : Reads ctx (.name x) ty
  | deref {x ty} (h : ctx.type? x = some (.pointer ty)) : Reads ctx (.deref x) ty
  | paren {e ty} (h : Reads ctx e ty) : Reads ctx (.paren e) ty

/-- New cells, by the type of what they hold. -/
inductive MakesCell : Expr → Scalar → Prop where
  | new (ty : Scalar) : MakesCell (.new ty) ty
  | paren {e ty} (h : MakesCell e ty) : MakesCell (.paren e) ty

/-- The values that can be put where something of a type is held. -/
inductive Fits (ctx : Context) (e : Expr) : Scalar → Prop where
  | stored {ty} (h : e.Reads ctx ty) : Fits ctx e ty
  | int {v} (h : e.HasConstant (.int v)) : Fits ctx e .int
  | float32 {c} (h : e.HasConstant c) : Fits ctx e .float32
  | float64 {c} (h : e.HasConstant c) : Fits ctx e .float64

/-- The type that a variable gets from its value. -/
inductive HasType (ctx : Context) (e : Expr) : Scalar → Prop where
  | stored {ty} (h : e.Reads ctx ty) : HasType ctx e ty
  | int {v} (h : e.HasConstant (.int v)) : HasType ctx e .int
  | float {v} (h : e.HasConstant (.float v)) : HasType ctx e .float64

/-- Two constants compare, and anything with what fits its type. -/
inductive Comparable (ctx : Context) (lhs rhs : Expr) : Prop where
  | left {ty} (hl : lhs.Reads ctx ty) (hr : rhs.Fits ctx ty) : Comparable ctx lhs rhs
  | right {ty} (hl : lhs.Fits ctx ty) (hr : rhs.Reads ctx ty) : Comparable ctx lhs rhs
  | constants {a b} (hl : lhs.HasConstant a) (hr : rhs.HasConstant b) : Comparable ctx lhs rhs

/-- Comparisons under negations and parentheses. -/
inductive IsTest (ctx : Context) : Expr → Prop where
  | compare {op lhs rhs} (h : Comparable ctx lhs rhs) : IsTest ctx (.compare op lhs rhs)
  | not {e} (h : IsTest ctx e) : IsTest ctx (.not e)
  | paren {e} (h : IsTest ctx e) : IsTest ctx (.paren e)

end Expr

namespace Stmt

mutual

/-- A statement is well-formed in a context and leaves another one to what follows it. -/
inductive WellFormed : Context → Stmt → Context → Prop where
  | cell {ctx x e ty} (hx : x ∉ ctx.current.map Prod.fst) (he : e.MakesCell ty) :
      WellFormed ctx (.define x e) (ctx.declare x (.pointer ty))
  | define {ctx x e ty} (hx : x ∉ ctx.current.map Prod.fst) (he : e.HasType ctx ty) :
      WellFormed ctx (.define x e) (ctx.declare x (.scalar ty))
  | var {ctx x ty} (hx : x ∉ ctx.current.map Prod.fst) :
      WellFormed ctx (.var x ty none) (ctx.declare x (.scalar ty))
  | varInit {ctx x ty e} (hx : x ∉ ctx.current.map Prod.fst) (he : e.Fits ctx ty) :
      WellFormed ctx (.var x ty (some e)) (ctx.declare x (.scalar ty))
  | assign {ctx x ty e} (hx : ctx.type? x = some (.scalar ty)) (he : e.Fits ctx ty) : WellFormed ctx (.assign x e) ctx
  | store {ctx x ty e} (hx : ctx.type? x = some (.pointer ty)) (he : e.Fits ctx ty) : WellFormed ctx (.store x e) ctx
  | inc {ctx x} (hx : ctx.type? x = some (.scalar .int)) : WellFormed ctx (.inc x) ctx
  | dec {ctx x} (hx : ctx.type? x = some (.scalar .int)) : WellFormed ctx (.dec x) ctx
  | exit {ctx e} (he : e.HasType ctx .int) : WellFormed ctx (.exit e) ctx
  | cond {ctx test body last} (htest : test.IsTest ctx) (hbody : AllWellFormed ctx.enter body last) :
      WellFormed ctx (.cond test body none) ctx
  | condElse {ctx test body otherwise last last'} (htest : test.IsTest ctx)
      (hbody : AllWellFormed ctx.enter body last) (helse : AllWellFormed ctx.enter otherwise last') :
      WellFormed ctx (.cond test body (some otherwise)) ctx

/-- Each statement is well-formed in the context that the ones before it leave. -/
inductive AllWellFormed : Context → List Stmt → Context → Prop where
  | nil {ctx} : AllWellFormed ctx [] ctx
  | cons {ctx s ctx₁ ss ctx'} (hs : WellFormed ctx s ctx₁) (hss : AllWellFormed ctx₁ ss ctx') :
      AllWellFormed ctx (s :: ss) ctx'

end

end Stmt

/-- A well-formed program starts with no names, and its frame is in reach of its instructions. -/
structure Program.WellFormed (p : Program) : Prop where
  body : ∃ last, Stmt.AllWellFormed {} p.body last
  declarations : Stmt.declarationsList p.body ≤ 256

/-- The names in scope with their types alone. -/
def Scopes.context (scopes : Scopes) : Context where
  current := scopes.current.map fun d => (d.1, d.2.type)
  outer := scopes.enclosing.flatten.map fun d => (d.1, d.2.type)

namespace Scopes

variable {scopes : Scopes} {x : String}

theorem lookup_types (scope : Scope) (x : String) :
    (scope.map fun d => (d.1, d.2.type)).lookup x = (scope.lookup x).map Symbol.type := by
  induction scope with
  | nil => rfl
  | cons d scope ih =>
    obtain ⟨y, symbol⟩ := d
    cases hx : x == y with
    | true => simp [List.lookup_cons, hx]
    | false => simpa [List.lookup_cons, hx] using ih

theorem type?_context (scopes : Scopes) (x : String) :
    scopes.context.type? x = (scopes.lookup? x).map Symbol.type := by
  rw [lookup?_eq, ← lookup_types, Context.type?, context, List.map_append]

theorem type?_context_eq_some {type : VarType} :
    scopes.context.type? x = some type ↔ ∃ s, scopes.lookup? x = some ⟨type, s⟩ := by
  rw [type?_context, Option.map_eq_some_iff]
  constructor
  · rintro ⟨⟨type, s⟩, hx, rfl⟩
    exact ⟨s, hx⟩
  · rintro ⟨s, hx⟩
    exact ⟨_, hx, rfl⟩

theorem context_push (scopes : Scopes) : scopes.push.context = scopes.context.enter := by
  simp [context, push, Context.enter]

theorem fresh_iff : x ∉ scopes.context.current.map Prod.fst ↔ scopes.current.lookup x = none := by
  simp only [context, List.map_map, List.mem_map, List.lookup_eq_none_iff, bne_iff_ne, not_exists, not_and]
  exact ⟨fun h d hd hx => h d hd hx.symm, fun h d hd hx => h d hd hx.symm⟩

end Scopes

namespace Expr

variable {e lhs rhs : Expr} {scopes : Scopes} {ty : Scalar} {c : Constant}

theorem constant?_eq_some : e.constant? = some c ↔ e.HasConstant c := by
  constructor
  · intro h
    induction e generalizing c with
    | literal d =>
      cases h
      exact .literal d
    | paren e ih => exact .paren (ih h)
    | neg e ih =>
      rw [constant?] at h
      split at h
      next v hv =>
        split at h
        next => cases h
        next hmin =>
          cases h
          exact .negInt (ih hv) hmin
      next v hv =>
        cases h
        exact .negFloat (ih hv)
      next => cases h
    | _ => cases h
  · intro h
    induction h with
    | literal c => rfl
    | paren h ih => exact ih
    | negInt h hv ih => simp [constant?, ih, hv]
    | negFloat h ih => simp [constant?, ih]

theorem value_constant : e.value scopes = .ok (.constant c) ↔ e.HasConstant c := by
  rw [← constant?_eq_some, value_eq_ok]
  constructor
  · rintro (⟨d, hd, hv⟩ | ⟨x, ty, s, -, -, hv⟩ | ⟨x, ty, s, -, -, hv⟩) <;> cases hv
    exact hd
  · exact fun h => .inl ⟨c, h, rfl⟩

theorem value_slot : (∃ s, e.value scopes = .ok (.slot ty s)) ↔ e.Reads scopes.context ty := by
  simp only [value_eq_ok]
  constructor
  · rintro ⟨s, h⟩
    have hreads : e.unparen.Reads scopes.context ty := by
      rcases h with ⟨d, -, hv⟩ | ⟨x, ty', s', hx, hs, hv⟩ | ⟨x, ty', s', hx, hs, hv⟩ <;> cases hv <;> rw [hx]
      · exact .name (Scopes.type?_context_eq_some.mpr ⟨s, hs⟩)
      · exact .deref (Scopes.type?_context_eq_some.mpr ⟨s, hs⟩)
    clear h
    induction e with
    | paren e ih => exact .paren (ih hreads)
    | _ => exact hreads
  · intro h
    induction h with
    | name h =>
      obtain ⟨s, hs⟩ := Scopes.type?_context_eq_some.mp h
      exact ⟨s, .inr (.inl ⟨_, _, _, rfl, hs, rfl⟩)⟩
    | deref h =>
      obtain ⟨s, hs⟩ := Scopes.type?_context_eq_some.mp h
      exact ⟨s, .inr (.inr ⟨_, _, _, rfl, hs, rfl⟩)⟩
    | paren h ih => exact ih

theorem unparen_ne_new {v : Value} (h : e.value scopes = .ok v) (ty : Scalar) : e.unparen ≠ .new ty := by
  intro he
  have hunparen := e.constant?_unparen
  rw [he] at hunparen
  rcases value_eq_ok.mp h with ⟨c, hc, -⟩ | ⟨x, _, _, hx, -, -⟩ | ⟨x, _, _, hx, -, -⟩
  · cases hunparen.trans hc
  · cases he.symm.trans hx
  · cases he.symm.trans hx

theorem unparen_new : e.unparen = .new ty ↔ e.MakesCell ty := by
  constructor
  · intro h
    induction e with
    | paren e ih => exact .paren (ih h)
    | new ty' =>
      cases h
      exact .new ty
    | _ => cases h
  · intro h
    induction h with
    | new ty => rfl
    | paren h ih => exact ih

end Expr

/-- Whether a value can be put where something of a type is held. -/
def Value.Fits (ty : Scalar) : Value → Prop
  | constant (.int _) => True
  | constant (.float _) => ty ≠ .int
  | slot sourceTy _ => sourceTy = ty

theorem Value.fits_type (v : Value) : v.Fits v.type := by
  rcases v with (v | v) | ⟨ty, s⟩
  · trivial
  · exact nofun
  · rfl

theorem storeCode_isOk {k : Knowledge} {ty : Scalar} {target : Slot} {v : Value} :
    (∃ code kept, storeCode k ty target v = .ok (code, kept)) ↔ v.Fits ty := by
  rcases v with (v | v) | ⟨sourceTy, source⟩
  · cases ty <;> exact iff_of_true ⟨_, _, rfl⟩ trivial
  · cases ty with
    | int =>
      refine iff_of_false ?_ fun h => absurd rfl h
      rintro ⟨code, kept, h⟩
      cases h
    | float32 | float64 =>
      refine iff_of_true ⟨_, _, rfl⟩ ?_
      intro h
      cases h
  · by_cases hty : sourceTy = ty
    · refine iff_of_true ?_ hty
      cases ty <;> exact ⟨_, _, if_neg (by simp [hty])⟩
    · refine iff_of_false ?_ hty
      rintro ⟨code, kept, h⟩
      cases ty <;> simp [storeCode, Scalar.width?, hty] at h

theorem exitCode_isOk {v : Value} : (∃ code, exitCode v = .ok code) ↔ v.type = .int := by
  rcases v with (v | v) | ⟨ty, s⟩
  · exact ⟨fun _ => rfl, fun _ => ⟨_, rfl⟩⟩
  · exact ⟨nofun, nofun⟩
  · cases ty with
    | int => exact ⟨fun _ => rfl, fun _ => ⟨_, rfl⟩⟩
    | float32 | float64 => exact ⟨nofun, nofun⟩

namespace Comparison

variable {ty : Scalar} {s : Slot}

theorem ofValues_slots {sourceTy : Scalar} {t : Slot} :
    (∃ c, ofValues (.slot ty s) (.slot sourceTy t) = .ok c) ↔ ty = sourceTy := by
  constructor
  · rintro ⟨c, hc⟩
    obtain ⟨ty', hty, -⟩ := ofValues_eq_ok.mp hc
    simp only [scalar] at hty
    split at hty
    next he => exact he
    next => cases hty
  · rintro rfl
    have hty : scalar (.slot ty s) (.slot ty t) = .ok ty := if_pos rfl
    unfold ofValues
    rw [hty]
    cases ty <;> exact ⟨_, rfl⟩

theorem ofValues_slot_left {b : Value} : (∃ c, ofValues (.slot ty s) b = .ok c) ↔ b.Fits ty := by
  rcases b with (v | v) | ⟨sourceTy, t⟩
  · cases ty <;> exact ⟨fun _ => trivial, fun _ => ⟨_, rfl⟩⟩
  · cases ty with
    | int => exact ⟨fun ⟨_, h⟩ => (by cases h), fun h => absurd rfl h⟩
    | float32 | float64 => exact ⟨fun _ => nofun, fun _ => ⟨_, rfl⟩⟩
  · rw [ofValues_slots]
    exact eq_comm

theorem ofValues_slot_right {a : Value} : (∃ c, ofValues a (.slot ty s) = .ok c) ↔ a.Fits ty := by
  rcases a with (v | v) | ⟨sourceTy, t⟩
  · cases ty <;> exact ⟨fun _ => trivial, fun _ => ⟨_, rfl⟩⟩
  · cases ty with
    | int => exact ⟨fun ⟨_, h⟩ => (by cases h), fun h => absurd rfl h⟩
    | float32 | float64 => exact ⟨fun _ => nofun, fun _ => ⟨_, rfl⟩⟩
  · exact ofValues_slots

theorem ofValues_constants (a b : Constant) : ∃ c, ofValues (.constant a) (.constant b) = .ok c := by
  cases a <;> cases b <;> exact ⟨_, rfl⟩

end Comparison

namespace Expr

variable {e lhs rhs : Expr} {scopes : Scopes} {ty : Scalar}

theorem fits_iff : e.Fits scopes.context ty ↔ ∃ v, e.value scopes = .ok v ∧ v.Fits ty := by
  constructor
  · intro h
    cases h with
    | stored h =>
      obtain ⟨s, hs⟩ := value_slot.mpr h
      exact ⟨_, hs, rfl⟩
    | int h => exact ⟨_, value_constant.mpr h, trivial⟩
    | @float32 c h | @float64 c h =>
      refine ⟨_, value_constant.mpr h, ?_⟩
      cases c with
      | int v => trivial
      | float v => exact nofun
  · rintro ⟨v, hv, hfits⟩
    rcases v with (v | v) | ⟨sourceTy, source⟩
    · cases ty with
      | int => exact .int (value_constant.mp hv)
      | float32 => exact .float32 (value_constant.mp hv)
      | float64 => exact .float64 (value_constant.mp hv)
    · cases ty with
      | int => exact absurd rfl hfits
      | float32 => exact .float32 (value_constant.mp hv)
      | float64 => exact .float64 (value_constant.mp hv)
    · cases hfits
      exact .stored (value_slot.mp ⟨_, hv⟩)

theorem hasType_iff : e.HasType scopes.context ty ↔ ∃ v, e.value scopes = .ok v ∧ v.type = ty := by
  constructor
  · intro h
    cases h with
    | stored h =>
      obtain ⟨s, hs⟩ := value_slot.mpr h
      exact ⟨_, hs, rfl⟩
    | int h => exact ⟨_, value_constant.mpr h, rfl⟩
    | float h => exact ⟨_, value_constant.mpr h, rfl⟩
  · rintro ⟨v, hv, rfl⟩
    rcases v with (v | v) | ⟨sourceTy, source⟩
    · exact .int (value_constant.mp hv)
    · exact .float (value_constant.mp hv)
    · exact .stored (value_slot.mp ⟨_, hv⟩)

theorem comparable_iff : lhs.Comparable scopes.context rhs ↔ ∃ c, Comparison.ofExprs scopes lhs rhs = .ok c := by
  simp only [Comparison.ofExprs_eq_ok]
  constructor
  · intro h
    cases h with
    | left hl hr =>
      obtain ⟨s, hs⟩ := value_slot.mpr hl
      obtain ⟨v, hv, hfits⟩ := fits_iff.mp hr
      obtain ⟨c, hc⟩ := Comparison.ofValues_slot_left.mpr hfits
      exact ⟨c, _, v, hs, hv, hc⟩
    | right hl hr =>
      obtain ⟨v, hv, hfits⟩ := fits_iff.mp hl
      obtain ⟨s, hs⟩ := value_slot.mpr hr
      obtain ⟨c, hc⟩ := Comparison.ofValues_slot_right.mpr hfits
      exact ⟨c, v, _, hv, hs, hc⟩
    | @constants a b hl hr =>
      obtain ⟨c, hc⟩ := Comparison.ofValues_constants a b
      exact ⟨c, _, _, value_constant.mpr hl, value_constant.mpr hr, hc⟩
  · rintro ⟨c, a, b, ha, hb, hc⟩
    cases a with
    | slot ty s => exact .left (value_slot.mp ⟨s, ha⟩) (fits_iff.mpr ⟨b, hb, Comparison.ofValues_slot_left.mp ⟨c, hc⟩⟩)
    | constant v =>
      cases b with
      | slot ty s =>
        exact .right (fits_iff.mpr ⟨_, ha, Comparison.ofValues_slot_right.mp ⟨c, hc⟩⟩) (value_slot.mp ⟨s, hb⟩)
      | constant v' => exact .constants (value_constant.mp ha) (value_constant.mp hb)

theorem isTest_iff {yes no : Label} :
    e.IsTest scopes.context ↔ ∃ code, e.testCode .nanSafe scopes yes no = .ok code := by
  constructor
  · intro h
    induction h generalizing yes no with
    | @compare op lhs rhs h =>
      obtain ⟨c, hc⟩ := comparable_iff.mp h
      obtain ⟨code, hcode, -⟩ := c.code_ok op yes no
      refine ⟨code, bind_ok hc ?_⟩
      rw [hcode]
      rfl
    | not h ih => exact ih
    | paren h ih => exact ih
  · rintro ⟨code, h⟩
    induction e generalizing yes no with
    | compare op lhs rhs =>
      obtain ⟨c, hc, -⟩ := ok_of_bind h
      exact .compare (comparable_iff.mpr ⟨c, hc⟩)
    | not e ih => exact .not (ih h)
    | paren e ih => exact .paren (ih h)
    | _ => cases h

theorem IsTest.decide_ok (h : e.IsTest scopes.context) (k : Knowledge) : ∃ b, e.decide scopes k = .ok b := by
  induction h with
  | compare h =>
    obtain ⟨c, hc⟩ := comparable_iff.mp h
    exact ⟨_, bind_ok hc rfl⟩
  | not h ih =>
    obtain ⟨b, hb⟩ := ih
    exact ⟨_, bind_ok hb rfl⟩
  | paren h ih => exact ih

end Expr

theorem GenState.Declares.context {g g' : GenState} {x : String} {symbol : Symbol} {known : Knowledge}
    (h : g.Declares x symbol known g') : g'.scopes.context = g.scopes.context.declare x symbol.type := by
  obtain ⟨-, -, rfl⟩ := h
  rfl

theorem GenState.exists_declares {g : GenState} {x : String} (hx : x ∉ g.scopes.context.current.map Prod.fst)
    (hframe : g.frame.next + 8 ≤ 2048) (type : VarType) :
    ∃ slot, ∀ known, ∃ g', g.Declares x ⟨type, slot⟩ known g' :=
  ⟨⟨g.frame.next, by omega⟩, fun _ => ⟨_, Scopes.fresh_iff.mp hx, rfl, rfl⟩⟩

namespace Stmt

variable {o : CompileOptions} {g g' : GenState} {code : List Instr} {ctx : Context}

/-- What generating a block says about the statements in it, and that it leaves the names as they were. -/
theorem block_of_inScope (ho : o.lowering = .nanSafe) {ss : List Stmt}
    (hss : ∀ ⦃g code g'⦄, genList o ss g = .ok (code, g') → AllWellFormed g.scopes.context ss g'.scopes.context)
    (h : (genList o ss).inScope g = .ok (code, g')) :
    (∃ last, AllWellFormed g.scopes.context.enter ss last) ∧ g'.scopes = g.scopes := by
  obtain ⟨g₁, hcode, rfl⟩ := Gen.inScope_eq_ok.mp h
  have hwf := hss hcode
  rw [Scopes.context_push] at hwf
  exact ⟨⟨_, hwf⟩, (genList_advances ho ss hcode).pop⟩

theorem foreseen_of_not_fold (hf : o.fold = false) (test : Expr) (g : GenState) : foreseen o test g = .ok none := by
  rw [foreseen, hf]
  rfl

mutual

theorem wellFormed_of_gen (hf : o.fold = false) (ho : o.lowering = .nanSafe) (s : Stmt) ⦃g code g'⦄
    (h : s.gen o g = .ok (code, g')) : WellFormed g.scopes.context s g'.scopes.context := by
  cases s with
  | define x e =>
    by_cases he : ∃ ty, e.unparen = .new ty
    · obtain ⟨ty, he⟩ := he
      obtain ⟨cell, -, hg⟩ := (defineGen_new he).mp h
      rw [hg.context]
      exact .cell (Scopes.fresh_iff.mpr hg.fresh) (Expr.unparen_new.mp he)
    · obtain ⟨v, slot, kept, hv, -, hg⟩ := (defineGen_value fun ty hty => he ⟨ty, hty⟩).mp h
      rw [hg.context]
      exact .define (Scopes.fresh_iff.mpr hg.fresh) (Expr.hasType_iff.mpr ⟨v, hv, rfl⟩)
  | var x ty init =>
    cases init with
    | none =>
      obtain ⟨slot, -, hg⟩ := varGen_none.mp h
      rw [hg.context]
      exact .var (Scopes.fresh_iff.mpr hg.fresh)
    | some e =>
      obtain ⟨v, slot, kept, hv, hcode, hg⟩ := varGen_some.mp h
      rw [hg.context]
      exact .varInit (Scopes.fresh_iff.mpr hg.fresh) (Expr.fits_iff.mpr ⟨v, hv, storeCode_isOk.mp ⟨_, _, hcode⟩⟩)
  | assign x e =>
    obtain ⟨ty, slot, v, kept, hx, hv, hcode, rfl⟩ := assignGen_eq_ok.mp h
    exact .assign (Scopes.type?_context_eq_some.mpr ⟨slot, hx⟩)
      (Expr.fits_iff.mpr ⟨v, hv, storeCode_isOk.mp ⟨_, _, hcode⟩⟩)
  | store x e =>
    obtain ⟨ty, cell, v, kept, hx, hv, hcode, rfl⟩ := storeGen_eq_ok.mp h
    exact .store (Scopes.type?_context_eq_some.mpr ⟨cell, hx⟩)
      (Expr.fits_iff.mpr ⟨v, hv, storeCode_isOk.mp ⟨_, _, hcode⟩⟩)
  | inc x =>
    obtain ⟨slot, hx, -, rfl⟩ := stepGen_eq_ok.mp h
    exact .inc (Scopes.type?_context_eq_some.mpr ⟨slot, hx⟩)
  | dec x =>
    obtain ⟨slot, hx, -, rfl⟩ := stepGen_eq_ok.mp h
    exact .dec (Scopes.type?_context_eq_some.mpr ⟨slot, hx⟩)
  | exit e =>
    obtain ⟨v, hv, hcode, rfl⟩ := exitGen_eq_ok.mp h
    exact .exit (Expr.hasType_iff.mpr ⟨v, hv, exitCode_isOk.mp ⟨_, hcode⟩⟩)
  | cond test body otherwise =>
    cases otherwise with
    | none =>
      cases condGen_eq_ok.mp h with
      | decided hb => cases (foreseen_of_not_fold hf test g).symm.trans hb
      | short _ htest hbody =>
        obtain ⟨⟨last, hbody⟩, hscopes⟩ := block_of_inScope ho (allWellFormed_of_genList hf ho body) hbody
        simp only [hscopes]
        exact .cond (Expr.isTest_iff.mpr ⟨_, ho ▸ htest⟩) hbody
    | some otherwise =>
      cases condGen_eq_ok.mp h with
      | decided hb => cases (foreseen_of_not_fold hf test g).symm.trans hb
      | long _ htest hbody helse =>
        obtain ⟨⟨last, hbody⟩, hscopes⟩ := block_of_inScope ho (allWellFormed_of_genList hf ho body) hbody
        obtain ⟨⟨last', helse⟩, hscopes'⟩ := block_of_inScope ho (allWellFormed_of_genList hf ho otherwise) helse
        simp only [GenState.labelled, hscopes] at helse hscopes'
        simp only [hscopes']
        exact .condElse (Expr.isTest_iff.mpr ⟨_, ho ▸ htest⟩) hbody helse

theorem allWellFormed_of_genList (hf : o.fold = false) (ho : o.lowering = .nanSafe) (ss : List Stmt) ⦃g code g'⦄
    (h : genList o ss g = .ok (code, g')) : AllWellFormed g.scopes.context ss g'.scopes.context := by
  cases ss with
  | nil =>
    cases h
    exact .nil
  | cons s ss =>
    obtain ⟨first, g₁, second, hs, hss, -⟩ := Gen.andThen_eq_ok.mp h
    exact .cons (wellFormed_of_gen hf ho s hs) (allWellFormed_of_genList hf ho ss hss)

end

theorem foreseen_ok {test : Expr} (h : test.IsTest g.scopes.context) : ∃ b, foreseen o test g = .ok b := by
  unfold foreseen
  split
  · exact h.decide_ok g.known
  · exact ⟨none, rfl⟩

/-- A block has code if its statements have, leaves the names as they were and takes no more slots than it declares. -/
theorem inScope_of_block (ho : o.lowering = .nanSafe) {ss : List Stmt} {last : Context}
    (hss : AllWellFormed ctx.enter ss last)
    (hgen : ∀ ⦃g : GenState⦄ ⦃ctx' : Context⦄, AllWellFormed g.scopes.context ss ctx' →
      g.frame.next + 8 * declarationsList ss ≤ 2048 →
      ∃ code g', genList o ss g = .ok (code, g') ∧ g'.scopes.context = ctx')
    (g : GenState) (hctx : g.scopes.context = ctx) (hframe : g.frame.next + 8 * declarationsList ss ≤ 2048) :
    ∃ code g', (genList o ss).inScope g = .ok (code, g') ∧ g'.scopes = g.scopes ∧
      g'.frame.next ≤ g.frame.next + 8 * declarationsList ss := by
  rw [← hctx, ← Scopes.context_push] at hss
  obtain ⟨code, g₁, hcode, -⟩ := @hgen { g with scopes := g.scopes.push } _ hss hframe
  have hadvances := genList_advances ho ss hcode
  exact ⟨code, _, Gen.inScope_eq_ok.mpr ⟨g₁, hcode, rfl⟩, hadvances.pop, hadvances.le_frame⟩

mutual

/-- Well-formed statements have code as long as there is room for their declarations, with folding or without it. -/
theorem gen_of_wellFormed (ho : o.lowering = .nanSafe) (s : Stmt) ⦃g : GenState⦄ ⦃ctx' : Context⦄
    (h : WellFormed g.scopes.context s ctx') (hframe : g.frame.next + 8 * s.declarations ≤ 2048) :
    ∃ code g', s.gen o g = .ok (code, g') ∧ g'.scopes.context = ctx' := by
  cases h with
  | @cell _ x e ty hx he =>
    obtain ⟨cell, hcell⟩ := GenState.exists_declares hx hframe (.pointer ty)
    obtain ⟨g', hg⟩ := hcell _
    exact ⟨_, g', (defineGen_new (Expr.unparen_new.mpr he)).mpr ⟨cell, rfl, hg⟩, hg.context⟩
  | @define _ x e ty hx he =>
    obtain ⟨v, hv, rfl⟩ := Expr.hasType_iff.mp he
    obtain ⟨slot, hslot⟩ := GenState.exists_declares hx hframe (.scalar v.type)
    obtain ⟨code, kept, hcode⟩ := storeCode_isOk.mpr v.fits_type
    obtain ⟨g', hg⟩ := hslot _
    exact ⟨_, g', (defineGen_value (Expr.unparen_ne_new hv)).mpr ⟨v, slot, kept, hv, hcode, hg⟩, hg.context⟩
  | @var _ x ty hx =>
    obtain ⟨slot, hslot⟩ := GenState.exists_declares hx hframe (.scalar ty)
    obtain ⟨g', hg⟩ := hslot _
    exact ⟨_, g', varGen_none.mpr ⟨slot, rfl, hg⟩, hg.context⟩
  | @varInit _ x ty e hx he =>
    obtain ⟨slot, hslot⟩ := GenState.exists_declares hx hframe (.scalar ty)
    obtain ⟨v, hv, hfits⟩ := Expr.fits_iff.mp he
    obtain ⟨code, kept, hcode⟩ := storeCode_isOk.mpr hfits
    obtain ⟨g', hg⟩ := hslot _
    exact ⟨_, g', varGen_some.mpr ⟨v, slot, kept, hv, hcode, hg⟩, hg.context⟩
  | @assign _ x ty e hx he =>
    obtain ⟨slot, hslot⟩ := Scopes.type?_context_eq_some.mp hx
    obtain ⟨v, hv, hfits⟩ := Expr.fits_iff.mp he
    obtain ⟨code, kept, hcode⟩ := storeCode_isOk.mpr hfits
    exact ⟨_, _, assignGen_eq_ok.mpr ⟨ty, slot, v, kept, hslot, hv, hcode, rfl⟩, rfl⟩
  | @store _ x ty e hx he =>
    obtain ⟨cell, hcell⟩ := Scopes.type?_context_eq_some.mp hx
    obtain ⟨v, hv, hfits⟩ := Expr.fits_iff.mp he
    obtain ⟨code, kept, hcode⟩ := storeCode_isOk.mpr hfits
    exact ⟨_, _, storeGen_eq_ok.mpr ⟨ty, cell, v, kept, hcell, hv, hcode, rfl⟩, rfl⟩
  | inc hx =>
    obtain ⟨slot, hslot⟩ := Scopes.type?_context_eq_some.mp hx
    exact ⟨_, _, stepGen_eq_ok.mpr ⟨slot, hslot, rfl, rfl⟩, rfl⟩
  | dec hx =>
    obtain ⟨slot, hslot⟩ := Scopes.type?_context_eq_some.mp hx
    exact ⟨_, _, stepGen_eq_ok.mpr ⟨slot, hslot, rfl, rfl⟩, rfl⟩
  | exit he =>
    obtain ⟨v, hv, hint⟩ := Expr.hasType_iff.mp he
    obtain ⟨code, hcode⟩ := exitCode_isOk.mpr hint
    exact ⟨_, _, exitGen_eq_ok.mpr ⟨v, hv, hcode, rfl⟩, rfl⟩
  | @cond _ test body last htest hbody =>
    simp only [declarations] at hframe
    have hblock := inScope_of_block ho hbody (genList_of_allWellFormed ho body)
    have htestCode : ∃ code, test.testCode .nanSafe g.scopes g.nextLabel (g.labelled "then").nextLabel = .ok code :=
      Expr.isTest_iff.mp htest
    obtain ⟨testCode, htestCode⟩ := ho ▸ htestCode
    obtain ⟨_ | _ | _, hb⟩ := foreseen_ok (o := o) htest
    · obtain ⟨bodyCode, after, hcode, hscopes, -⟩ := hblock ((g.labelled "then").labelled "endif") rfl hframe
      exact ⟨_, _, condGen_eq_ok.mpr (.short hb htestCode hcode), congrArg Scopes.context hscopes⟩
    · exact ⟨[], g, condGen_eq_ok.mpr (.decided hb rfl), rfl⟩
    · obtain ⟨bodyCode, after, hcode, hscopes, -⟩ := hblock g rfl hframe
      exact ⟨_, _, condGen_eq_ok.mpr (.decided hb hcode), congrArg Scopes.context hscopes⟩
  | @condElse _ test body otherwise last last' htest hbody helse =>
    simp only [declarations] at hframe
    have hblock := inScope_of_block ho hbody (genList_of_allWellFormed ho body)
    have hblock' := inScope_of_block ho helse (genList_of_allWellFormed ho otherwise)
    have htestCode : ∃ code, test.testCode .nanSafe g.scopes g.nextLabel (g.labelled "then").nextLabel = .ok code :=
      Expr.isTest_iff.mp htest
    obtain ⟨testCode, htestCode⟩ := ho ▸ htestCode
    obtain ⟨_ | _ | _, hb⟩ := foreseen_ok (o := o) htest
    · obtain ⟨bodyCode, after, hcode, hscopes, hnext⟩ :=
        hblock ((g.labelled "then").labelled "else") rfl (by simp only [GenState.labelled]; omega)
      simp only [GenState.labelled] at hnext
      obtain ⟨elseCode, last, hcode', hscopes', -⟩ := hblock' { after.labelled "endif" with known := g.known }
        (congrArg Scopes.context hscopes) (by simp only [GenState.labelled]; omega)
      exact ⟨_, _, condGen_eq_ok.mpr (.long hb htestCode hcode hcode'),
        congrArg Scopes.context (hscopes'.trans hscopes)⟩
    · obtain ⟨elseCode, last, hcode, hscopes, -⟩ := hblock' g rfl (by omega)
      exact ⟨_, _, condGen_eq_ok.mpr (.decided hb hcode), congrArg Scopes.context hscopes⟩
    · obtain ⟨bodyCode, after, hcode, hscopes, -⟩ := hblock g rfl (by omega)
      exact ⟨_, _, condGen_eq_ok.mpr (.decided hb hcode), congrArg Scopes.context hscopes⟩

theorem genList_of_allWellFormed (ho : o.lowering = .nanSafe) (ss : List Stmt) ⦃g : GenState⦄ ⦃ctx' : Context⦄
    (h : AllWellFormed g.scopes.context ss ctx') (hframe : g.frame.next + 8 * declarationsList ss ≤ 2048) :
    ∃ code g', genList o ss g = .ok (code, g') ∧ g'.scopes.context = ctx' := by
  cases h with
  | nil => exact ⟨[], g, rfl, rfl⟩
  | @cons _ s ctx₁ ss _ hs hss =>
    simp only [declarationsList] at hframe
    obtain ⟨first, g₁, hfirst, rfl⟩ := gen_of_wellFormed ho s hs (by omega)
    have hgrowth := (gen_advances ho s hfirst).le_frame
    obtain ⟨second, g', hsecond, rfl⟩ := genList_of_allWellFormed ho ss hss (by omega)
    exact ⟨_, g', Gen.andThen_eq_ok.mpr ⟨first, g₁, second, hfirst, hsecond, rfl⟩, rfl⟩

end

end Stmt

namespace Program

variable {p : Program} {o : CompileOptions} {r : Routine}

theorem wellFormed_of_compile (hf : o.fold = false) (ho : o.lowering = .nanSafe) (h : p.compile o = .ok r) :
    p.WellFormed := by
  obtain ⟨code, g, hcode, -⟩ := compile_eq_ok.mp h
  have hadvances := Stmt.genList_advances ho p.body hcode
  have hbody := Stmt.allWellFormed_of_genList hf ho p.body hcode
  refine ⟨⟨_, hbody⟩, ?_⟩
  have hframe := hadvances.frame_eq hf
  have hreach := (hadvances.sound ⟨rfl, Nat.zero_le _⟩).reachable
  simp only at hframe
  omega

/-- With folding or without it, well-formed programs compile. -/
theorem compile_of_wellFormed (ho : o.lowering = .nanSafe) (h : p.WellFormed) : ∃ r, p.compile o = .ok r := by
  obtain ⟨last, hbody⟩ := h.body
  have hframe := h.declarations
  obtain ⟨code, g, hcode, -⟩ := @Stmt.genList_of_allWellFormed o ho p.body {} last hbody (by simp only; omega)
  exact ⟨_, compile_eq_ok.mpr ⟨code, g, hcode, rfl⟩⟩

/-- Exactly the well-formed programs compile. -/
theorem compile_isOk_iff_wellFormed (p : Program) :
    (∃ r, p.compile { fold := false, lowering := .nanSafe } = .ok r) ↔ p.WellFormed :=
  ⟨fun ⟨_, h⟩ => wellFormed_of_compile rfl rfl h, compile_of_wellFormed rfl⟩

end Program
end Comparand
