import Comparand.Proofs.Lowering

/-! The invalid flag: lowered code raises it exactly for those NaNs that the condition does not take quietly, and leaves
the other flags alone. -/
namespace Comparand

/-- A float of either width. -/
inductive FloatValue where
  | single (v : Binary32)
  | double (v : Binary64)
deriving DecidableEq

namespace FloatValue

def isNaN : FloatValue → Bool
  | single v => v.isNaN
  | double v => v.isNaN

def isSignaling : FloatValue → Bool
  | single v => v.isSignaling
  | double v => v.isSignaling

theorem isNaN_of_isSignaling {a : FloatValue} (h : a.isSignaling = true) : a.isNaN = true := by
  cases a <;> exact (Bool.and_eq_true_iff.mp h).1

end FloatValue

/-- The float of an operand, as instructions of its width read it. -/
def Operand.floatIn (m : Machine) (o : Operand) : Except Fault FloatValue :=
  match o.place, o.width with
  | .register r, .single => .ok (.single (m.single r))
  | .register r, .double => .ok (.double (m.double r))
  | .slot s, .single => (m.memory.load32 (m.address .sp s.offset)).map fun b => .single ⟨b⟩
  | .slot s, .double => (m.memory.load64 (m.address .sp s.offset)).map fun b => .double ⟨b⟩
  | .constant v, .single => .ok (.single v.narrow)
  | .constant v, .double => .ok (.double v)

/-- The float that a register word stands for. -/
def Width.float : Width → UInt64 → FloatValue
  | single, x => .single (unbox x)
  | double, x => .double ⟨x⟩

theorem Operand.floatIn_eq (m : Machine) (o : Operand) : o.floatIn m = (o.wordIn m).map o.width.float := by
  obtain ⟨place, w⟩ := o
  cases place with
  | register r => cases w <;> rfl
  | constant v =>
    cases w with
    | double => rfl
    | single => simp only [floatIn, wordIn, Except.map, Width.float, Width.word, unbox_box]
  | slot s =>
    cases w with
    | double => rfl
    | single =>
      simp only [floatIn, wordIn]
      cases m.memory.load32 (m.address .sp s.offset) with
      | error e => rfl
      | ok b => simp only [Except.map, Width.float, unbox_box]

/-- A signaling NaN makes every test invalid, and a quiet one those that mind it. -/
theorem FloatTest.isInvalid_reading (t : FloatTest) (w : Width) (x y : UInt64) :
    t.isInvalid (w.reading x y) = ((w.float x).isSignaling || (w.float y).isSignaling ||
      (t.isSignaling && ((w.float x).isNaN || (w.float y).isNaN))) := by
  have horder : (w.reading x y).order.isNone = ((w.float x).isNaN || (w.float y).isNaN) := by
    cases w <;> exact Format.compare?_isNone
  rw [isInvalid, horder]
  cases w <;> rfl

namespace Condition

/-- The conditions that take quiet NaNs quietly. -/
def isQuiet : Condition → Bool
  | eq | ne | ord | uno => true
  | _ => false

/-- Whether a condition on two floats is an invalid operation. -/
def isInvalid (c : Condition) (a b : FloatValue) : Bool :=
  if c.isQuiet then a.isSignaling || b.isSignaling else a.isNaN || b.isNaN

theorem raises_eq (c : Condition) (w : Width) (x y : UInt64) : c.raises w x y = c.isInvalid (w.float x) (w.float y) := by
  have hnan : (w.float x).isSignaling = true ∨ (w.float y).isSignaling = true →
      (w.float x).isNaN = true ∨ (w.float y).isNaN = true :=
    Or.imp FloatValue.isNaN_of_isSignaling FloatValue.isNaN_of_isSignaling
  simp only [raises, FloatTest.isInvalid_reading, Side.apply_pick w.float, isInvalid]
  cases c
  case eq | ne | ord | uno =>
    simp [recipe, Recipe.probes, Side.pick, FloatTest.isSignaling, isQuiet]
  all_goals
    simpa [recipe, Recipe.probes, Side.pick, FloatTest.isSignaling, isQuiet, Bool.or_comm] using hnan

end Condition

/-- The instructions that the comparisons of a recipe and the negation of its answer consist of. -/
def Instr.isDecision : Instr → Bool
  | fcmp .. | and .. | or .. | xori .. => true
  | _ => false

namespace Machine

variable {m m' : Machine} {i : Instr} {code : List Instr}

/-- Whether an instruction is an invalid operation on what the float registers hold. -/
def isInvalid (m : Machine) : Instr → Bool
  | .fcmp test w _ f g => test.isInvalid (m.inspect w f g)
  | _ => false

theorem isInvalid_congr (h : ∀ f, m'.float f = m.float f) : m'.isInvalid = m.isInvalid := by
  funext i
  cases i with
  | fcmp test w rd f g => simp only [isInvalid, Width.inspect_eq, h]
  | _ => rfl

theorem isDecision_run (p : Routine) (rest : List Instr) (hi : i.isDecision = true) :
    ∃ m', Reaches p (i :: rest) m ⟨1, m.isInvalid i⟩ rest m' ∧ ∀ f, m'.float f = m.float f := by
  cases i with
  | fcmp test w rd f g => exact ⟨_, .compare, by simp⟩
  | and rd rs₁ rs₂ | or rd rs₁ rs₂ | xori rd rs imm => exact ⟨_, .next rfl rfl rfl, by simp⟩
  | _ => cases hi

/-- Such code runs to its end and keeps the float registers, so each comparison sees what was there at the start. -/
theorem decisions_run (p : Routine) (rest : List Instr) (hcode : ∀ i ∈ code, i.isDecision = true) (m : Machine) :
    ∃ m', Reaches p (code ++ rest) m ⟨code.length, code.any m.isInvalid⟩ rest m' := by
  induction code generalizing m with
  | nil => exact ⟨m, .refl ..⟩
  | cons i code ih =>
    obtain ⟨hi, hcode⟩ := List.forall_mem_cons.mp hcode
    obtain ⟨m₁, hfirst, hfloats⟩ := isDecision_run (m := m) p (code ++ rest) hi
    obtain ⟨m₂, hsecond⟩ := ih hcode m₁
    refine ⟨m₂, ?_⟩
    have hrun := hfirst.trans hsecond
    rw [isInvalid_congr hfloats, Cost.mk_add_mk, Nat.add_comm] at hrun
    exact hrun

end Machine

namespace Condition

open Machine

variable {code : List Instr} {m : Machine} {s s' : Scratch} {c : Condition} {w : Width} {lhs rhs : Operand}
  {dest : Destination} {rd : IntReg} {f g : FloatReg} {x y : UInt64} {l : Lowered}

theorem decision_raises (hd : Drawing.Yields (Drawing.decision c.recipe
      (fun q rd => .fcmp q.test w rd (q.first.pick f g) (q.second.pick f g)) rd) s code s')
    (hf : m.float f = x) (hg : m.float g = y) :
    (∀ i ∈ code, i.isDecision = true) ∧ code.any m.isInvalid = c.raises w x y := by
  have hreading (q : Probe) := inspect_pick w q hf hg
  rcases Drawing.yields_decision hd with ⟨q, hc, rfl⟩ | ⟨q₁, q₂, tmp, hc, rfl, -⟩ | ⟨q₁, q₂, tmp, hc, rfl, -⟩
  all_goals
    refine ⟨by simp [Instr.isDecision], ?_⟩
    simp [raises, hc, Recipe.probes, Machine.isInvalid, hreading]

theorem delivery_value_quiet (c : Condition) (rd r : IntReg) (m : Machine) :
    (∀ i ∈ c.delivery rd (.value r), i.isDecision = true) ∧ (c.delivery rd (.value r)).any m.isInvalid = false := by
  rw [delivery]
  split
  · simp [Instr.isDecision, Machine.isInvalid]
  · simp

/-- Code with its answer in a register, be it even `zero`, runs to its end. -/
theorem Drawn.value_run (p : Routine) (rest : List Instr) {r : IntReg} (d : c.Drawn lhs rhs (.value r) s) (hs : s.Sound)
    (hw : lhs.width = rhs.width) (hx : lhs.wordIn m = .ok x) (hy : rhs.wordIn m = .ok y) :
    ∃ m', Reaches p (d.code ++ rest) m ⟨d.code.length, c.raises lhs.width x y⟩ rest m' := by
  obtain ⟨m₁, hload, ha, hb, -⟩ :=
    d.operands_run p (d.decision ++ c.delivery d.rd (.value r) ++ rest) hs hw hx hy
  obtain ⟨hdecision, hraises⟩ := decision_raises d.decided ha hb
  obtain ⟨hdelivery, hquiet⟩ := c.delivery_value_quiet d.rd r m₁
  obtain ⟨m₂, hdecide⟩ := decisions_run p rest (List.forall_mem_append.mpr ⟨hdecision, hdelivery⟩) m₁
  refine ⟨m₂, ?_⟩
  have hrun := hload.trans hdecide
  rw [List.any_append, hraises, hquiet, Bool.or_false] at hrun
  simpa [Drawn.code, Nat.add_assoc] using hrun

end Condition

/-- A run of code gets to where a destination sends it: to what follows, or to one of the two labels. -/
def Destination.Leads (p : Routine) (code rest : List Instr) (m m' : Machine) : Destination → Prop
  | .value _ => ∃ cost, Machine.Reaches p (code ++ rest) m cost rest m'
  | .branch yes no => ∃ cost l, (l = yes ∨ l = no) ∧ Machine.Jumps p (code ++ rest) m cost l m'

namespace Condition

variable {c : Condition} {lhs rhs : Operand} {dest : Destination} {s s' : Scratch} {l : Lowered} {m : Machine}

/-- Lowered code adds the invalid flag exactly if its condition is an invalid operation on the floats of the operands,
and changes no other flag. -/
theorem lower_flags (h : c.lower lhs rhs dest s = (.ok l, s')) (hs : s.Sound) {a b : FloatValue}
    (ha : lhs.floatIn m = .ok a) (hb : rhs.floatIn m = .ok b) (p : Routine) (rest : List Instr) :
    ∃ m', dest.Leads p l.code rest m m' ∧
      m'.fflags = if c.isInvalid a b then m.fflags ||| invalidFlag else m.fflags := by
  have hw := width_eq_of_lower h
  rw [Operand.floatIn_eq] at ha hb
  obtain ⟨x, hx, rfl⟩ := ok_of_map ha
  obtain ⟨y, hy, rfl⟩ := ok_of_map hb
  rw [← hw, ← raises_eq]
  cases dest with
  | value rd =>
    obtain ⟨d, hcode⟩ := drawn_of_lower h
    obtain ⟨m', hrun⟩ := d.value_run p rest hs hw hx hy
    rw [← hcode] at hrun
    exact ⟨m', ⟨_, hrun⟩, hrun.flags⟩
  | branch yes no =>
    obtain ⟨m', hrun, -⟩ := lower_branch_run p rest h hs hx hy
    refine ⟨m', ⟨_, _, ?_, hrun⟩, hrun.flags⟩
    split
    · exact .inl rfl
    · exact .inr rfl

end Condition

/-- A machine with one word in all float registers. -/
def Machine.filled (x : UInt64) : Machine := { fresh 2048 9 with floats := .replicate 32 x }

/-- Registers that are compared with themselves: a signaling NaN is minded, and a quiet one is not. -/
theorem Condition.lower_flags_ord :
    ∃ l s', ord.lower ⟨.register .ft0, .single⟩ ⟨.constant .zero, .single⟩ (.branch ⟨0⟩ ⟨1⟩) {} = (.ok l, s') ∧
      (∃ m', Destination.Leads { name := "main" } l.code [] (.filled (box 0x7f800001)) m' (.branch ⟨0⟩ ⟨1⟩) ∧
        m'.fflags = invalidFlag) ∧
      ∃ m', Destination.Leads { name := "main" } l.code [] (.filled (box 0x7fc00000)) m' (.branch ⟨0⟩ ⟨1⟩) ∧
        m'.fflags = 0 := by
  refine ⟨_, _, rfl, ?_⟩
  have h : ord.lower ⟨.register .ft0, .single⟩ ⟨.constant .zero, .single⟩ (.branch ⟨0⟩ ⟨1⟩) {} = (.ok _, _) := rfl
  have hs : ({} : Scratch).Sound := ⟨by decide, by decide, by decide, by decide⟩
  constructor
  · obtain ⟨m', hleads, hflags⟩ := lower_flags (m := .filled (box 0x7f800001)) h hs rfl rfl { name := "main" } []
    refine ⟨m', hleads, hflags.trans ?_⟩
    decide
  · obtain ⟨m', hleads, hflags⟩ := lower_flags (m := .filled (box 0x7fc00000)) h hs rfl rfl { name := "main" } []
    refine ⟨m', hleads, hflags.trans ?_⟩
    decide

end Comparand
