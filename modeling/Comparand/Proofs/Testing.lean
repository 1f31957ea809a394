import Comparand.Proofs.Storing

/-! Tests: their code goes where they say, and what is decided beforehand is what they say. -/
namespace Comparand

theorem Condition.ofRelation_holdsOf (op : Relation) (o : Option Ordering) :
    (Condition.ofRelation op).holdsOf o = op.holdsOfFloats o := by
  cases op <;> rcases o with _ | _ | _ | _ <;> rfl

namespace Relation

variable {op : Relation} {x y : Datum} {ty : Scalar} {w : Width} {b : Bool}

/-- Data of one type can be compared. -/
theorem relates?_ok (op : Relation) (hx : x.type = ty) (hy : y.type = ty) : ∃ b, op.relates? x y = some b := by
  subst hx
  cases x <;> cases y <;> cases hy <;> exact ⟨_, rfl⟩

/-- Instructions see in registers what the data are. -/
theorem holds_word (hx : x.type = ty) (hy : y.type = ty) (hw : ty.width? = some w) (hb : op.relates? x y = some b) :
    (Condition.ofRelation op).holds (w.value x.word) (w.value y.word) = b := by
  subst hx
  rw [Condition.holds, Condition.ofRelation_holdsOf]
  cases x <;> cases y <;> cases hy <;> cases hw <;> cases hb
  · simp only [Width.value, Datum.word, unbox_box]
    rw [Binary32.compare?_widen]
  · rfl

end Relation

namespace Rvalue.Denotes

variable {r : Rvalue} {v : Value} {g : GenState} {places : Places} {env : Env} {contents : Contents} {ty : Scalar}
  {x : Datum} {m : Machine} {size : Nat} {w : Width}

theorem datum (hr : r.Denotes places v) (ht : g.Tracks places env contents) (hfits : v.Fits ty) :
    ∃ x, r.datum? contents ty = some x ∧ x.type = ty := by
  cases hr with
  | constant c =>
    cases ty with
    | int =>
      cases c with
      | int v => exact ⟨_, rfl, rfl⟩
      | float v => exact absurd rfl hfits
    | float32 | float64 => exact ⟨_, rfl, rfl⟩
  | stored hi =>
    cases hfits
    obtain ⟨x, hx, rfl⟩ := ht.datum hi
    exact ⟨x, by simp [datum?, hx], rfl⟩

theorem wordIn (hr : r.Denotes places v) (hm : m.Represents size places contents) (hw : ty.width? = some w)
    (hx : r.datum? contents ty = some x) : (v.operand w).wordIn m = .ok x.word := by
  cases hr with
  | constant c =>
    have hdatum := (Scalar.datum?_word hw c).1
    cases hx.symm.trans hdatum
    exact congrArg Except.ok (w.word_datum _).symm
  | @stored i ty' s hi =>
    obtain ⟨hmem, htype⟩ := Option.filter_eq_some_iff.mp hx
    have htype : x.type = ty := by simpa using htype
    exact (hm.holds hi hmem).wordIn (htype ▸ hw)

end Rvalue.Denotes
/-- What two values are when they are compared, and how that comes out. -/
structure Compared (contents : Contents) (op : Relation) (a b : Rvalue) (ty : Scalar) (x y : Datum) (holds : Bool) :
    Prop where
  at_type : a.comparedAt? contents b = some ty
  left : a.datum? contents ty = some x
  right : b.datum? contents ty = some y
  left_type : x.type = ty
  right_type : y.type = ty
  outcome : op.relates? x y = some holds

namespace Comparison

variable {a b : Value} {c : Comparison} {ty tyA : Scalar} {s : Slot}

theorem scalar_slot_left (h : scalar (.slot tyA s) b = .ok ty) : tyA = ty := by
  cases b with
  | constant c =>
    cases h
    rfl
  | slot tyB t =>
    simp only [scalar] at h
    split at h <;> cases h
    rfl

theorem scalar_slot_right (h : scalar a (.slot tyA s) = .ok ty) : tyA = ty := by
  cases a with
  | constant c =>
    cases h
    rfl
  | slot tyB t =>
    simp only [scalar] at h
    split at h <;> cases h
    next he => exact he.symm

/-- Both sides of a comparison fit the type at which it is made. -/
theorem fits_of_ofValues (h : ofValues a b = .ok c) (hty : scalar a b = .ok ty) : a.Fits ty ∧ b.Fits ty := by
  cases a with
  | slot tyA s =>
    cases scalar_slot_left hty
    exact ⟨rfl, ofValues_slot_left.mp ⟨c, h⟩⟩
  | constant d =>
    cases b with
    | slot tyB t =>
      cases scalar_slot_right hty
      exact ⟨ofValues_slot_right.mp ⟨c, h⟩, rfl⟩
    | constant d' => cases d <;> cases d' <;> cases hty <;> constructor <;> first | trivial | exact nofun

end Comparison

namespace GenState.Tracks

variable {g : GenState} {places : Places} {env : Env} {contents : Contents} {ra rb : Rvalue} {a b : Value}

theorem comparedAt (ht : g.Tracks places env contents) (ha : ra.Denotes places a) (hb : rb.Denotes places b)
    {ty : Scalar} (hty : Comparison.scalar a b = .ok ty) : ra.comparedAt? contents rb = some ty := by
  cases ha with
  | stored hi =>
    cases Comparison.scalar_slot_left hty
    obtain ⟨d, hd, rfl⟩ := ht.datum hi
    simp [Rvalue.comparedAt?, hd]
  | constant c =>
    cases hb with
    | stored hj =>
      cases Comparison.scalar_slot_right hty
      obtain ⟨d, hd, rfl⟩ := ht.datum hj
      simp [Rvalue.comparedAt?, hd]
    | constant c' => cases c <;> cases c' <;> cases hty <;> rfl

/-- What the compiler compares has an outcome, at the width or type that the compiler takes. -/
theorem compared (ht : g.Tracks places env contents) (ha : ra.Denotes places a) (hb : rb.Denotes places b)
    {c : Comparison} (h : Comparison.ofValues a b = .ok c) (op : Relation) :
    ∃ ty x y holds, Compared contents op ra rb ty x y holds ∧
      ((∃ w, ty.width? = some w ∧ c = .float w a b) ∨ (ty = .int ∧ c = .int a b)) := by
  obtain ⟨ty, hty, hc⟩ := Comparison.ofValues_eq_ok.mp h
  obtain ⟨hfitsA, hfitsB⟩ := Comparison.fits_of_ofValues h hty
  obtain ⟨x, hx, hxty⟩ := ha.datum ht hfitsA
  obtain ⟨y, hy, hyty⟩ := hb.datum ht hfitsB
  obtain ⟨holds, hholds⟩ := op.relates?_ok hxty hyty
  refine ⟨ty, x, y, holds, ⟨ht.comparedAt ha hb hty, hx, hy, hxty, hyty, hholds⟩, ?_⟩
  rcases hc with hc | ⟨hint, -, -, hc⟩
  · exact .inl hc
  · exact .inr ⟨hint, hc⟩

end GenState.Tracks
namespace Compared

variable {g : GenState} {places : Places} {env : Env} {contents : Contents} {op : Relation} {ra rb : Rvalue}
  {a b : Value} {ty : Scalar} {x y : Datum} {holds : Bool} {lhs rhs : Expr} {w : Width}

theorem truth? (h : Compared contents op ra rb ty x y holds) (hl : lhs.rvalue? env = some ra)
    (hr : rhs.rvalue? env = some rb) : (Expr.compare op lhs rhs).truth? env contents = some holds := by
  simp [Expr.truth?, hl, hr, h.at_type, h.left, h.right, h.outcome]

theorem testCost_float (h : Compared contents op ra rb ty x y holds) (hl : lhs.rvalue? env = some ra)
    (hr : rhs.rvalue? env = some rb) (hw : ty.width? = some w) :
    (Expr.compare op lhs rhs).testCost env contents =
      ⟨ra.floatLoads + ra.secondLoads rb + 1 + (if holds then 1 else 2),
        (Condition.ofRelation op).raises w x.word y.word⟩ := by
  simp [Expr.testCost, Rvalue.compareCost?, hl, hr, h.at_type, h.left, h.right, h.outcome, hw]

theorem testCost_int (h : Compared contents op ra rb .int x y holds) (hl : lhs.rvalue? env = some ra)
    (hr : rhs.rvalue? env = some rb) : (Expr.compare op lhs rhs).testCost env contents =
      ⟨ra.intLoads + rb.intLoads + (if holds then 1 else 2), false⟩ := by
  simp [Expr.testCost, Rvalue.compareCost?, hl, hr, h.at_type, h.left, h.right, h.outcome, Scalar.width?]

/-- Two places have one slot only if they are one. -/
theorem secondLoads_eq (ht : g.Tracks places env contents) (ha : ra.Denotes places a) (hb : rb.Denotes places b) :
    (if a.aliases b then 0 else b.loads) = ra.secondLoads rb := by
  cases ha with
  | constant c => cases hb <;> rfl
  | @stored i tyA s hi =>
    cases hb with
    | constant c => rfl
    | @stored j tyB t hj =>
      by_cases hij : i = j
      · subst hij
        cases hi.symm.trans hj
        simp [Value.aliases, Rvalue.secondLoads]
      · have hne : s ≠ t := fun he => hij (ht.place_unique hi (he ▸ hj))
        simp [Value.aliases, Rvalue.secondLoads, hij, hne, Value.loads]

open Machine in
theorem float_run (p : Routine) (rest : List Instr) (h : Compared contents op ra rb ty x y holds)
    (ht : g.Tracks places env contents) (ha : ra.Denotes places a) (hb : rb.Denotes places b)
    (hw : ty.width? = some w) (yes no : Label) {code : List Instr}
    (hcode : (Comparison.float w a b).code .nanSafe op yes no = .ok code) :
    code.length = ra.floatLoads + ra.secondLoads rb + 3 ∧
      ∀ {m : Machine} {size : Nat}, m.Represents size places contents →
        ∃ m', Jumps p (code ++ rest) m ⟨ra.floatLoads + ra.secondLoads rb + 1 + (if holds then 1 else 2),
            (Condition.ofRelation op).raises w x.word y.word⟩ (if holds then yes else no) m' ∧
          m'.memory = m.memory ∧ m'.int .sp = m.int .sp := by
  obtain ⟨l, hl, hlength, -⟩ := op.lower_branch_ok w a b yes no
  have hcode' : (Comparison.float w a b).code .nanSafe op yes no = .ok l.code := by
    rw [Comparison.code, Lowering.nanSafe, hl]
    rfl
  cases hcode.symm.trans hcode'
  have hloads : a.loads = ra.floatLoads := by cases ha <;> rfl
  rw [secondLoads_eq ht ha hb, hloads] at hlength
  refine ⟨hlength, fun hm => ?_⟩
  have hlower : (Condition.ofRelation op).lower (a.operand w) (b.operand w) (.branch yes no) {} = (.ok l, _) :=
    Prod.ext hl rfl
  have hsound : Scratch.Sound {} := ⟨by decide, by decide, by decide, by decide⟩
  obtain ⟨m', hrun, hkeeps⟩ := Condition.lower_branch_run p rest hlower hsound
    (ha.wordIn hm hw h.left) (hb.wordIn hm hw h.right)
  have hwidth : (a.operand w).width = w := by cases a <;> rfl
  rw [hwidth, Relation.holds_word h.left_type h.right_type hw h.outcome, hlength] at hrun
  refine ⟨m', ?_, hkeeps.memory, hkeeps.int _ (by decide)⟩
  cases holds <;> exact hrun

end Compared

namespace Value

variable {r : Rvalue} {v : Value} {places : Places} {contents : Contents} {x : Int64}

theorem length_intoReg (hr : r.Denotes places v) (hx : r.datum? contents .int = some (.int x)) (scratch : IntReg) :
    (v.intoReg scratch).1.length = r.intLoads := by
  cases hr with
  | stored hi => rfl
  | constant c =>
    cases c with
    | float v => cases hx
    | int v => by_cases hv : v = 0 <;> simp [intoReg, Rvalue.intLoads, hv]

theorem intoReg_eq (v : Value) (scratch : IntReg) :
    (v.intoReg scratch).2 = scratch ∨ (v.intoReg scratch).2 = .zero := by
  rcases v with (v | v) | ⟨ty, s⟩
  · by_cases hv : v = 0 <;> simp [intoReg, hv]
  · exact .inr rfl
  · exact .inl rfl

/-- An integer is brought into a register, or is in one already. -/
theorem intoReg_run (p : Routine) (rest : List Instr) (hr : r.Denotes places v)
    (hx : r.datum? contents .int = some (.int x)) {scratch : IntReg} (hscratch : scratch ≠ .zero) {m : Machine}
    {size : Nat} (hm : m.Represents size places contents) :
    ∃ m', Machine.Reaches p ((v.intoReg scratch).1 ++ rest) m ⟨r.intLoads, false⟩ rest m' ∧
      m'.int (v.intoReg scratch).2 = x.toUInt64 ∧ Machine.Keeps [scratch] m m' := by
  cases hr with
  | constant c =>
    cases c with
    | float v => cases hx
    | int v =>
      cases hx
      by_cases hv : x = 0
      · subst hv
        exact ⟨m, .refl .., rfl, .refl ..⟩
      · have hload : (constant (.int x)).intoReg scratch = ([.li scratch x], scratch) := by simp [intoReg, hv]
        have hsteps : (Rvalue.constant (.int x)).intLoads = 1 := by simp [Rvalue.intLoads, hv]
        rw [hload, hsteps]
        exact ⟨_, .next rfl rfl rfl, Machine.int_setInt_self hscratch, .setInt (by simp) _⟩
  | @stored i ty s hi =>
    obtain ⟨hmem, -⟩ := Option.filter_eq_some_iff.mp hx
    refine ⟨m.tick.setInt scratch x.toUInt64, ?_, Machine.int_setInt_self hscratch, .setInt (by simp) _⟩
    exact .next rfl rfl (congrArg (Except.map _) (hm.holds hi hmem))

end Value

/-- The branch for a relation is taken if the relation holds of the signed integers. -/
theorem Relation.exec_branch (op : Relation) {m : Machine} {a b : IntReg} {x y : Int64} (ha : m.int a = x.toUInt64)
    (hb : m.int b = y.toUInt64) (target : Label) :
    m.tick.exec (op.branch a b target) =
      .ok (m.tick, if op.holdsOf (Ord.compare x.toInt y.toInt) then .goto target else .next) := by
  have heq : (x.toUInt64 == y.toUInt64) = (Ord.compare x.toInt y.toInt).isEq := by
    rw [Bool.eq_iff_iff, beq_iff_eq, Ordering.isEq_iff_eq_eq, Std.compare_eq_iff_eq, Int64.toInt_inj]
    refine ⟨fun h => ?_, congrArg Int64.toUInt64⟩
    rw [← x.toInt64_toUInt64, h, y.toInt64_toUInt64]
  have hlt (u v : Int64) : decide (u.toUInt64.toInt64 < v.toUInt64.toInt64) = (Ord.compare u.toInt v.toInt).isLT := by
    rw [Bool.eq_iff_iff, decide_eq_true_iff, Ordering.isLT_iff_eq_lt, Int.compare_eq_lt, u.toInt64_toUInt64,
      v.toInt64_toUInt64, Int64.lt_iff_toInt_lt]
  have hle (u v : Int64) : decide (u.toUInt64.toInt64 ≤ v.toUInt64.toInt64) = (Ord.compare u.toInt v.toInt).isLE := by
    rw [Bool.eq_iff_iff, decide_eq_true_iff, Int.isLE_compare, u.toInt64_toUInt64, v.toInt64_toUInt64,
      Int64.le_iff_toInt_le]
  have hswap : Ord.compare y.toInt x.toInt = (Ord.compare x.toInt y.toInt).swap := Std.OrientedOrd.eq_swap
  cases op <;>
    simp only [branch, Machine.exec, Machine.int_tick, ha, hb, BranchTest.holdsOf, bne, heq, hlt, hle, hswap,
      holdsOf] <;>
    cases Ord.compare x.toInt y.toInt <;> rfl

open Machine in
/-- A branch on a relation and a jump behind it. -/
theorem Relation.branch_run (p : Routine) (rest : List Instr) {op : Relation} {m : Machine} {a b : IntReg} {x y : Int64}
    (ha : m.int a = x.toUInt64) (hb : m.int b = y.toUInt64) {holds : Bool}
    (hholds : op.holdsOf (Ord.compare x.toInt y.toInt) = holds) (yes no : Label) :
    ∃ m', Jumps p (op.branch a b yes :: .jump no :: rest) m ⟨if holds then 1 else 2, false⟩
      (if holds then yes else no) m' ∧ Keeps [] m m' := by
  have hexec := op.exec_branch ha hb yes
  have hlabel : (op.branch a b yes).isLabel = false := by cases op <;> rfl
  have hcompare : (op.branch a b yes).isFloatCompare = false := by cases op <;> rfl
  rw [hholds] at hexec
  cases holds with
  | true => exact ⟨m.tick, .goto hlabel hcompare hexec, rfl, fun _ _ => rfl⟩
  | false =>
    have hjump : m.tick.tick.exec (.jump no) = .ok (m.tick.tick, .goto no) := rfl
    exact ⟨m.tick.tick, (Reaches.next hlabel hcompare hexec).jumps (.goto rfl rfl hjump), rfl, fun _ _ => rfl⟩

open Machine in
theorem Compared.int_run (p : Routine) (rest : List Instr) {places : Places} {contents : Contents} {op : Relation}
    {ra rb : Rvalue} {a b : Value} {x y : Datum} {holds : Bool} (h : Compared contents op ra rb .int x y holds)
    (ha : ra.Denotes places a) (hb : rb.Denotes places b) (yes no : Label) {code : List Instr}
    (hcode : (Comparison.int a b).code .nanSafe op yes no = .ok code) :
    code.length = ra.intLoads + rb.intLoads + 2 ∧
      ∀ {m : Machine} {size : Nat}, m.Represents size places contents →
        ∃ m', Jumps p (code ++ rest) m ⟨ra.intLoads + rb.intLoads + (if holds then 1 else 2), false⟩
            (if holds then yes else no) m' ∧ m'.memory = m.memory ∧ m'.int .sp = m.int .sp := by
  obtain ⟨hat, hleft, hright, hx, hy, hout⟩ := h
  cases x <;> cases hx
  cases y <;> cases hy
  cases hout
  cases (Comparison.code_int .nanSafe op yes no).symm.trans hcode
  rename_i u v
  constructor
  · simp only [List.length_append, Value.length_intoReg ha hleft, Value.length_intoReg hb hright]
    rfl
  intro m size hm
  generalize hjumps : [op.branch (a.intoReg .t0).2 (b.intoReg .t1).2 yes, .jump no] = jumps
  obtain ⟨m₁, hrun₁, hu, hkeeps₁⟩ :=
    Value.intoReg_run p ((b.intoReg .t1).1 ++ (jumps ++ rest)) ha hleft (show IntReg.t0 ≠ .zero by decide) hm
  have hm₁ := hm.of_same hkeeps₁.memory (hkeeps₁.int .sp (by decide))
  obtain ⟨m₂, hrun₂, hv, hkeeps₂⟩ :=
    Value.intoReg_run p (jumps ++ rest) hb hright (show IntReg.t1 ≠ .zero by decide) hm₁
  -- the second load leaves the register of the first alone
  have hu' : m₂.int (a.intoReg .t0).2 = u.toUInt64 := by
    rw [← hu]
    apply hkeeps₂.int
    rcases a.intoReg_eq .t0 with h | h <;> rw [h] <;> decide
  obtain ⟨m₃, hrun₃, hkeeps₃⟩ := Relation.branch_run p rest hu' hv rfl yes no
  subst hjumps
  refine ⟨m₃, ?_, ?_, ?_⟩
  · simpa [Nat.add_assoc] using (hrun₁.trans hrun₂).jumps hrun₃
  · rw [hkeeps₃.memory, hkeeps₂.memory, hkeeps₁.memory]
  · rw [hkeeps₃.int _ (by decide), hkeeps₂.int _ (by decide), hkeeps₁.int _ (by decide)]

namespace Expr

variable {e : Expr} {g : GenState} {places : Places} {env : Env} {contents : Contents}

open Machine in
/-- The code of a test goes to one label or the other as the test holds or not, at the cost that the test has. -/
theorem testCode_run (p : Routine) (rest : List Instr) (ht : g.Tracks places env contents) {yes no : Label}
    {code : List Instr} (h : e.testCode .nanSafe g.scopes yes no = .ok code) :
    ∃ b, e.truth? env contents = some b ∧ (e.testCost env contents).steps ≤ code.length ∧
      ∀ {m : Machine} {size : Nat}, m.Represents size places contents →
        ∃ m', Jumps p (code ++ rest) m (e.testCost env contents) (if b then yes else no) m' ∧
          m'.memory = m.memory ∧ m'.int .sp = m.int .sp := by
  induction e generalizing yes no with
  | paren e ih => exact ih h
  | not e ih =>
    obtain ⟨b, hb, hsteps, hrun⟩ := ih h
    refine ⟨!b, by rw [truth?, hb]; rfl, hsteps, fun hm => ?_⟩
    obtain ⟨m', hjumps, hkept⟩ := hrun hm
    refine ⟨m', ?_, hkept⟩
    cases b <;> exact hjumps
  | compare op lhs rhs =>
    obtain ⟨c, hc, h⟩ := ok_of_bind h
    obtain ⟨a, b, ha, hb, hvalues⟩ := Comparison.ofExprs_eq_ok.mp hc
    obtain ⟨ra, hra, hdenotesA⟩ := ht.rvalue ha
    obtain ⟨rb, hrb, hdenotesB⟩ := ht.rvalue hb
    obtain ⟨ty, x, y, holds, hcompared, ⟨w, hw, rfl⟩ | ⟨rfl, rfl⟩⟩ := ht.compared hdenotesA hdenotesB hvalues op
    · obtain ⟨hlength, hrun⟩ := hcompared.float_run p rest ht hdenotesA hdenotesB hw yes no (ok_of_mapError h)
      refine ⟨holds, hcompared.truth? hra hrb, ?_, ?_⟩ <;> rw [hcompared.testCost_float hra hrb hw]
      · cases holds <;> simp only [hlength] <;> simp
      · exact hrun
    · obtain ⟨hlength, hrun⟩ := hcompared.int_run p rest hdenotesA hdenotesB yes no (ok_of_mapError h)
      refine ⟨holds, hcompared.truth? hra hrb, ?_, ?_⟩ <;> rw [hcompared.testCost_int hra hrb]
      · cases holds <;> simp only [hlength] <;> simp
      · exact hrun
  | _ => cases h

end Expr

/-- Numbers that compare alike from the left do so from the right. -/
theorem Binary64.compare?_congr_right {z z' : Binary64} (h : ∀ u, z.compare? u = z'.compare? u) (u : Binary64) :
    u.compare? z = u.compare? z' := by
  have hswap (a b : Binary64) : a.compare? b = (b.compare? a).map Ordering.swap := Format.compare?_swap
  rw [hswap u z, h, ← hswap]

namespace Knowledge

variable {k : Knowledge} {op : Relation} {w : Width} {lhs rhs : Value} {b : Bool}

theorem decide?_float (h : k.decide? op (.float w lhs rhs) = some b) :
    ∃ c d, k.value? lhs = some c ∧ k.value? rhs = some d ∧
      b = (Condition.ofRelation op).holds (w.round c.toBinary64) (w.round d.toBinary64) := by
  obtain ⟨c, hc, h⟩ := Option.bind_eq_some_iff.mp h
  obtain ⟨d, hd, h⟩ := Option.bind_eq_some_iff.mp h
  exact ⟨c, d, hc, hd, (Option.some.inj h).symm⟩

theorem decide?_int (h : k.decide? op (.int lhs rhs) = some b) :
    ∃ u v, k.value? lhs = some (.int u) ∧ k.value? rhs = some (.int v) ∧
      b = op.holdsOf (Ord.compare u.toInt v.toInt) := by
  obtain ⟨c, hc, h⟩ := Option.bind_eq_some_iff.mp h
  obtain ⟨d, hd, h⟩ := Option.bind_eq_some_iff.mp h
  cases c <;> cases d <;> cases h
  exact ⟨_, _, hc, hd, rfl⟩

end Knowledge

/-- A number compares like the one that is noted for it. -/
theorem Width.round_constant {x : Datum} {w : Width} (hw : x.type.width? = some w) (u : Binary64) :
    (w.round x.constant.toBinary64).compare? u = (w.value x.word).compare? u := by
  cases x <;> cases hw
  · rename_i z
    simp only [value, Datum.word, unbox_box]
    exact z.compare?_widen_narrow u
  · rfl

namespace GenState.Tracks

variable {g : GenState} {places : Places} {env : Env} {contents : Contents} {r : Rvalue} {v : Value} {ty : Scalar}
  {x : Datum} {c : Constant} {w : Width}

/-- What is known about a value is a constant, or noted for what is at its place. -/
theorem known_value (ht : g.Tracks places env contents) (hr : r.Denotes places v) (hc : g.known.value? v = some c)
    (hx : r.datum? contents ty = some x) : ty.datum? c = some x ∨ x.constant = c := by
  cases hr with
  | constant c' =>
    cases hc
    exact .inl hx
  | stored hi =>
    obtain ⟨j, ty', d, hj, hd, hc⟩ := ht.known.get? hc
    cases ht.place_unique hi hj
    obtain ⟨hmem, -⟩ := Option.filter_eq_some_iff.mp hx
    cases hd.symm.trans hmem
    exact .inr hc

theorem known_float (ht : g.Tracks places env contents) (hr : r.Denotes places v) (hc : g.known.value? v = some c)
    (hx : r.datum? contents ty = some x) (htype : x.type = ty) (hw : ty.width? = some w) (u : Binary64) :
    (w.round c.toBinary64).compare? u = (w.value x.word).compare? u := by
  rcases ht.known_value hr hc hx with hdatum | hconstant
  · cases hdatum.symm.trans (Scalar.datum?_word hw c).1
    rw [Width.word_datum, w.value_word]
  · rw [← hconstant]
    exact Width.round_constant (htype ▸ hw) u

theorem known_int (ht : g.Tracks places env contents) (hr : r.Denotes places v) {n n' : Int64}
    (hc : g.known.value? v = some (.int n)) (hx : r.datum? contents .int = some (.int n')) : n = n' := by
  rcases ht.known_value hr hc hx with hdatum | hconstant
  · cases hdatum
    rfl
  · cases hconstant
    rfl

end GenState.Tracks

/-- A test that is decided beforehand comes out as it is decided. -/
theorem Expr.truth?_of_decide {e : Expr} {g : GenState} {places : Places} {env : Env} {contents : Contents} {b : Bool}
    (ht : g.Tracks places env contents) (h : e.decide g.scopes g.known = .ok (some b)) :
    e.truth? env contents = some b := by
  induction e generalizing b with
  | paren e ih => exact ih h
  | not e ih =>
    obtain ⟨b', hb', h⟩ := ok_of_bind h
    obtain ⟨b', rfl, rfl⟩ := Option.map_eq_some_iff.mp (Except.ok.inj h)
    rw [truth?, ih hb']
    rfl
  | compare op lhs rhs =>
    obtain ⟨c, hc, h⟩ := ok_of_bind h
    obtain ⟨va, vb, ha, hb, hvalues⟩ := Comparison.ofExprs_eq_ok.mp hc
    obtain ⟨ra, hra, hdenotesA⟩ := ht.rvalue ha
    obtain ⟨rb, hrb, hdenotesB⟩ := ht.rvalue hb
    obtain ⟨ty, x, y, holds, hcompared, hkind⟩ := ht.compared hdenotesA hdenotesB hvalues op
    rw [hcompared.truth? hra hrb]
    have hdecided := Except.ok.inj h
    rcases hkind with ⟨w, hw, rfl⟩ | ⟨rfl, rfl⟩
    · obtain ⟨ca, cb, hca, hcb, rfl⟩ := Knowledge.decide?_float hdecided
      rw [← Relation.holds_word hcompared.left_type hcompared.right_type hw hcompared.outcome, Condition.holds,
        Condition.holds, ht.known_float hdenotesA hca hcompared.left hcompared.left_type hw,
        Binary64.compare?_congr_right (ht.known_float hdenotesB hcb hcompared.right hcompared.right_type hw)]
    · obtain ⟨u, v, hu, hv, rfl⟩ := Knowledge.decide?_int hdecided
      obtain ⟨-, hleft, hright, hx, hy, hout⟩ := hcompared
      cases x <;> cases hx
      cases y <;> cases hy
      cases ht.known_int hdenotesA hu hleft
      cases ht.known_int hdenotesB hv hright
      exact hout.symm
  | _ => cases h

end Comparand
