import Comparand.Proofs.Execution
import Comparand.Proofs.Memory
import Comparand.Proofs.Scratch

/-! Lowered conditions, run on a machine, decide what the condition says about the values of their operands. -/
namespace Comparand

namespace Operand

/-- The word that an operand has in a register, or will have once it is brought into one. -/
def wordIn (m : Machine) (o : Operand) : Except Fault UInt64 :=
  match o.place, o.width with
  | .register r, _ => .ok (m.float r)
  | .slot s, .double => m.memory.load64 (m.address .sp s.offset)
  | .slot s, .single => (m.memory.load32 (m.address .sp s.offset)).map box
  | .constant v, w => .ok (w.word v)

/-- The value of an operand at its width. A register is read as instructions of this width read it, and a constant is
rounded. -/
def valueIn (m : Machine) (o : Operand) : Except Fault Binary64 :=
  match o.place, o.width with
  | .register r, .double => .ok (m.double r)
  | .register r, .single => .ok (m.single r).widen
  | .slot s, .double => (m.memory.load64 (m.address .sp s.offset)).map Binary64.mk
  | .slot s, .single => (m.memory.load32 (m.address .sp s.offset)).map fun b => (Binary32.mk b).widen
  | .constant v, w => .ok (w.round v)

variable {m m' : Machine} {o : Operand}

theorem valueIn_eq (m : Machine) (o : Operand) : o.valueIn m = (o.wordIn m).map o.width.value := by
  obtain ⟨place, w⟩ := o
  cases place with
  | register r => cases w <;> rfl
  | constant v => exact congrArg Except.ok (w.value_word v).symm
  | slot s =>
    cases w with
    | double => rfl
    | single =>
      simp only [valueIn, wordIn]
      cases m.memory.load32 (m.address .sp s.offset) with
      | error e => rfl
      | ok b => simp only [Except.map, Width.value, unbox_box]

/-- Only memory, the stack pointer and an operand register matter to an operand. -/
theorem wordIn_congr (hmem : m'.memory = m.memory) (hsp : m'.int .sp = m.int .sp)
    (hr : ∀ r, o.place = .register r → m'.float r = m.float r) : o.wordIn m' = o.wordIn m := by
  obtain ⟨place, w⟩ := o
  cases place with
  | register r => exact congrArg Except.ok (hr r rfl)
  | constant v => rfl
  | slot s => cases w <;> simp only [wordIn, Machine.address, hmem, hsp]

/-- Aliases hold one word. -/
theorem wordIn_of_aliases {o' : Operand} (h : o.aliases o' = true) (hw : o.width = o'.width) :
    o'.wordIn m = o.wordIn m := by
  obtain ⟨place, w⟩ := o
  obtain ⟨place', w'⟩ := o'
  cases hw
  cases place <;> cases place' <;> simp [aliases] at h <;> subst h <;> rfl

end Operand

namespace Machine

variable {p : Routine} {rest : List Instr} {m m' m'' : Machine}

/-- Memory and the integer registers outside a list are as before. -/
structure Keeps (ints : List IntReg) (m m' : Machine) : Prop where
  memory : m'.memory = m.memory
  int : ∀ r ∉ ints, m'.int r = m.int r

theorem Keeps.refl (ints : List IntReg) (m : Machine) : Keeps ints m m := ⟨rfl, fun _ _ => rfl⟩

theorem Keeps.trans {ints : List IntReg} (h : Keeps ints m m') (h' : Keeps ints m' m'') : Keeps ints m m'' :=
  ⟨h'.memory.trans h.memory, fun r hr => (h'.int r hr).trans (h.int r hr)⟩

theorem Keeps.setInt {ints : List IntReg} {r : IntReg} (hr : r ∈ ints) (v : UInt64) :
    Keeps ints m (m.tick.setInt r v) := by
  refine ⟨by simp, fun r' hr' => ?_⟩
  have hne : r' ≠ r := fun he => hr' (he ▸ hr)
  simp [hne]

theorem Keeps.mono {ints ints' : List IntReg} (hsub : ∀ r ∈ ints, r ∈ ints') (h : Keeps ints m m') :
    Keeps ints' m m' :=
  ⟨h.memory, fun r hr => h.int r fun hmem => hr (hsub r hmem)⟩

end Machine

/-- The low half of a sign-extended word is the word. -/
theorem toUInt32_immediate (b : UInt32) : b.toInt32.toInt64.toUInt64.toUInt32 = b := by
  apply UInt32.eq_of_toBitVec_eq
  change (b.toBitVec.signExtend 64).setWidth 32 = b.toBitVec
  apply BitVec.eq_of_getLsbD_eq
  intro i hi
  have hi' : i < 64 := by omega
  simp only [BitVec.getLsbD_setWidth, BitVec.getLsbD_signExtend, hi, hi', if_true, decide_true, Bool.true_and]

namespace Machine

variable {m : Machine} {f : FloatReg} {w : Width} {x : UInt64}

theorem fload_run (p : Routine) (rest : List Instr) {s : Slot} (hx : Operand.wordIn m ⟨.slot s, w⟩ = .ok x) :
    Reaches p (.fload w f .sp s.offset :: rest) m ⟨1, false⟩ rest (m.tick.setFloat f x) := by
  refine .next rfl rfl ?_
  cases w with
  | double =>
    simp only [Operand.wordIn] at hx
    simp only [exec, memory_tick, address, int_tick] at hx ⊢
    rw [hx]
    rfl
  | single =>
    obtain ⟨b, hb, rfl⟩ := ok_of_map hx
    simp only [exec, memory_tick, address, int_tick] at hb ⊢
    rw [hb]
    rfl

theorem constant_run (p : Routine) (rest : List Instr) {rd : IntReg} (hrd : rd ≠ .zero) (v : Binary64) :
    Reaches p (.li rd (w.immediate v) :: .fmv w f rd :: rest) m ⟨2, false⟩ rest
      ((m.tick.setInt rd (w.immediate v).toUInt64).tick.setFloat f (w.word v)) := by
  refine Reaches.trans (.next rfl rfl rfl) (.next rfl rfl ?_)
  cases w with
  | double => simp [exec, hrd, Width.word, Width.immediate]
  | single => simp [exec, hrd, Width.word, Width.immediate, setSingle, toUInt32_immediate]

end Machine

namespace Drawing

open Machine

variable {m : Machine} {s s' : Scratch}

/-- An operand is brought into a register, and only that float register changes. -/
theorem materialize_run (p : Routine) (rest : List Instr) {o : Operand} {load : List Instr} {f : FloatReg}
    {x : UInt64} (h : Yields (materialize o) s (load, f) s') (hx : o.wordIn m = .ok x)
    (hzero : .zero ∉ s.ints.remaining) :
    ∃ m', Reaches p (load ++ rest) m ⟨load.length, false⟩ rest m' ∧ m'.float f = x ∧
      (∀ g, g ≠ f → m'.float g = m.float g) ∧ Keeps s.ints.remaining m m' := by
  obtain ⟨place, w⟩ := o
  rcases yields_materialize h with ⟨hp, rfl, rfl⟩ | ⟨slot, hp, rfl, hf, -⟩ | ⟨v, rd, hp, rfl, hf, hr⟩
  · cases hp
    cases hx
    exact ⟨m, .refl .., rfl, fun _ _ => rfl, .refl ..⟩
  · cases hp
    exact ⟨_, fload_run p rest hx, by simp, fun g hg => by simp [hg], rfl, fun _ _ => rfl⟩
  · cases hp
    cases hx
    have hrd : rd ≠ .zero := fun he => hzero (he ▸ hr.mem)
    refine ⟨_, constant_run p rest hrd v, by simp, fun g hg => by simp [hg], by simp, ?_⟩
    intro r hr'
    have hne : r ≠ rd := fun he => hr' (he ▸ hr.mem)
    simp [hne]

end Drawing

namespace Condition

open Machine

variable (p : Routine) (rest : List Instr) {code : List Instr} {m : Machine} {s s' : Scratch} {c : Condition}
  {w : Width} {lhs rhs : Operand} {dest : Destination} {rd : IntReg} {f g : FloatReg} {x y : UInt64}

/-- Both operands are brought into registers. The second one finds the first one and its own place unharmed. -/
theorem Drawn.operands_run (d : c.Drawn lhs rhs dest s) (hs : s.Sound) (hw : lhs.width = rhs.width)
    (hx : lhs.wordIn m = .ok x) (hy : rhs.wordIn m = .ok y) :
    ∃ m', Reaches p (d.loadLhs ++ d.loadRhs ++ rest) m ⟨(d.loadLhs ++ d.loadRhs).length, false⟩ rest m' ∧
      m'.float d.a = x ∧ m'.float d.b = y ∧ Keeps s.ints.remaining m m' := by
  have hremaining := (reservation_remaining lhs rhs dest s).1
  obtain ⟨m₁, hrun, ha, hframe, hkeeps⟩ :=
    Drawing.materialize_run p (d.loadRhs ++ rest) d.left hx (hremaining ▸ hs.zero)
  rw [hremaining] at hkeeps
  cases hal : lhs.aliases rhs with
  | true =>
    have hright := d.right
    rw [if_pos hal] at hright
    obtain ⟨hload, hb, -⟩ := hright
    have hxy : x = y := by
      rw [Operand.wordIn_of_aliases hal hw, hx] at hy
      exact Except.ok.inj hy
    refine ⟨m₁, ?_, ha, by rw [hb, ha, hxy], hkeeps⟩
    simpa [hload] using hrun
  | false =>
    have hright := d.right_of_not_aliases hal
    have hne := d.distinct hs hal
    have hsub : d.s₁.ints.remaining <:+ s.ints.remaining :=
      hremaining ▸ (Drawing.materialize_after d.left).1.remaining
    have hy₁ : rhs.wordIn m₁ = .ok y := by
      rw [Operand.wordIn_congr hkeeps.memory (hkeeps.int _ hs.sp) ?_, hy]
      intro r hr
      rcases Drawing.yields_materialize hright with ⟨hp, -, -⟩ | ⟨_, hp, -⟩ | ⟨_, _, hp, -⟩
      · rw [hr, Place.register.injEq] at hp
        exact hframe r (hp ▸ hne.symm)
      · rw [hr] at hp
        cases hp
      · rw [hr] at hp
        cases hp
    obtain ⟨m₂, hrun', hb, hframe', hkeeps'⟩ :=
      Drawing.materialize_run p rest hright hy₁ fun hz => hs.zero (hsub.subset hz)
    refine ⟨m₂, ?_, by rw [hframe' _ hne, ha], hb, hkeeps.trans (hkeeps'.mono fun _ hr => hsub.subset hr)⟩
    rw [List.append_assoc, List.length_append]
    exact hrun.trans hrun'

/-- A probe sees the words that the registers hold. -/
theorem inspect_pick (w : Width) (q : Probe) (hf : m.float f = x) (hg : m.float g = y) :
    m.inspect w (q.first.pick f g) (q.second.pick f g) = w.reading (q.first.pick x y) (q.second.pick x y) := by
  rw [w.inspect_eq, Side.apply_pick m.float, Side.apply_pick m.float, hf, hg]

/-- One native comparison, on registers that hold the words of the operands. -/
theorem probe_run (w : Width) (q : Probe) (hrd : rd ≠ .zero) (hf : m.float f = x) (hg : m.float g = y) :
    ∃ m', Reaches p (.fcmp q.test w rd (q.first.pick f g) (q.second.pick f g) :: rest) m
        ⟨1, q.test.isInvalid (w.reading (q.first.pick x y) (q.second.pick x y))⟩ rest m' ∧
      m'.int rd = (if q.answer (w.value x) (w.value y) then 1 else 0) ∧ (∀ f, m'.float f = m.float f) ∧
      Keeps [rd] m m' := by
  have hreading := inspect_pick w q hf hg
  have horder : (w.reading (q.first.pick x y) (q.second.pick x y)).order =
      (q.first.pick (w.value x) (w.value y)).compare? (q.second.pick (w.value x) (w.value y)) := by
    rw [w.order_reading, Side.apply_pick w.value, Side.apply_pick w.value]
  rw [Probe.answer, ← horder, ← hreading]
  refine ⟨_, .compare, by simp [hrd], by simp, by simp, ?_⟩
  intro r hr
  simp only [List.mem_singleton] at hr
  simp [hr]

/-- Two native comparisons, with their answers in different registers. -/
theorem probes_run (w : Width) (q₁ q₂ : Probe) {tmp : IntReg} (hrd : rd ≠ .zero) (htmp : tmp ≠ .zero)
    (hne : tmp ≠ rd) (hf : m.float f = x) (hg : m.float g = y) :
    ∃ m', Reaches p (.fcmp q₁.test w rd (q₁.first.pick f g) (q₁.second.pick f g) ::
          .fcmp q₂.test w tmp (q₂.first.pick f g) (q₂.second.pick f g) :: rest) m
        ⟨2, q₁.test.isInvalid (w.reading (q₁.first.pick x y) (q₁.second.pick x y)) ||
          q₂.test.isInvalid (w.reading (q₂.first.pick x y) (q₂.second.pick x y))⟩ rest m' ∧
      m'.int rd = (if q₁.answer (w.value x) (w.value y) then 1 else 0) ∧
      m'.int tmp = (if q₂.answer (w.value x) (w.value y) then 1 else 0) ∧
      Keeps [rd, tmp] m m' := by
  obtain ⟨m₁, hrun₁, hanswer₁, hfloat, hkeeps₁⟩ := probe_run p
    (.fcmp q₂.test w tmp (q₂.first.pick f g) (q₂.second.pick f g) :: rest) w q₁ hrd hf hg
  obtain ⟨m₂, hrun₂, hanswer₂, -, hkeeps₂⟩ := probe_run p rest w q₂ htmp ((hfloat f).trans hf) ((hfloat g).trans hg)
  refine ⟨m₂, hrun₁.trans hrun₂, ?_, hanswer₂, (hkeeps₁.mono (by simp)).trans (hkeeps₂.mono (by simp))⟩
  rw [hkeeps₂.int rd (by simpa using hne.symm), hanswer₁]

theorem and_bits (a b : Bool) :
    (if a then 1 else 0 : UInt64) &&& (if b then 1 else 0) = if a && b then 1 else 0 := by
  cases a <;> cases b <;> rfl

theorem or_bits (a b : Bool) :
    (if a then 1 else 0 : UInt64) ||| (if b then 1 else 0) = if a || b then 1 else 0 := by
  cases a <;> cases b <;> rfl

/-- The comparisons of a recipe, with their answers put together. -/
theorem decision_run (hd : Drawing.Yields (Drawing.decision c.recipe
      (fun q rd => .fcmp q.test w rd (q.first.pick f g) (q.second.pick f g)) rd) s code s')
    (hrd : rd ≠ .zero) (hfree : rd ∈ s.ints.reserved ∨ rd ∉ s.ints.remaining) (hzero : .zero ∉ s.ints.remaining)
    (hf : m.float f = x) (hg : m.float g = y) :
    ∃ m', Reaches p (code ++ rest) m ⟨code.length, c.raises w x y⟩ rest m' ∧
      m'.int rd = (if c.holds (w.value x) (w.value y) != c.isNegated then 1 else 0) ∧
      Keeps (rd :: s.ints.remaining) m m' := by
  rw [← recipe_answer]
  -- a second answer goes to a register of its own
  have htmp {tmp : IntReg} (h : s.ints.Draws tmp s'.ints) : tmp ≠ rd ∧ tmp ≠ .zero := by
    refine ⟨fun he => ?_, fun he => hzero (he ▸ h.mem)⟩
    rcases hfree with hfree | hfree
    · exact h.free (he ▸ hfree)
    · exact hfree (he ▸ h.mem)
  rcases Drawing.yields_decision hd with ⟨q, hc, rfl⟩ | ⟨q₁, q₂, tmp, hc, rfl, ht⟩ | ⟨q₁, q₂, tmp, hc, rfl, ht⟩
  · obtain ⟨m', hrun, hanswer, -, hkeeps⟩ := probe_run p rest w q hrd hf hg
    refine ⟨m', ?_, ?_, hkeeps.mono (by simp)⟩
    · simpa [raises, hc, Recipe.probes] using hrun
    · rw [hanswer, hc, Recipe.answer]
  · obtain ⟨m', hrun, hanswer₁, hanswer₂, hkeeps⟩ :=
      probes_run p (.and rd rd tmp :: rest) w q₁ q₂ hrd (htmp ht).2 (htmp ht).1 hf hg
    refine ⟨m'.tick.setInt rd (m'.int rd &&& m'.int tmp), ?_, ?_, ?_⟩
    · have := hrun.trans (.next rfl rfl rfl)
      simpa [raises, hc, Recipe.probes] using this
    · rw [int_setInt_self hrd, hanswer₁, hanswer₂, and_bits, hc, Recipe.answer]
    · exact (hkeeps.mono (by simp [ht.mem])).trans (.setInt (by simp) _)
  · obtain ⟨m', hrun, hanswer₁, hanswer₂, hkeeps⟩ :=
      probes_run p (.or rd rd tmp :: rest) w q₁ q₂ hrd (htmp ht).2 (htmp ht).1 hf hg
    refine ⟨m'.tick.setInt rd (m'.int rd ||| m'.int tmp), ?_, ?_, ?_⟩
    · have := hrun.trans (.next rfl rfl rfl)
      simpa [raises, hc, Recipe.probes] using this
    · rw [int_setInt_self hrd, hanswer₁, hanswer₂, or_bits, hc, Recipe.answer]
    · exact (hkeeps.mono (by simp [ht.mem])).trans (.setInt (by simp) _)

/-- The answer as a number: a negated one is flipped. -/
theorem delivery_value_run (hrd : rd ≠ .zero) {b : Bool} (hb : m.int rd = if b != c.isNegated then 1 else 0) :
    ∃ m', Reaches p (c.delivery rd (.value rd) ++ rest) m ⟨(c.delivery rd (.value rd)).length, false⟩ rest m' ∧
      m'.int rd = (if b then 1 else 0) ∧ Keeps [rd] m m' := by
  cases hneg : c.isNegated with
  | false =>
    simp only [delivery, hneg, Bool.false_eq_true, if_false]
    refine ⟨m, .refl .., ?_, .refl ..⟩
    simpa [hneg] using hb
  | true =>
    simp only [delivery, hneg, if_true]
    refine ⟨_, .next rfl rfl rfl, ?_, .setInt (by simp) _⟩
    rw [int_setInt_self hrd, int_tick, hb, hneg]
    cases b <;> rfl

/-- The answer as a transfer of control. Only if the branch is not taken is there a jump. -/
theorem delivery_branch_run (yes no : Label) {b : Bool} (hb : m.int rd = if b != c.isNegated then 1 else 0) :
    ∃ m', Jumps p (c.delivery rd (.branch yes no) ++ rest) m ⟨if b then 1 else 2, false⟩
      (if b then yes else no) m' ∧ Keeps [] m m' := by
  have htest : (if c.isNegated then BranchTest.eq else .ne).holdsOf (m.int rd) 0 = b := by
    rw [hb]
    cases c.isNegated <;> cases b <;> rfl
  have hexec : m.tick.exec (.branch (if c.isNegated then .eq else .ne) rd .zero yes) =
      .ok (m.tick, if b then .goto yes else .next) := by
    simp only [exec, int_tick, int_zero, htest]
  cases b with
  | true => exact ⟨m.tick, .goto rfl rfl hexec, rfl, fun _ _ => rfl⟩
  | false =>
    have hjump : m.tick.tick.exec (.jump no) = .ok (m.tick.tick, .goto no) := rfl
    exact ⟨m.tick.tick, (Reaches.next rfl rfl hexec).jumps (.goto rfl rfl hjump), rfl, fun _ _ => rfl⟩

/-- Lowered code up to where the answer is delivered. -/
theorem Drawn.answer_run (d : c.Drawn lhs rhs dest s) (hs : s.Sound) (hdest : dest ≠ .value .zero)
    (hw : lhs.width = rhs.width) (hx : lhs.wordIn m = .ok x) (hy : rhs.wordIn m = .ok y) :
    ∃ m', Reaches p (d.code ++ rest) m
        ⟨(d.loadLhs ++ d.loadRhs ++ d.decision).length, c.raises lhs.width x y⟩ (c.delivery d.rd dest ++ rest) m' ∧
      m'.int d.rd = (if c.holds (lhs.width.value x) (lhs.width.value y) != c.isNegated then 1 else 0) ∧
      Keeps (d.rd :: s.ints.remaining) m m' := by
  obtain ⟨hrd, hfree, hzero, hsub, -⟩ := d.answer_register hs hdest
  obtain ⟨m₁, hrun₁, ha, hb, hkeeps₁⟩ := d.operands_run p (d.decision ++ (c.delivery d.rd dest ++ rest)) hs hw hx hy
  obtain ⟨m₂, hrun₂, hanswer, hkeeps₂⟩ :=
    decision_run p (c.delivery d.rd dest ++ rest) d.decided hrd hfree hzero ha hb
  refine ⟨m₂, ?_, hanswer, (hkeeps₁.mono fun _ => List.mem_cons_of_mem _).trans (hkeeps₂.mono fun r hr => ?_)⟩
  · have hrun := hrun₁.trans hrun₂
    simpa [Drawn.code, Nat.add_assoc] using hrun
  · rcases List.mem_cons.mp hr with rfl | hr
    · simp
    · exact List.mem_cons_of_mem _ (hsub.subset hr)

theorem lower_value_run {l : Lowered} (h : c.lower lhs rhs (.value rd) s = (.ok l, s')) (hs : s.Sound)
    (hrd : rd ≠ .zero) (hx : lhs.wordIn m = .ok x) (hy : rhs.wordIn m = .ok y) :
    ∃ m', Reaches p (l.code ++ rest) m ⟨l.code.length, c.raises lhs.width x y⟩ rest m' ∧
      m'.int rd = (if c.holds (lhs.width.value x) (lhs.width.value y) then 1 else 0) ∧
      Keeps (rd :: s.ints.remaining) m m' := by
  obtain ⟨d, hcode⟩ := drawn_of_lower h
  obtain ⟨m₁, hrun₁, hanswer, hkeeps₁⟩ := d.answer_run p rest hs (by simpa using hrd) (width_eq_of_lower h) hx hy
  have hd : d.rd = rd := by
    rcases Drawing.yields_answer d.answer with ⟨hd, -⟩ | ⟨_, _, hd, -⟩
    · exact (Destination.value.inj hd).symm
    · cases hd
  rw [hd] at hrun₁ hanswer hkeeps₁
  obtain ⟨m₂, hrun₂, hvalue, hkeeps₂⟩ := delivery_value_run p rest hrd hanswer
  refine ⟨m₂, ?_, hvalue, hkeeps₁.trans (hkeeps₂.mono (by simp))⟩
  have hrun := hrun₁.trans hrun₂
  rw [hcode]
  simpa [Drawn.code, hd, Nat.add_assoc] using hrun

theorem lower_branch_run {l : Lowered} {yes no : Label} (h : c.lower lhs rhs (.branch yes no) s = (.ok l, s'))
    (hs : s.Sound) (hx : lhs.wordIn m = .ok x) (hy : rhs.wordIn m = .ok y) :
    ∃ m', Jumps p (l.code ++ rest) m
        ⟨l.code.length - (if c.holds (lhs.width.value x) (lhs.width.value y) then 1 else 0), c.raises lhs.width x y⟩
        (if c.holds (lhs.width.value x) (lhs.width.value y) then yes else no) m' ∧
      Keeps s.ints.remaining m m' := by
  obtain ⟨d, hcode⟩ := drawn_of_lower h
  obtain ⟨m₁, hrun₁, hanswer, hkeeps₁⟩ := d.answer_run p rest hs (by simp) (width_eq_of_lower h) hx hy
  obtain ⟨m₂, hrun₂, hkeeps₂⟩ := delivery_branch_run p rest yes no hanswer
  have hmem : d.rd ∈ s.ints.remaining := by
    rcases (d.answer_register hs (by simp)).2.2.2.2 with hd | hd
    · cases hd
    · exact hd
  refine ⟨m₂, ?_, (hkeeps₁.mono (by simpa using hmem)).trans (hkeeps₂.mono (by simp))⟩
  have hlength : l.code.length = (d.loadLhs ++ d.loadRhs ++ d.decision).length + 2 := by
    rw [hcode, Drawn.code, List.length_append]
    rfl
  have hrun := hrun₁.jumps hrun₂
  rw [← hcode, Cost.mk_add_mk, Bool.or_false] at hrun
  have hsteps (b : Bool) : (d.loadLhs ++ d.loadRhs ++ d.decision).length + (if b then 1 else 2) =
      l.code.length - (if b then 1 else 0) := by
    cases b <;> simp [hlength]
  rwa [hsteps] at hrun

end Condition

/-- Code hands a truth value over to a destination: as 0 or 1 in a register when it has run to its end, or by going on
at one of two labels. It takes no more steps than it has instructions. -/
def Destination.Gets (p : Routine) (code rest : List Instr) (m : Machine) (b : Bool) : Destination → Prop
  | .value rd => ∃ cost m', Machine.Reaches p (code ++ rest) m cost rest m' ∧ cost.steps ≤ code.length ∧
      m'.int rd = if b then 1 else 0
  | .branch yes no => ∃ cost m', Machine.Jumps p (code ++ rest) m cost (if b then yes else no) m' ∧
      cost.steps ≤ code.length

/-- Lowered code decides its condition on the values that the operands have when it starts, in any routine and on any
machine that can load them. -/
theorem Condition.lower_correct {c : Condition} {lhs rhs : Operand} {dest : Destination} {s s' : Scratch}
    {l : Lowered} (h : c.lower lhs rhs dest s = (.ok l, s')) (hs : s.Sound) (hdest : dest ≠ .value .zero)
    {m : Machine} {a b : Binary64} (ha : lhs.valueIn m = .ok a) (hb : rhs.valueIn m = .ok b)
    (p : Routine) (rest : List Instr) : dest.Gets p l.code rest m (c.holds a b) := by
  rw [Operand.valueIn_eq] at ha hb
  obtain ⟨x, hx, rfl⟩ := ok_of_map ha
  obtain ⟨y, hy, rfl⟩ := ok_of_map hb
  rw [← width_eq_of_lower h]
  cases dest with
  | value rd =>
    obtain ⟨m', hrun, hvalue, -⟩ := lower_value_run p rest h hs (by simpa using hdest) hx hy
    exact ⟨_, m', hrun, Nat.le_refl _, hvalue⟩
  | branch yes no =>
    obtain ⟨m', hrun, -⟩ := lower_branch_run p rest h hs hx hy
    exact ⟨_, m', hrun, Nat.sub_le ..⟩

/-- A frame slot and a NaN, which are unordered, by the two comparisons of a negated recipe. -/
theorem Condition.lower_correct_ueq :
    ∃ l s', ueq.lower ⟨.slot ⟨-8, by decide⟩, .double⟩ ⟨.constant .nan, .double⟩ (.value .a0) {} = (.ok l, s') ∧
      ueq.holds .zero .nan = true ∧
      Destination.Gets { name := "main" } l.code [] (.fresh 2048 9) (ueq.holds .zero .nan) (.value .a0) := by
  refine ⟨_, _, rfl, by decide, ?_⟩
  have h : ueq.lower ⟨.slot ⟨-8, by decide⟩, .double⟩ ⟨.constant .nan, .double⟩ (.value .a0) {} = (.ok _, _) := rfl
  have hload : Operand.valueIn (.fresh 2048 9) ⟨.slot ⟨-8, by decide⟩, .double⟩ = .ok .zero := by
    have hallows : Memory.Allows (.mk 2048 ∅) (.ofNat (stackTop - 8)) 8 := ⟨by decide, by decide, by decide⟩
    exact congrArg (Except.map Binary64.mk) hallows.load64
  exact lower_correct h ⟨by decide, by decide, by decide, by decide⟩ (by decide) hload rfl _ _

end Comparand
