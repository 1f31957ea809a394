import Comparand.Compile.Test
import Comparand.Proofs.Lowering

/-! Constants that are compared beforehand and the same constants compared by a machine. The one rounds doubles and
compares them as doubles, the other has single precision patterns in its registers, which may have been in memory in the
meantime. -/
namespace Comparand

/-- A place in memory to which a register is stored, and from which it is loaded again. -/
structure Detour where
  base : IntReg
  offset : Int

def Detour.code (w : Width) (f : FloatReg) (d : Detour) : List Instr :=
  [.fstore w f d.base d.offset, .fload w f d.base d.offset]

/-- Code that makes a constant in a register and takes it through memory, as often as there are detours. -/
def Width.carryCode (w : Width) (v : Binary64) (r : IntReg) (f : FloatReg) (ds : List Detour) : List Instr :=
  .li r (w.immediate v) :: .fmv w f r :: ds.flatMap (Detour.code w f)

namespace Machine

variable {m m' m'' : Machine} {r q : IntReg} {f : FloatReg} {w : Width} {v : Binary64} {d : Detour} {ds : List Detour}

/-- All registers but two are as before, and memory has its size. -/
structure TouchesOnly (r : IntReg) (f : FloatReg) (m m' : Machine) : Prop where
  int : ∀ s, s ≠ r → m'.int s = m.int s
  float : ∀ g, g ≠ f → m'.float g = m.float g
  size : m'.memory.size = m.memory.size

theorem TouchesOnly.refl (r : IntReg) (f : FloatReg) (m : Machine) : TouchesOnly r f m m :=
  ⟨fun _ _ => rfl, fun _ _ => rfl, rfl⟩

theorem TouchesOnly.trans (h : TouchesOnly r f m m') (h' : TouchesOnly r f m' m'') : TouchesOnly r f m m'' :=
  ⟨fun s hs => (h'.int s hs).trans (h.int s hs), fun g hg => (h'.float g hg).trans (h.float g hg),
    h'.size.trans h.size⟩

theorem TouchesOnly.address (h : TouchesOnly r f m m') (hbase : q ≠ r) (offset : Int) :
    m'.address q offset = m.address q offset := by
  rw [Machine.address, Machine.address, h.int q hbase]

/-- The machine after a store, by what matters of it. -/
theorem exists_written (r : IntReg) (f : FloatReg) (m : Machine) (i n v : Nat) :
    ∃ m', m' = { m.tick with memory := m.memory.write i n v } ∧ m'.memory = m.memory.write i n v ∧
      TouchesOnly r f m m' :=
  ⟨_, rfl, rfl, fun _ _ => rfl, fun _ _ => rfl, Memory.size_write ..⟩

theorem touchesOnly_setFloat (x : UInt64) : TouchesOnly r f m (m.tick.setFloat f x) :=
  ⟨fun s _ => by simp, fun g hg => by simp [hg], by simp⟩

/-- The detour can be made: its address does not depend on `r`, and memory allows the access. -/
def Affords (m : Machine) (r : IntReg) (w : Width) (d : Detour) : Prop :=
  d.base ≠ r ∧ m.memory.Allows (m.address d.base d.offset) w.bytes

theorem Affords.of_touchesOnly (h : m.Affords q w d) (ht : TouchesOnly r f m m') (hbase : d.base ≠ r) :
    m'.Affords q w d := by
  obtain ⟨hq, hallows⟩ := h
  refine ⟨hq, ?_⟩
  rw [ht.address hbase]
  exact hallows.of_size ht.size

variable (p : Routine) (rest : List Instr)

/-- A constant comes back from memory as it was. -/
theorem detour_run (h : m.Affords r w d) (hf : m.float f = w.word v) :
    ∃ m', Reaches p (d.code w f ++ rest) m ⟨2, false⟩ rest m' ∧ m'.float f = w.word v ∧ TouchesOnly r f m m' := by
  obtain ⟨hbase, hallows⟩ := h
  cases w with
  | double =>
    have hallows : m.memory.Allows (m.address d.base d.offset) 8 := hallows
    obtain ⟨m₁, hm₁, hmemory, htouches⟩ := exists_written r f m (m.address d.base d.offset).toNat 8 (m.float f).toNat
    have hstore : m.tick.exec (.fstore .double f d.base d.offset) = .ok (m₁, .next) := by
      rw [hm₁]
      exact congrArg (Except.map _) (hallows.store64 _)
    have hbytes : m₁.memory.load64 (m₁.address d.base d.offset) = .ok (m.float f) := by
      rw [hmemory, htouches.address hbase, hallows.load64_write]
    have hload : m₁.tick.exec (.fload .double f d.base d.offset) = .ok (m₁.tick.setFloat f (m.float f), .next) :=
      congrArg (Except.map _) hbytes
    exact ⟨_, (Reaches.next rfl rfl hstore).trans (.next rfl rfl hload), by simp [hf],
      htouches.trans (touchesOnly_setFloat _)⟩
  | single =>
    have hallows : m.memory.Allows (m.address d.base d.offset) 4 := hallows
    have hlow : (m.float f).toUInt32 = v.narrow.bits := by rw [hf, Width.word, toUInt32_box]
    obtain ⟨m₁, hm₁, hmemory, htouches⟩ := exists_written r f m (m.address d.base d.offset).toNat 4 v.narrow.bits.toNat
    have hstore : m.tick.exec (.fstore .single f d.base d.offset) = .ok (m₁, .next) := by
      rw [hm₁, ← hlow]
      exact congrArg (Except.map _) (hallows.store32 _)
    have hbytes : m₁.memory.load32 (m₁.address d.base d.offset) = .ok v.narrow.bits := by
      rw [hmemory, htouches.address hbase, hallows.load32_write]
    have hload : m₁.tick.exec (.fload .single f d.base d.offset) = .ok (m₁.tick.setSingle f v.narrow.bits, .next) :=
      congrArg (Except.map _) hbytes
    exact ⟨_, (Reaches.next rfl rfl hstore).trans (.next rfl rfl hload), by simp [setSingle, Width.word],
      htouches.trans (touchesOnly_setFloat _)⟩

theorem detours_run (h : ∀ d ∈ ds, m.Affords r w d) (hf : m.float f = w.word v) :
    ∃ m', Reaches p (ds.flatMap (Detour.code w f) ++ rest) m ⟨2 * ds.length, false⟩ rest m' ∧
      m'.float f = w.word v ∧ TouchesOnly r f m m' := by
  induction ds generalizing m with
  | nil => exact ⟨m, .refl .., hf, .refl ..⟩
  | cons d ds ih =>
    obtain ⟨hd, hds⟩ := List.forall_mem_cons.mp h
    obtain ⟨m₁, hrun₁, hf₁, htouches₁⟩ := detour_run p (ds.flatMap (Detour.code w f) ++ rest) hd hf
    obtain ⟨m₂, hrun₂, hf₂, htouches₂⟩ := ih (fun e he => (hds e he).of_touchesOnly htouches₁ (hds e he).1) hf₁
    refine ⟨m₂, ?_, hf₂, htouches₁.trans htouches₂⟩
    have hrun := hrun₁.trans hrun₂
    rw [Cost.mk_add_mk, Nat.add_comm] at hrun
    simpa [Nat.mul_succ] using hrun

theorem carryCode_run (hr : r ≠ .zero) (h : ∀ d ∈ ds, m.Affords r w d) :
    ∃ m', Reaches p (w.carryCode v r f ds ++ rest) m ⟨2 + 2 * ds.length, false⟩ rest m' ∧
      m'.float f = w.word v ∧ TouchesOnly r f m m' := by
  have hmake := @constant_run m f w p (ds.flatMap (Detour.code w f) ++ rest) r hr v
  generalize hm₁ : (m.tick.setInt r (w.immediate v).toUInt64).tick.setFloat f (w.word v) = m₁ at hmake
  have htouches : TouchesOnly r f m m₁ := by
    rw [← hm₁]
    exact ⟨fun s hs => by simp [hs], fun g hg => by simp [hg], by simp⟩
  have hf : m₁.float f = w.word v := by rw [← hm₁, float_setFloat_self]
  obtain ⟨m₂, hrun, hf₂, htouches₂⟩ := detours_run p rest (fun d hd => (h d hd).of_touchesOnly htouches (h d hd).1) hf
  exact ⟨m₂, hmake.trans hrun, hf₂, htouches.trans htouches₂⟩

end Machine

namespace Knowledge

variable {k : Knowledge} {w : Width} {x y : Value} {a b : Constant}

/-- The value is known to be a constant, as it is or as it was noted when it was stored at the width. -/
def Knows (k : Knowledge) (w : Width) (x : Value) (c : Constant) : Prop :=
  k.value? x = some c ∨ k.value? x = some (.float (w.round c.toBinary64))

/-- Rounding twice does not change how a constant compares. -/
theorem Knows.round (h : k.Knows w x a) : ∃ c, k.value? x = some c ∧
    ∀ u, (w.round c.toBinary64).compare? u = (w.round a.toBinary64).compare? u := by
  rcases h with h | h
  · exact ⟨a, h, fun _ => rfl⟩
  · refine ⟨_, h, fun u => ?_⟩
    cases w with
    | double => rfl
    | single => exact Binary32.compare?_widen_narrow ..

theorem decide?_of_knows (op : Relation) (hx : k.Knows w x a) (hy : k.Knows w y b) :
    k.decide? op (.float w x y) =
      some ((Condition.ofRelation op).holds (w.round a.toBinary64) (w.round b.toBinary64)) := by
  obtain ⟨c, hc, hac⟩ := hx.round
  obtain ⟨d, hd, hbd⟩ := hy.round
  have hcompare : (w.round c.toBinary64).compare? (w.round d.toBinary64) =
      (w.round a.toBinary64).compare? (w.round b.toBinary64) := by
    have hswap (u v : Binary64) : u.compare? v = (v.compare? u).map Ordering.swap := Format.compare?_swap
    rw [hac, hswap, hbd, ← hswap]
  simp only [decide?, hc, hd, Condition.holds, ← hcompare]
  rfl

end Knowledge

open Machine

/-- Registers are compared where they are, and no scratch is needed. -/
theorem Relation.lower_registers (op : Relation) (w : Width) (f g : FloatReg) (rd : IntReg) (s : Scratch) :
    ∃ l, (op.lower ⟨.register f, w⟩ ⟨.register g, w⟩ (.value rd) s).1 = .ok l := by
  rw [Relation.lower, Condition.lower, if_pos rfl, Condition.draw]
  cases Operand.aliases ⟨.register f, w⟩ ⟨.register g, w⟩ <;> cases op <;> exact ⟨_, rfl⟩

namespace Knowledge

variable {k : Knowledge} {x y : Value} {a b : Constant} {m : Machine} {r q rd : IntReg} {f g : FloatReg}
  {ds es : List Detour}

/-- What is decided beforehand about single precision is what a machine finds out, which is given the constants in two
registers, however often they have been in memory since. -/
theorem decide?_single_carried (op : Relation) (hx : k.Knows .single x a) (hy : k.Knows .single y b) (hr : r ≠ .zero)
    (hq : q ≠ .zero) (hrd : rd ≠ .zero) (hfg : f ≠ g) (hds : ∀ d ∈ ds, m.Affords r .single d)
    (hes : ∀ e ∈ es, m.Affords r .single e ∧ m.Affords q .single e) (p : Routine) (rest : List Instr) :
    ∃ answer l m₁ m₂ c, k.decide? op (.float .single x y) = some answer ∧
      answer = (Condition.ofRelation op).holds a.toBinary64.narrow.widen b.toBinary64.narrow.widen ∧
      (op.lower ⟨.register f, .single⟩ ⟨.register g, .single⟩ (.value rd) {}).1 = .ok l ∧
      Reaches p (Width.single.carryCode a.toBinary64 r f ds ++
        (Width.single.carryCode b.toBinary64 q g es ++ (l.code ++ rest))) m
        ⟨4 + 2 * (ds.length + es.length), false⟩ (l.code ++ rest) m₁ ∧
      m₁.float f = box a.toBinary64.narrow.bits ∧ m₁.float g = box b.toBinary64.narrow.bits ∧
      (Condition.ofRelation op).holdsOf (m₁.inspect .single f g).order = answer ∧
      Reaches p (l.code ++ rest) m₁ c rest m₂ ∧ m₂.int rd = if answer then 1 else 0 := by
  obtain ⟨l, hl⟩ := op.lower_registers .single f g rd {}
  obtain ⟨m₀, hrun₀, hf₀, htouches₀⟩ := carryCode_run p
    (Width.single.carryCode b.toBinary64 q g es ++ (l.code ++ rest)) (v := a.toBinary64) (f := f) hr hds
  obtain ⟨m₁, hrun₁, hg, htouches₁⟩ := carryCode_run p (l.code ++ rest) (v := b.toBinary64) (f := g) hq
    fun e he => (hes e he).2.of_touchesOnly htouches₀ (hes e he).1.1
  have hf : m₁.float f = Width.single.word a.toBinary64 := (htouches₁.float f hfg).trans hf₀
  have hsound : ({} : Scratch).Sound := ⟨by decide, by decide, by decide, by decide⟩
  obtain ⟨m₂, hrun₂, hanswer, -⟩ := Condition.lower_value_run p rest (Prod.ext hl rfl) hsound hrd (m := m₁)
    (x := Width.single.word a.toBinary64) (y := Width.single.word b.toBinary64) (congrArg _ hf) (congrArg _ hg)
  simp only [Width.value_word] at hanswer
  refine ⟨_, l, m₁, m₂, _, decide?_of_knows op hx hy, rfl, hl, ?_, hf, hg, ?_, hrun₂, hanswer⟩
  · have hrun := hrun₀.trans hrun₁
    have hsteps : 2 + 2 * ds.length + (2 + 2 * es.length) = 4 + 2 * (ds.length + es.length) := by omega
    rw [Cost.mk_add_mk, hsteps] at hrun
    exact hrun
  · rw [Width.inspect_eq, Width.order_reading, hf, hg, Width.value_word, Width.value_word]
    rfl

/-- Two integers that are one float of single precision: they are equal by what is noted of a slot, and equal to a
machine that has stored and loaded them, though they are not equal as doubles. -/
theorem decide?_single_carried_coarse :
    let a : Constant := .int 16777217
    let b : Constant := .int 16777216
    ∃ (k : Knowledge) (s : Slot) (l : Lowered) (m₁ m₂ : Machine) (c₁ c₂ : Cost),
      k.decide? .eq (.float .single (.constant a) (.slot .float32 s)) = some true ∧
      k.decide? .eq (.float .double (.constant a) (.slot .float32 s)) = some false ∧
      Reaches { name := "main" } (Width.single.carryCode a.toBinary64 .t0 .ft0 [⟨.sp, -8⟩] ++
        (Width.single.carryCode b.toBinary64 .t1 ⟨1⟩ [⟨.sp, -4⟩, ⟨.sp, -8⟩] ++ (l.code ++ [.ecall]))) (.fresh 2048 9)
        c₁ (l.code ++ [.ecall]) m₁ ∧
      m₁.float .ft0 = box 0x4b800000 ∧ m₁.float ⟨1⟩ = box 0x4b800000 ∧
      Reaches { name := "main" } (l.code ++ [.ecall]) m₁ c₂ [.ecall] m₂ ∧ m₂.int .a0 = 1 := by
  intro a b
  let s : Slot := ⟨0, by decide⟩
  let k : Knowledge := Knowledge.set {} s (some (.float (Width.single.round b.toBinary64)))
  have hb : k.Knows .single (.slot .float32 s) b := .inr (by decide)
  have haffords {r : IntReg} (hr : .sp ≠ r) : (Machine.fresh 2048 9).Affords r .single ⟨.sp, -8⟩ ∧
      (Machine.fresh 2048 9).Affords r .single ⟨.sp, -4⟩ :=
    ⟨⟨hr, by decide, by decide, by decide⟩, hr, by decide, by decide, by decide⟩
  obtain ⟨hlow, hhigh⟩ := haffords (r := .t0) (by decide)
  obtain ⟨hlow', hhigh'⟩ := haffords (r := .t1) (by decide)
  have hds : ∀ d ∈ [⟨.sp, -8⟩], (Machine.fresh 2048 9).Affords .t0 .single d := by simp [hlow]
  have hes : ∀ e ∈ [⟨.sp, -4⟩, ⟨.sp, -8⟩], (Machine.fresh 2048 9).Affords .t0 .single e ∧
      (Machine.fresh 2048 9).Affords .t1 .single e := by simp [hlow, hhigh, hlow', hhigh']
  obtain ⟨answer, l, m₁, m₂, c, hdecide, hanswer, -, hrun₁, hf, hg, -, hrun₂, hrd⟩ :=
    decide?_single_carried (k := k) (x := .constant a) (y := .slot .float32 s) (m := .fresh 2048 9) (r := .t0)
      (q := .t1) (f := .ft0) (g := ⟨1⟩) .eq (.inl rfl) hb (by decide) (by decide) (by decide : IntReg.a0 ≠ .zero)
      (by decide) hds hes { name := "main" } [.ecall]
  have htrue : answer = true := hanswer.trans (by decide)
  rw [htrue] at hdecide hrd
  exact ⟨k, s, l, m₁, m₂, _, c, hdecide, by decide, hrun₁, hf.trans (by decide),
    hg.trans (by decide), hrun₂, hrd⟩

end Knowledge
end Comparand
