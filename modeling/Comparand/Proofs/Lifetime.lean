import Comparand.Proofs.Bytes
import Comparand.Proofs.Effects

/-! What holds of a machine for as long as it is used. Registers are set, words are stored and routines are run on it,
in any order and also if they fail; what one of them can do to the machine is said once, and kept by any number. -/
namespace Comparand

/-- A float register was written, with a double or with a single. -/
structure FloatWrite where
  reg : FloatReg
  width : Width
deriving DecidableEq

/-- The width of the last write to a register. -/
def lastWidth? (ws : List FloatWrite) (f : FloatReg) : Option Width :=
  (ws.filter (·.reg = f)).getLast?.map FloatWrite.width

theorem lastWidth?_append (ws ws' : List FloatWrite) (f : FloatReg) :
    lastWidth? (ws ++ ws') f = (lastWidth? ws' f).or (lastWidth? ws f) := by
  rw [lastWidth?, List.filter_append, List.getLast?_append, Option.map_or, lastWidth?, lastWidth?]

theorem lastWidth?_singleton (f g : FloatReg) (w : Width) :
    lastWidth? [⟨f, w⟩] g = if f = g then some w else none := by
  by_cases h : f = g <;> simp [lastWidth?, h]

/-- The write to a float register that an instruction makes if it does not fail. -/
def Instr.floatWrite? : Instr → Option FloatWrite
  | fload width fd _ _ | fmv width fd _ => some ⟨fd, width⟩
  | _ => none

namespace Machine

/-- The register holds a single: the high half is all ones. -/
def IsBoxed (m : Machine) (f : FloatReg) : Prop := m.float f >>> 32 = 0xffffffff

/-- What can become of a machine while the writes are made to its float registers. -/
structure Evolves (ws : List FloatWrite) (m m' : Machine) : Prop where
  /-- No write gets to the word behind register `zero`. -/
  zero : m'.ints.get 0 = m.ints.get 0
  extent : m'.memory.size = m.memory.size
  outside : ∀ a, a < stackTop - m.memory.size ∨ stackTop ≤ a → m'.memory.byte a = m.memory.byte a
  flags : m'.fflags = m.fflags ∨ m'.fflags = m.fflags ||| invalidFlag
  limit : m'.maxSteps = m.maxSteps
  count : m.steps ≤ m'.steps
  bound : m.steps ≤ m.maxSteps → m'.steps ≤ m.maxSteps
  untouched : ∀ f, lastWidth? ws f = none → m'.float f = m.float f
  boxed : ∀ f, lastWidth? ws f = some .single → m'.IsBoxed f

variable {ws ws' : List FloatWrite} {m m' m'' : Machine} {i : Instr} {c : Control}

theorem Evolves.refl (m : Machine) : Evolves [] m m where
  zero := rfl
  extent := rfl
  outside _ _ := rfl
  flags := .inl rfl
  limit := rfl
  count := Nat.le_refl _
  bound := id
  untouched _ _ := rfl
  boxed f h := by cases h

theorem Evolves.trans (h : Evolves ws m m') (h' : Evolves ws' m' m'') : Evolves (ws ++ ws') m m'' where
  zero := h'.zero.trans h.zero
  extent := h'.extent.trans h.extent
  outside a ha := (h'.outside a (h.extent.symm ▸ ha)).trans (h.outside a ha)
  flags := by
    have htwice : m.fflags ||| invalidFlag ||| invalidFlag = m.fflags ||| invalidFlag := by
      rw [UInt8.or_assoc, UInt8.or_self]
    rcases h'.flags with he' | he' <;> rcases h.flags with he | he <;> rw [he', he]
    · exact .inl rfl
    · exact .inr rfl
    · exact .inr rfl
    · exact .inr htwice
  limit := h'.limit.trans h.limit
  count := Nat.le_trans h.count h'.count
  bound hm := by
    have hbound := h'.bound (h.limit ▸ h.bound hm)
    rwa [h.limit] at hbound
  untouched f hf := by
    rw [lastWidth?_append, Option.or_eq_none_iff] at hf
    exact (h'.untouched f hf.1).trans (h.untouched f hf.2)
  boxed f hf := by
    rw [lastWidth?_append] at hf
    cases hlast : lastWidth? ws' f with
    | some w =>
      rw [hlast, Option.some_or] at hf
      exact h'.boxed f (hlast.trans hf)
    | none =>
      -- the box that was there before is still there
      rw [hlast, Option.none_or] at hf
      have hbox := h.boxed f hf
      rwa [IsBoxed, ← h'.untouched f hlast] at hbox

theorem Evolves.setInt (m : Machine) (r : IntReg) (v : UInt64) : Evolves [] m (m.setInt r v) := by
  by_cases hr : r = .zero
  · rw [Machine.setInt, if_pos hr]
    exact .refl m
  · have hne : (r.index : Nat) ≠ 0 := fun h => hr (congrArg IntReg.mk (Fin.ext h))
    rw [Machine.setInt, if_neg hr]
    exact { Evolves.refl m with zero := Vector.getElem_set_ne r.index_lt (by decide) hne }

/-- A word that is put into a float register: one that counts as a single has to be boxed. -/
theorem Evolves.setFloat (m : Machine) (f : FloatReg) {w : Width} {v : UInt64}
    (hv : w = .single → v >>> 32 = 0xffffffff) : Evolves [⟨f, w⟩] m (m.setFloat f v) :=
  { Evolves.refl m with
    untouched := by
      intro g hg
      rw [lastWidth?_singleton] at hg
      have hne : g ≠ f := fun h => by simp [h] at hg
      exact float_setFloat_of_ne hne
    boxed := by
      intro g hg
      rw [lastWidth?_singleton] at hg
      split at hg
      next h =>
        rw [IsBoxed, ← h, float_setFloat_self]
        exact hv (Option.some.inj hg)
      next => cases hg }

theorem Evolves.setDouble (m : Machine) (f : FloatReg) (v : UInt64) : Evolves [⟨f, .double⟩] m (m.setFloat f v) :=
  .setFloat m f fun h => by cases h

theorem Evolves.setSingle (m : Machine) (f : FloatReg) (v : UInt32) : Evolves [⟨f, .single⟩] m (m.setSingle f v) :=
  .setFloat m f fun _ => box_shiftRight v

theorem Evolves.raiseIf (m : Machine) (b : Bool) : Evolves [] m (m.raiseIf b) := by
  cases b with
  | false => exact .refl m
  | true => exact { Evolves.refl m with flags := .inr rfl }

theorem Evolves.tick (h : m.steps < m.maxSteps) : Evolves [] m m.tick :=
  { Evolves.refl m with
    count := Nat.le_succ _
    bound := fun _ => h }

theorem Evolves.write {a : UInt64} {n : Nat} (h : m.memory.Allows a n) (v : Nat) :
    Evolves [] m { m with memory := m.memory.write a.toNat n v } :=
  { Evolves.refl m with
    extent := Memory.size_write ..
    outside := by
      intro b hb
      have habove := h.above
      have hbelow := h.below
      exact Memory.byte_write_outside (by omega) }

theorem Evolves.store64 {a v : UInt64} {memory : Memory} (h : m.memory.store64 a v = .ok memory) :
    Evolves [] m { m with memory } := by
  obtain ⟨_, hcheck, rfl⟩ := ok_of_map h
  exact .write (.of_check hcheck) _

theorem Evolves.store32 {a : UInt64} {v : UInt32} {memory : Memory} (h : m.memory.store32 a v = .ok memory) :
    Evolves [] m { m with memory } := by
  obtain ⟨_, hcheck, rfl⟩ := ok_of_map h
  exact .write (.of_check hcheck) _

/-- What one instruction can do to a machine. -/
theorem Evolves.exec (h : m.exec i = .ok (m', c)) : Evolves i.floatWrite?.toList m m' := by
  cases i with
  | li | addi | xori | and | or =>
    cases h
    exact .setInt ..
  | fcmp test w rd f g =>
    cases h
    exact (Evolves.raiseIf m _).trans (.setInt ..)
  | ld =>
    obtain ⟨v, -, he⟩ := ok_of_map h
    cases he
    exact .setInt ..
  | sd =>
    obtain ⟨memory, hstore, he⟩ := ok_of_map h
    cases he
    exact .store64 hstore
  | fload w =>
    cases w with
    | double =>
      obtain ⟨v, -, he⟩ := ok_of_map h
      cases he
      exact .setDouble ..
    | single =>
      obtain ⟨v, -, he⟩ := ok_of_map h
      cases he
      exact .setSingle ..
  | fstore w =>
    cases w with
    | double =>
      obtain ⟨memory, hstore, he⟩ := ok_of_map h
      cases he
      exact .store64 hstore
    | single =>
      obtain ⟨memory, hstore, he⟩ := ok_of_map h
      cases he
      exact .store32 hstore
  | fmv w =>
    cases w with
    | double =>
      cases h
      exact .setDouble ..
    | single =>
      cases h
      exact .setSingle ..
  | branch | jump | label =>
    cases h
    exact .refl m
  | ecall =>
    simp only [Machine.exec] at h
    split at h <;> cases h
    exact .refl m

end Machine

namespace Routine

/-- The write to a float register that the next turn makes. An instruction that faults makes none. -/
def floatWrite? (r : Routine) : Progress → Option FloatWrite
  | .ended _ => none
  | .going position m =>
    match r.executes? (.going position m) with
    | none => none
    | some i =>
      match m.tick.exec i with
      | .ok _ => i.floatWrite?
      | .error _ => none

/-- The writes to float registers that the next turns make. -/
def floatWrites (r : Routine) : Nat → Progress → List FloatWrite
  | 0, _ => []
  | n + 1, s => (r.floatWrite? s).toList ++ r.floatWrites n (r.advance s)

/-- What one turn can do to a machine. -/
theorem evolves_advance (r : Routine) (s : Progress) :
    Machine.Evolves (r.floatWrite? s).toList s.machine (r.advance s).machine := by
  cases s with
  | ended q => exact .refl _
  | going pc m =>
    obtain ⟨e, s, he, hs, hturn⟩ := r.exists_turn pc m
    rw [hs, floatWrite?, he]
    cases hturn with
    | offEnd | label | limit => exact .refl m
    | fault hi hlabel hm hexec =>
      simp only [hexec]
      exact .tick hm
    | effect hi hlabel hm hexec =>
      simp only [hexec, machine_resume]
      exact (Machine.Evolves.tick hm).trans (.exec hexec)

theorem evolves_iterate (r : Routine) (n : Nat) (s : Progress) :
    Machine.Evolves (r.floatWrites n s) s.machine (r.advance^[n] s).machine := by
  induction n generalizing s with
  | zero => exact .refl _
  | succ n ih =>
    rw [Function.iterate_succ_apply, floatWrites]
    exact (r.evolves_advance s).trans (ih _)

end Routine

/-- What can be done to a machine from outside. A double is stored as the word of its bits. -/
inductive Operation where
  | setInt (r : IntReg) (v : UInt64)
  | setDouble (f : FloatReg) (v : Binary64)
  | setSingle (f : FloatReg) (v : Binary32)
  | store64 (a v : UInt64)
  | store32 (a : UInt64) (v : UInt32)
  | run (r : Routine)

namespace Machine

/-- The machine after a store, which changes nothing if it is refused. -/
def stored (m : Machine) : Except Fault Memory → Machine
  | .ok memory => { m with memory }
  | .error _ => m

/-- The machine that an operation leaves behind, also if it failed. -/
def perform (m : Machine) : Operation → Machine
  | .setInt r v => m.setInt r v
  | .setDouble f v => m.setFloat f v.bits
  | .setSingle f v => m.setSingle f v.bits
  | .store64 a v => m.stored (m.memory.store64 a v)
  | .store32 a v => m.stored (m.memory.store32 a v)
  | .run r => (m.run r).2

/-- The writes to float registers that an operation makes. A run makes those of its turns. -/
def floatWrites (m : Machine) : Operation → List FloatWrite
  | .setDouble f _ => [⟨f, .double⟩]
  | .setSingle f _ => [⟨f, .single⟩]
  | .run r => r.floatWrites (r.turnsLeft (r.start m)) (r.start m)
  | .setInt .. | .store64 .. | .store32 .. => []

/-- The machine after operations. -/
def after (m : Machine) (ops : List Operation) : Machine := ops.foldl perform m

/-- The writes to float registers that operations make, in order. -/
def journal : Machine → List Operation → List FloatWrite
  | _, [] => []
  | m, op :: ops => m.floatWrites op ++ (m.perform op).journal ops

variable {stackSize maxSteps : Nat} {ws : List FloatWrite} {m m' : Machine} {before later : List Operation}

theorem evolves_run (m : Machine) (r : Routine) : Evolves (m.floatWrites (.run r)) m (m.run r).2 := by
  have hturns := r.evolves_iterate (r.turnsLeft (r.start m)) (r.start m)
  rwa [Routine.iterate_of_turnsLeft_le (Nat.le_refl _), r.outcome_start, r.machine_start] at hturns

/-- What one operation can do to a machine, failed ones included. -/
theorem evolves_perform (m : Machine) (op : Operation) : Evolves (m.floatWrites op) m (m.perform op) := by
  cases op with
  | setInt r v => exact .setInt m r v
  | setDouble f v => exact .setDouble m f v.bits
  | setSingle f v => exact .setSingle m f v.bits
  | store64 a v =>
    rw [perform]
    cases hstore : m.memory.store64 a v with
    | ok memory => exact .store64 hstore
    | error fault => exact .refl m
  | store32 a v =>
    rw [perform]
    cases hstore : m.memory.store32 a v with
    | ok memory => exact .store32 hstore
    | error fault => exact .refl m
  | run r => exact m.evolves_run r

theorem evolves_after (m : Machine) (ops : List Operation) : Evolves (m.journal ops) m (m.after ops) := by
  induction ops generalizing m with
  | nil => exact .refl m
  | cons op ops ih => exact (m.evolves_perform op).trans (ih _)

/-- What is true of a machine in use: it was made with this stack and this limit, and these writes were made to its
float registers. -/
structure Sound (stackSize maxSteps : Nat) (ws : List FloatWrite) (m : Machine) : Prop where
  /-- Register `zero` reads as 0, and so does the word behind it. -/
  zero : m.int .zero = 0 ∧ m.ints.get 0 = 0
  extent : m.memory.size = stackSize
  /-- There are no bytes but those of the stack. -/
  outside : ∀ a, a < stackTop - stackSize ∨ stackTop ≤ a → m.memory.byte a = 0
  flags : m.fflags = 0 ∨ m.fflags = invalidFlag
  limit : m.maxSteps = maxSteps
  steps : m.steps ≤ maxSteps
  /-- The writes are all that were made. -/
  untouched : ∀ f, lastWidth? ws f = none → m.float f = 0
  boxed : ∀ f, lastWidth? ws f = some .single → m.IsBoxed f

theorem Evolves.sound (h : Evolves ws (fresh stackSize maxSteps) m) : Sound stackSize maxSteps ws m where
  zero := ⟨int_zero m, h.zero.trans rfl⟩
  extent := h.extent
  outside a ha := h.outside a ha
  flags := h.flags.imp id fun he => he.trans UInt8.zero_or
  limit := h.limit
  steps := h.bound (Nat.zero_le _)
  untouched f hf := by
    have hzero : (fresh stackSize maxSteps).float f = 0 := Vector.getElem_replicate f.index_lt
    exact (h.untouched f hf).trans hzero
  boxed := h.boxed

/-- Whatever was done to a machine before, and whether it failed or not: register `zero` reads as 0, memory has the
bytes it was made with, only the invalid flag is ever raised, the steps keep to the limit, and a float register that was
last written with a single is boxed. Whatever is done later, a raised flag stays raised and no step is taken back. -/
theorem sound_of_after (h : (fresh stackSize maxSteps).after before = m) (h' : m.after later = m') :
    m.Sound stackSize maxSteps ((fresh stackSize maxSteps).journal before) ∧
    (m.fflags &&& invalidFlag ≠ 0 → m'.fflags &&& invalidFlag ≠ 0) ∧ m.steps ≤ m'.steps := by
  have hbefore := (fresh stackSize maxSteps).evolves_after before
  have hlater := m.evolves_after later
  rw [h] at hbefore
  rw [h'] at hlater
  refine ⟨hbefore.sound, fun hraised => ?_, hlater.count⟩
  rcases hlater.flags with he | he
  · rwa [he]
  · rcases hbefore.sound.flags with hm | hm <;> rw [he, hm] <;> decide

/-- A NaN is compared with itself into register `zero`, its register is overwritten at both widths, and a load that is
not aligned takes the last step. A store and a run that come after that fail too. -/
theorem sound_of_after_exhausted : ∃ (r : Routine) (m m' : Machine),
    (fresh 8 4).after [.setSingle .ft0 .nan, .run r] = m ∧ m.after [.store64 4 1, .run r] = m' ∧
    ((fresh 8 4).perform (.setSingle .ft0 .nan)).run r = (.error (.misaligned 4 8), m) ∧
    (m.run r).1 = .error (.stepLimit 4) ∧
    m.int .zero = 0 ∧ m.memory.size = 8 ∧ m.IsBoxed .ft0 ∧
    m.fflags &&& invalidFlag ≠ 0 ∧ m'.fflags &&& invalidFlag ≠ 0 ∧ m.steps = 4 ∧ 4 ≤ m'.steps := by
  let r : Routine :=
    { name := "main"
      code := [.fcmp .flt .single .zero .ft0 .ft0, .fmv .double .ft0 .sp, .fload .single .ft0 .sp (-4),
        .ld .t0 .zero 4] }
  let m := (fresh 8 4).after [.setSingle .ft0 .nan, .run r]
  let m' := m.after [.store64 4 1, .run r]
  have hm : (fresh 8 4).after [.setSingle .ft0 .nan, .run r] = m := rfl
  have hm' : m.after [.store64 4 1, .run r] = m' := rfl
  have hlast : lastWidth? ((fresh 8 4).journal [.setSingle .ft0 .nan, .run r]) .ft0 = some .single := by decide
  have hraised : m.fflags &&& invalidFlag ≠ 0 := by decide
  obtain ⟨hsound, hflags, hsteps⟩ := sound_of_after hm hm'
  exact ⟨r, m, m', hm, hm', rfl, rfl, hsound.zero.1, hsound.extent, hsound.boxed .ft0 hlast, hraised, hflags hraised,
    rfl, hsteps⟩

end Machine
end Comparand
