import Comparand.Proofs.Framing
import Comparand.Proofs.Stepping

/-! Instructions do what they say of themselves. A turn of a run changes no register, byte or flag that its instruction
does not name, and goes on at the next position or at the target. A fault changes nothing but the count of steps. -/
namespace Comparand

/-- The number of bytes that an instruction stores. -/
def Instr.storedBytes : Instr → Nat
  | sd .. => 8
  | fstore width .. => width.bytes
  | _ => 0

/-- What an instruction does not name is as it was. -/
structure Instr.Keeps (i : Instr) (m m' : Machine) : Prop where
  int : ∀ r, i.intDef? ≠ some r → m'.int r = m.int r
  float : ∀ f, i.floatDef? ≠ some f → m'.float f = m.float f
  memory : i.writesMemory = false → m'.memory = m.memory
  extent : m'.memory.size = m.memory.size
  /-- A store into the frame changes only the bytes that it stores. -/
  slot : ∀ offset, i.storedSlot? = some offset → ∀ b,
    b < (m.address .sp offset).toNat ∨ (m.address .sp offset).toNat + i.storedBytes ≤ b →
    m'.memory.byte b = m.memory.byte b
  flags : i.isFloatCompare = false → m'.fflags = m.fflags
  limit : m'.maxSteps = m.maxSteps

theorem Instr.Keeps.refl (i : Instr) (m : Machine) : i.Keeps m m where
  int _ _ := rfl
  float _ _ := rfl
  memory _ := rfl
  extent := rfl
  slot _ _ _ _ := rfl
  flags _ := rfl
  limit := rfl

theorem Instr.Keeps.of_tick {i : Instr} {m m' : Machine} (h : i.Keeps m.tick m') : i.Keeps m m' :=
  ⟨h.int, h.float, h.memory, h.extent, h.slot, h.flags, h.limit⟩

namespace Machine

variable {m m' : Machine} {i : Instr} {c : Control}

theorem byte_of_store64 {memory memory' : Memory} {a v : UInt64} {b : Nat} (h : memory.store64 a v = .ok memory')
    (hb : b < a.toNat ∨ a.toNat + 8 ≤ b) : memory'.byte b = memory.byte b := by
  obtain ⟨_, -, rfl⟩ := ok_of_map h
  exact Memory.byte_write_outside hb

theorem byte_of_store32 {memory memory' : Memory} {a : UInt64} {v : UInt32} {b : Nat}
    (h : memory.store32 a v = .ok memory') (hb : b < a.toNat ∨ a.toNat + 4 ≤ b) : memory'.byte b = memory.byte b := by
  obtain ⟨_, -, rfl⟩ := ok_of_map h
  exact Memory.byte_write_outside hb

/-- Only a store through the stack pointer has a slot, and it changes no bytes but those that it stores there. -/
theorem byte_of_exec {offset : Int} {b : Nat} (h : m.exec i = .ok (m', c)) (hslot : i.storedSlot? = some offset)
    (hb : b < (m.address .sp offset).toNat ∨ (m.address .sp offset).toNat + i.storedBytes ≤ b) :
    m'.memory.byte b = m.memory.byte b := by
  have hbase {base : IntReg} {o : Int} (hs : (if base = .sp then some o else none) = some offset) :
      base = .sp ∧ o = offset := by simpa using hs
  cases i with
  | sd rs base o =>
    obtain ⟨rfl, rfl⟩ := hbase hslot
    obtain ⟨memory, hstore, he⟩ := ok_of_map h
    cases he
    exact byte_of_store64 hstore hb
  | fstore w fs base o =>
    obtain ⟨rfl, rfl⟩ := hbase hslot
    cases w with
    | double =>
      obtain ⟨memory, hstore, he⟩ := ok_of_map h
      cases he
      exact byte_of_store64 hstore hb
    | single =>
      obtain ⟨memory, hstore, he⟩ := ok_of_map h
      cases he
      exact byte_of_store32 hstore hb
  | _ => cases hslot

theorem keeps_of_exec (h : m.exec i = .ok (m', c)) : i.Keeps m m' where
  int := (executes_of_exec h).ints
  float := (exec_frame h).2
  memory := (exec_frame h).1
  extent := (executes_of_exec h).extent
  slot _ hslot _ hb := byte_of_exec h hslot hb
  flags := (exec_counters h).2
  limit := (executes_of_exec h).limit

/-- An instruction that goes elsewhere does nothing but that. -/
theorem eq_of_goto {l : Label} (h : m.exec i = .ok (m', .goto l)) : m' = m := by
  rcases (executes_of_exec h).control with ⟨hc, -⟩ | ⟨_, hi, -⟩ | ⟨-, hc⟩
  · cases hc
  · cases i with
    | branch test rs₁ rs₂ target =>
      simp only [exec] at h
      split at h <;> cases h
      rfl
    | jump =>
      cases h
      rfl
    | _ => cases hi
  · cases hc

end Machine

namespace Routine

variable {r : Routine} {pc pc' : Nat} {m m' m'' : Machine} {i : Instr}

/-- A fault leaves the machine as it was, but for the count of steps. -/
theorem machine_of_fault {f : Fault} (h : r.advance (.going pc m) = .ended (.error f, m')) :
    m' = { m with steps := m'.steps } := by
  obtain ⟨e, s, -, hs, hturn⟩ := r.exists_turn pc m
  rw [hs] at h
  cases hturn with
  | offEnd | limit | fault =>
    cases h
    rfl
  | label => cases h
  | @effect i m₁ c hi hlabel hm hexec =>
    cases c with
    | next | halt => cases h
    | goto l =>
      rw [resume] at h
      split at h <;> cases h
      rw [Machine.eq_of_goto hexec]
      rfl

/-- Where a run is after an instruction: behind it, or at the target that it names. -/
theorem position_of_resume {c : Control} (hexec : m.exec i = .ok (m', c)) (h : r.resume pc m' c = .going pc' m'') :
    m'' = m' ∧ (pc' = pc + 1 ∨ ∃ l, i.target? = some l ∧ r.position? l = some pc') := by
  rcases (Machine.executes_of_exec hexec).control with ⟨rfl, -⟩ | ⟨l, htarget, rfl⟩ | ⟨-, rfl⟩
  · cases h
    exact ⟨rfl, .inl rfl⟩
  · rw [resume] at h
    split at h <;> cases h
    next hposition => exact ⟨rfl, .inr ⟨l, htarget, hposition⟩⟩
  · cases h

/-- Only a call ends a run without a fault. -/
theorem ecall_of_resume {c : Control} {e : Exit} (hexec : m.exec i = .ok (m', c))
    (h : r.resume pc m' c = .ended (.ok e, m'')) : m'' = m' ∧ i = .ecall := by
  rcases (Machine.executes_of_exec hexec).control with ⟨rfl, -⟩ | ⟨l, -, rfl⟩ | ⟨hi, rfl⟩
  · cases h
  · rw [resume] at h
    split at h <;> cases h
  · cases h
    exact ⟨rfl, hi⟩

/-- A turn at an instruction keeps what the instruction does not name and goes on behind it or at its target, or the run
ends there. If that is by a fault, all but the count of steps is as it was. -/
theorem advance_keeps (r : Routine) (pc : Nat) (m : Machine) (hi : r.code[pc]? = some i) :
    r.outcome (r.advance (.going pc m)) = r.outcome (.going pc m) ∧
    match r.advance (.going pc m) with
    | .going pc' m' =>
      i.Keeps m m' ∧ (m'.steps = m.steps + if i.isLabel then 0 else 1) ∧
        (pc' = pc + 1 ∨ ∃ l, i.target? = some l ∧ r.position? l = some pc')
    | .ended (.ok _, m') => i.Keeps m m' ∧ i = .ecall
    | .ended (.error _, m') => m' = { m with steps := m'.steps } := by
  refine ⟨r.outcome_advance _, ?_⟩
  obtain ⟨e, s, -, hs, hturn⟩ := r.exists_turn pc m
  split
  next pc' m' h =>
    rw [hs] at h
    cases hturn with
    | offEnd | limit | fault => cases h
    | label hlabel =>
      cases h
      cases hi.symm.trans hlabel
      exact ⟨.refl .., rfl, .inl rfl⟩
    | effect hj hlabel hm hexec =>
      cases hi.symm.trans hj
      obtain ⟨rfl, hposition⟩ := position_of_resume hexec h
      refine ⟨(Machine.keeps_of_exec hexec).of_tick, ?_, hposition⟩
      rw [hlabel]
      exact (Machine.exec_counters hexec).1
  next e m' h =>
    rw [hs] at h
    cases hturn with
    | offEnd | limit | fault | label => cases h
    | effect hj hlabel hm hexec =>
      cases hi.symm.trans hj
      obtain ⟨rfl, hcall⟩ := ecall_of_resume hexec h
      exact ⟨(Machine.keeps_of_exec hexec).of_tick, hcall⟩
  next f m' h => exact machine_of_fault h

/-- Half a slot is stored at the low end of a stack of one slot, and then a load that is not aligned is refused. -/
theorem advance_keeps_brimful : ∃ (r : Routine) (m m' : Machine),
    r.advance (.going 0 (.fresh 8 9)) = .going 1 m ∧
    (∀ b, b < 0x7ffffff8 ∨ 0x7ffffffc ≤ b → m.memory.byte b = 0) ∧
    r.advance (.going 1 m) = .ended (.error (.misaligned 4 8), m') ∧ m' = { m with steps := m'.steps } := by
  let r : Routine := { name := "main", code := [.fstore .single .ft0 .sp (-8), .ld .t0 .zero 4] }
  let m : Machine := (r.advance (.going 0 (.fresh 8 9))).machine
  let m' : Machine := (r.advance (.going 1 m)).machine
  have hstore : r.advance (.going 0 (.fresh 8 9)) = .going 1 m := rfl
  have hload : r.advance (.going 1 m) = .ended (.error (.misaligned 4 8), m') := rfl
  obtain ⟨-, hfirst⟩ := advance_keeps r 0 (.fresh 8 9) rfl
  obtain ⟨-, hsecond⟩ := advance_keeps r 1 m rfl
  rw [hstore] at hfirst
  rw [hload] at hsecond
  refine ⟨r, m, m', hstore, fun b hb => ?_, hload, hsecond⟩
  exact hfirst.1.slot (-8) rfl b hb

end Routine

namespace Machine

/-- What none of the instructions names is as it was. -/
structure KeepsAll (code : List Instr) (m m' : Machine) : Prop where
  int : ∀ r, (∀ i ∈ code, i.intDef? ≠ some r) → m'.int r = m.int r
  float : ∀ f, (∀ i ∈ code, i.floatDef? ≠ some f) → m'.float f = m.float f
  memory : (∀ i ∈ code, i.writesMemory = false) → m'.memory = m.memory
  flags : (∀ i ∈ code, i.isFloatCompare = false) → m'.fflags = m.fflags

variable {code : List Instr} {m m' m'' : Machine} {i : Instr}

theorem KeepsAll.refl (code : List Instr) (m : Machine) : KeepsAll code m m :=
  ⟨fun _ _ => rfl, fun _ _ => rfl, fun _ => rfl, fun _ => rfl⟩

theorem KeepsAll.trans (h : KeepsAll code m m') (h' : KeepsAll code m' m'') : KeepsAll code m m'' where
  int r hr := (h'.int r hr).trans (h.int r hr)
  float f hf := (h'.float f hf).trans (h.float f hf)
  memory hcode := (h'.memory hcode).trans (h.memory hcode)
  flags hcode := (h'.flags hcode).trans (h.flags hcode)

theorem KeepsAll.of_keeps (hi : i ∈ code) (h : i.Keeps m m') : KeepsAll code m m' where
  int r hr := h.int r (hr i hi)
  float f hf := h.float f (hf i hi)
  memory hcode := h.memory (hcode i hi)
  flags hcode := h.flags (hcode i hi)

theorem keepsAll_advance (r : Routine) (s : Progress) : KeepsAll r.code s.machine (r.advance s).machine := by
  cases s with
  | ended q => exact .refl ..
  | going pc m =>
    obtain ⟨e, s, -, hs, hturn⟩ := r.exists_turn pc m
    rw [hs]
    cases hturn with
    | offEnd | label | limit => exact .refl ..
    | fault hi => exact .of_keeps (List.mem_of_getElem? hi) (Instr.Keeps.refl _ m.tick).of_tick
    | effect hi hlabel hm hexec =>
      rw [Routine.machine_resume]
      exact .of_keeps (List.mem_of_getElem? hi) (keeps_of_exec hexec).of_tick

theorem keepsAll_iterate (r : Routine) (n : Nat) (s : Progress) :
    KeepsAll r.code s.machine (r.advance^[n] s).machine := by
  induction n generalizing s with
  | zero => exact .refl ..
  | succ n ih =>
    rw [Function.iterate_succ_apply]
    exact (keepsAll_advance r s).trans (ih _)

/-- However a run ends, what no instruction of its routine names is as it was. -/
theorem keepsAll_run (m : Machine) (r : Routine) : KeepsAll r.code m (m.run r).2 := by
  obtain ⟨n, hended⟩ := r.exists_ended (r.start m)
  have hkeeps := keepsAll_iterate r n (r.start m)
  rw [hended, r.outcome_start, Routine.machine_start] at hkeeps
  exact hkeeps

end Machine
end Comparand
