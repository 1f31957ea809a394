import Comparand.Proofs.Correctness

/-! Routines whose code goes only forward, stays in its frame and ends with a call. Whatever such a routine runs on, the
run ends within as many steps as the routine has instructions, or is cut short by the limit. -/
namespace Comparand

namespace Instr

/-- The base register and the offset of an access to memory. -/
def access? : Instr → Option (IntReg × Int)
  | ld _ base offset | sd _ base offset | fload _ _ base offset | fstore _ _ base offset => some (base, offset)
  | _ => none

/-- The number that an instruction holds in twelve bits. -/
def immediate? : Instr → Option Int
  | addi _ _ imm | xori _ _ imm => some imm
  | i => i.access?.map Prod.snd

/-- The instruction before a call says which call it is. -/
def Announces (i j : Instr) : Prop := j = .ecall → i = .li .a7 exitCall.toInt64

end Instr

/-- What the code of a routine has to be like for its runs to be free of faults. -/
structure Routine.Safe (r : Routine) : Prop where
  /-- The labels that were made are bound once each, and there are no others. -/
  labels : ∀ l : Label, (boundLabels r.code).count l = if l.index < r.hints.length then 1 else 0
  /-- Jumps go to labels that are bound later. -/
  forward : ∀ ⦃i rest⦄, i :: rest <:+ r.code → ∀ ⦃l⦄, i.target? = some l → l ∈ boundLabels rest
  aligned : r.frameSize % 16 = 0
  reachable : r.frameSize ≤ 2048
  /-- All accesses go to whole slots of the frame. -/
  accesses : ∀ i ∈ r.code, ∀ ⦃base offset⦄, i.access? = some (base, offset) →
    base = .sp ∧ 0 ≤ offset ∧ offset % 8 = 0 ∧ offset + 8 ≤ r.frameSize
  immediates : ∀ i ∈ r.code, ∀ ⦃n⦄, i.immediate? = some n → -2048 ≤ n ∧ n ≤ 2047
  /-- The stack pointer changes only when the frame is taken. -/
  stack : ∃ body, r.code = Program.prologue r.frameSize ++ body ∧ ∀ i ∈ body, i.intDef? ≠ some .sp
  announced : r.code.IsChain Instr.Announces
  start : r.code.head? ≠ some .ecall
  finish : r.code.getLast? = some .ecall

namespace Machine

variable {m m' : Machine} {i : Instr} {c : Control} {size : Nat}

/-- What an instruction leaves alone, and where it goes. -/
structure Executes (i : Instr) (m m' : Machine) (c : Control) : Prop where
  ints : ∀ r, i.intDef? ≠ some r → m'.int r = m.int r
  extent : m'.memory.size = m.memory.size
  limit : m'.maxSteps = m.maxSteps
  control : c = .next ∧ i ≠ .ecall ∨ (∃ l, i.target? = some l ∧ c = .goto l) ∨ (i = .ecall ∧ c = .halt)

theorem int_setInt_of_def {rd r : IntReg} (v : UInt64) (hr : (if rd = .zero then none else some rd) ≠ some r) :
    (m.setInt rd v).int r = m.int r := by
  by_cases hrd : rd = .zero
  · rw [setInt, if_pos hrd]
  · rw [if_neg hrd] at hr
    exact int_setInt_of_ne fun he => hr (he ▸ rfl)

@[simp] theorem maxSteps_setInt {r : IntReg} {v : UInt64} : (m.setInt r v).maxSteps = m.maxSteps := by
  unfold setInt
  split <;> rfl

@[simp] theorem maxSteps_raiseIf (b : Bool) : (m.raiseIf b).maxSteps = m.maxSteps := by cases b <;> rfl

/-- An instruction that defines one integer register and goes on. -/
theorem Executes.define {rd : IntReg} {v : UInt64} (hdef : i.intDef? = if rd = .zero then none else some rd)
    (hi : i ≠ .ecall) : Executes i m (m.setInt rd v) .next where
  ints r hr := int_setInt_of_def v (hdef ▸ hr)
  extent := by rw [memory_setInt]
  limit := maxSteps_setInt
  control := .inl ⟨rfl, hi⟩

/-- An instruction that stores and goes on. -/
theorem Executes.store {memory : Memory} (hsize : memory.size = m.memory.size) (hi : i ≠ .ecall) :
    Executes i m { m with memory } .next :=
  ⟨fun _ _ => rfl, hsize, rfl, .inl ⟨rfl, hi⟩⟩

theorem size_of_store64 {memory memory' : Memory} {a v : UInt64} (h : memory.store64 a v = .ok memory') :
    memory'.size = memory.size := by
  obtain ⟨_, -, rfl⟩ := ok_of_map h
  exact memory.size_write _ _ _

theorem size_of_store32 {memory memory' : Memory} {a : UInt64} {v : UInt32} (h : memory.store32 a v = .ok memory') :
    memory'.size = memory.size := by
  obtain ⟨_, -, rfl⟩ := ok_of_map h
  exact memory.size_write _ _ _

theorem executes_of_exec (h : m.exec i = .ok (m', c)) : Executes i m m' c := by
  cases i with
  | li | addi | xori | and | or =>
    cases h
    exact .define rfl (by simp)
  | ld =>
    obtain ⟨v, -, he⟩ := ok_of_map h
    cases he
    exact .define rfl (by simp)
  | fcmp test w rd f g =>
    cases h
    refine ⟨fun r hr => ?_, by simp, by simp, .inl ⟨rfl, by simp⟩⟩
    rw [int_setInt_of_def _ hr, int_raiseIf]
  | sd =>
    obtain ⟨memory, hstore, he⟩ := ok_of_map h
    cases he
    exact .store (size_of_store64 hstore) (by simp)
  | fload w =>
    cases w <;>
    · obtain ⟨_, -, he⟩ := ok_of_map h
      cases he
      exact ⟨fun _ _ => rfl, rfl, rfl, .inl ⟨rfl, by simp⟩⟩
  | fstore w =>
    cases w with
    | double =>
      obtain ⟨memory, hstore, he⟩ := ok_of_map h
      cases he
      exact .store (size_of_store64 hstore) (by simp)
    | single =>
      obtain ⟨memory, hstore, he⟩ := ok_of_map h
      cases he
      exact .store (size_of_store32 hstore) (by simp)
  | fmv w =>
    cases w <;>
    · cases h
      exact ⟨fun _ _ => rfl, rfl, rfl, .inl ⟨rfl, by simp⟩⟩
  | branch test rs₁ rs₂ target =>
    simp only [exec] at h
    split at h <;> cases h
    · exact ⟨fun _ _ => rfl, rfl, rfl, .inr (.inl ⟨target, rfl, rfl⟩)⟩
    · exact ⟨fun _ _ => rfl, rfl, rfl, .inl ⟨rfl, by simp⟩⟩
  | jump target =>
    cases h
    exact ⟨fun _ _ => rfl, rfl, rfl, .inr (.inl ⟨target, rfl, rfl⟩)⟩
  | ecall =>
    simp only [exec] at h
    split at h <;> cases h
    exact ⟨fun _ _ => rfl, rfl, rfl, .inr (.inr ⟨rfl, rfl⟩)⟩
  | label l =>
    cases h
    exact ⟨fun _ _ => rfl, rfl, rfl, .inl ⟨rfl, by simp⟩⟩

/-- An instruction that stays in the frame of the machine has an effect. -/
theorem exec_ok (hm : 0 < size → m.HasFrame size)
    (haccess : ∀ ⦃base offset⦄, i.access? = some (base, offset) →
      base = .sp ∧ 0 ≤ offset ∧ offset % 8 = 0 ∧ offset + 8 ≤ size)
    (himmediate : ∀ ⦃n⦄, i.immediate? = some n → -2048 ≤ n ∧ n ≤ 2047)
    (hcall : i = .ecall → m.int .a7 = exitCall) : ∃ m' c, m.exec i = .ok (m', c) := by
  -- the address of an access is that of a whole slot
  have hallows {base : IntReg} {offset : Int} (h : i.access? = some (base, offset))
      (hn : i.immediate? = some offset) : m.memory.Allows (m.address base offset) 8 := by
    obtain ⟨rfl, hnonneg, haligned, hfits⟩ := haccess h
    exact (hm (by omega)).allows (s := ⟨offset, himmediate hn⟩) ⟨hnonneg, haligned, hfits⟩
  cases i with
  | ld rd base offset =>
    rw [exec, (hallows rfl rfl).load64]
    exact ⟨_, _, rfl⟩
  | sd rs base offset =>
    rw [exec, (hallows rfl rfl).store64]
    exact ⟨_, _, rfl⟩
  | fload w fd base offset =>
    cases w with
    | double =>
      rw [exec, (hallows rfl rfl).load64]
      exact ⟨_, _, rfl⟩
    | single =>
      rw [exec, (hallows rfl rfl).half.load32]
      exact ⟨_, _, rfl⟩
  | fstore w fs base offset =>
    cases w with
    | double =>
      rw [exec, (hallows rfl rfl).store64]
      exact ⟨_, _, rfl⟩
    | single =>
      rw [exec, (hallows rfl rfl).half.store32]
      exact ⟨_, _, rfl⟩
  | fmv w => cases w <;> exact ⟨_, _, rfl⟩
  | ecall => exact ⟨m, .halt, if_pos (hcall rfl)⟩
  | li | addi | xori | and | or | fcmp | branch | jump | label => exact ⟨_, _, rfl⟩

theorem HasFrame.of_executes (hm : m.HasFrame size) (h : Executes i m m' c) (hsp : i.intDef? ≠ some .sp) :
    m'.HasFrame size := by
  obtain ⟨haligned, habove, hbelow⟩ := hm
  rw [← h.ints _ hsp] at haligned habove hbelow
  rw [← h.extent] at habove
  exact ⟨haligned, habove, hbelow⟩

/-- How the run of a safe routine ends: the program exits, or the limit is reached with instructions left. -/
structure Ends (m : Machine) (budget count : Nat) (q : Except Fault Exit × Machine) : Prop where
  steps : q.2.steps ≤ m.steps + count
  result : (∃ e, q.1 = .ok e) ∨ q.1 = .error (.stepLimit m.maxSteps) ∧ budget < count

variable {r : Routine} {budget : Nat} {ahead rest : List Instr} {q : Except Fault Exit × Machine}

/-- Out of budget before an instruction. -/
theorem Ends.cut (hi : i.isLabel = false) : Ends m 0 ((i :: rest).countP (!·.isLabel)) (runFrom r 0 (i :: rest) m) := by
  have hcount : (i :: rest).countP (!·.isLabel) = rest.countP (!·.isLabel) + 1 :=
    List.countP_cons_of_pos (by simp [hi])
  rw [runFrom_zero hi, hcount]
  exact ⟨Nat.le_add_right .., .inr ⟨rfl, Nat.succ_pos _⟩⟩

/-- One step on, in code that is not longer than what comes after the instruction. -/
theorem Ends.step {count count' : Nat} (h : Executes i m.tick m' c) (hsteps : m'.steps = m.steps + 1)
    (hends : Ends m' budget count q) (hcount : count + 1 ≤ count') : Ends m (budget + 1) count' q where
  steps := by
    have := hends.steps
    omega
  result := by
    rcases hends.result with hok | ⟨hcut, hlt⟩
    · exact .inl hok
    · exact .inr ⟨h.limit ▸ hcut, by omega⟩

end Machine

namespace Routine

open Machine

variable {r : Routine} {m : Machine} {i : Instr} {ahead rest : List Instr} {l : Label}

theorem Safe.nodup (h : r.Safe) : (boundLabels r.code).Nodup := by
  apply List.nodup_iff_count_le_one.mpr
  intro l
  rw [h.labels]
  split <;> omega

/-- The code at the label of a jump comes after the jump. -/
theorem Safe.codeAt? (h : r.Safe) (hsuffix : i :: rest <:+ r.code) (hl : i.target? = some l) :
    ∃ ahead, r.codeAt? l = some (.label l :: ahead) ∧ .label l :: ahead <:+ rest := by
  obtain ⟨before, ahead, hrest⟩ := List.append_of_mem (mem_boundLabels.mp (h.forward hsuffix hl))
  have hahead : .label l :: ahead <:+ rest := ⟨before, hrest.symm⟩
  exact ⟨ahead, codeAt?_of_suffix h.nodup (hahead.trans ((List.suffix_cons ..).trans hsuffix)), hahead⟩

theorem Safe.announces (h : r.Safe) (hsuffix : i :: rest <:+ r.code) (hcall : rest.head? = some .ecall) :
    i = .li .a7 exitCall.toInt64 := by
  obtain ⟨j, rest, rfl⟩ := List.exists_cons_of_ne_nil (l := rest) (by rintro rfl; cases hcall)
  have hchain := h.announced.suffix hsuffix
  exact (List.isChain_cons_cons.mp hchain).1 (Option.some.inj hcall)

/-- Code that ends with a call does so after any of its instructions that is none. -/
theorem getLast?_tail (h : (i :: rest).getLast? = some .ecall) (hi : i ≠ .ecall) : rest.getLast? = some .ecall := by
  cases rest with
  | nil => exact absurd (Option.some.inj h) hi
  | cons j rest => rwa [List.getLast?_cons_cons] at h

theorem getLast?_suffix {code : List Instr} (h : code.getLast? = some .ecall) (hahead : i :: rest <:+ code) :
    (i :: rest).getLast? = some .ecall := by
  obtain ⟨before, rfl⟩ := hahead
  rwa [List.getLast?_append_of_ne_nil _ (List.cons_ne_nil i rest)] at h

/-- What comes after the prologue runs to its end. The code ahead gets shorter with every step, as jumps go forward. -/
theorem Safe.runFrom_ends (h : r.Safe) (budget : Nat) (hahead : ahead <:+ r.code)
    (hsp : ∀ i ∈ ahead, i.intDef? ≠ some .sp) (hm : 0 < r.frameSize → m.HasFrame r.frameSize)
    (hready : ahead.head? = some .ecall → m.int .a7 = exitCall) (hlast : ahead.getLast? = some .ecall) :
    Ends m budget (ahead.countP (!·.isLabel)) (runFrom r budget ahead m) := by
  induction hn : ahead.length using Nat.strong_induction_on generalizing ahead m budget with
  | _ n ih =>
    subst hn
    cases ahead with
    | nil => cases hlast
    | cons i rest =>
      have hrest := (List.suffix_cons i rest).trans hahead
      have hsp' : ∀ j ∈ rest, j.intDef? ≠ some .sp := fun j hj => hsp j (List.mem_cons_of_mem i hj)
      have hshorter : rest.length < (i :: rest).length := Nat.lt_succ_self _
      cases hi : i.isLabel with
      | true =>
        cases i with
        | label l =>
          rw [runFrom_label, List.countP_cons_of_neg (by simp [Instr.isLabel])]
          refine ih _ hshorter budget hrest hsp' hm (fun hcall => ?_) (getLast?_tail hlast (by simp)) rfl
          cases h.announces hahead hcall
        | _ => cases hi
      | false =>
        cases budget with
        | zero => exact .cut hi
        | succ budget =>
          have hmem : i ∈ r.code := hahead.subset List.mem_cons_self
          have hcount : (i :: rest).countP (!·.isLabel) = rest.countP (!·.isLabel) + 1 :=
            List.countP_cons_of_pos (by simp [hi])
          have htick : 0 < r.frameSize → m.tick.HasFrame r.frameSize := fun hpos =>
            ⟨(hm hpos).aligned, (hm hpos).above, (hm hpos).below⟩
          obtain ⟨m', c, hexec⟩ := exec_ok htick (h.accesses i hmem) (h.immediates i hmem)
            fun he => hready (by rw [he]; rfl)
          have hexecutes := executes_of_exec hexec
          have hsteps : m'.steps = m.steps + 1 := (exec_counters hexec).1
          have hm' : 0 < r.frameSize → m'.HasFrame r.frameSize := fun hpos =>
            (htick hpos).of_executes hexecutes (hsp i List.mem_cons_self)
          rw [runFrom_cons hi, hexec]
          rcases hexecutes.control with ⟨rfl, hne⟩ | ⟨l, hl, rfl⟩ | ⟨rfl, rfl⟩
          · refine .step hexecutes hsteps (ih _ hshorter budget hrest hsp' hm' (fun hcall => ?_)
              (getLast?_tail hlast hne) rfl) (by omega)
            have hcalls := h.announces hahead hcall
            subst hcalls
            cases hexec
            exact int_setInt_self (by decide)
          · obtain ⟨code, hcode, hsuffix⟩ := h.codeAt? hahead hl
            have hlast' : rest.getLast? = some .ecall := getLast?_tail hlast (by rintro rfl; cases hl)
            have hle := hsuffix.sublist.countP_le (p := (!·.isLabel))
            simp only [runAt, hcode]
            exact .step hexecutes hsteps (ih _ (Nat.lt_of_le_of_lt hsuffix.length_le hshorter) budget
              (hsuffix.trans hrest) (fun j hj => hsp' j (hsuffix.subset hj)) hm' (by rintro ⟨⟩)
              (getLast?_suffix hlast' hsuffix) rfl) (by omega)
          · refine ⟨?_, .inl ⟨_, rfl⟩⟩
            simp only [hsteps]
            omega

/-- A safe routine exits within as many steps as it has instructions, unless the limit is reached before. Nothing is
asked of the stack if there is no frame. -/
theorem Safe.run_ends (h : r.Safe) (hm : 0 < r.frameSize → m.HasRoom r.frameSize) :
    Ends m (m.maxSteps - m.steps) r.length (m.run r) := by
  obtain ⟨body, hcode, hsp⟩ := h.stack
  have hbody : body <:+ r.code := ⟨_, hcode.symm⟩
  rw [Machine.run, checkLabels_of_nodup h.nodup, Routine.length]
  by_cases hzero : r.frameSize = 0
  · have hwhole : r.code = body := by rw [hcode, hzero]; rfl
    rw [← hwhole] at hsp
    exact h.runFrom_ends _ List.suffix_rfl hsp (fun hpos => by omega) (fun hcall => absurd hcall h.start) h.finish
  · rw [Program.prologue, if_neg hzero, List.singleton_append] at hcode
    have hwhole : .addi .sp .sp (-r.frameSize) :: body <:+ r.code := ⟨[], hcode.symm⟩
    have hfinish := h.finish
    rw [hcode] at hfinish ⊢
    have hlast := getLast?_tail hfinish (by simp)
    generalize m.maxSteps - m.steps = budget
    cases budget with
    | zero => exact .cut rfl
    | succ budget =>
      have hexec : m.tick.exec (.addi .sp .sp (-r.frameSize)) =
          .ok (m.tick.setInt .sp (m.int .sp + .ofInt (-r.frameSize)), .next) := rfl
      have haligned := h.aligned
      rw [runFrom_next rfl hexec, List.countP_cons_of_pos rfl]
      refine .step (executes_of_exec hexec) (exec_counters hexec).1 (h.runFrom_ends budget hbody hsp
        (fun hpos => (hm hpos).hasFrame (by omega)) (fun hcall => ?_) hlast) (Nat.le_refl _)
      cases h.announces hwhole hcall

end Routine
end Comparand
