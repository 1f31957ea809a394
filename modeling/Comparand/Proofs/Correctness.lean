import Comparand.Proofs.Simulation

/-! Compiled programs end as the programs mean, on every machine whose stack has room for their frame. -/
namespace Comparand

open Machine

/-- What running a program costs when every test is made, with a frame of the given size. -/
def Program.cost (p : Program) (frameSize : Nat) : Cost :=
  ⟨(prologue frameSize).length, false⟩ + (Stmt.costList p.body [] [] +
    ((Stmt.evalList p.body [] []).elim 0 (·.onward ⟨3, false⟩)))

/-- A machine whose stack has room for a frame. -/
structure Machine.HasRoom (m : Machine) (size : Nat) : Prop where
  aligned : (m.int .sp).toNat % 8 = 0
  above : stackTop - m.memory.size + size ≤ (m.int .sp).toNat
  below : (m.int .sp).toNat ≤ stackTop

/-- All memory outside the `size` bytes below the stack pointer is as before. -/
structure Machine.Spares (size : Nat) (m m' : Machine) : Prop where
  extent : m'.memory.size = m.memory.size
  bytes : ∀ b, b < (m.int .sp).toNat - size ∨ (m.int .sp).toNat ≤ b → m'.memory.byte b = m.memory.byte b

namespace Frame

variable {f : Frame}

theorem next_le_size (f : Frame) : f.next ≤ f.size := by
  unfold size
  omega

theorem size_mono {f' : Frame} (h : f.next ≤ f'.next) : f.size ≤ f'.size := by
  unfold size
  omega

theorem size_aligned (f : Frame) : f.size % 8 = 0 := by
  unfold size
  omega

theorem Sound.size_le (h : f.Sound) : f.size ≤ 2048 := by
  have := h.reachable
  unfold size
  omega

end Frame

section Machine

variable {p : Routine} {rest : List Instr} {m : Machine} {size : Nat}

/-- The low end of the frame that a machine has room for. -/
theorem Machine.HasRoom.toNat_sp (hm : m.HasRoom size) :
    (m.int .sp + .ofInt (-size)).toNat = (m.int .sp).toNat - size := by
  obtain ⟨-, habove, hbelow⟩ := hm
  have htop : stackTop = 2 ^ 31 := rfl
  rw [UInt64.toNat_add, UInt64.ofInt, UInt64.toNat_ofNat']
  omega

/-- Moving the stack pointer down takes a frame. -/
theorem Machine.HasRoom.hasFrame (hm : m.HasRoom size) (hsize : size % 8 = 0) :
    (m.tick.setInt .sp (m.int .sp + .ofInt (-size))).HasFrame size := by
  have hsp := hm.toNat_sp
  obtain ⟨haligned, habove, hbelow⟩ := hm
  constructor <;> rw [int_setInt_self (by decide), hsp]
  · omega
  · rw [memory_setInt, memory_tick]
    omega
  · omega

/-- The prologue takes the frame, if there is one. -/
theorem prologue_run (hm : 0 < size → m.HasRoom size) (hsize : size % 8 = 0) :
    ∃ m', Reaches p (Program.prologue size ++ rest) m ⟨(Program.prologue size).length, false⟩ rest m' ∧
      (0 < size → m'.HasFrame size) ∧ ∀ ⦃m'' : Machine⦄, Confined size m' m'' → Spares size m m'' := by
  by_cases hzero : size = 0
  · subst hzero
    exact ⟨m, .refl .., fun hpos => absurd hpos (Nat.lt_irrefl 0), fun _ h => ⟨h.extent, h.bytes⟩⟩
  · have hroom := hm (Nat.pos_of_ne_zero hzero)
    rw [Program.prologue, if_neg hzero]
    refine ⟨_, .next rfl rfl rfl, fun _ => hroom.hasFrame hsize, fun m'' h => ⟨?_, fun b hb => ?_⟩⟩
    · rw [h.extent, memory_setInt, memory_tick]
    · have habove := hroom.above
      rw [h.bytes b, memory_setInt, memory_tick]
      rw [int_setInt_self (by decide), int_tick, hroom.toNat_sp]
      omega

theorem fresh_hasRoom {stackSize maxSteps : Nat} (hsize : size ≤ stackSize) (htop : stackSize ≤ stackTop) :
    (fresh stackSize maxSteps).HasRoom size := by
  have hsp : ((fresh stackSize maxSteps).int .sp).toNat = stackTop := rfl
  have hmemory : (fresh stackSize maxSteps).memory.size = stackSize := rfl
  have haligned : stackTop % 8 = 0 := rfl
  constructor <;> omega

/-- Falling off the end exits with 0. -/
theorem exit_zero_run : ∃ m', Exits p (.li .a0 0 :: .li .a7 exitCall.toInt64 :: .ecall :: rest) m ⟨3, false⟩ m' ∧
    m'.exit.code = 0 ∧ m'.memory = m.memory ∧ m'.int .sp = m.int .sp := by
  have hli : Reaches p (.li .a0 0 :: .li .a7 exitCall.toInt64 :: .ecall :: rest) m ⟨1, false⟩
      (.li .a7 exitCall.toInt64 :: .ecall :: rest) (m.tick.setInt .a0 (0 : Int64).toUInt64) := .next rfl rfl rfl
  exact hli.then_exit p rest

end Machine

/-- A routine ends within its budget if and only if the run it has fits. -/
theorem Routine.run_eq_ok_iff {r : Routine} {limits : Limits} {c : Cost} {m' : Machine} {e : Exit}
    (hr : (boundLabels r.code).Nodup) (h : Exits r r.code (fresh limits.stackSize limits.maxSteps) c m') :
    r.run limits = .ok e ↔ e = m'.exit ∧ c.steps ≤ limits.maxSteps := by
  have hrun : r.run limits = (runFrom r limits.maxSteps r.code (fresh limits.stackSize limits.maxSteps)).1 := by
    rw [run, Machine.run, checkLabels_of_nodup hr]
    rfl
  have hsteps : m'.exit.steps = c.steps := h.steps.trans (Nat.zero_add _)
  rw [hrun]
  constructor
  · intro hok
    obtain ⟨hle, hmore⟩ := runFrom_ok (Prod.ext hok rfl)
    have heq := (hmore c.steps).symm.trans (Nat.add_comm .. ▸ h.run limits.maxSteps)
    cases heq
    exact ⟨rfl, hsteps ▸ Nat.le_trans hle (Nat.le_of_eq (Nat.zero_add _))⟩
  · rintro ⟨rfl, hle⟩
    have := h.run (limits.maxSteps - c.steps)
    rw [Nat.add_sub_cancel' hle] at this
    rw [this]

namespace Stmt

variable {ss : List Stmt} {env env' : Env} {contents contents' : Contents}

theorem eval_exit_ne_normal (e : Expr) : eval (.exit e) env contents ≠ some (.normal env' contents') := by
  intro h
  obtain ⟨r, -, h⟩ := Option.bind_eq_some_iff.mp h
  obtain ⟨d, -, h⟩ := Option.bind_eq_some_iff.mp h
  cases d <;> cases h

/-- Statements of which the last is an exit do not fall off their end. -/
theorem evalList_ne_normal (h : (ss.getLast?.map isExit).getD false = true) :
    evalList ss env contents ≠ some (.normal env' contents') := by
  induction ss generalizing env contents with
  | nil => cases h
  | cons s ss ih =>
    intro heval
    obtain ⟨done, hdone, heval⟩ := Option.bind_eq_some_iff.mp heval
    cases done with
    | exited v => cases heval
    | normal env₁ contents₁ =>
      cases ss with
      | nil =>
        cases s with
        | exit e => exact eval_exit_ne_normal e hdone
        | _ => cases h
      | cons s' ss =>
        rw [List.getLast?_cons_cons] at h
        exact ih h heval

end Stmt

namespace Program

variable {p : Program} {o : CompileOptions} {r : Routine}

theorem prologue_labels (frameSize : Nat) : (prologue frameSize).all (!·.isLabel) = true := by
  unfold prologue
  split <;> rfl

/-- Labels are bound only in the code of statements. -/
theorem boundLabels_code (p : Program) (frameSize : Nat) (code : List Instr) :
    Routine.boundLabels (prologue frameSize ++ code ++ p.finish) = Routine.boundLabels code := by
  have hfinish : p.finish.all (!·.isLabel) = true := by
    unfold finish
    split <;> rfl
  simp only [Routine.boundLabels_append, Routine.boundLabels_of_all (prologue_labels _),
    Routine.boundLabels_of_all hfinish, List.nil_append, List.append_nil]

theorem boundLabels_nodup (ho : o.lowering = .nanSafe) (h : p.compile o = .ok r) :
    (Routine.boundLabels r.code).Nodup := by
  obtain ⟨code, g, hcode, rfl⟩ := compile_eq_ok.mp h
  rw [boundLabels_code]
  exact (Stmt.genList_advances ho p.body hcode).nodup

theorem finish_of_normal {env : Env} {contents : Contents}
    (h : Stmt.evalList p.body [] [] = some (.normal env contents)) :
    p.finish = [.li .a0 0, .li .a7 exitCall.toInt64, .ecall] :=
  if_neg fun hlast => Stmt.evalList_ne_normal hlast h

theorem frameSize_le (ho : o.lowering = .nanSafe) (h : p.compile o = .ok r) : r.frameSize ≤ 2048 := by
  obtain ⟨code, g, hcode, rfl⟩ := compile_eq_ok.mp h
  exact ((Stmt.genList_advances ho p.body hcode).sound ⟨rfl, Nat.zero_le _⟩).size_le

/-- At the end of its code a program that has not ended yet exits with 0. -/
theorem finish_run {done : Completion} {size : Nat} {ahead : List Instr} {g : GenState} {spent : Cost} {m : Machine}
    (hdone : Stmt.evalList p.body [] [] = some done) (h : done.Reached r size ahead p.finish [] [] g spent)
    (hm : m.Represents size [] []) :
    ∃ m', Exits r ahead m (spent + done.onward ⟨3, false⟩) m' ∧ m'.exit.code = done.status ∧ Confined size m m' := by
  cases done with
  | normal env contents =>
    obtain ⟨extra, -, hrun⟩ := h
    obtain ⟨m₁, hreaches, -, hconfined⟩ := hrun hm
    obtain ⟨m', hexits, hcode, hmemory, hsp⟩ := exit_zero_run
    exact ⟨m', hreaches.exits (finish_of_normal hdone ▸ hexits), hcode, hconfined.trans (.of_same hmemory hsp)⟩
  | exited v =>
    rw [Completion.onward, Cost.add_zero]
    exact h hm

theorem finish_spent {done : Completion} (hdone : Stmt.evalList p.body [] [] = some done) :
    Cost.Spent o p.finish (done.onward ⟨3, false⟩) (done.onward ⟨3, false⟩) := by
  cases done with
  | normal env contents =>
    rw [finish_of_normal hdone]
    exact .straight rfl
  | exited v => exact Cost.Spent.nothing.mono (Nat.zero_le _)

/-- What a compiled program does on a machine with room for its frame, if it has one. -/
theorem compiled_run (ho : o.lowering = .nanSafe) (h : p.compile o = .ok r) :
    ∃ status spent, p.meaning? = some status ∧ Cost.Spent o r.code spent (p.cost r.frameSize) ∧
      ∀ ⦃m : Machine⦄, (0 < r.frameSize → m.HasRoom r.frameSize) →
        ∃ m', Exits r r.code m spent m' ∧ m'.exit.code = status ∧ Spares r.frameSize m m' := by
  have hr := boundLabels_nodup ho h
  obtain ⟨code, g, hcode, hroutine⟩ := compile_eq_ok.mp h
  have hwhole : r.code = prologue g.frame.size ++ (code ++ p.finish) := by rw [hroutine, List.append_assoc]
  have hsize : r.frameSize = g.frame.size := by rw [hroutine]
  rw [hwhole, hsize]
  have htracks : ({} : GenState).Tracks [] [] [] := {
    frame := ⟨rfl, Nat.zero_le _⟩
    slots := by simp
    distinct := .nil
    types := rfl
    names := fun _ _ hx => nomatch hx
    known := fun _ he => nomatch he
    reachable := rfl }
  obtain ⟨done, spent, hdone, hspent, hreached⟩ :=
    Stmt.genList_simulates hr ho p.body hcode (hwhole ▸ List.suffix_append ..) g.frame.next_le_size htracks
  refine ⟨done.status, ⟨(prologue g.frame.size).length, false⟩ + (spent + done.onward ⟨3, false⟩), ?_, ?_,
    fun m hm => ?_⟩
  · rw [meaning?, hdone, Option.map_some]
  · rw [cost, hdone]
    exact (Cost.Spent.straight (prologue_labels _)).append (hspent.append (finish_spent hdone))
  · obtain ⟨m₁, hreaches, hframe, hspares⟩ := prologue_run hm g.frame.size_aligned
    have hm₁ : m₁.Represents g.frame.size [] [] := ⟨hframe, fun i ty s d hi => by simp at hi⟩
    obtain ⟨m', hexits, hstatus, hconfined⟩ := finish_run hdone hreached hm₁
    exact ⟨m', hreaches.exits hexits, hstatus, hspares hconfined⟩

theorem compiled_exits (ho : o.lowering = .nanSafe) (h : p.compile o = .ok r) :
    ∃ status spent, p.meaning? = some status ∧ Cost.Spent o r.code spent (p.cost r.frameSize) ∧
      ∀ ⦃m : Machine⦄, m.HasRoom r.frameSize → ∃ m', Exits r r.code m spent m' ∧ m'.exit.code = status := by
  obtain ⟨status, spent, hmeaning, hspent, hrun⟩ := compiled_run ho h
  refine ⟨status, spent, hmeaning, hspent, fun m hm => ?_⟩
  obtain ⟨m', hexits, hstatus, -⟩ := hrun fun _ => hm
  exact ⟨m', hexits, hstatus⟩

/-- A program that compiles ends within as many steps as its code has instructions, and with the exit code it means. -/
theorem compile_correct {limits : Limits} (h : p.compile { fold := false, lowering := .nanSafe } = .ok r)
    (hstack : 2048 ≤ limits.stackSize) (htop : limits.stackSize ≤ stackTop) (hsteps : r.length ≤ limits.maxSteps) :
    ∃ e, r.run limits = .ok e ∧ p.meaning? = some e.code := by
  obtain ⟨status, spent, hmeaning, hspent, hrun⟩ := compiled_exits rfl h
  obtain ⟨m', hexits, rfl⟩ := hrun (fresh_hasRoom (Nat.le_trans (frameSize_le rfl h) hstack) htop)
  refine ⟨m'.exit, ?_, hmeaning⟩
  exact (Routine.run_eq_ok_iff (boundLabels_nodup rfl h) hexits).mpr ⟨rfl, Nat.le_trans hspent.within hsteps⟩

/-- An increment that wraps around, a constant that is rounded to a single, a name that hides another one, and a status
of more than 32 bits. -/
def narrowing : Program where
  package := none
  name := "main"
  body := [
    .define "n" (.literal (.int 9223372036854775807)), .inc "n",
    .define "p" (.new .float32), .store "p" (.literal (.int 16777217)), .var "f" .float32 (some (.deref "p")),
    .cond (.compare .eq (.name "f") (.literal (.int 16777216)))
      [.var "n" .int (some (.literal (.int 4294967303))), .exit (.name "n")]
      (some [.exit (.name "n")])]

theorem compile_correct_narrowing :
    ∃ r, narrowing.compile { fold := false, lowering := .nanSafe } = .ok r ∧ r.length ≤ ({} : Limits).maxSteps ∧
      ∃ e, r.run {} = .ok e ∧ narrowing.meaning? = some e.code ∧ e.code = 7 := by
  have hlength : (narrowing.compile { fold := false, lowering := .nanSafe }).toOption.any (·.length ≤ 1000000) = true :=
    by decide +kernel
  cases h : narrowing.compile { fold := false, lowering := .nanSafe } with
  | error e =>
    rw [h] at hlength
    cases hlength
  | ok r =>
    rw [h] at hlength
    have hsteps : r.length ≤ 1000000 := of_decide_eq_true hlength
    obtain ⟨e, hrun, hcode⟩ := @compile_correct _ r {} h (by decide) (by decide) hsteps
    have hmeaning : narrowing.meaning? = some 7 := by decide +kernel
    exact ⟨r, rfl, hsteps, e, hrun, hcode, Option.some.inj (hcode.symm.trans hmeaning)⟩

end Program
end Comparand
