import Comparand.Proofs.Stepping

/-! The limit of steps: a run that ends by itself ends in the same way under every limit that leaves it the steps it
takes, and every smaller limit is used up to the last step. -/
namespace Comparand

namespace Machine

variable {m m' : Machine} {n : Nat} {i : Instr} {c : Control}

/-- The machine with another limit. -/
def withLimit (m : Machine) (n : Nat) : Machine := { m with maxSteps := n }

theorem withLimit_of_eq (h : m.maxSteps = n) : m.withLimit n = m := by
  subst h
  rfl

theorem setInt_withLimit (r : IntReg) (v : UInt64) : (m.withLimit n).setInt r v = (m.setInt r v).withLimit n := by
  unfold setInt
  split <;> rfl

theorem raiseIf_withLimit (b : Bool) : (m.withLimit n).raiseIf b = (m.raiseIf b).withLimit n := by cases b <;> rfl

/-- No instruction looks at the limit. -/
theorem exec_withLimit (m : Machine) (n : Nat) (i : Instr) :
    (m.withLimit n).exec i = (m.exec i).map fun q => (q.1.withLimit n, q.2) := by
  -- an access sees the same memory at the same address
  have haccess {α : Type} (x : Except Fault α) (f : α → Machine × Control) :
      (x.map f).map (fun q => (q.1.withLimit n, q.2)) = x.map fun a => ((f a).1.withLimit n, (f a).2) := by
    cases x <;> rfl
  cases i with
  | li | addi | xori | and | or =>
    simp only [exec, setInt_withLimit]
    rfl
  | fcmp =>
    simp only [exec, raiseIf_withLimit, setInt_withLimit]
    rfl
  | ld =>
    simp only [exec, setInt_withLimit, haccess]
    rfl
  | sd =>
    simp only [exec, haccess]
    rfl
  | fload w | fstore w =>
    cases w <;>
    · simp only [exec, haccess]
      rfl
  | fmv w => cases w <;> rfl
  | branch | jump | label => rfl
  | ecall =>
    change (if m.int .a7 = exitCall then _ else _) = _
    rw [exec]
    split <;> rfl

/-- An instruction fails by its access to memory or by its call. -/
theorem fault_of_exec {fault : Fault} (h : m.exec i = .error fault) :
    (∃ a n, fault = .misaligned a n) ∨ (∃ a, fault = .memory a) ∨ ∃ v, fault = .unsupportedCall v := by
  have haccess {a : UInt64} {n : Nat} (h : m.memory.check a n = .error fault) :
      (∃ a n, fault = .misaligned a n) ∨ (∃ a, fault = .memory a) ∨ ∃ v, fault = .unsupportedCall v :=
    (Memory.fault_of_check h).imp (fun hf => ⟨a, n, hf⟩) fun hf => .inl ⟨a, hf⟩
  cases i with
  | li | addi | xori | and | or | fcmp | branch | jump | label => cases h
  | ld | sd => exact haccess (error_of_map (error_of_map h))
  | fload w | fstore w => cases w <;> exact haccess (error_of_map (error_of_map h))
  | fmv w => cases w <;> cases h
  | ecall =>
    simp only [exec] at h
    split at h <;> cases h
    exact .inr (.inr ⟨_, rfl⟩)

variable {r : Routine} {ahead ahead' rest : List Instr} {q : Except Fault Exit × Machine} {k budget : Nat}

/-- The code ahead begins with an instruction, once its labels are passed, or the run is at its end. -/
theorem instr_or_end (r : Routine) (ahead : List Instr) :
    (∀ budget m, runFrom r budget ahead m = (.error (.fellOffEnd r.name), m)) ∨
    ∃ i rest, i.isLabel = false ∧ ∀ budget m, runFrom r budget ahead m = runFrom r budget (i :: rest) m := by
  cases hdrop : ahead.dropWhile Instr.isLabel with
  | nil =>
    refine .inl fun budget m => ?_
    rw [runFrom, hdrop]
  | cons i rest =>
    have hi : i.isLabel = false := by
      have hhead := List.head_dropWhile_not Instr.isLabel (l := ahead) (by simp [hdrop])
      simpa only [hdrop, List.head_cons] using hhead
    refine .inr ⟨i, rest, hi, fun budget m => ?_⟩
    rw [runFrom_dropWhile, hdrop]

/-- Whatever its limit is, a run with steps left executes an instruction and ends by that, or goes on. -/
theorem stop_or_step (r : Routine) (rest : List Instr) (m : Machine) (hi : i.isLabel = false) :
    (∃ q : Except Fault Exit × Machine, (∀ n, q.1 ≠ .error (.stepLimit n)) ∧ q.2.steps = m.steps + 1 ∧
      q.2.maxSteps = m.maxSteps ∧
      ∀ n budget, runFrom r (budget + 1) (i :: rest) (m.withLimit n) = (q.1, q.2.withLimit n)) ∨
    ∃ (ahead : List Instr) (m' : Machine), m'.steps = m.steps + 1 ∧ m'.maxSteps = m.maxSteps ∧
      ∀ n budget, runFrom r (budget + 1) (i :: rest) (m.withLimit n) = runFrom r budget ahead (m'.withLimit n) := by
  have hrun (n : Nat) : (m.withLimit n).tick.exec i = (m.tick.exec i).map fun q => (q.1.withLimit n, q.2) :=
    exec_withLimit m.tick n i
  cases hexec : m.tick.exec i with
  | error fault =>
    refine .inl ⟨(.error fault, m.tick), fun n hn => ?_, rfl, rfl, fun n budget => ?_⟩
    · cases hn
      rcases fault_of_exec hexec with ⟨_, _, h⟩ | ⟨_, h⟩ | ⟨_, h⟩ <;> cases h
    · rw [runFrom_cons hi, hrun, hexec]
      rfl
  | ok effect =>
    obtain ⟨m', c⟩ := effect
    have hsteps : m'.steps = m.steps + 1 := (exec_counters hexec).1
    have hlimit : m'.maxSteps = m.maxSteps := (executes_of_exec hexec).limit
    cases c with
    | halt =>
      refine .inl ⟨(.ok m'.exit, m'), by simp, hsteps, hlimit, fun n budget => ?_⟩
      rw [runFrom_cons hi, hrun, hexec]
      rfl
    | next =>
      refine .inr ⟨rest, m', hsteps, hlimit, fun n budget => ?_⟩
      rw [runFrom_cons hi, hrun, hexec]
      rfl
    | goto l =>
      cases hl : r.codeAt? l with
      | none =>
        refine .inl ⟨(.error (.unboundLabel l), m'), by simp, hsteps, hlimit, fun n budget => ?_⟩
        rw [runFrom_cons hi, hrun, hexec]
        simp only [Except.map, runAt, hl]
      | some ahead =>
        refine .inr ⟨ahead, m', hsteps, hlimit, fun n budget => ?_⟩
        rw [runFrom_cons hi, hrun, hexec]
        simp only [Except.map, runAt, hl]

/-- The run from `ahead` ends by itself after `k` instructions: so it does with every budget for as many, whatever the
limit is, and a smaller one cuts it short. -/
structure Lasts (r : Routine) (ahead : List Instr) (m : Machine) (k : Nat) (q : Except Fault Exit × Machine) :
    Prop where
  uncut : ∀ n, q.1 ≠ .error (.stepLimit n)
  steps : q.2.steps = m.steps + k
  enough : ∀ n budget, k ≤ budget → runFrom r budget ahead (m.withLimit n) = (q.1, q.2.withLimit n)
  short : ∀ n budget, budget < k → (runFrom r budget ahead (m.withLimit n)).1 = .error (.stepLimit n)

theorem Lasts.of_end (hend : ∀ budget m, runFrom r budget ahead m = (.error (.fellOffEnd r.name), m)) (m : Machine) :
    Lasts r ahead m 0 (.error (.fellOffEnd r.name), m) where
  uncut n hn := by cases hn
  steps := rfl
  enough _ budget _ := hend budget _
  short _ budget hlt := absurd hlt (Nat.not_lt_zero budget)

theorem Lasts.congr (hahead : ∀ budget m, runFrom r budget ahead m = runFrom r budget ahead' m)
    (h : Lasts r ahead' m k q) : Lasts r ahead m k q where
  uncut := h.uncut
  steps := h.steps
  enough n budget hle := (hahead budget _).trans (h.enough n budget hle)
  short n budget hlt := by rw [hahead, h.short n budget hlt]

theorem Lasts.stop (hi : i.isLabel = false) (hq : ∀ n, q.1 ≠ .error (.stepLimit n)) (hsteps : q.2.steps = m.steps + 1)
    (hrun : ∀ n budget, runFrom r (budget + 1) (i :: rest) (m.withLimit n) = (q.1, q.2.withLimit n)) :
    Lasts r (i :: rest) m 1 q where
  uncut := hq
  steps := hsteps
  enough n budget hle := by
    obtain ⟨budget, rfl⟩ := Nat.exists_eq_succ_of_ne_zero (Nat.ne_of_gt hle)
    exact hrun n budget
  short n budget hlt := by
    rw [Nat.lt_one_iff.mp hlt, runFrom_zero hi]
    rfl

theorem Lasts.step (hi : i.isLabel = false) (hsteps : m'.steps = m.steps + 1)
    (hrun : ∀ n budget, runFrom r (budget + 1) (i :: rest) (m.withLimit n) = runFrom r budget ahead (m'.withLimit n))
    (h : Lasts r ahead m' k q) : Lasts r (i :: rest) m (k + 1) q where
  uncut := h.uncut
  steps := by rw [h.steps, hsteps, Nat.add_assoc, Nat.add_comm 1 k]
  enough n budget hle := by
    cases budget with
    | zero => cases hle
    | succ budget => rw [hrun, h.enough n budget (Nat.le_of_succ_le_succ hle)]
  short n budget hlt := by
    cases budget with
    | zero =>
      rw [runFrom_zero hi]
      rfl
    | succ budget => rw [hrun, h.short n budget (Nat.lt_of_succ_lt_succ hlt)]

/-- A run uses up its budget and is cut short, or lasts no longer than its budget does. -/
theorem cut_or_lasts (r : Routine) (budget : Nat) (ahead : List Instr) (m : Machine) :
    (runFrom r budget ahead m).1 = .error (.stepLimit m.maxSteps) ∧
      (runFrom r budget ahead m).2.steps = m.steps + budget ∨
    ∃ k, Lasts r ahead m k (runFrom r budget ahead m) := by
  induction budget generalizing ahead m with
  | zero =>
    rcases instr_or_end r ahead with hend | ⟨i, rest, hi, hrest⟩
    · rw [hend]
      exact .inr ⟨0, .of_end hend m⟩
    · rw [hrest, runFrom_zero hi]
      exact .inl ⟨rfl, rfl⟩
  | succ budget ih =>
    rcases instr_or_end r ahead with hend | ⟨i, rest, hi, hrest⟩
    · rw [hend]
      exact .inr ⟨0, .of_end hend m⟩
    · rw [hrest]
      rcases stop_or_step r rest m hi with
        ⟨q, hq, hsteps, hlimit, hrun⟩ | ⟨ahead', m', hsteps, hlimit, hrun⟩
      · have hnow := hrun m.maxSteps budget
        rw [withLimit_of_eq rfl, withLimit_of_eq hlimit] at hnow
        rw [hnow]
        exact .inr ⟨1, (Lasts.stop hi hq hsteps hrun).congr hrest⟩
      · have hnow := hrun m.maxSteps budget
        rw [withLimit_of_eq rfl, withLimit_of_eq hlimit] at hnow
        rw [hnow]
        rcases ih ahead' m' with ⟨hcut, hcount⟩ | ⟨k, hk⟩
        · refine .inl ⟨hlimit ▸ hcut, ?_⟩
          omega
        · exact .inr ⟨k + 1, (hk.step hi hsteps hrun).congr hrest⟩

/-- A run on a machine of its own is cut short at its limit, or the steps that it takes are all that it needs. -/
theorem fresh_run_cases (r : Routine) {stackSize limit : Nat} (hq : (fresh stackSize limit).run r = q) :
    q.1 = .error (.stepLimit limit) ∧ q.2.steps = limit ∨
    (∀ n, q.1 ≠ .error (.stepLimit n)) ∧ ∀ n,
      (q.2.steps ≤ n → (fresh stackSize n).run r = (q.1, q.2.withLimit n)) ∧
      (n < q.2.steps → ((fresh stackSize n).run r).1 = .error (.stepLimit n)) := by
  cases hlabels : r.checkLabels with
  | error e =>
    -- nothing runs, so no limit is ever looked at
    have hrun (n : Nat) : (fresh stackSize n).run r = (.error (.badCode e), fresh stackSize n) := by rw [run, hlabels]
    rw [← hq, hrun]
    exact .inr ⟨by simp, fun n => ⟨fun _ => hrun n, fun hlt => absurd hlt (Nat.not_lt_zero n)⟩⟩
  | ok u =>
    have hrun (n : Nat) : (fresh stackSize n).run r = runFrom r n r.code ((fresh stackSize limit).withLimit n) := by
      rw [run, hlabels]
      rfl
    have hq' : runFrom r limit r.code (fresh stackSize limit) = q := (hrun limit).symm.trans hq
    have hcases := cut_or_lasts r limit r.code (fresh stackSize limit)
    rw [hq'] at hcases
    rcases hcases with ⟨hcut, hsteps⟩ | ⟨k, hk⟩
    · exact .inl ⟨hcut, hsteps.trans (Nat.zero_add limit)⟩
    · have hsteps : q.2.steps = k := hk.steps.trans (Nat.zero_add k)
      refine .inr ⟨hk.uncut, fun n => ?_⟩
      rw [hsteps, hrun]
      exact ⟨hk.enough n n, hk.short n n⟩

/-- Every run ends. On a machine of its own, a run that ends by itself after `k` instructions ends in the same way, with
the same registers, memory and flags, under every limit of at least `k`. Under a smaller one it is cut short when it has
executed as many instructions as that, and no run is cut short before. -/
theorem run_limit (r : Routine) :
    (∀ m : Machine, ∃ k, m.EndsAfter r k (m.run r)) ∧
    ∀ stackSize limit k q, (fresh stackSize limit).EndsAfter r k q →
      (∀ n, q.1 = .error (.stepLimit n) → n = limit ∧ k = limit) ∧
      ((∀ n, q.1 ≠ .error (.stepLimit n)) → ∀ limit',
        (k ≤ limit' → (fresh stackSize limit').EndsAfter r k (q.1, q.2.withLimit limit')) ∧
        (limit' < k → ∃ m', (fresh stackSize limit').EndsAfter r limit' (.error (.stepLimit limit'), m'))) := by
  refine ⟨fun m => ?_, fun stackSize limit k q hends => ?_⟩
  · obtain ⟨n, hended⟩ := r.exists_ended (r.start m)
    rw [r.outcome_start] at hended
    exact ⟨_, n, hended, rfl⟩
  · obtain ⟨hq, hsteps⟩ := endsAfter_iff.mp hends
    have hk : q.2.steps = k := hsteps.trans (Nat.zero_add k)
    rcases fresh_run_cases r hq with ⟨hcut, hlimit⟩ | ⟨huncut, hothers⟩
    · refine ⟨fun n hn => ?_, fun huncut => absurd hcut (huncut limit)⟩
      cases hcut.symm.trans hn
      exact ⟨rfl, hk.symm.trans hlimit⟩
    · refine ⟨fun n hn => absurd hn (huncut n), fun _ limit' => ⟨fun hle => ?_, fun hlt => ?_⟩⟩
      · exact endsAfter_iff.mpr ⟨(hothers limit').1 (hk ▸ hle), hsteps⟩
      · have hcut := (hothers limit').2 (hk ▸ hlt)
        rcases fresh_run_cases r (rfl : (fresh stackSize limit').run r = _) with ⟨-, hlimit⟩ | ⟨huncut, -⟩
        · exact ⟨_, endsAfter_iff.mpr ⟨Prod.ext hcut rfl, hlimit.trans (Nat.zero_add limit').symm⟩⟩
        · exact absurd hcut (huncut limit')

/-- Two labels in a row and a jump to a label that is not bound: two steps are needed for the fault, and enough. -/
theorem run_limit_unbound : ∃ (r : Routine) (m : Machine),
    (fresh 64 9).EndsAfter r 2 (.error (.unboundLabel ⟨7⟩), m) ∧
    (fresh 64 2).EndsAfter r 2 (.error (.unboundLabel ⟨7⟩), m.withLimit 2) ∧
    ∃ m', (fresh 64 1).EndsAfter r 1 (.error (.stepLimit 1), m') := by
  let r : Routine := { name := "main", code := [.label ⟨0⟩, .label ⟨1⟩, .li .t0 1, .jump ⟨7⟩] }
  have h : (fresh 64 9).EndsAfter r 2 (.error (.unboundLabel ⟨7⟩), _) := ⟨4, rfl, rfl⟩
  have hlimits := ((run_limit r).2 64 9 2 _ h).2 (by simp)
  exact ⟨r, _, h, (hlimits 2).1 (by decide), (hlimits 1).2 (by decide)⟩

end Machine
end Comparand
