import Comparand.Proofs.Safety

/-! Runs turn by turn. In each turn a run passes a label, executes an instruction or ends. A run has finitely many turns
whatever its routine does, and the machine counts the instructions that they execute. -/
namespace Comparand

/-- How far a run has come: to a position in the code, or to its end. -/
inductive Progress where
  | going (position : Nat) (m : Machine)
  | ended (q : Except Fault Exit × Machine)

/-- The machine as the run has left it. -/
def Progress.machine : Progress → Machine
  | going _ m => m
  | ended q => q.2

namespace Routine

/-- The start of a run. -/
def start (r : Routine) (m : Machine) : Progress :=
  match r.checkLabels with
  | .error e => .ended (.error (.badCode e), m)
  | .ok () => .going 0 m

/-- Where a run comes to after an instruction. -/
def resume (r : Routine) (position : Nat) (m : Machine) : Control → Progress
  | .next => .going (position + 1) m
  | .halt => .ended (.ok m.exit, m)
  | .goto l =>
    match r.position? l with
    | some target => .going target m
    | none => .ended (.error (.unboundLabel l), m)

/-- One turn of a run. -/
def advance (r : Routine) : Progress → Progress
  | .ended q => .ended q
  | .going position m =>
    match r.code[position]? with
    | none => .ended (.error (.fellOffEnd r.name), m)
    | some i =>
      if i.isLabel then .going (position + 1) m
      else if m.maxSteps ≤ m.steps then .ended (.error (.stepLimit m.maxSteps), m)
      else
        match m.tick.exec i with
        | .error fault => .ended (.error fault, m.tick)
        | .ok (m', c) => r.resume position m' c

/-- The instruction that the next turn executes, if it executes one. -/
def executes? (r : Routine) : Progress → Option Instr
  | .ended _ => none
  | .going position m => r.code[position]?.filter fun i => !i.isLabel && decide (m.steps < m.maxSteps)

/-- The instructions that the next turns execute. -/
def executed (r : Routine) : Nat → Progress → List Instr
  | 0, _ => []
  | n + 1, s => (r.executes? s).toList ++ r.executed n (r.advance s)

/-- All that a turn can be, with what it executes and where it leads. -/
inductive Turn (r : Routine) (pc : Nat) (m : Machine) : Option Instr → Progress → Prop where
  | offEnd (hi : r.code[pc]? = none) : Turn r pc m none (.ended (.error (.fellOffEnd r.name), m))
  | label {l} (hi : r.code[pc]? = some (.label l)) : Turn r pc m none (.going (pc + 1) m)
  | limit {i} (hi : r.code[pc]? = some i) (hlabel : i.isLabel = false) (hm : m.maxSteps ≤ m.steps) :
      Turn r pc m none (.ended (.error (.stepLimit m.maxSteps), m))
  | fault {i fault} (hi : r.code[pc]? = some i) (hlabel : i.isLabel = false) (hm : m.steps < m.maxSteps)
      (hexec : m.tick.exec i = .error fault) : Turn r pc m (some i) (.ended (.error fault, m.tick))
  | effect {i m' c} (hi : r.code[pc]? = some i) (hlabel : i.isLabel = false) (hm : m.steps < m.maxSteps)
      (hexec : m.tick.exec i = .ok (m', c)) : Turn r pc m (some i) (r.resume pc m' c)

variable {r : Routine} {pc : Nat} {m m' : Machine} {c : Control} {s : Progress}

theorem exists_turn (r : Routine) (pc : Nat) (m : Machine) :
    ∃ e s, r.executes? (.going pc m) = e ∧ r.advance (.going pc m) = s ∧ r.Turn pc m e s := by
  refine ⟨_, _, rfl, rfl, ?_⟩
  simp only [executes?, advance]
  cases hi : r.code[pc]? with
  | none => exact .offEnd hi
  | some i =>
    cases hlabel : i.isLabel with
    | true =>
      cases i with
      | label l => exact .label hi
      | _ => cases hlabel
    | false =>
      by_cases hm : m.maxSteps ≤ m.steps
      · have hturn := Turn.limit hi hlabel hm
        simpa [hlabel, hm, Nat.not_lt.mpr hm] using hturn
      · have hlt : m.steps < m.maxSteps := Nat.not_le.mp hm
        cases hexec : m.tick.exec i with
        | error fault =>
          have hturn := Turn.fault hi hlabel hlt hexec
          simpa [hlabel, hm, hlt, hexec, Option.filter] using hturn
        | ok q =>
          have hturn := Turn.effect hi hlabel hlt hexec
          simpa [hlabel, hm, hlt, hexec, Option.filter] using hturn

@[simp] theorem machine_resume (r : Routine) (pc : Nat) (m : Machine) (c : Control) :
    (r.resume pc m c).machine = m := by
  cases c with
  | goto l =>
    rw [resume]
    split <;> rfl
  | _ => rfl

theorem steps_advance (r : Routine) (s : Progress) :
    (r.advance s).machine.steps = s.machine.steps + (r.executes? s).toList.length := by
  cases s with
  | ended q => rfl
  | going pc m =>
    obtain ⟨e, s, he, hs, hturn⟩ := r.exists_turn pc m
    rw [he, hs]
    cases hturn with
    | offEnd | label | limit | fault => rfl
    | effect hi hlabel hm hexec =>
      rw [machine_resume]
      exact (Machine.exec_counters hexec).1

theorem steps_iterate (r : Routine) (n : Nat) (s : Progress) :
    (r.advance^[n] s).machine.steps = s.machine.steps + (r.executed n s).length := by
  induction n generalizing s with
  | zero => rfl
  | succ n ih =>
    rw [Function.iterate_succ_apply, ih, steps_advance, executed, List.length_append, Nat.add_assoc]

/-- How the rest of a run ends. -/
def outcome (r : Routine) : Progress → Except Fault Exit × Machine
  | .ended q => q
  | .going position m => Machine.runFrom r (m.maxSteps - m.steps) (r.code.drop position) m

theorem outcome_start (r : Routine) (m : Machine) : r.outcome (r.start m) = m.run r := by
  unfold start Machine.run
  cases r.checkLabels <;> rfl

theorem outcome_resume (r : Routine) (pc : Nat) (m : Machine) (c : Control) :
    r.outcome (r.resume pc m c) =
      match c with
      | .halt => (.ok m.exit, m)
      | .next => Machine.runFrom r (m.maxSteps - m.steps) (r.code.drop (pc + 1)) m
      | .goto l => Machine.runAt r (m.maxSteps - m.steps) l m := by
  cases c with
  | halt | next => rfl
  | goto l =>
    change r.outcome (r.resume pc m (.goto l)) = Machine.runAt r (m.maxSteps - m.steps) l m
    rw [resume, Machine.runAt, codeAt?]
    cases r.position? l <;> rfl

theorem drop_eq_cons {i : Instr} (hi : r.code[pc]? = some i) : r.code.drop pc = i :: r.code.drop (pc + 1) := by
  obtain ⟨hlt, rfl⟩ := List.getElem?_eq_some_iff.mp hi
  exact List.drop_eq_getElem_cons hlt

/-- A run from any place makes one turn and goes on from there. -/
theorem outcome_advance (r : Routine) (s : Progress) : r.outcome (r.advance s) = r.outcome s := by
  cases s with
  | ended q => rfl
  | going pc m =>
    obtain ⟨e, s, -, hs, hturn⟩ := r.exists_turn pc m
    rw [hs]
    cases hturn with
    | offEnd hi =>
      have hnil : r.code.drop pc = [] := List.drop_eq_nil_of_le (List.getElem?_eq_none_iff.mp hi)
      rw [outcome, outcome, hnil, Machine.runFrom, List.dropWhile_nil]
    | label hi => rw [outcome, outcome, drop_eq_cons hi, Machine.runFrom_label]
    | limit hi hlabel hm =>
      rw [outcome, outcome, drop_eq_cons hi, Nat.sub_eq_zero_of_le hm, Machine.runFrom_zero hlabel]
    | fault hi hlabel hm hexec =>
      obtain ⟨budget, hbudget⟩ := Nat.exists_eq_add_of_lt hm
      have hleft : m.maxSteps - m.steps = budget + 1 := by omega
      rw [outcome, outcome, drop_eq_cons hi, hleft, Machine.runFrom_cons hlabel, hexec]
    | @effect i m' c hi hlabel hm hexec =>
      have hsteps : m'.steps = m.steps + 1 := (Machine.exec_counters hexec).1
      have hlimit : m'.maxSteps = m.maxSteps := (Machine.executes_of_exec hexec).limit
      have hleft : m.maxSteps - m.steps = (m'.maxSteps - m'.steps) + 1 := by omega
      rw [outcome_resume, outcome, drop_eq_cons hi, hleft, Machine.runFrom_cons hlabel, hexec]
      cases c <;> rfl

theorem outcome_iterate (r : Routine) (n : Nat) (s : Progress) : r.outcome (r.advance^[n] s) = r.outcome s := by
  induction n generalizing s with
  | zero => rfl
  | succ n ih => rw [Function.iterate_succ_apply, ih, outcome_advance]

/-- A bound on the turns that are left. Between two instructions a run passes no more labels than the code has, so a
step less is worth more than any change of position. -/
def turnsLeft (r : Routine) : Progress → Nat
  | .ended _ => 0
  | .going position m => (m.maxSteps - m.steps) * (r.code.length + 1) + (r.code.length - position) + 1

theorem turnsLeft_resume_le (r : Routine) (pc : Nat) (m : Machine) (c : Control) :
    r.turnsLeft (r.resume pc m c) ≤ (m.maxSteps - m.steps) * (r.code.length + 1) + r.code.length + 1 := by
  cases c with
  | halt => exact Nat.zero_le _
  | next =>
    rw [resume, turnsLeft]
    omega
  | goto l =>
    rw [resume]
    cases r.position? l with
    | none => exact Nat.zero_le _
    | some target =>
      rw [turnsLeft]
      omega

theorem turnsLeft_advance_lt (r : Routine) (pc : Nat) (m : Machine) :
    r.turnsLeft (r.advance (.going pc m)) < r.turnsLeft (.going pc m) := by
  obtain ⟨e, s, -, hs, hturn⟩ := r.exists_turn pc m
  rw [hs]
  cases hturn with
  | offEnd | limit | fault => exact Nat.succ_pos _
  | label hi =>
    have hlt : pc < r.code.length := (List.getElem?_eq_some_iff.mp hi).1
    simp only [turnsLeft]
    omega
  | @effect i m' c hi hlabel hm hexec =>
    have hlt : pc < r.code.length := (List.getElem?_eq_some_iff.mp hi).1
    have hsteps : m'.steps = m.steps + 1 := (Machine.exec_counters hexec).1
    have hlimit : m'.maxSteps = m.maxSteps := (Machine.executes_of_exec hexec).limit
    have hleft : m.maxSteps - m.steps = (m'.maxSteps - m'.steps) + 1 := by omega
    have hle := r.turnsLeft_resume_le pc m' c
    rw [turnsLeft, hleft, Nat.add_mul]
    omega

theorem iterate_of_turnsLeft_le {n : Nat} (h : r.turnsLeft s ≤ n) : r.advance^[n] s = .ended (r.outcome s) := by
  induction n generalizing s with
  | zero =>
    cases s with
    | ended q => rfl
    | going pc m => exact absurd h (Nat.not_succ_le_zero _)
  | succ n ih =>
    rw [Function.iterate_succ_apply]
    cases s with
    | ended q => exact ih (Nat.zero_le n)
    | going pc m =>
      have hlt := r.turnsLeft_advance_lt pc m
      rw [ih (by omega), outcome_advance]

/-- Every run ends after finitely many turns. -/
theorem exists_ended (r : Routine) (s : Progress) : ∃ n, r.advance^[n] s = .ended (r.outcome s) :=
  ⟨_, iterate_of_turnsLeft_le (Nat.le_refl (r.turnsLeft s))⟩

end Routine

/-- The run of a routine ends in this way after a number of instructions. -/
def Machine.EndsAfter (m : Machine) (r : Routine) (k : Nat) (q : Except Fault Exit × Machine) : Prop :=
  ∃ n, r.advance^[n] (r.start m) = .ended q ∧ (r.executed n (r.start m)).length = k

theorem Routine.machine_start (r : Routine) (m : Machine) : (r.start m).machine = m := by
  unfold start
  split <;> rfl

/-- The turns of a run end as the run does, and the machine counts what they execute. -/
theorem Machine.endsAfter_iff {m : Machine} {r : Routine} {k : Nat} {q : Except Fault Exit × Machine} :
    m.EndsAfter r k q ↔ m.run r = q ∧ q.2.steps = m.steps + k := by
  constructor
  · rintro ⟨n, hended, rfl⟩
    have hrun := r.outcome_iterate n (r.start m)
    have hsteps := r.steps_iterate n (r.start m)
    rw [hended] at hrun hsteps
    rw [r.outcome_start] at hrun
    rw [r.machine_start] at hsteps
    exact ⟨hrun.symm, hsteps⟩
  · rintro ⟨rfl, hk⟩
    obtain ⟨n, hended⟩ := r.exists_ended (r.start m)
    have hsteps := r.steps_iterate n (r.start m)
    rw [hended, r.outcome_start, r.machine_start] at hsteps
    refine ⟨n, hended.trans (by rw [r.outcome_start]), ?_⟩
    exact Nat.add_left_cancel (hsteps.symm.trans hk)

end Comparand
