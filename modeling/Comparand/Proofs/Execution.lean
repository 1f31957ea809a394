import Comparand.Proofs.Result
import Comparand.Riscv.Run

/-! Stretches of a run: code that is left behind after a known number of steps, whatever budget remains. -/
namespace Comparand

namespace Machine

variable {m m' : Machine} {r s : IntReg} {f g : FloatReg} {v : UInt64}

@[simp] theorem int_zero (m : Machine) : m.int .zero = 0 := if_pos rfl

@[simp] theorem int_setInt_self (h : r ≠ .zero) : (m.setInt r v).int r = v := by
  rw [int, if_neg h, setInt, if_neg h]
  exact Vector.getElem_set_self r.index_lt

@[simp] theorem int_setInt_of_ne (h : s ≠ r) : (m.setInt r v).int s = m.int s := by
  have hi : (r.index : Nat) ≠ s.index := by
    intro he
    apply h
    cases r
    cases s
    simp_all [Fin.ext_iff]
  unfold setInt
  split
  · rfl
  · unfold int
    split
    · rfl
    · exact Vector.getElem_set_ne r.index_lt s.index_lt hi

@[simp] theorem float_setInt : (m.setInt r v).float f = m.float f := by
  unfold setInt
  split <;> rfl

@[simp] theorem memory_setInt : (m.setInt r v).memory = m.memory := by
  unfold setInt
  split <;> rfl

@[simp] theorem fflags_setInt : (m.setInt r v).fflags = m.fflags := by
  unfold setInt
  split <;> rfl

@[simp] theorem steps_setInt : (m.setInt r v).steps = m.steps := by
  unfold setInt
  split <;> rfl

@[simp] theorem int_setFloat : (m.setFloat f v).int r = m.int r := rfl
@[simp] theorem memory_setFloat : (m.setFloat f v).memory = m.memory := rfl
@[simp] theorem fflags_setFloat : (m.setFloat f v).fflags = m.fflags := rfl
@[simp] theorem steps_setFloat : (m.setFloat f v).steps = m.steps := rfl

@[simp] theorem float_setFloat_self : (m.setFloat f v).float f = v := by
  exact Vector.getElem_set_self f.index_lt

@[simp] theorem float_setFloat_of_ne (h : g ≠ f) : (m.setFloat f v).float g = m.float g := by
  have hi : (f.index : Nat) ≠ g.index := by
    intro he
    apply h
    cases f
    cases g
    simp_all [Fin.ext_iff]
  exact Vector.getElem_set_ne f.index_lt g.index_lt hi

@[simp] theorem int_raiseIf (b : Bool) : (m.raiseIf b).int r = m.int r := by cases b <;> rfl
@[simp] theorem float_raiseIf (b : Bool) : (m.raiseIf b).float f = m.float f := by cases b <;> rfl
@[simp] theorem memory_raiseIf (b : Bool) : (m.raiseIf b).memory = m.memory := by cases b <;> rfl
@[simp] theorem steps_raiseIf (b : Bool) : (m.raiseIf b).steps = m.steps := by cases b <;> rfl

/-- The machine with one more instruction on its count. -/
def tick (m : Machine) : Machine := { m with steps := m.steps + 1 }

@[simp] theorem int_tick : m.tick.int r = m.int r := rfl
@[simp] theorem float_tick : m.tick.float f = m.float f := rfl
@[simp] theorem memory_tick : m.tick.memory = m.memory := rfl
@[simp] theorem fflags_tick : m.tick.fflags = m.fflags := rfl
@[simp] theorem steps_tick : m.tick.steps = m.steps + 1 := rfl

/-- An instruction leaves the count of steps to the run, and only comparisons touch the flags. -/
theorem exec_counters {i : Instr} {c : Control} (h : m.exec i = .ok (m', c)) :
    m'.steps = m.steps ∧ (i.isFloatCompare = false → m'.fflags = m.fflags) := by
  cases i with
  | li | addi | xori | and | or | branch | jump | label =>
    cases h
    simp
  | fcmp =>
    cases h
    simp [Instr.isFloatCompare]
  | ld | sd =>
    obtain ⟨_, _, he⟩ := ok_of_map h
    cases he
    simp
  | fload w | fstore w =>
    cases w <;>
    · obtain ⟨_, _, he⟩ := ok_of_map h
      cases he
      simp [setSingle]
  | fmv w =>
    cases w <;>
    · cases h
      simp [setSingle]
  | ecall =>
    simp only [exec] at h
    split at h <;> cases h
    simp

end Machine

/-- What a stretch of a run takes: its steps, and whether it raises the invalid flag. -/
@[ext]
structure Cost where
  steps : Nat
  invalid : Bool
deriving DecidableEq

namespace Cost

instance : Zero Cost := ⟨⟨0, false⟩⟩
instance : Add Cost := ⟨fun a b => ⟨a.steps + b.steps, a.invalid || b.invalid⟩⟩

/-- Nothing is dearer, and no flag is raised that the other does not raise. -/
def AtMost (a b : Cost) : Prop := a.steps ≤ b.steps ∧ (a.invalid → b.invalid)

/-- The flags after a stretch. -/
def flags (c : Cost) (fflags : UInt8) : UInt8 := if c.invalid then fflags ||| invalidFlag else fflags

variable {a b c d : Cost}

@[simp] theorem steps_zero : (0 : Cost).steps = 0 := rfl
@[simp] theorem invalid_zero : (0 : Cost).invalid = false := rfl
@[simp] theorem mk_add_mk (n k : Nat) (i j : Bool) : (⟨n, i⟩ + ⟨k, j⟩ : Cost) = ⟨n + k, i || j⟩ := rfl
@[simp] theorem steps_add : (a + b).steps = a.steps + b.steps := rfl
@[simp] theorem invalid_add : (a + b).invalid = (a.invalid || b.invalid) := rfl

@[simp] theorem zero_add : 0 + a = a := by ext <;> simp

@[simp] theorem add_zero : a + 0 = a := by ext <;> simp

theorem flags_add (f : UInt8) : (a + b).flags f = b.flags (a.flags f) := by
  cases ha : a.invalid <;> cases hb : b.invalid <;> simp [flags, ha, hb, UInt8.or_assoc]

theorem AtMost.refl (a : Cost) : a.AtMost a := ⟨Nat.le_refl _, id⟩

theorem AtMost.trans (hab : a.AtMost b) (hbc : b.AtMost c) : a.AtMost c :=
  ⟨Nat.le_trans hab.1 hbc.1, fun ha => hbc.2 (hab.2 ha)⟩

theorem AtMost.zero (a : Cost) : AtMost 0 a := ⟨Nat.zero_le _, nofun⟩

theorem AtMost.add (hab : a.AtMost b) (hcd : c.AtMost d) : (a + c).AtMost (b + d) := by
  refine ⟨Nat.add_le_add hab.1 hcd.1, ?_⟩
  simp only [invalid_add, Bool.or_eq_true]
  rintro (h | h)
  · exact .inl (hab.2 h)
  · exact .inr (hcd.2 h)

theorem AtMost.of_add_left (a b : Cost) : b.AtMost (a + b) := by
  have := (AtMost.zero a).add (.refl b)
  rwa [zero_add] at this

theorem AtMost.of_add_right (a b : Cost) : a.AtMost (a + b) := by
  have := (AtMost.refl a).add (.zero b)
  rwa [add_zero] at this

end Cost

namespace Machine

variable {p : Routine} {m m' m'' : Machine} {ahead ahead' rest : List Instr} {i : Instr} {c c' : Cost} {l : Label}

theorem runFrom_label (budget : Nat) :
    runFrom p budget (.label l :: rest) m = runFrom p budget rest m := by
  rw [runFrom, runFrom, List.dropWhile_cons_of_pos rfl]

/-- A run that has jumped to a label. -/
def runAt (p : Routine) (budget : Nat) (l : Label) (m : Machine) : Except Fault Exit × Machine :=
  match p.codeAt? l with
  | some ahead => runFrom p budget ahead m
  | none => (.error (.unboundLabel l), m)

theorem runFrom_zero (hi : i.isLabel = false) : runFrom p 0 (i :: rest) m = (.error (.stepLimit m.maxSteps), m) := by
  rw [runFrom, List.dropWhile_cons_of_neg (by simp [hi])]

theorem runFrom_cons (hi : i.isLabel = false) (budget : Nat) :
    runFrom p (budget + 1) (i :: rest) m =
      match m.tick.exec i with
      | .error fault => (.error fault, m.tick)
      | .ok (m, .halt) => (.ok m.exit, m)
      | .ok (m, .next) => runFrom p budget rest m
      | .ok (m, .goto l) => runAt p budget l m := by
  rw [runFrom, List.dropWhile_cons_of_neg (by simp [hi])]
  rfl

theorem runFrom_next (hi : i.isLabel = false) (h : m.tick.exec i = .ok (m', .next)) (budget : Nat) :
    runFrom p (budget + 1) (i :: rest) m = runFrom p budget rest m' := by
  rw [runFrom_cons hi, h]

theorem runFrom_goto (hi : i.isLabel = false) (h : m.tick.exec i = .ok (m', .goto l)) (budget : Nat) :
    runFrom p (budget + 1) (i :: rest) m = runAt p budget l m' := by
  rw [runFrom_cons hi, h]

theorem runFrom_halt (hi : i.isLabel = false) (h : m.tick.exec i = .ok (m', .halt)) (budget : Nat) :
    runFrom p (budget + 1) (i :: rest) m = (.ok m'.exit, m') := by
  rw [runFrom_cons hi, h]

/-- The run from `ahead` gets to `ahead'` at a cost, and then goes on with whatever budget is left. -/
structure Reaches (p : Routine) (ahead : List Instr) (m : Machine) (c : Cost) (ahead' : List Instr) (m' : Machine) :
    Prop where
  run : ∀ budget, runFrom p (c.steps + budget) ahead m = runFrom p budget ahead' m'
  steps : m'.steps = m.steps + c.steps
  flags : m'.fflags = c.flags m.fflags

/-- The run from `ahead` ends the program at a cost. -/
structure Exits (p : Routine) (ahead : List Instr) (m : Machine) (c : Cost) (m' : Machine) : Prop where
  run : ∀ budget, runFrom p (c.steps + budget) ahead m = (.ok m'.exit, m')
  steps : m'.steps = m.steps + c.steps
  flags : m'.fflags = c.flags m.fflags

theorem Reaches.refl (p : Routine) (ahead : List Instr) (m : Machine) : Reaches p ahead m 0 ahead m :=
  ⟨fun budget => by rw [Cost.steps_zero, Nat.zero_add], rfl, rfl⟩

theorem Reaches.trans (h : Reaches p ahead m c ahead' m') (h' : Reaches p ahead' m' c' rest m'') :
    Reaches p ahead m (c + c') rest m'' := by
  refine ⟨fun budget => ?_, ?_, ?_⟩
  · rw [Cost.steps_add, Nat.add_assoc, h.run, h'.run]
  · rw [h'.steps, h.steps, Cost.steps_add, Nat.add_assoc]
  · rw [h'.flags, h.flags, Cost.flags_add]

theorem Reaches.exits (h : Reaches p ahead m c ahead' m') (h' : Exits p ahead' m' c' m'') :
    Exits p ahead m (c + c') m'' := by
  refine ⟨fun budget => ?_, ?_, ?_⟩
  · rw [Cost.steps_add, Nat.add_assoc, h.run, h'.run]
  · rw [h'.steps, h.steps, Cost.steps_add, Nat.add_assoc]
  · rw [h'.flags, h.flags, Cost.flags_add]

theorem Reaches.label : Reaches p (.label l :: rest) m 0 rest m :=
  ⟨fun budget => by rw [Cost.steps_zero, Nat.zero_add, runFrom_label], rfl, rfl⟩

theorem Reaches.next (hi : i.isLabel = false) (hc : i.isFloatCompare = false)
    (h : m.tick.exec i = .ok (m', .next)) : Reaches p (i :: rest) m ⟨1, false⟩ rest m' := by
  obtain ⟨hsteps, hflags⟩ := exec_counters h
  exact ⟨fun budget => by rw [Nat.add_comm, runFrom_next hi h], hsteps, hflags hc⟩

theorem Reaches.compare {test : FloatTest} {w : Width} {rd : IntReg} {f g : FloatReg} :
    Reaches p (.fcmp test w rd f g :: rest) m ⟨1, test.isInvalid (m.inspect w f g)⟩ rest
      ((m.tick.raiseIf (test.isInvalid (m.inspect w f g))).setInt rd
        (if test.holdsOf (m.inspect w f g).order then 1 else 0)) := by
  refine ⟨fun budget => ?_, by simp, ?_⟩
  · rw [Nat.add_comm]
    exact runFrom_next rfl rfl budget
  · cases h : test.isInvalid (m.inspect w f g) <;> simp [raiseIf, Cost.flags]

/-- The run from `ahead` gets at a cost to where a label is bound. -/
structure Jumps (p : Routine) (ahead : List Instr) (m : Machine) (c : Cost) (l : Label) (m' : Machine) : Prop where
  run : ∀ budget, runFrom p (c.steps + budget) ahead m = runAt p budget l m'
  steps : m'.steps = m.steps + c.steps
  flags : m'.fflags = c.flags m.fflags

theorem Jumps.goto (hi : i.isLabel = false) (hc : i.isFloatCompare = false)
    (h : m.tick.exec i = .ok (m', .goto l)) : Jumps p (i :: rest) m ⟨1, false⟩ l m' := by
  obtain ⟨hsteps, hflags⟩ := exec_counters h
  exact ⟨fun budget => by rw [Nat.add_comm, runFrom_goto hi h], hsteps, hflags hc⟩

theorem Reaches.jumps (h : Reaches p ahead m c ahead' m') (h' : Jumps p ahead' m' c' l m'') :
    Jumps p ahead m (c + c') l m'' := by
  refine ⟨fun budget => ?_, ?_, ?_⟩
  · rw [Cost.steps_add, Nat.add_assoc, h.run, h'.run]
  · rw [h'.steps, h.steps, Cost.steps_add, Nat.add_assoc]
  · rw [h'.flags, h.flags, Cost.flags_add]

theorem Jumps.reaches (h : Jumps p ahead m c l m') (hl : p.codeAt? l = some ahead') :
    Reaches p ahead m c ahead' m' :=
  ⟨fun budget => by rw [h.run, runAt, hl], h.steps, h.flags⟩

theorem Exits.ecall (h : m.int .a7 = exitCall) : Exits p (.ecall :: rest) m ⟨1, false⟩ m.tick := by
  have hexec : m.tick.exec .ecall = .ok (m.tick, .halt) := by simp [exec, h]
  exact ⟨fun budget => by rw [Nat.add_comm, runFrom_halt rfl hexec], rfl, rfl⟩

theorem runFrom_dropWhile (budget : Nat) :
    runFrom p budget ahead m = runFrom p budget (ahead.dropWhile Instr.isLabel) m := by
  induction ahead with
  | nil => rfl
  | cons i rest ih =>
    cases hi : i.isLabel with
    | false => rw [List.dropWhile_cons_of_neg (by simp [hi])]
    | true =>
      rw [List.dropWhile_cons_of_pos hi, ← ih]
      cases i with
      | label l => exact runFrom_label budget
      | _ => cases hi

/-- A run that ends the program does so within its budget, and a greater one changes nothing. -/
theorem runFrom_ok {e : Exit} {budget : Nat} (h : runFrom p budget ahead m = (.ok e, m')) :
    e.steps ≤ m.steps + budget ∧ ∀ more, runFrom p (budget + more) ahead m = (.ok e, m') := by
  induction budget generalizing ahead m with
  | zero =>
    rw [runFrom] at h
    split at h <;> cases h
  | succ budget ih =>
    -- the induction hypothesis, with the step that was made on its count
    have later {ahead : List Instr} {m₁ : Machine} (hs : m₁.steps = m.steps + 1)
        (h : runFrom p budget ahead m₁ = (.ok e, m')) :
        e.steps ≤ m.steps + (budget + 1) ∧ ∀ more, runFrom p (budget + more) ahead m₁ = (.ok e, m') := by
      obtain ⟨hle, hmore⟩ := ih h
      exact ⟨by omega, hmore⟩
    have hne : ahead.dropWhile Instr.isLabel ≠ [] := by
      intro hnil
      rw [runFrom, hnil] at h
      cases h
    obtain ⟨i, rest, hdrop⟩ := List.exists_cons_of_ne_nil hne
    have hi : i.isLabel = false := by
      have := List.head_dropWhile_not Instr.isLabel hne
      simpa only [hdrop, List.head_cons] using this
    rw [runFrom_dropWhile, hdrop, runFrom_cons hi] at h
    have hgoal (more : Nat) : runFrom p (budget + 1 + more) ahead m =
        runFrom p (budget + more + 1) (i :: rest) m := by
      rw [runFrom_dropWhile, hdrop, Nat.add_right_comm]
    simp only [hgoal, runFrom_cons hi]
    cases hexec : m.tick.exec i with
    | error fault => simp [hexec] at h
    | ok q =>
      obtain ⟨m₁, control⟩ := q
      have hs := (exec_counters hexec).1
      rw [hexec] at h
      cases control with
      | next => exact later hs h
      | halt =>
        cases h
        exact ⟨by simp [exit, hs], fun _ => rfl⟩
      | goto l =>
        simp only [runAt] at h ⊢
        cases hl : p.codeAt? l with
        | none => simp [hl] at h
        | some ahead =>
          rw [hl] at h
          exact later hs h

end Machine

namespace Routine

variable {p : Routine} {code rest : List Instr} {l : Label}

theorem boundLabels_append (a b : List Instr) : boundLabels (a ++ b) = boundLabels a ++ boundLabels b :=
  List.filterMap_append

theorem mem_boundLabels : l ∈ boundLabels code ↔ .label l ∈ code := by
  rw [boundLabels, List.mem_filterMap]
  constructor
  · rintro ⟨i, hi, hl⟩
    cases i <;> simp_all
  · exact fun h => ⟨_, h, rfl⟩

@[simp] theorem boundLabels_label : boundLabels (.label l :: rest) = l :: boundLabels rest := rfl

@[simp] theorem boundLabels_of_all (h : code.all (!·.isLabel) = true) : boundLabels code = [] := by
  apply List.eq_nil_iff_forall_not_mem.mpr
  intro l hl
  simpa [Instr.isLabel] using List.all_eq_true.mp h _ (mem_boundLabels.mp hl)

/-- With no label bound twice, a label leads to the only place where it stands. -/
theorem codeAt?_of_suffix (hp : (boundLabels p.code).Nodup) (h : .label l :: rest <:+ p.code) :
    p.codeAt? l = some (.label l :: rest) := by
  obtain ⟨before, hcode⟩ := h
  have hfirst : .label l ∉ before := by
    rw [← hcode, boundLabels_append] at hp
    intro hmem
    exact (List.nodup_append.mp hp).2.2 l (mem_boundLabels.mpr hmem) l (by simp [boundLabels]) rfl
  have hposition : p.position? l = some before.length := by
    rw [position?, ← hcode]
    clear hcode hp
    induction before with
    | nil => simp [List.idxOf?_cons]
    | cons i before ih =>
      simp only [List.mem_cons, not_or] at hfirst
      have hne : (i == .label l) = false := by simpa using Ne.symm hfirst.1
      rw [List.cons_append, List.idxOf?_cons, hne, ih hfirst.2]
      simp
  rw [codeAt?, hposition, Option.map_some, ← hcode, List.drop_left]

theorem firstRepeated?_eq_none {α : Type} [DecidableEq α] {seen as : List α} (h : as.Nodup)
    (hseen : ∀ a ∈ as, a ∉ seen) : firstRepeated? seen as = none := by
  induction as generalizing seen with
  | nil => rfl
  | cons a as ih =>
    obtain ⟨ha, has⟩ := List.nodup_cons.mp h
    rw [firstRepeated?, if_neg (hseen a (by simp))]
    apply ih has
    intro b hb
    have hne : b ≠ a := fun he => ha (he ▸ hb)
    simp [hne, hseen b (by simp [hb])]

theorem checkLabels_of_nodup (hp : (boundLabels p.code).Nodup) : p.checkLabels = .ok () := by
  rw [checkLabels, firstRepeated?_eq_none hp (by simp)]

end Routine
end Comparand
