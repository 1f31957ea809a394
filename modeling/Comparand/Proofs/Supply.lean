import Comparand.Proofs.Scratch

/-! What a lowering takes from its scratch: it runs out exactly if it needs more registers of a class than there are, and
it gives everything back, however it ends. -/
namespace Comparand

namespace Pool

variable {α : Type} {p p' p'' : Pool α} {r : α}

/-- Registers are taken and reserved, but the pool stays the same and no reservation is dropped. -/
structure Grown (p p' : Pool α) : Prop where
  regs : p'.regs = p.regs
  reserved : p.reserved <+: p'.reserved

theorem Grown.refl (p : Pool α) : p.Grown p := ⟨rfl, List.prefix_rfl⟩

theorem Grown.trans (h : p.Grown p') (h' : p'.Grown p'') : p.Grown p'' :=
  ⟨h'.regs.trans h.regs, h.reserved.trans h'.reserved⟩

theorem grown_reserve (p : Pool α) (r : α) : p.Grown (p.reserve r) := ⟨rfl, List.prefix_append ..⟩

/-- Reservations are added at the end, so their number is enough to find the old ones. -/
theorem Grown.reset (h : p.Grown p') : p'.reset p.mark = p := by
  have htake : p'.reserved.take p.reserved.length = p.reserved := (List.prefix_iff_eq_take.mp h.reserved).symm
  simp only [Pool.reset, mark, htake, h.regs]

variable [DecidableEq α]

/-- The registers that a pool can still hand out, in the order in which it will. -/
def free (p : Pool α) : List α := p.remaining.filter (· ∉ p.reserved)

theorem grown_alloc {q : Option α} (h : p.alloc = (q, p')) : p.Grown p' := by
  cases h
  exact ⟨rfl, List.prefix_rfl⟩

theorem filter_of_scan_none {reserved rs : List α} {n k : Nat} (h : scan reserved rs n = (none, k)) :
    rs.filter (· ∉ reserved) = [] := by
  induction rs generalizing n with
  | nil => rfl
  | cons a rs ih =>
    rw [scan] at h
    split at h
    case isTrue ha => rw [List.filter_cons_of_neg (by simpa using ha), ih h]
    case isFalse ha => cases h

theorem free_of_alloc_none (h : p.alloc = (none, p')) : p.free = [] := by
  rw [alloc] at h
  generalize hscan : scan p.reserved (p.regs.drop p.used) p.used = q at h
  obtain ⟨found, used⟩ := q
  cases h
  exact filter_of_scan_none hscan

theorem free_of_alloc_some (h : p.alloc = (some r, p')) : p.free = r :: p'.free := by
  obtain ⟨hfree, hreserved, skipped, hremaining, hskipped⟩ := alloc_some h
  have hnone : skipped.filter (· ∉ p.reserved) = [] := by simpa using hskipped
  rw [free, free, hremaining, hreserved, List.filter_append, hnone, List.nil_append,
    List.filter_cons_of_pos (by simpa using hfree)]

end Pool

namespace Scratch

variable {s s' s'' : Scratch}

/-- Both pools have only been drawn from and reserved in. -/
structure Grown (s s' : Scratch) : Prop where
  ints : s.ints.Grown s'.ints
  floats : s.floats.Grown s'.floats

theorem Grown.refl (s : Scratch) : s.Grown s := ⟨.refl _, .refl _⟩

theorem Grown.trans (h : s.Grown s') (h' : s'.Grown s'') : s.Grown s'' :=
  ⟨h.ints.trans h'.ints, h.floats.trans h'.floats⟩

theorem Grown.reset (h : s.Grown s') : s'.reset s.mark = s := by
  rw [Scratch.reset, mark, h.ints.reset, h.floats.reset]

/-- How many registers of a class are there to be drawn. -/
def supply (s : Scratch) : RegisterClass → Nat
  | .integer => s.ints.free.length
  | .float => s.floats.free.length

end Scratch

namespace Drawing

variable {α β : Type} {x : Drawing α} {f : α → Drawing β} {need need' : RegisterClass → Nat}

/-- The step takes so many registers of each class, and fails only for a class that has fewer. In both cases it does no
more to the scratch than draw and reserve. -/
structure Takes (x : Drawing α) (need : RegisterClass → Nat) : Prop where
  ok : ∀ ⦃s a s'⦄, Yields x s a s' → ∀ cls, s'.supply cls + need cls = s.supply cls
  error : ∀ ⦃s e s'⦄, Fails x s e s' → ∃ cls, e = .scratchExhausted cls ∧ s.supply cls < need cls
  grown : ∀ ⦃s q s'⦄, x.run.run s = (q, s') → s.Grown s'

theorem Takes.congr (h : Takes x need) (hneed : ∀ cls, need cls = need' cls) : Takes x need' := by
  have he : need = need' := funext hneed
  exact he ▸ h

theorem Takes.pure (a : α) : Takes (pure a) fun _ => 0 := by
  refine ⟨fun s a' s' h cls => ?_, fun s e s' h => ?_, fun s q s' h => ?_⟩
  · obtain ⟨-, rfl⟩ := yields_pure h
    rfl
  · cases h
  · cases h
    exact .refl s

theorem Takes.bind (hx : Takes x need) (hf : ∀ a, Takes (f a) need') :
    Takes (x >>= f) fun cls => need cls + need' cls := by
  refine ⟨fun s b s'' h cls => ?_, fun s e s'' h => ?_, fun s q s'' h => ?_⟩
  · obtain ⟨a, s', hfirst, hsecond⟩ := yields_bind h
    have := hx.ok hfirst cls
    have := (hf a).ok hsecond cls
    omega
  · rcases run_bind_cases h with ⟨e', he', hfirst⟩ | ⟨a, s', hfirst, hsecond⟩
    · cases he'
      obtain ⟨cls, he, hlt⟩ := hx.error hfirst
      exact ⟨cls, he, by omega⟩
    · obtain ⟨cls, he, hlt⟩ := (hf a).error hsecond
      have := hx.ok hfirst cls
      exact ⟨cls, he, by omega⟩
  · rcases run_bind_cases h with ⟨e, -, hfirst⟩ | ⟨a, s', hfirst, hsecond⟩
    · exact hx.grown hfirst
    · exact (hx.grown hfirst).trans ((hf a).grown hsecond)

theorem takes_int : Takes int fun | .integer => 1 | .float => 0 := by
  refine ⟨fun s r s' h cls => ?_, fun s e s' h => ?_, fun s q s' h => ?_⟩
  all_goals
    change s.allocInt = _ at h
    rw [Scratch.allocInt] at h
    generalize halloc : s.ints.alloc = q at h
    obtain ⟨drawn, ints⟩ := q
    cases drawn <;> cases h
  · cases cls with
    | integer => simp [Scratch.supply, Pool.free_of_alloc_some halloc]
    | float => rfl
  · exact ⟨.integer, rfl, by simp [Scratch.supply, Pool.free_of_alloc_none halloc]⟩
  all_goals exact ⟨Pool.grown_alloc halloc, .refl _⟩

theorem takes_float : Takes float fun | .integer => 0 | .float => 1 := by
  refine ⟨fun s r s' h cls => ?_, fun s e s' h => ?_, fun s q s' h => ?_⟩
  all_goals
    change s.allocFloat = _ at h
    rw [Scratch.allocFloat] at h
    generalize halloc : s.floats.alloc = q at h
    obtain ⟨drawn, floats⟩ := q
    cases drawn <;> cases h
  · cases cls with
    | integer => rfl
    | float => simp [Scratch.supply, Pool.free_of_alloc_some halloc]
  · exact ⟨.float, rfl, by simp [Scratch.supply, Pool.free_of_alloc_none halloc]⟩
  all_goals exact ⟨.refl _, Pool.grown_alloc halloc⟩

end Drawing

def Place.isRegister : Place → Bool
  | register _ => true
  | _ => false

def Place.isConstant : Place → Bool
  | constant _ => true
  | _ => false

/-- How many registers of a class a lowering needs: an integer register for each constant, for the answer that decides a
branch and for the answer of a second comparison; a float register for each operand that is in none, where two operands
in one slot share theirs. -/
def Condition.need (c : Condition) (lhs rhs : Operand) (dest : Destination) : RegisterClass → Nat
  | .integer =>
    [lhs, rhs].countP (·.place.isConstant) + (match dest with | .value _ => 0 | .branch .. => 1) +
      (if c.recipe.probes.length = 2 then 1 else 0)
  | .float =>
    match lhs.place, rhs.place with
    | .slot a, .slot b => if a = b then 1 else 2
    | p, q => [p, q].countP (!·.isRegister)

/-- How many registers of a class a lowering may take: those that are left and not reserved, less the register of the
destination and those of the operands. -/
def Scratch.available (s : Scratch) (lhs rhs : Operand) (dest : Destination) : RegisterClass → Nat
  | .integer => s.ints.free.countP (dest ≠ .value ·)
  | .float => s.floats.free.countP (.register · ∉ [lhs.place, rhs.place])

/-- What it takes to bring an operand into a register. -/
def Operand.need (o : Operand) : RegisterClass → Nat
  | .integer => if o.place.isConstant then 1 else 0
  | .float => if o.place.isRegister then 0 else 1

/-- What it takes to have a register for the answer. -/
def Destination.need : Destination → RegisterClass → Nat
  | .branch .., .integer => 1
  | _, _ => 0

/-- What the native comparisons take beyond the register of the answer. -/
def Recipe.need : Recipe → RegisterClass → Nat
  | .all .., .integer | .any .., .integer => 1
  | _, _ => 0

namespace Drawing

theorem takes_materialize (o : Operand) : Takes (materialize o) o.need := by
  obtain ⟨place, w⟩ := o
  cases place with
  | register r => exact (Takes.pure _).congr fun cls => by cases cls <;> rfl
  | slot s => exact (takes_float.bind fun _ => .pure _).congr fun cls => by cases cls <;> rfl
  | constant v =>
    exact (takes_int.bind fun _ => takes_float.bind fun _ => .pure _).congr fun cls => by cases cls <;> rfl

theorem takes_answer (dest : Destination) : Takes (answer dest) dest.need := by
  cases dest with
  | value rd => exact (Takes.pure rd).congr fun cls => by cases cls <;> rfl
  | branch yes no => exact takes_int.congr fun cls => by cases cls <;> rfl

theorem takes_decision (recipe : Recipe) (probe : Probe → IntReg → Instr) (rd : IntReg) :
    Takes (decision recipe probe rd) recipe.need := by
  cases recipe with
  | single q => exact (Takes.pure _).congr fun cls => by cases cls <;> rfl
  | all q₁ q₂ | any q₁ q₂ => exact (takes_int.bind fun _ => .pure _).congr fun cls => by cases cls <;> rfl

end Drawing

namespace Condition

variable {lhs rhs : Operand}

theorem grown_reservation (lhs rhs : Operand) (dest : Destination) (s : Scratch) :
    s.Grown (reservation lhs rhs dest s) := by
  have hoperand (s : Scratch) (o : Operand) :
      s.Grown (match o.place with | .register r => s.reserveFloat r | _ => s) := by
    split
    · exact ⟨.refl _, s.floats.grown_reserve _⟩
    · exact .refl s
  have hoperands := (hoperand s lhs).trans (hoperand _ rhs)
  cases dest with
  | value rd => exact hoperands.trans ⟨Pool.grown_reserve _ rd, .refl _⟩
  | branch yes no => exact hoperands

theorem supply_reservation (lhs rhs : Operand) (dest : Destination) (s : Scratch) (cls : RegisterClass) :
    (reservation lhs rhs dest s).supply cls = s.available lhs rhs dest cls := by
  obtain ⟨hints, hfloats⟩ := reservation_remaining lhs rhs dest s
  cases cls with
  | integer =>
    simp only [Scratch.supply, Scratch.available, Pool.free, hints, List.countP_eq_length_filter, List.filter_filter]
    congr 2
    funext r
    simp [mem_reserved_ints, Bool.and_comm]
  | float =>
    simp only [Scratch.supply, Scratch.available, Pool.free, hfloats, List.countP_eq_length_filter, List.filter_filter]
    congr 2
    funext f
    simp [mem_reserved_floats, Bool.and_comm, eq_comm]

/-- The needs of the steps add up; an operand that aliases the other one needs nothing of its own. -/
theorem need_eq (c : Condition) (lhs rhs : Operand) (dest : Destination) (cls : RegisterClass) :
    c.need lhs rhs dest cls =
      lhs.need cls + ((if lhs.aliases rhs then 0 else rhs.need cls) + (dest.need cls + c.recipe.need cls)) := by
  have hrecipe : (if c.recipe.probes.length = 2 then 1 else 0) = c.recipe.need .integer := by cases c <;> rfl
  have hdest : (match dest with | .value _ => 0 | .branch .. => 1) = dest.need .integer := by cases dest <;> rfl
  have hdest' : dest.need .float = 0 := by cases dest <;> rfl
  have hrecipe' : c.recipe.need .float = 0 := by cases c <;> rfl
  obtain ⟨place, w⟩ := lhs
  obtain ⟨place', w'⟩ := rhs
  cases cls with
  | integer =>
    simp only [need, hrecipe, hdest]
    cases place <;> cases place' <;> simp [Operand.need, Operand.aliases, Place.isConstant] <;> omega
  | float =>
    simp only [need, hrecipe', hdest']
    cases place <;> cases place' <;> simp [Operand.need, Operand.aliases, Place.isRegister]
    split <;> rfl

/-- Once the registers of operands and destination are reserved, a lowering takes what it needs. -/
theorem draw_eq (c : Condition) (lhs rhs : Operand) (dest : Destination) :
    ∃ body : Drawing (List Instr), c.draw lhs rhs dest = (do modify (reservation lhs rhs dest); body) ∧
      Drawing.Takes body (c.need lhs rhs dest) := by
  refine ⟨_, rfl, ?_⟩
  have hneed := c.need_eq lhs rhs dest
  -- the two cases differ only in what the right operand takes
  cases hal : lhs.aliases rhs with
  | true =>
    simp only [hal, if_true] at hneed ⊢
    exact ((Drawing.takes_materialize lhs).bind fun _ => (Drawing.Takes.pure _).bind fun _ =>
      (Drawing.takes_answer dest).bind fun rd => (Drawing.takes_decision c.recipe _ rd).bind fun _ => .pure _).congr
        fun cls => (hneed cls).symm
  | false =>
    simp only [hal, Bool.false_eq_true, if_false] at hneed ⊢
    exact ((Drawing.takes_materialize lhs).bind fun _ => (Drawing.takes_materialize rhs).bind fun _ =>
      (Drawing.takes_answer dest).bind fun rd => (Drawing.takes_decision c.recipe _ rd).bind fun _ => .pure _).congr
        fun cls => (hneed cls).symm

/-- A lowering of operands of one width has what it needs, or names a class of which it has less. -/
theorem lower_outcome (c : Condition) (hw : lhs.width = rhs.width) (dest : Destination) (s : Scratch) :
    ((∃ l, (c.lower lhs rhs dest s).1 = .ok l) ∧ ∀ cls, c.need lhs rhs dest cls ≤ s.available lhs rhs dest cls) ∨
    ∃ cls, (c.lower lhs rhs dest s).1 = .error (.scratchExhausted cls) ∧
      s.available lhs rhs dest cls < c.need lhs rhs dest cls := by
  obtain ⟨body, hdraw, htakes⟩ := c.draw_eq lhs rhs dest
  have hlower : (c.lower lhs rhs dest s).1 =
      (body.run.run (reservation lhs rhs dest s)).1.map fun code => ⟨code, dest, c⟩ := by
    rw [lower, if_pos hw, hdraw]
    rfl
  simp only [hlower, ← supply_reservation]
  generalize hrun : body.run.run (reservation lhs rhs dest s) = q
  obtain ⟨result, s'⟩ := q
  cases result with
  | ok code =>
    refine .inl ⟨⟨_, rfl⟩, fun cls => ?_⟩
    have := htakes.ok hrun cls
    omega
  | error e =>
    obtain ⟨cls, rfl, hlt⟩ := htakes.error hrun
    exact .inr ⟨cls, rfl, hlt⟩

/-- However it ends, a lowering leaves the scratch as it was. -/
theorem lower_snd (c : Condition) (lhs rhs : Operand) (dest : Destination) (s : Scratch) :
    (c.lower lhs rhs dest s).2 = s := by
  rw [lower]
  split
  · obtain ⟨body, hdraw, htakes⟩ := c.draw_eq lhs rhs dest
    have hbody : (reservation lhs rhs dest s).Grown (body.run.run (reservation lhs rhs dest s)).2 := htakes.grown rfl
    rw [hdraw]
    exact ((grown_reservation lhs rhs dest s).trans hbody).reset
  · rfl

theorem need_le (c : Condition) (lhs rhs : Operand) (dest : Destination) (cls : RegisterClass) :
    c.need lhs rhs dest cls ≤ 4 := by
  have hoperand (o : Operand) : o.need cls ≤ 1 := by
    cases cls <;> simp only [Operand.need] <;> split <;> omega
  have hdest : dest.need cls ≤ 1 := by
    cases dest <;> cases cls <;> simp [Destination.need]
  have hrecipe : c.recipe.need cls ≤ 1 := by
    cases c <;> cases cls <;> decide
  have := hoperand lhs
  have := hoperand rhs
  rw [need_eq]
  split <;> omega

end Condition

/-- A list without duplicates loses no more elements to some places than there are places. -/
theorem length_le_countP_notMem {α β : Type} [DecidableEq β] {p : α → β} (hp : p.Injective) {l : List α} (hl : l.Nodup)
    (places : List β) : l.length ≤ l.countP (p · ∉ places) + places.length := by
  -- the places of what is lost are all different
  have hlost : ((l.filter (p · ∈ places)).map p).length ≤ places.length := by
    apply List.Subperm.length_le
    apply ((hl.filter _).map hp).subperm
    intro b hb
    obtain ⟨a, ha, rfl⟩ := List.mem_map.mp hb
    simpa using (List.mem_filter.mp ha).2
  have hcount := List.length_eq_countP_add_countP (p · ∉ places) (l := l)
  simp only [decide_not, Bool.not_eq_true, Bool.not_eq_false', decide_eq_true_eq] at hcount hlost ⊢
  rw [List.length_map, ← List.countP_eq_length_filter] at hlost
  omega

/-- Operands and destination take away at most two registers of a class, if no register comes twice. -/
theorem Scratch.supply_le_available {s : Scratch} (hints : s.ints.free.Nodup) (hfloats : s.floats.free.Nodup)
    (lhs rhs : Operand) (dest : Destination) (cls : RegisterClass) :
    s.supply cls ≤ s.available lhs rhs dest cls + 2 := by
  cases cls with
  | integer =>
    have hcount := length_le_countP_notMem (p := Destination.value) (fun _ _ => Destination.value.inj) hints [dest]
    have hne : s.ints.free.countP (.value · ∉ [dest]) = s.ints.free.countP (dest ≠ .value ·) := by
      simp [eq_comm]
    rw [hne] at hcount
    exact Nat.le_succ_of_le hcount
  | float =>
    exact length_le_countP_notMem (p := Place.register) (fun _ _ => Place.register.inj) hfloats [lhs.place, rhs.place]

namespace Condition

variable {lhs rhs : Operand}

/-- A lowering of operands of one width succeeds exactly if no class of registers has fewer than it needs. If it fails,
it names such a class. With fresh scratch it never does. -/
theorem lower_isOk_iff_available (c : Condition) (hw : lhs.width = rhs.width) (dest : Destination) (s : Scratch) :
    ((∃ l, (c.lower lhs rhs dest s).1 = .ok l) ↔ ∀ cls, c.need lhs rhs dest cls ≤ s.available lhs rhs dest cls) ∧
    (∀ e, (c.lower lhs rhs dest s).1 = .error e →
      ∃ cls, e = .scratchExhausted cls ∧ s.available lhs rhs dest cls < c.need lhs rhs dest cls) ∧
    ∃ l, (c.lower lhs rhs dest {}).1 = .ok l := by
  refine ⟨⟨fun ⟨l, hl⟩ cls => ?_, fun henough => ?_⟩, fun e he => ?_, ?_⟩
  · rcases c.lower_outcome hw dest s with ⟨-, henough⟩ | ⟨cls', herror, -⟩
    · exact henough cls
    · rw [hl] at herror
      cases herror
  · rcases c.lower_outcome hw dest s with ⟨hok, -⟩ | ⟨cls, -, hlt⟩
    · exact hok
    · have := henough cls
      omega
  · rcases c.lower_outcome hw dest s with ⟨⟨l, hl⟩, -⟩ | ⟨cls, herror, hlt⟩
    · rw [he] at hl
      cases hl
    · rw [he] at herror
      cases herror
      exact ⟨cls, rfl, hlt⟩
  · rcases c.lower_outcome hw dest {} with ⟨hok, -⟩ | ⟨cls, -, hlt⟩
    · exact hok
    · have hneed := c.need_le lhs rhs dest cls
      have hsupply : 6 ≤ ({} : Scratch).supply cls := by cases cls <;> decide
      have := Scratch.supply_le_available (s := {}) (by decide) (by decide) lhs rhs dest cls
      omega

end Condition

/-- Pools with a reserved register, the destination and an operand in them, and with registers that come twice. -/
def Scratch.cramped : Scratch where
  ints := { regs := [.t6, .a0, .t1, .t1], reserved := [.t6] }
  floats := { regs := .ft0 :: FloatReg.temporaries }

/-- A second constant, though the same as the first, is one too many. -/
theorem Condition.lower_isOk_iff_available_cramped :
    (∃ l, (ueq.lower ⟨.register .ft0, .double⟩ ⟨.constant .nan, .double⟩ (.value .a0) .cramped).1 = .ok l) ∧
      ¬ ∃ l, (ueq.lower ⟨.constant .nan, .double⟩ ⟨.constant .nan, .double⟩ (.value .a0) .cramped).1 = .ok l := by
  constructor
  · apply (lower_isOk_iff_available ueq _ _ .cramped).1.mpr
    · intro cls
      cases cls <;> decide
    · rfl
  · intro hok
    have henough := (lower_isOk_iff_available ueq (by rfl) _ .cramped).1.mp hok .integer
    exact absurd henough (by decide)

/-- What can be lowered: a condition, or a relational operator that is given itself or by the kind of its node. -/
inductive Lowerable where
  | condition (c : Condition)
  | relation (r : Relation)
  | kind (k : NodeKind)
deriving DecidableEq

/-- A comparison to be lowered. -/
structure Job where
  subject : Lowerable
  lhs : Operand
  rhs : Operand
  dest : Destination
deriving DecidableEq

namespace Job

def perform (j : Job) (s : Scratch) : Except CodeError Lowered × Scratch :=
  match j.subject with
  | .condition c => c.lower j.lhs j.rhs j.dest s
  | .relation r => r.lower j.lhs j.rhs j.dest s
  | .kind k => k.lower j.lhs j.rhs j.dest s

/-- Performs one job after the other, each with the scratch that the last one left, failed or not. -/
def performAll : List Job → Scratch → List (Except CodeError Lowered) × Scratch
  | [], s => ([], s)
  | j :: jobs, s =>
    let (result, s) := j.perform s
    let (results, s) := performAll jobs s
    (result :: results, s)

theorem perform_snd (j : Job) (s : Scratch) : (j.perform s).2 = s := by
  obtain ⟨subject, lhs, rhs, dest⟩ := j
  cases subject with
  | condition c => exact c.lower_snd lhs rhs dest s
  | relation r => exact (Condition.ofRelation r).lower_snd lhs rhs dest s
  | kind k =>
    simp only [perform, NodeKind.lower]
    split
    · exact (Condition.ofRelation _).lower_snd lhs rhs dest s
    · rfl

/-- Every lowering, whether it succeeds or fails, leaves the scratch exactly as it found it. So in any row of them each
gives the answer that it gives by itself. -/
theorem perform_restores (s : Scratch) : (∀ j : Job, (j.perform s).2 = s) ∧
    ∀ jobs : List Job, performAll jobs s = (jobs.map fun j => (j.perform s).1, s) := by
  refine ⟨fun j => j.perform_snd s, fun jobs => ?_⟩
  induction jobs with
  | nil => rfl
  | cons j jobs ih => simp only [performAll, j.perform_snd s, ih, List.map_cons]

end Job
end Comparand
