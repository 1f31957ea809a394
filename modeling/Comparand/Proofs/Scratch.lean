import Comparand.Compare.Lowering
import Comparand.Proofs.Reading

/-! What a pool hands out, and how a lowering that draws from pools comes apart into its draws. -/
namespace Comparand

namespace Pool

variable {α : Type} {p p' : Pool α} {r : α}

/-- The registers that a pool has not passed yet. -/
def remaining (p : Pool α) : List α := p.regs.drop p.used

/-- Taking `r` leaves what comes after it. -/
structure Draws (p : Pool α) (r : α) (p' : Pool α) : Prop where
  free : r ∉ p.reserved
  reserved : p'.reserved = p.reserved
  remaining : ∃ skipped, p.remaining = skipped ++ r :: p'.remaining

theorem scan_some [DecidableEq α] {reserved rs : List α} {n k : Nat} (h : scan reserved rs n = (some r, k)) :
    r ∉ reserved ∧
      ∃ skipped rest, rs = skipped ++ r :: rest ∧ (∀ a ∈ skipped, a ∈ reserved) ∧ k = n + skipped.length + 1 := by
  induction rs generalizing n with
  | nil => cases h
  | cons a rs ih =>
    rw [scan] at h
    split at h
    case isTrue ha =>
      obtain ⟨hfree, skipped, rest, rfl, hskipped, rfl⟩ := ih h
      refine ⟨hfree, a :: skipped, rest, rfl, List.forall_mem_cons.mpr ⟨ha, hskipped⟩, ?_⟩
      simp only [List.length_cons]
      omega
    case isFalse ha =>
      cases h
      exact ⟨ha, [], rs, rfl, by simp, rfl⟩

/-- What a pool hands out is free, and what it passes over is not. -/
theorem alloc_some [DecidableEq α] (h : p.alloc = (some r, p')) :
    r ∉ p.reserved ∧ p'.reserved = p.reserved ∧
      ∃ skipped, p.remaining = skipped ++ r :: p'.remaining ∧ ∀ a ∈ skipped, a ∈ p.reserved := by
  rw [alloc] at h
  generalize hscan : scan p.reserved (p.regs.drop p.used) p.used = q at h
  obtain ⟨r', used⟩ := q
  cases h
  obtain ⟨hfree, skipped, rest, hrest, hskipped, hused⟩ := scan_some hscan
  refine ⟨hfree, rfl, skipped, ?_, hskipped⟩
  have hdrop : p.regs.drop used = rest := by
    rw [hused, Nat.add_assoc, ← List.drop_drop, hrest]
    simp
  rw [remaining, hrest, remaining, hdrop]

theorem draws_of_alloc [DecidableEq α] (h : p.alloc = (some r, p')) : p.Draws r p' := by
  obtain ⟨hfree, hreserved, skipped, hremaining, -⟩ := alloc_some h
  exact ⟨hfree, hreserved, skipped, hremaining⟩

namespace Draws

theorem mem (h : p.Draws r p') : r ∈ p.remaining := by
  obtain ⟨skipped, hs⟩ := h.remaining
  simp [hs]

theorem suffix (h : p.Draws r p') : p'.remaining <:+ p.remaining := by
  obtain ⟨skipped, hs⟩ := h.remaining
  exact ⟨skipped ++ [r], by simp [hs]⟩

theorem notMem (h : p.Draws r p') (hp : p.remaining.Nodup) : r ∉ p'.remaining := by
  obtain ⟨skipped, hs⟩ := h.remaining
  rw [hs] at hp
  exact (List.nodup_cons.mp (List.nodup_append.mp hp).2.1).1

end Draws

/-- Draws move a pool on and reserve nothing. -/
structure After (p p' : Pool α) : Prop where
  reserved : p'.reserved = p.reserved
  remaining : p'.remaining <:+ p.remaining

theorem After.refl (p : Pool α) : p.After p := ⟨rfl, List.suffix_rfl⟩

theorem After.trans {p'' : Pool α} (h : p.After p') (h' : p'.After p'') : p.After p'' :=
  ⟨h'.reserved.trans h.reserved, h'.remaining.trans h.remaining⟩

theorem Draws.after (h : p.Draws r p') : p.After p' := ⟨h.reserved, h.suffix⟩

end Pool

namespace Drawing

variable {α β : Type} {s s' s'' : Scratch} {a : α} {b : β}

/-- The step succeeds with a result and leaves a scratch. -/
def Yields (x : Drawing α) (s : Scratch) (a : α) (s' : Scratch) : Prop := x.run.run s = (.ok a, s')

/-- The step fails and leaves a scratch. -/
def Fails (x : Drawing α) (s : Scratch) (e : CodeError) (s' : Scratch) : Prop := x.run.run s = (.error e, s')

/-- A sequence ends with its first step if this one fails, and else with its second. -/
theorem run_bind_cases {x : Drawing α} {f : α → Drawing β} {q : Except CodeError β}
    (h : (x >>= f).run.run s = (q, s'')) :
    (∃ e, q = .error e ∧ Fails x s e s'') ∨ ∃ a s', Yields x s a s' ∧ (f a).run.run s' = (q, s'') := by
  simp only [ExceptT.run_bind, StateT.run_bind] at h
  generalize hx : x.run.run s = first at h
  obtain ⟨result, s'⟩ := first
  cases result with
  | error e =>
    cases h
    exact .inl ⟨e, rfl, hx⟩
  | ok a => exact .inr ⟨a, s', hx, h⟩

theorem yields_bind {x : Drawing α} {f : α → Drawing β} (h : Yields (x >>= f) s b s'') :
    ∃ a s', Yields x s a s' ∧ Yields (f a) s' b s'' := by
  rcases run_bind_cases h with ⟨e, he, -⟩ | hboth
  · cases he
  · exact hboth

theorem yields_pure {a' : α} (h : Yields (pure a) s a' s') : a' = a ∧ s' = s := by
  cases h
  exact ⟨rfl, rfl⟩

theorem yields_int {r : IntReg} (h : Yields int s r s') : s.ints.Draws r s'.ints ∧ s'.floats = s.floats := by
  change s.allocInt = _ at h
  rw [Scratch.allocInt] at h
  generalize halloc : s.ints.alloc = q at h
  obtain ⟨drawn, ints⟩ := q
  cases drawn with
  | none => cases h
  | some r' =>
    cases h
    exact ⟨Pool.draws_of_alloc halloc, rfl⟩

theorem yields_float {f : FloatReg} (h : Yields float s f s') : s.floats.Draws f s'.floats ∧ s'.ints = s.ints := by
  change s.allocFloat = _ at h
  rw [Scratch.allocFloat] at h
  generalize halloc : s.floats.alloc = q at h
  obtain ⟨drawn, floats⟩ := q
  cases drawn with
  | none => cases h
  | some f' =>
    cases h
    exact ⟨Pool.draws_of_alloc halloc, rfl⟩

/-- How an operand comes into a register. -/
theorem yields_materialize {o : Operand} {load : List Instr} {f : FloatReg}
    (h : Yields (materialize o) s (load, f) s') :
    (o.place = .register f ∧ load = [] ∧ s' = s) ∨
    (∃ slot, o.place = .slot slot ∧ load = [.fload o.width f .sp slot.offset] ∧
      s.floats.Draws f s'.floats ∧ s'.ints = s.ints) ∨
    (∃ v rd, o.place = .constant v ∧ load = [.li rd (o.width.immediate v), .fmv o.width f rd] ∧
      s.floats.Draws f s'.floats ∧ s.ints.Draws rd s'.ints) := by
  unfold materialize at h
  split at h
  · obtain ⟨he, rfl⟩ := yields_pure h
    cases he
    exact .inl ⟨‹_›, rfl, rfl⟩
  · obtain ⟨fd, s₁, hf, h⟩ := yields_bind h
    obtain ⟨he, rfl⟩ := yields_pure h
    cases he
    exact .inr (.inl ⟨_, ‹_›, rfl, yields_float hf⟩)
  · obtain ⟨rd, s₁, hr, h⟩ := yields_bind h
    obtain ⟨fd, s₂, hf, h⟩ := yields_bind h
    obtain ⟨he, rfl⟩ := yields_pure h
    cases he
    obtain ⟨hr, hr'⟩ := yields_int hr
    obtain ⟨hf, hf'⟩ := yields_float hf
    exact .inr (.inr ⟨_, rd, ‹_›, rfl, hr' ▸ hf, hf' ▸ hr⟩)

theorem materialize_origin {o : Operand} {load : List Instr} {f : FloatReg}
    (h : Yields (materialize o) s (load, f) s') : o.place = .register f ∨ s.floats.Draws f s'.floats := by
  rcases yields_materialize h with ⟨hp, -, -⟩ | ⟨_, -, -, hf, -⟩ | ⟨_, _, -, -, hf, -⟩
  · exact .inl hp
  · exact .inr hf
  · exact .inr hf

theorem materialize_after {o : Operand} {load : List Instr} {f : FloatReg}
    (h : Yields (materialize o) s (load, f) s') : s.ints.After s'.ints ∧ s.floats.After s'.floats := by
  rcases yields_materialize h with ⟨-, -, rfl⟩ | ⟨_, -, -, hf, hi⟩ | ⟨_, _, -, -, hf, hi⟩
  · exact ⟨.refl _, .refl _⟩
  · exact ⟨hi ▸ .refl _, hf.after⟩
  · exact ⟨hi.after, hf.after⟩

theorem yields_answer {dest : Destination} {rd : IntReg} (h : Yields (answer dest) s rd s') :
    (dest = .value rd ∧ s' = s) ∨ (∃ yes no, dest = .branch yes no ∧ s.ints.Draws rd s'.ints) := by
  cases dest with
  | value r =>
    obtain ⟨rfl, rfl⟩ := yields_pure h
    exact .inl ⟨rfl, rfl⟩
  | branch yes no => exact .inr ⟨yes, no, rfl, (yields_int h).1⟩

theorem yields_decision {recipe : Recipe} {probe : Probe → IntReg → Instr} {rd : IntReg} {code : List Instr}
    (h : Yields (decision recipe probe rd) s code s') :
    (∃ q, recipe = .single q ∧ code = [probe q rd]) ∨
    (∃ q₁ q₂ tmp, recipe = .all q₁ q₂ ∧ code = [probe q₁ rd, probe q₂ tmp, .and rd rd tmp] ∧
      s.ints.Draws tmp s'.ints) ∨
    (∃ q₁ q₂ tmp, recipe = .any q₁ q₂ ∧ code = [probe q₁ rd, probe q₂ tmp, .or rd rd tmp] ∧
      s.ints.Draws tmp s'.ints) := by
  cases recipe with
  | single q => exact .inl ⟨q, rfl, (yields_pure h).1⟩
  | all q₁ q₂ =>
    obtain ⟨tmp, s₁, ht, h⟩ := yields_bind h
    obtain ⟨rfl, rfl⟩ := yields_pure h
    exact .inr (.inl ⟨q₁, q₂, tmp, rfl, rfl, (yields_int ht).1⟩)
  | any q₁ q₂ =>
    obtain ⟨tmp, s₁, ht, h⟩ := yields_bind h
    obtain ⟨rfl, rfl⟩ := yields_pure h
    exact .inr (.inr ⟨q₁, q₂, tmp, rfl, rfl, (yields_int ht).1⟩)

end Drawing

/-- Scratch that a lowering can use: no register comes twice, and neither `zero` nor `sp` comes at all. -/
structure Scratch.Sound (s : Scratch) : Prop where
  ints : s.ints.remaining.Nodup
  floats : s.floats.remaining.Nodup
  zero : .zero ∉ s.ints.remaining
  sp : .sp ∉ s.ints.remaining

namespace Condition

variable {lhs rhs : Operand} {dest : Destination} {s : Scratch}

theorem reservation_remaining (lhs rhs : Operand) (dest : Destination) (s : Scratch) :
    (reservation lhs rhs dest s).ints.remaining = s.ints.remaining ∧
      (reservation lhs rhs dest s).floats.remaining = s.floats.remaining := by
  obtain ⟨place, w⟩ := lhs
  obtain ⟨place', w'⟩ := rhs
  cases place <;> cases place' <;> cases dest <;> exact ⟨rfl, rfl⟩

theorem mem_reserved_ints {r : IntReg} :
    r ∈ (reservation lhs rhs dest s).ints.reserved ↔ r ∈ s.ints.reserved ∨ dest = .value r := by
  obtain ⟨place, w⟩ := lhs
  obtain ⟨place', w'⟩ := rhs
  cases place <;> cases place' <;> cases dest <;>
    simp [reservation, Scratch.reserveFloat, Scratch.reserveInt, Pool.reserve, eq_comm]

theorem mem_reserved_floats {f : FloatReg} : f ∈ (reservation lhs rhs dest s).floats.reserved ↔
    f ∈ s.floats.reserved ∨ lhs.place = .register f ∨ rhs.place = .register f := by
  obtain ⟨place, w⟩ := lhs
  obtain ⟨place', w'⟩ := rhs
  cases place <;> cases place' <;> cases dest <;>
    simp [reservation, Scratch.reserveFloat, Scratch.reserveInt, Pool.reserve, eq_comm]

end Condition

/-- The code of a condition, step by step. The right operand is brought in by itself unless it aliases the left one. -/
structure Condition.Drawn (c : Condition) (lhs rhs : Operand) (dest : Destination) (s : Scratch) where
  loadLhs : List Instr
  a : FloatReg
  s₁ : Scratch
  left : Drawing.Yields (Drawing.materialize lhs) (reservation lhs rhs dest s) (loadLhs, a) s₁
  loadRhs : List Instr
  b : FloatReg
  s₂ : Scratch
  right : if lhs.aliases rhs then loadRhs = [] ∧ b = a ∧ s₂ = s₁
    else Drawing.Yields (Drawing.materialize rhs) s₁ (loadRhs, b) s₂
  rd : IntReg
  s₃ : Scratch
  answer : Drawing.Yields (Drawing.answer dest) s₂ rd s₃
  decision : List Instr
  s₄ : Scratch
  decided : Drawing.Yields (Drawing.decision c.recipe
    (fun p rd => .fcmp p.test lhs.width rd (p.first.pick a b) (p.second.pick a b)) rd) s₃ decision s₄

def Condition.Drawn.code {c : Condition} {lhs rhs : Operand} {dest : Destination} {s : Scratch}
    (d : c.Drawn lhs rhs dest s) : List Instr :=
  d.loadLhs ++ d.loadRhs ++ d.decision ++ c.delivery d.rd dest

theorem Condition.width_eq_of_lower {c : Condition} {lhs rhs : Operand} {dest : Destination} {s s' : Scratch}
    {l : Lowered} (h : c.lower lhs rhs dest s = (.ok l, s')) : lhs.width = rhs.width := by
  rw [lower] at h
  split at h
  · assumption
  · cases h

theorem Condition.drawn_of_lower {c : Condition} {lhs rhs : Operand} {dest : Destination} {s s' : Scratch}
    {l : Lowered} (h : c.lower lhs rhs dest s = (.ok l, s')) : ∃ d : c.Drawn lhs rhs dest s, l.code = d.code := by
  rw [lower] at h
  split at h
  case isFalse => cases h
  generalize hrun : (c.draw lhs rhs dest).run.run s = q at h
  obtain ⟨result, after⟩ := q
  cases result with
  | error e => cases h
  | ok code =>
    cases h
    obtain ⟨_, s₀, hreserve, hdraw⟩ := Drawing.yields_bind hrun
    cases hreserve
    obtain ⟨⟨loadLhs, a⟩, s₁, hleft, htail⟩ := Drawing.yields_bind hdraw
    dsimp only at htail
    -- what follows is the same whether the right operand shares the register of the left one or not
    split at htail
    all_goals
      obtain ⟨⟨loadRhs, b⟩, s₂, hright, hafter⟩ := Drawing.yields_bind htail
      obtain ⟨rd, s₃, hanswer, hafter⟩ := Drawing.yields_bind hafter
      obtain ⟨decision, s₄, hdecided, hafter⟩ := Drawing.yields_bind hafter
      obtain ⟨hcode, -⟩ := Drawing.yields_pure hafter
      refine ⟨⟨loadLhs, a, s₁, hleft, loadRhs, b, s₂, ?_, rd, s₃, hanswer, decision, s₄, hdecided⟩, hcode⟩
    · obtain ⟨he, rfl⟩ := Drawing.yields_pure hright
      cases he
      rw [if_pos ‹_›]
      exact ⟨rfl, rfl, rfl⟩
    · rw [if_neg ‹_›]
      exact hright

namespace Condition.Drawn

variable {c : Condition} {lhs rhs : Operand} {dest : Destination} {s : Scratch}

theorem right_of_not_aliases (d : c.Drawn lhs rhs dest s) (h : lhs.aliases rhs = false) :
    Drawing.Yields (Drawing.materialize rhs) d.s₁ (d.loadRhs, d.b) d.s₂ := by
  have := d.right
  rwa [if_neg (by simp [h])] at this

/-- Scratch registers go neither to the other operand nor to a register that an operand is in. -/
theorem distinct (d : c.Drawn lhs rhs dest s) (hs : s.Sound) (h : lhs.aliases rhs = false) : d.a ≠ d.b := by
  have hright := d.right_of_not_aliases h
  have hreserved := (Drawing.materialize_after d.left).2.reserved
  have hremaining := (reservation_remaining lhs rhs dest s).2
  rcases Drawing.materialize_origin d.left with hl | hl <;>
    rcases Drawing.materialize_origin hright with hr | hr
  · intro he
    simp [Operand.aliases, hl, hr, he] at h
  · intro he
    exact hr.free (hreserved ▸ he ▸ mem_reserved_floats.mpr (.inr (.inl hl)))
  · intro he
    exact hl.free (he ▸ mem_reserved_floats.mpr (.inr (.inr hr)))
  · intro he
    exact hl.notMem (hremaining ▸ hs.floats) (he ▸ hr.mem)

theorem after_operands (d : c.Drawn lhs rhs dest s) :
    (reservation lhs rhs dest s).ints.After d.s₂.ints := by
  have hleft := (Drawing.materialize_after d.left).1
  cases h : lhs.aliases rhs with
  | false => exact hleft.trans (Drawing.materialize_after (d.right_of_not_aliases h)).1
  | true =>
    have hright := d.right
    rw [if_pos h] at hright
    rwa [hright.2.2]

/-- The register of the answer is a proper one, and no other answer is drawn into it. -/
theorem answer_register (d : c.Drawn lhs rhs dest s) (hs : s.Sound) (hdest : dest ≠ .value .zero) :
    d.rd ≠ .zero ∧ (d.rd ∈ d.s₃.ints.reserved ∨ d.rd ∉ d.s₃.ints.remaining) ∧ .zero ∉ d.s₃.ints.remaining ∧
      d.s₃.ints.remaining <:+ s.ints.remaining ∧ (dest = .value d.rd ∨ d.rd ∈ s.ints.remaining) := by
  have hremaining := (reservation_remaining lhs rhs dest s).1
  have hafter := d.after_operands
  have hsub : d.s₂.ints.remaining <:+ s.ints.remaining := hremaining ▸ hafter.remaining
  rcases Drawing.yields_answer d.answer with ⟨hd, hs₃⟩ | ⟨yes, no, -, hdraws⟩
  · refine ⟨fun he => hdest (he ▸ hd), .inl ?_, ?_, hs₃ ▸ hsub, .inl hd⟩
    · rw [hs₃, hafter.reserved]
      exact mem_reserved_ints.mpr (.inr hd)
    · rw [hs₃]
      exact fun hmem => hs.zero (hsub.subset hmem)
  · have hmem : d.rd ∈ s.ints.remaining := hsub.subset hdraws.mem
    refine ⟨fun he => hs.zero (he ▸ hmem), .inr (hdraws.notMem (hs.ints.sublist hsub.sublist)), ?_,
      hdraws.suffix.trans hsub, .inr hmem⟩
    exact fun hz => hs.zero (hsub.subset (hdraws.suffix.subset hz))

end Condition.Drawn
end Comparand
