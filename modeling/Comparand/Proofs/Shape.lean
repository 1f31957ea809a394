import Comparand.Proofs.Growth
import Comparand.Proofs.Safety

/-! The shape of generated code: what a lowering may emit, where stores go and where jumps lead. Together they make the
routine of every program that compiles a safe one. -/
namespace Comparand

open Routine (boundLabels boundLabels_append)

section Lowering

variable {c : Condition} {lhs rhs : Operand} {dest : Destination} {s s' s'' : Scratch}

/-- An integer register that a lowering may draw: one of the pool that nobody has reserved. -/
def Scratch.FreeInt (s : Scratch) (r : IntReg) : Prop := r ∈ s.ints.remaining ∧ r ∉ s.ints.reserved

def Scratch.FreeFloat (s : Scratch) (f : FloatReg) : Prop := f ∈ s.floats.remaining ∧ f ∉ s.floats.reserved

namespace Condition

/-- What a lowering may emit, with the registers it changes. -/
inductive Emits (lhs rhs : Operand) (dest : Destination) (s : Scratch) : Instr → Prop where
  | slot {o : Operand} {slot : Slot} {f : FloatReg} (ho : o = lhs ∨ o = rhs) (hslot : o.place = .slot slot)
      (hf : (reservation lhs rhs dest s).FreeFloat f) : Emits lhs rhs dest s (.fload o.width f .sp slot.offset)
  | constant {r : IntReg} (v : Int64) (hr : (reservation lhs rhs dest s).FreeInt r) : Emits lhs rhs dest s (.li r v)
  | move (w : Width) {f : FloatReg} (r : IntReg) (hf : (reservation lhs rhs dest s).FreeFloat f) :
      Emits lhs rhs dest s (.fmv w f r)
  | probe (test : FloatTest) (w : Width) {r : IntReg} (f f' : FloatReg)
      (hr : dest = .value r ∨ (reservation lhs rhs dest s).FreeInt r) : Emits lhs rhs dest s (.fcmp test w r f f')
  | all {r : IntReg} (r' r'' : IntReg) (hr : dest = .value r ∨ (reservation lhs rhs dest s).FreeInt r) :
      Emits lhs rhs dest s (.and r r' r'')
  | any {r : IntReg} (r' r'' : IntReg) (hr : dest = .value r ∨ (reservation lhs rhs dest s).FreeInt r) :
      Emits lhs rhs dest s (.or r r' r'')
  | negate {r : IntReg} (hr : dest = .value r) : Emits lhs rhs dest s (.xori r r 1)
  | branch {yes no : Label} (test : BranchTest) (r : IntReg) (hdest : dest = .branch yes no) :
      Emits lhs rhs dest s (.branch test r .zero yes)
  | jump {yes no : Label} (hdest : dest = .branch yes no) : Emits lhs rhs dest s (.jump no)

end Condition

theorem Scratch.freeInt_of_draws {r : IntReg} {ints : Pool IntReg} (hafter : s.ints.After s'.ints)
    (h : s'.ints.Draws r ints) : s.FreeInt r :=
  ⟨hafter.remaining.subset h.mem, hafter.reserved ▸ h.free⟩

theorem Scratch.freeFloat_of_draws {f : FloatReg} {floats : Pool FloatReg} (hafter : s.floats.After s'.floats)
    (h : s'.floats.Draws f floats) : s.FreeFloat f :=
  ⟨hafter.remaining.subset h.mem, hafter.reserved ▸ h.free⟩

namespace Condition

open Scratch

theorem emits_of_materialize {o : Operand} {load : List Instr} {f : FloatReg} (ho : o = lhs ∨ o = rhs)
    (hints : (reservation lhs rhs dest s).ints.After s'.ints)
    (hfloats : (reservation lhs rhs dest s).floats.After s'.floats)
    (h : Drawing.Yields (Drawing.materialize o) s' (load, f) s'') : ∀ i ∈ load, Emits lhs rhs dest s i := by
  rcases Drawing.yields_materialize h with ⟨-, rfl, -⟩ | ⟨slot, hslot, rfl, hf, -⟩ | ⟨v, rd, -, rfl, hf, hr⟩
  · rintro i ⟨⟩
  · rintro i (_ | ⟨_, ⟨⟩⟩)
    exact .slot ho hslot (freeFloat_of_draws hfloats hf)
  · rintro i (_ | ⟨_, _ | ⟨_, ⟨⟩⟩⟩)
    · exact .constant _ (freeInt_of_draws hints hr)
    · exact .move _ _ (freeFloat_of_draws hfloats hf)

theorem emits_of_decision {recipe : Recipe} {probe : Probe → IntReg → Instr} {rd : IntReg} {code : List Instr}
    (hprobe : ∀ p r, ∃ f f', probe p r = .fcmp p.test lhs.width r f f')
    (hrd : dest = .value rd ∨ (reservation lhs rhs dest s).FreeInt rd)
    (hints : (reservation lhs rhs dest s).ints.After s'.ints)
    (h : Drawing.Yields (Drawing.decision recipe probe rd) s' code s'') : ∀ i ∈ code, Emits lhs rhs dest s i := by
  have hemits (p : Probe) {r : IntReg} (hr : dest = .value r ∨ (reservation lhs rhs dest s).FreeInt r) :
      Emits lhs rhs dest s (probe p r) := by
    obtain ⟨f, f', hp⟩ := hprobe p r
    exact hp ▸ .probe _ _ f f' hr
  rcases Drawing.yields_decision h with ⟨q, -, rfl⟩ | ⟨q₁, q₂, tmp, -, rfl, htmp⟩ | ⟨q₁, q₂, tmp, -, rfl, htmp⟩
  · rintro i (_ | ⟨_, ⟨⟩⟩)
    exact hemits q hrd
  · rintro i (_ | ⟨_, _ | ⟨_, _ | ⟨_, ⟨⟩⟩⟩⟩)
    · exact hemits q₁ hrd
    · exact hemits q₂ (.inr (freeInt_of_draws hints htmp))
    · exact .all _ _ hrd
  · rintro i (_ | ⟨_, _ | ⟨_, _ | ⟨_, ⟨⟩⟩⟩⟩)
    · exact hemits q₁ hrd
    · exact hemits q₂ (.inr (freeInt_of_draws hints htmp))
    · exact .any _ _ hrd

theorem emits_of_delivery (c : Condition) {rd : IntReg} (hrd : ∀ r, dest = .value r → r = rd) :
    ∀ i ∈ c.delivery rd dest, Emits lhs rhs dest s i := by
  cases dest with
  | value r =>
    cases hrd r rfl
    rw [delivery]
    split
    · rintro i (_ | ⟨_, ⟨⟩⟩)
      exact .negate rfl
    · rintro i ⟨⟩
  | branch yes no =>
    rintro i (_ | ⟨_, _ | ⟨_, ⟨⟩⟩⟩)
    · exact .branch _ _ rfl
    · exact .jump rfl

theorem Drawn.floats_after (d : c.Drawn lhs rhs dest s) :
    (reservation lhs rhs dest s).floats.After d.s₁.floats := (Drawing.materialize_after d.left).2

/-- The register of the answer is that of the destination, or a free one. -/
theorem Drawn.answer_free (d : c.Drawn lhs rhs dest s) :
    (dest = .value d.rd ∨ (reservation lhs rhs dest s).FreeInt d.rd) ∧
      (reservation lhs rhs dest s).ints.After d.s₃.ints := by
  rcases Drawing.yields_answer d.answer with ⟨hd, hs⟩ | ⟨yes, no, -, hdraws⟩
  · exact ⟨.inl hd, hs ▸ d.after_operands⟩
  · exact ⟨.inr (freeInt_of_draws d.after_operands hdraws), d.after_operands.trans hdraws.after⟩

/-- Whatever the scratch is like, a lowering emits nothing else. -/
theorem Drawn.emits (d : c.Drawn lhs rhs dest s) : ∀ i ∈ d.code, Emits lhs rhs dest s i := by
  obtain ⟨hrd, hafter⟩ := d.answer_free
  intro i hi
  simp only [code, List.mem_append] at hi
  rcases hi with ((hi | hi) | hi) | hi
  · exact emits_of_materialize (.inl rfl) (.refl _) (.refl _) d.left i hi
  · cases h : lhs.aliases rhs with
    | false =>
      exact emits_of_materialize (.inr rfl) (Drawing.materialize_after d.left).1 d.floats_after
        (d.right_of_not_aliases h) i hi
    | true =>
      have hright := d.right
      rw [if_pos h] at hright
      rw [hright.1] at hi
      cases hi
  · exact emits_of_decision (fun p r => ⟨_, _, rfl⟩) hrd hafter d.decided i hi
  · refine emits_of_delivery c (fun r hr => ?_) i hi
    rcases Drawing.yields_answer d.answer with ⟨hd, -⟩ | ⟨yes, no, hd, -⟩
    · exact Destination.value.inj (hr.symm.trans hd)
    · cases hr.symm.trans hd

end Condition
end Lowering

/-- An instruction that stays in a frame: it touches only whole slots, and leaves the stack pointer alone. -/
structure Instr.Contained (size : Nat) (i : Instr) : Prop where
  access : ∀ ⦃base offset⦄, i.access? = some (base, offset) →
    base = .sp ∧ 0 ≤ offset ∧ offset % 8 = 0 ∧ offset + 8 ≤ size
  immediate : ∀ ⦃n⦄, i.immediate? = some n → -2048 ≤ n ∧ n ≤ 2047
  stack : i.intDef? ≠ some .sp

/-- A contained instruction that is no call and jumps at most to the given labels. -/
structure Instr.Tame (outer : List Label) (size : Nat) (i : Instr) : Prop extends i.Contained size where
  target : ∀ ⦃l⦄, i.target? = some l → l ∈ outer
  call : i ≠ .ecall

/-- Code whose jumps go to labels that are bound later, in the code or outside it, and whose calls are announced. -/
structure Shaped (outer : List Label) (code : List Instr) : Prop where
  forward : ∀ ⦃i rest⦄, i :: rest <:+ code → ∀ ⦃l⦄, i.target? = some l → l ∈ boundLabels rest ∨ l ∈ outer
  announced : code.IsChain Instr.Announces
  start : code.head? ≠ some .ecall

namespace Instr

variable {i : Instr} {outer outer' : List Label} {n k : Nat} {s : Slot}

/-- Defining another register leaves the stack pointer alone. -/
theorem define_ne_sp {r : IntReg} (hr : r ≠ .sp) : (if r = .zero then none else some r) ≠ some IntReg.sp := by
  split
  · simp
  · exact fun he => hr (Option.some.inj he)

theorem Contained.mono (h : i.Contained n) (hle : n ≤ k) : i.Contained k where
  access base offset ha := by
    obtain ⟨hbase, hnonneg, haligned, hfits⟩ := h.access ha
    exact ⟨hbase, hnonneg, haligned, by omega⟩
  immediate := h.immediate
  stack := h.stack

/-- An access to a slot of the frame. -/
theorem Tame.slot (hs : s.Within n) (ha : i.access? = some (.sp, s.offset)) (hsp : i.intDef? ≠ some .sp) :
    i.Tame outer n := by
  have hn : i.immediate? = some s.offset ∧ i.target? = none ∧ i ≠ .ecall := by
    cases i <;> cases ha <;> exact ⟨rfl, rfl, by simp⟩
  refine ⟨⟨fun base offset ha' => ?_, fun m hm => ?_, hsp⟩, fun l hl => ?_, hn.2.2⟩
  · cases ha.symm.trans ha'
    exact ⟨rfl, hs.nonneg, hs.aligned, hs.fits⟩
  · cases hn.1.symm.trans hm
    exact s.inRange
  · cases hn.2.1.symm.trans hl

theorem Contained.register (hn : i.immediate? = none) (hsp : i.intDef? ≠ some .sp) : i.Contained n := by
  refine ⟨fun base offset ha => ?_, fun m hm => ?_, hsp⟩
  · cases i <;> cases ha <;> cases hn
  · cases hn.symm.trans hm

/-- An instruction on registers. -/
theorem Tame.register (hn : i.immediate? = none) (hsp : i.intDef? ≠ some .sp) (ht : i.target? = none)
    (hc : i ≠ .ecall) : i.Tame outer n := by
  refine ⟨.register hn hsp, fun l hl => ?_, hc⟩
  cases ht.symm.trans hl

theorem Tame.jump {l : Label} (ht : i.target? = some l) (hl : l ∈ outer) : i.Tame outer n := by
  have hn : i.immediate? = none ∧ i.intDef? = none ∧ i ≠ .ecall := by
    cases i <;> cases ht <;> exact ⟨rfl, rfl, by simp⟩
  refine ⟨.register hn.1 (by simp [hn.2.1]), fun l' hl' => ?_, hn.2.2⟩
  cases ht.symm.trans hl'
  exact hl

theorem Tame.li {r : IntReg} (hr : r ≠ .sp) (v : Int64) : (Instr.li r v).Tame outer n :=
  .register rfl (define_ne_sp hr) rfl (by simp)

theorem Tame.ld {r : IntReg} (hr : r ≠ .sp) (hs : s.Within n) : (Instr.ld r .sp s.offset).Tame outer n :=
  .slot hs rfl (define_ne_sp hr)

end Instr

namespace Shaped

variable {code more : List Instr} {outer outer' : List Label} {n : Nat}

theorem of_tame (h : ∀ i ∈ code, i.Tame outer n) : Shaped outer code where
  forward i rest hsuffix l hl := .inr ((h i (hsuffix.subset List.mem_cons_self)).target hl)
  announced := by
    induction code with
    | nil => exact .nil
    | cons i code ih =>
      have hcode : ∀ j ∈ code, j.Tame outer n := fun j hj => h j (List.mem_cons_of_mem i hj)
      refine List.isChain_cons.mpr ⟨fun j hj hcall => ?_, ih hcode⟩
      exact absurd hcall (hcode j (List.mem_of_mem_head? hj)).call
  start hcall := (h _ (List.mem_of_mem_head? hcall)).call rfl

theorem nil : Shaped outer [] := of_tame (n := 0) (List.forall_mem_nil _)

theorem label (l : Label) : Shaped [] [.label l] := by
  refine of_tame (n := 0) ?_
  rintro i (_ | ⟨_, ⟨⟩⟩)
  exact .register rfl (by rintro ⟨⟩) rfl (by simp)

theorem jump (l : Label) : Shaped [l] [.jump l] := by
  refine of_tame (n := 0) ?_
  rintro i (_ | ⟨_, ⟨⟩⟩)
  exact .jump rfl (List.mem_singleton_self l)

/-- Labels that the first part leaves open may be bound in the second. -/
theorem append (h : Shaped outer code) (h' : Shaped outer' more)
    (hsub : ∀ l ∈ outer, l ∈ boundLabels more ∨ l ∈ outer') : Shaped outer' (code ++ more) where
  forward i rest hsuffix l hl := by
    obtain ⟨before, hwhole⟩ := hsuffix
    rcases List.append_eq_append_iff.mp hwhole with ⟨middle, hcode, hrest⟩ | ⟨middle, -, hmore⟩
    · cases middle with
      | nil => exact h'.forward ⟨[], hrest⟩ hl
      | cons j middle =>
        rw [List.cons_append, List.cons.injEq] at hrest
        obtain ⟨rfl, rfl⟩ := hrest
        rw [boundLabels_append, List.mem_append]
        rcases h.forward ⟨before, hcode.symm⟩ hl with hin | hout
        · exact .inl (.inl hin)
        · rcases hsub l hout with hin | hout
          · exact .inl (.inr hin)
          · exact .inr hout
    · exact h'.forward ⟨middle, hmore.symm⟩ hl
  announced := by
    refine List.isChain_append.mpr ⟨h.announced, h'.announced, fun i _ j hj hcall => ?_⟩
    exact absurd (hcall ▸ hj) h'.start
  start := by
    cases code with
    | nil => exact h'.start
    | cons i code => exact h.start

theorem seq (h : Shaped [] code) (h' : Shaped outer more) : Shaped outer (code ++ more) :=
  h.append h' (List.forall_mem_nil _)

/-- Code that ends the program, after the instruction that brings in its status. -/
theorem exit {i : Instr} (h : i.Tame [] n) : Shaped [] [i, .li .a7 exitCall.toInt64, .ecall] where
  forward j rest hsuffix l hl := by
    rcases List.mem_cons.mp (hsuffix.subset List.mem_cons_self) with rfl | hj
    · exact .inr (h.target hl)
    · rcases hj with _ | ⟨_, _ | ⟨_, ⟨⟩⟩⟩ <;> cases hl
  announced := by simp [Instr.Announces]
  start hcall := h.call (Option.some.inj hcall)

end Shaped

/-- A value that is no slot outside the frame. -/
def Value.Within (v : Value) (size : Nat) : Prop := ∀ ⦃ty s⦄, v = .slot ty s → s.Within size

theorem Value.Within.constant (c : Constant) (size : Nat) : (Value.constant c).Within size := by
  rintro _ _ ⟨⟩

def Comparison.Within (size : Nat) : Comparison → Prop
  | .float _ a b | .int a b => a.Within size ∧ b.Within size

section Leaves

variable {k : Knowledge} {ty : Scalar} {target : Slot} {v : Value} {code : List Instr} {kept : Option Constant}
  {n : Nat} {outer : List Label}

theorem zeroCode_tame (ht : target.Within n) : ∀ i ∈ zeroCode target, i.Tame outer n :=
  List.forall_mem_singleton.mpr (.slot ht rfl (by rintro ⟨⟩))

theorem storeCode_tame (h : storeCode k ty target v = .ok (code, kept)) (ht : target.Within n) (hv : v.Within n) :
    ∀ i ∈ code, i.Tame outer n := by
  rcases v with (v | v) | ⟨sourceTy, source⟩
  case constant.int =>
    cases ty <;> cases h
    case int =>
      split
      · exact zeroCode_tame ht
      · refine List.forall_mem_cons.mpr ⟨.li (by decide) _, ?_⟩
        exact List.forall_mem_singleton.mpr (.slot ht rfl (by rintro ⟨⟩))
    all_goals
      refine List.forall_mem_cons.mpr ⟨.li (by decide) _, ?_⟩
      refine List.forall_mem_cons.mpr ⟨.register rfl (by rintro ⟨⟩) rfl (by simp), ?_⟩
      exact List.forall_mem_singleton.mpr (.slot ht rfl (by rintro ⟨⟩))
  case constant.float =>
    cases ty <;> cases h
    all_goals
      refine List.forall_mem_cons.mpr ⟨.li (by decide) _, ?_⟩
      refine List.forall_mem_cons.mpr ⟨.register rfl (by rintro ⟨⟩) rfl (by simp), ?_⟩
      exact List.forall_mem_singleton.mpr (.slot ht rfl (by rintro ⟨⟩))
  case slot =>
    have hs : source.Within n := hv rfl
    by_cases hty : sourceTy = ty
    · subst hty
      cases sourceTy <;> simp only [storeCode, Scalar.width?, ne_eq, not_true_eq_false, if_false] at h <;> cases h
      · refine List.forall_mem_cons.mpr ⟨.ld (by decide) hs, ?_⟩
        exact List.forall_mem_singleton.mpr (.slot ht rfl (by rintro ⟨⟩))
      all_goals
        refine List.forall_mem_cons.mpr ⟨.slot hs rfl (by rintro ⟨⟩), ?_⟩
        exact List.forall_mem_singleton.mpr (.slot ht rfl (by rintro ⟨⟩))
    · cases ty <;> simp [storeCode, Scalar.width?, hty] at h

theorem stepCode_tame {delta : Int} (hdelta : -2048 ≤ delta ∧ delta ≤ 2047) (ht : target.Within n) :
    ∀ i ∈ [Instr.ld .t0 .sp target.offset, .addi .t0 .t0 delta, .sd .t0 .sp target.offset], i.Tame outer n := by
  refine List.forall_mem_cons.mpr ⟨.ld (by decide) ht, List.forall_mem_cons.mpr ⟨?_, ?_⟩⟩
  · refine ⟨⟨by rintro _ _ ⟨⟩, fun m hm => ?_, by rintro ⟨⟩⟩, by rintro _ ⟨⟩, by simp⟩
    exact Option.some.inj hm ▸ hdelta
  · exact List.forall_mem_singleton.mpr (.slot ht rfl (by rintro ⟨⟩))

theorem exitCode_shaped (h : exitCode v = .ok code) (hv : v.Within n) :
    Shaped [] code ∧ ∀ i ∈ code, i.Contained n := by
  have hcall {i : Instr} (hi : i.Tame [] n) :
      Shaped [] [i, .li .a7 exitCall.toInt64, .ecall] ∧
        ∀ j ∈ [i, .li .a7 exitCall.toInt64, .ecall], j.Contained n := by
    refine ⟨.exit hi, List.forall_mem_cons.mpr ⟨hi.toContained, List.forall_mem_cons.mpr ⟨?_, ?_⟩⟩⟩
    · exact .register rfl (by decide)
    · exact List.forall_mem_singleton.mpr (.register rfl (by decide))
  rcases v with (v | v) | ⟨ty, s⟩
  case constant.float => cases h
  case constant.int =>
    cases h
    exact hcall (.li (by decide) _)
  case slot =>
    cases ty <;> cases h
    exact hcall (.ld (by decide) (hv rfl))

theorem intoReg_tame {r : IntReg} (hr : r ≠ .sp) (hv : v.Within n) : ∀ i ∈ (v.intoReg r).1, i.Tame outer n := by
  rcases v with (v | v) | ⟨ty, s⟩
  case constant.int =>
    rw [Value.intoReg]
    split
    · exact List.forall_mem_nil _
    · exact List.forall_mem_singleton.mpr (.li hr _)
  case constant.float => exact List.forall_mem_nil _
  case slot => exact List.forall_mem_singleton.mpr (.ld hr (hv rfl))

variable {yes no : Label}

theorem Condition.Emits.tame {lhs rhs : Value} {w : Width} {i : Instr} (hlhs : lhs.Within n) (hrhs : rhs.Within n)
    (hyes : yes ∈ outer) (hno : no ∈ outer)
    (h : Emits (lhs.operand w) (rhs.operand w) (.branch yes no) {} i) : i.Tame outer n := by
  have hplace {v : Value} {s : Slot} (hv : v.Within n) (hs : (v.operand w).place = .slot s) : s.Within n := by
    cases v with
    | constant c => cases hs
    | slot ty s' =>
      cases hs
      exact hv rfl
  -- no scratch register is the stack pointer
  have hfree {r : IntReg} (hr : (reservation (lhs.operand w) (rhs.operand w) (.branch yes no) {}).FreeInt r) :
      (if r = .zero then none else some r) ≠ some IntReg.sp := by
    have hmem := hr.1
    rw [(reservation_remaining ..).1] at hmem
    have hsp : .sp ∉ Pool.remaining ({} : Scratch).ints := by decide
    exact Instr.define_ne_sp fun he => hsp (he ▸ hmem)
  cases h with
  | slot ho hslot _ =>
    refine .slot ?_ rfl (by rintro ⟨⟩)
    rcases ho with rfl | rfl
    · exact hplace hlhs hslot
    · exact hplace hrhs hslot
  | constant _ hr => exact .register rfl (hfree hr) rfl (by simp)
  | move => exact .register rfl (by rintro ⟨⟩) rfl (by simp)
  | probe _ _ _ _ hr => exact .register rfl (hfree (hr.resolve_left (by rintro ⟨⟩))) rfl (by simp)
  | all _ _ hr => exact .register rfl (hfree (hr.resolve_left (by rintro ⟨⟩))) rfl (by simp)
  | any _ _ hr => exact .register rfl (hfree (hr.resolve_left (by rintro ⟨⟩))) rfl (by simp)
  | negate hr => cases hr
  | branch _ _ hdest =>
    cases hdest
    exact .jump rfl hyes
  | jump hdest =>
    cases hdest
    exact .jump rfl hno

theorem Comparison.code_tame {c : Comparison} {op : Relation} (h : c.code .nanSafe op yes no = .ok code)
    (hc : c.Within n) (hyes : yes ∈ outer) (hno : no ∈ outer) : ∀ i ∈ code, i.Tame outer n := by
  cases c with
  | float w a b =>
    obtain ⟨l, hl, rfl⟩ := ok_of_map h
    obtain ⟨d, hd⟩ := Condition.drawn_of_lower (Prod.ext hl rfl)
    rw [hd]
    exact fun i hi => (d.emits i hi).tame hc.1 hc.2 hyes hno
  | int a b =>
    cases h
    refine List.forall_mem_append.mpr ⟨List.forall_mem_append.mpr ⟨?_, ?_⟩, List.forall_mem_cons.mpr ⟨?_, ?_⟩⟩
    · exact intoReg_tame (by decide) hc.1
    · exact intoReg_tame (by decide) hc.2
    · cases op <;> exact .jump rfl hyes
    · exact List.forall_mem_singleton.mpr (.jump rfl hno)

theorem Expr.testCode_tame {e : Expr} {scopes : Scopes} (h : e.testCode .nanSafe scopes yes no = .ok code)
    (hscopes : ∀ ⦃e v⦄, Expr.value scopes e = .ok v → v.Within n) (hyes : yes ∈ outer) (hno : no ∈ outer) :
    ∀ i ∈ code, i.Tame outer n := by
  induction e generalizing yes no with
  | paren e ih => exact ih h hyes hno
  | not e ih => exact ih h hno hyes
  | compare op lhs rhs =>
    obtain ⟨c, hc, h⟩ := ok_of_bind h
    obtain ⟨a, b, ha, hb, hc⟩ := Comparison.ofExprs_eq_ok.mp hc
    refine c.code_tame (ok_of_mapError h) ?_ hyes hno
    obtain ⟨ty, -, ⟨w, -, rfl⟩ | ⟨-, -, -, rfl⟩⟩ := Comparison.ofValues_eq_ok.mp hc
    · exact ⟨hscopes ha, hscopes hb⟩
    · exact ⟨hscopes ha, hscopes hb⟩
  | _ => cases h

end Leaves

/-- All names that can be seen stand for slots of the frame. -/
structure GenState.Placed (g : GenState) : Prop where
  sound : g.frame.Sound
  within : ∀ ⦃x symbol⦄, g.scopes.lookup? x = some symbol → symbol.slot.Within g.frame.next

/-- What a piece of code generation makes, besides what it adds to the state. -/
structure GenState.Shapes (g : GenState) (code : List Instr) (g' : GenState) : Prop where
  placed : g'.Placed
  contained : ∀ i ∈ code, i.Contained g'.frame.next
  shaped : Shaped [] code
  bound : ∀ ⦃n⦄, g.hints.length ≤ n → n < g'.hints.length → ⟨n⟩ ∈ boundLabels code

/-- All successes of a piece of code generation are so, if they start in a frame that holds all names. -/
def Gen.Shapes (a : Gen) : Prop := ∀ ⦃g code g'⦄, g.Placed → a g = .ok (code, g') → g.Shapes code g'

theorem Scopes.lookup?_push (scopes : Scopes) (x : String) : scopes.push.lookup? x = scopes.lookup? x := by
  rw [lookup?_eq, lookup?_eq]
  rfl

namespace GenState

variable {g g₁ g' : GenState} {code more : List Instr}

theorem Placed.value (hg : g.Placed) {e : Expr} {v : Value} (h : e.value g.scopes = .ok v) :
    v.Within g.frame.next := by
  rcases Expr.value_eq_ok.mp h with ⟨c, -, rfl⟩ | ⟨x, ty, s, -, hx, rfl⟩ | ⟨x, ty, s, -, hx, rfl⟩
  · exact .constant c _
  all_goals
    rintro _ _ ⟨⟩
    exact hg.within hx

theorem Placed.push (hg : g.Placed) : { g with scopes := g.scopes.push }.Placed :=
  ⟨hg.sound, fun x _ hx => hg.within (g.scopes.lookup?_push x ▸ hx)⟩

theorem Placed.labelled (hg : g.Placed) (hint : String) : (g.labelled hint).Placed := ⟨hg.sound, hg.within⟩

/-- A declared name stands for a slot of the larger frame, as do all others. -/
theorem Declares.placed {x : String} {symbol : Symbol} {known : Knowledge} (h : g.Declares x symbol known g')
    (hg : g.Placed) : g'.Placed ∧ symbol.slot.Within g'.frame.next := by
  obtain ⟨-, hslot, rfl⟩ := h
  have haligned := hg.sound.aligned
  have hrange := symbol.slot.inRange
  have hin : symbol.slot.Within (g.frame.next + 8) := ⟨by omega, by omega, by simp [hslot]⟩
  refine ⟨⟨⟨by simp only; omega, by simp only; omega⟩, fun y found hy => ?_⟩, hin⟩
  rw [Scopes.lookup?_eq, List.cons_append, List.lookup_cons] at hy
  split at hy
  · cases hy
    exact hin
  · rw [← Scopes.lookup?_eq] at hy
    exact (hg.within hy).mono (Nat.le_add_right ..)

/-- Code without labels that makes none. -/
theorem Shapes.plain (hg' : g'.Placed) (hhints : g'.hints = g.hints)
    (hcode : ∀ i ∈ code, i.Tame [] g'.frame.next) : g.Shapes code g' where
  placed := hg'
  contained i hi := (hcode i hi).toContained
  shaped := .of_tame hcode
  bound n hn hn' := by
    rw [hhints] at hn'
    omega

/-- A declaration whose slot gets a value. -/
theorem Declares.shapes {x : String} {ty : Scalar} {slot : Slot} {known known' : Knowledge} {e : Expr} {v : Value}
    {kept : Option Constant} (h : g.Declares x ⟨.scalar ty, slot⟩ known' g') (hg : g.Placed)
    (hv : e.value g.scopes = .ok v) (hcode : storeCode known ty slot v = .ok (code, kept)) : g.Shapes code g' := by
  obtain ⟨hg', hslot⟩ := h.placed hg
  have hle : g.frame.next ≤ g'.frame.next := by simp [h.state]
  refine .plain hg' (by rw [h.state]) (storeCode_tame hcode hslot fun ty s hs => ?_)
  exact (hg.value hv hs).mono hle

theorem Shapes.append (h : g.Shapes code g₁) (h' : g₁.Shapes more g') (hframe : g₁.frame.next ≤ g'.frame.next) :
    g.Shapes (code ++ more) g' where
  placed := h'.placed
  contained := List.forall_mem_append.mpr ⟨fun i hi => (h.contained i hi).mono hframe, h'.contained⟩
  shaped := h.shaped.seq h'.shaped
  bound n hn hn' := by
    rw [boundLabels_append, List.mem_append]
    by_cases hle : n < g₁.hints.length
    · exact .inl (h.bound hn hle)
    · exact .inr (h'.bound (by omega) hn')

end GenState

namespace Stmt

variable {o : CompileOptions} {n k : Nat} {test : Expr} {body elseBody : Gen}

/-- After a block the names are those from before it, in a frame that has only grown. -/
theorem inScope_shapes (hadvances : body.Advances o n) (h : body.Shapes) : body.inScope.Shapes := by
  intro g code g' hg hcode
  obtain ⟨g₁, hbody, rfl⟩ := Gen.inScope_eq_ok.mp hcode
  have hshapes := h hg.push hbody
  have hg₁ := hadvances hbody
  refine ⟨⟨hshapes.placed.sound, fun x symbol hx => ?_⟩, hshapes.contained, hshapes.shaped, hshapes.bound⟩
  simp only [hg₁.pop] at hx
  exact (hg.within hx).mono hg₁.frame_le

theorem condGen_shapes_none (ho : o.lowering = .nanSafe) (hadvances : body.Advances o n) (h : body.Shapes) :
    (condGen o test body none).Shapes := by
  intro g code g' hg hcode
  cases condGen_eq_ok.mp hcode with
  | @decided b _ _ _ hb hcode =>
    cases b with
    | true => exact inScope_shapes hadvances h hg hcode
    | false =>
      cases hcode
      exact .plain hg rfl (List.forall_mem_nil _)
  | @short testCode bodyCode after hopen htest hbody =>
    rw [ho] at htest
    have hafter := inScope_shapes hadvances h ((hg.labelled _).labelled _) hbody
    have hframe := (inScope_advances hadvances hbody).frame_le
    have htest : ∀ i ∈ testCode, i.Tame [g.nextLabel, (g.labelled "then").nextLabel] g.frame.next :=
      Expr.testCode_tame htest (fun e v hv => hg.value hv) (by simp) (by simp)
    have hlabel {l : Label} : (Instr.label l).Contained after.frame.next := .register rfl (by rintro ⟨⟩)
    refine ⟨⟨hafter.placed.sound, hafter.placed.within⟩, ?_, ?_, ?_⟩
    · simp only [List.forall_mem_append, List.forall_mem_cons]
      exact ⟨⟨fun i hi => (htest i hi).mono hframe, hlabel, hafter.contained⟩, hlabel, List.forall_mem_nil _⟩
    · rw [List.append_assoc]
      refine (Shaped.of_tame htest).append (((Shaped.label _).seq hafter.shaped).seq (.label _)) ?_
      simp [Routine.boundLabels]
    · intro m hm hm'
      have hbound := @hafter.bound m
      simp only [GenState.labelled, List.length_append, List.length_singleton] at hbound
      simp only [boundLabels_append, Routine.boundLabels_label, List.mem_append, List.mem_cons, GenState.nextLabel,
        GenState.labelled, List.length_append, List.length_singleton, Label.mk.injEq]
      have : m = g.hints.length ∨ m = g.hints.length + 1 ∨ g.hints.length + 1 + 1 ≤ m := by omega
      grind

theorem condGen_shapes_some (ho : o.lowering = .nanSafe) (hadvances : body.Advances o n) (h : body.Shapes)
    (hadvances' : elseBody.Advances o k) (h' : elseBody.Shapes) : (condGen o test body (some elseBody)).Shapes := by
  intro g code g' hg hcode
  cases condGen_eq_ok.mp hcode with
  | @decided b _ _ _ hb hcode =>
    cases b with
    | true => exact inScope_shapes hadvances h hg hcode
    | false => exact inScope_shapes hadvances' h' hg hcode
  | @long testCode bodyCode after _ elseCode last hopen htest hbody helse =>
    rw [ho] at htest
    have hafter := inScope_shapes hadvances h ((hg.labelled _).labelled _) hbody
    have hentry : { after.labelled "endif" with known := g.known }.Placed := ⟨hafter.placed.sound, hafter.placed.within⟩
    have hlast := inScope_shapes hadvances' h' hentry helse
    have hframe := (inScope_advances hadvances hbody).frame_le
    have hframe' := (inScope_advances hadvances' helse).frame_le
    have htest : ∀ i ∈ testCode, i.Tame [g.nextLabel, (g.labelled "then").nextLabel] g.frame.next :=
      Expr.testCode_tame htest (fun e v hv => hg.value hv) (by simp) (by simp)
    have hlabel {l : Label} : (Instr.label l).Contained last.frame.next := .register rfl (by rintro ⟨⟩)
    refine ⟨⟨hlast.placed.sound, hlast.placed.within⟩, ?_, ?_, ?_⟩
    · simp only [List.forall_mem_append, List.forall_mem_cons]
      exact ⟨⟨⟨fun i hi => (htest i hi).mono (Nat.le_trans hframe hframe'), hlabel,
        fun i hi => (hafter.contained i hi).mono hframe'⟩, .register rfl (by rintro ⟨⟩), hlabel, hlast.contained⟩,
        hlabel, List.forall_mem_nil _⟩
    · -- from the last label back to the test
      have hend := (Shaped.label (g.labelled "then").nextLabel).seq (hlast.shaped.seq (.label after.nextLabel))
      have hjump := (Shaped.jump after.nextLabel).append hend (by simp [Routine.boundLabels])
      have hthen := (Shaped.label g.nextLabel).seq (hafter.shaped.seq hjump)
      have := (Shaped.of_tame htest).append hthen (by simp [Routine.boundLabels])
      simpa using this
    · intro m hm hm'
      have hbound := @hafter.bound m
      have hbound' := @hlast.bound m
      simp only [GenState.labelled, List.length_append, List.length_singleton] at hbound hbound'
      simp only [boundLabels_append, Routine.boundLabels_label, List.mem_append, List.mem_cons, GenState.nextLabel,
        GenState.labelled, List.length_append, List.length_singleton, Label.mk.injEq]
      have : m = g.hints.length ∨ m = g.hints.length + 1 ∨ g.hints.length + 1 + 1 ≤ m := by omega
      grind [Routine.boundLabels]

mutual

theorem gen_shapes (ho : o.lowering = .nanSafe) (s : Stmt) : (s.gen o).Shapes := by
  cases s with
  | define x e =>
    intro g code g' hg h
    by_cases he : ∃ ty, e.unparen = .new ty
    · obtain ⟨ty, he⟩ := he
      obtain ⟨cell, rfl, hdeclares⟩ := (defineGen_new he).mp h
      obtain ⟨hg', hcell⟩ := hdeclares.placed hg
      exact .plain hg' (by rw [hdeclares.state]) (zeroCode_tame hcell)
    · obtain ⟨v, slot, kept, hv, hcode, hdeclares⟩ := (defineGen_value fun ty hty => he ⟨ty, hty⟩).mp h
      exact hdeclares.shapes hg hv hcode
  | var x ty init =>
    intro g code g' hg h
    cases init with
    | none =>
      obtain ⟨slot, rfl, hdeclares⟩ := varGen_none.mp h
      obtain ⟨hg', hslot⟩ := hdeclares.placed hg
      exact .plain hg' (by rw [hdeclares.state]) (zeroCode_tame hslot)
    | some e =>
      obtain ⟨v, slot, kept, hv, hcode, hdeclares⟩ := varGen_some.mp h
      exact hdeclares.shapes hg hv hcode
  | assign x e =>
    intro g code g' hg h
    obtain ⟨ty, slot, v, kept, hx, hv, hcode, rfl⟩ := assignGen_eq_ok.mp h
    exact .plain ⟨hg.sound, hg.within⟩ rfl (storeCode_tame hcode (hg.within hx) (hg.value hv))
  | store x e =>
    intro g code g' hg h
    obtain ⟨ty, cell, v, kept, hx, hv, hcode, rfl⟩ := storeGen_eq_ok.mp h
    exact .plain ⟨hg.sound, hg.within⟩ rfl (storeCode_tame hcode (hg.within hx) (hg.value hv))
  | inc x | dec x =>
    intro g code g' hg h
    obtain ⟨slot, hx, rfl, rfl⟩ := stepGen_eq_ok.mp h
    exact .plain ⟨hg.sound, hg.within⟩ rfl (stepCode_tame (by decide) (hg.within hx))
  | exit e =>
    intro g code g' hg h
    obtain ⟨v, hv, hcode, rfl⟩ := exitGen_eq_ok.mp h
    obtain ⟨hshaped, hcontained⟩ := exitCode_shaped hcode (hg.value hv)
    exact ⟨⟨hg.sound, hg.within⟩, hcontained, hshaped, fun n hn hn' => absurd hn' (Nat.not_lt.mpr hn)⟩
  | cond test body otherwise =>
    cases otherwise with
    | none => exact condGen_shapes_none ho (genList_advances ho body) (genList_shapes ho body)
    | some otherwise =>
      exact condGen_shapes_some ho (genList_advances ho body) (genList_shapes ho body) (genList_advances ho otherwise)
        (genList_shapes ho otherwise)

theorem genList_shapes (ho : o.lowering = .nanSafe) (ss : List Stmt) : (genList o ss).Shapes := by
  intro g code g' hg h
  cases ss with
  | nil =>
    cases h
    exact .plain hg rfl (List.forall_mem_nil _)
  | cons s ss =>
    obtain ⟨first, g₁, second, hs, hss, rfl⟩ := Gen.andThen_eq_ok.mp h
    have hfirst := gen_shapes ho s hg hs
    exact hfirst.append (genList_shapes ho ss hfirst.placed hss) (genList_advances ho ss hss).frame_le

end

theorem exitCode_getLast? {v : Value} {code : List Instr} (h : exitCode v = .ok code) :
    code.getLast? = some .ecall := by
  rcases v with (v | v) | ⟨ty, s⟩
  case constant.float => cases h
  case constant.int =>
    cases h
    rfl
  case slot =>
    cases ty <;> cases h
    rfl

/-- Statements of which the last one ends the program end with a call. -/
theorem genList_getLast? {ss : List Stmt} {g g' : GenState} {code : List Instr} (h : genList o ss g = .ok (code, g'))
    (hlast : (ss.getLast?.map isExit).getD false = true) : code.getLast? = some .ecall := by
  induction ss generalizing g code with
  | nil => cases hlast
  | cons s ss ih =>
    obtain ⟨first, g₁, second, hs, hss, rfl⟩ := Gen.andThen_eq_ok.mp h
    cases ss with
    | nil =>
      cases hss
      rw [List.append_nil]
      cases s with
      | exit e =>
        obtain ⟨v, -, hcode, -⟩ := exitGen_eq_ok.mp hs
        exact exitCode_getLast? hcode
      | _ => cases hlast
    | cons s' ss =>
      rw [List.getLast?_cons_cons] at hlast
      rw [List.getLast?_append, ih hss hlast, Option.some_or]

end Stmt

namespace Program

variable {p : Program} {o : CompileOptions} {r : Routine} {code : List Instr}

theorem prologue_shaped (size : Nat) : Shaped [] (prologue size) := by
  unfold prologue
  split
  · exact .nil
  · refine ⟨fun i rest hsuffix l hl => ?_, .singleton _, by simp⟩
    cases List.mem_singleton.mp (hsuffix.subset List.mem_cons_self)
    cases hl

theorem finish_shaped (p : Program) (n : Nat) : Shaped [] p.finish ∧ ∀ i ∈ p.finish, i.Contained n := by
  unfold finish
  split
  · exact ⟨.nil, List.forall_mem_nil _⟩
  · exact exitCode_shaped rfl (.constant (.int 0) n)

theorem finish_getLast? {g : GenState} (h : Stmt.genList o p.body {} = .ok (code, g)) :
    (code ++ p.finish).getLast? = some .ecall := by
  unfold finish
  split
  · rw [List.append_nil]
    exact Stmt.genList_getLast? h ‹_›
  · rw [List.getLast?_append]
    rfl

/-- The frame is taken with an immediate that fits. -/
theorem prologue_immediate {size : Nat} (hsize : size ≤ 2048) {i : Instr} (hi : i ∈ prologue size) :
    i.access? = none ∧ ∀ ⦃n⦄, i.immediate? = some n → -2048 ≤ n ∧ n ≤ 2047 := by
  unfold prologue at hi
  split at hi
  · cases hi
  · cases List.mem_singleton.mp hi
    refine ⟨rfl, fun n hn => ?_⟩
    cases hn
    omega

theorem safe_of_compile (ho : o.lowering = .nanSafe) (h : p.compile o = .ok r) : r.Safe := by
  have hreachable := frameSize_le ho h
  have hnodup := boundLabels_nodup ho h
  obtain ⟨code, g, hcode, rfl⟩ := compile_eq_ok.mp h
  have hstart : ({} : GenState).Placed := ⟨⟨rfl, Nat.zero_le _⟩, by rintro x symbol ⟨⟩⟩
  have hadvances := Stmt.genList_advances ho p.body hcode
  have hshapes := Stmt.genList_shapes ho p.body hstart hcode
  obtain ⟨hfinish, hcontained⟩ := p.finish_shaped g.frame.size
  have hbody : ∀ i ∈ code ++ p.finish, i.Contained g.frame.size := by
    refine List.forall_mem_append.mpr ⟨fun i hi => ?_, hcontained⟩
    exact (hshapes.contained i hi).mono g.frame.next_le_size
  have hshaped := (prologue_shaped g.frame.size).seq (hshapes.shaped.seq hfinish)
  simp only [List.append_assoc] at hnodup ⊢
  exact {
    labels := fun l => by
      have hlabels := hadvances.labels l
      have hbound := @hshapes.bound l.index
      rw [← List.append_assoc, boundLabels_code] at hnodup ⊢
      split
      · exact List.count_eq_one_of_mem hnodup (hbound (Nat.zero_le _) ‹_›)
      · exact List.count_eq_zero_of_not_mem fun hl => absurd (hlabels hl).2 ‹_›
    forward := fun i rest hsuffix l hl => (hshaped.forward hsuffix hl).resolve_right List.not_mem_nil
    aligned := Nat.mul_mod_left ..
    reachable := hreachable
    accesses := List.forall_mem_append.mpr
      ⟨fun i hi base offset ha => (by cases (prologue_immediate hreachable hi).1.symm.trans ha),
        fun i hi => (hbody i hi).access⟩
    immediates := List.forall_mem_append.mpr
      ⟨fun i hi => (prologue_immediate hreachable hi).2, fun i hi => (hbody i hi).immediate⟩
    stack := ⟨code ++ p.finish, rfl, fun i hi => (hbody i hi).stack⟩
    announced := hshaped.announced
    start := hshaped.start
    finish := by rw [List.getLast?_append, finish_getLast? hcode, Option.some_or] }

end Program
end Comparand
