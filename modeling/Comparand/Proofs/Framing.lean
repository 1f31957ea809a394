import Comparand.Proofs.Shape
import Comparand.Proofs.Supply

/-! What lowered code leaves alone: memory, the places of its operands, and every register that is neither the
destination nor free in the scratch it was lowered with. -/
namespace Comparand

/-- The instruction does not write to memory and changes no registers outside two sets. -/
structure Instr.ChangesOnly (ints : IntReg → Prop) (floats : FloatReg → Prop) (i : Instr) : Prop where
  memory : i.writesMemory = false
  int : ∀ ⦃r⦄, i.intDef? = some r → ints r
  float : ∀ ⦃f⦄, i.floatDef? = some f → floats f

namespace Machine

variable {ints : IntReg → Prop} {floats : FloatReg → Prop} {m m' m'' : Machine} {i : Instr} {c : Control}

/-- Memory and the registers outside two sets are as before. -/
structure ChangesOnly (ints : IntReg → Prop) (floats : FloatReg → Prop) (m m' : Machine) : Prop where
  memory : m'.memory = m.memory
  int : ∀ r, ¬ ints r → m'.int r = m.int r
  float : ∀ f, ¬ floats f → m'.float f = m.float f

theorem ChangesOnly.refl (m : Machine) : ChangesOnly ints floats m m := ⟨rfl, fun _ _ => rfl, fun _ _ => rfl⟩

theorem ChangesOnly.trans (h : ChangesOnly ints floats m m') (h' : ChangesOnly ints floats m' m'') :
    ChangesOnly ints floats m m'' :=
  ⟨h'.memory.trans h.memory, fun r hr => (h'.int r hr).trans (h.int r hr),
    fun f hf => (h'.float f hf).trans (h.float f hf)⟩

theorem ChangesOnly.tick (m : Machine) : ChangesOnly ints floats m m.tick := ⟨rfl, fun _ _ => rfl, fun _ _ => rfl⟩

/-- Memory changes only by a store, and a float register only if it is the one that is defined. -/
theorem exec_frame (h : m.exec i = .ok (m', c)) :
    (i.writesMemory = false → m'.memory = m.memory) ∧ ∀ f, i.floatDef? ≠ some f → m'.float f = m.float f := by
  have hfloat {m : Machine} {fd : FloatReg} (v : UInt64) (f : FloatReg) (hf : some fd ≠ some f) :
      (m.setFloat fd v).float f = m.float f := float_setFloat_of_ne fun he => hf (he ▸ rfl)
  cases i with
  | li | addi | xori | and | or | fcmp | branch | jump | label =>
    cases h
    simp
  | ld =>
    obtain ⟨v, -, he⟩ := ok_of_map h
    cases he
    simp
  | sd =>
    obtain ⟨memory, -, he⟩ := ok_of_map h
    cases he
    exact ⟨nofun, fun _ _ => rfl⟩
  | fstore w =>
    cases w <;>
    · obtain ⟨memory, -, he⟩ := ok_of_map h
      cases he
      exact ⟨nofun, fun _ _ => rfl⟩
  | fload w =>
    cases w <;>
    · obtain ⟨v, -, he⟩ := ok_of_map h
      cases he
      exact ⟨fun _ => rfl, hfloat _⟩
  | fmv w =>
    cases w <;>
    · cases h
      exact ⟨fun _ => rfl, hfloat _⟩
  | ecall =>
    simp only [exec] at h
    split at h <;> cases h
    exact ⟨fun _ => rfl, fun _ _ => rfl⟩

theorem ChangesOnly.of_exec (hi : i.ChangesOnly ints floats) (h : m.exec i = .ok (m', c)) :
    ChangesOnly ints floats m m' := by
  obtain ⟨hmemory, hfloat⟩ := exec_frame h
  exact ⟨hmemory hi.memory, fun r hr => (executes_of_exec h).ints r fun hd => hr (hi.int hd),
    fun f hf => hfloat f fun hd => hf (hi.float hd)⟩

/-- How a run leaves a stretch of code, in whatever routine and whatever comes after it: at its end, for a label, or by
a fault. -/
inductive Leaves (code : List Instr) (budget : Nat) (m m' : Machine) : Prop where
  | through (left : Nat) (run : ∀ p rest, runFrom p budget (code ++ rest) m = runFrom p left rest m')
  | away (left : Nat) (l : Label) (run : ∀ p rest, runFrom p budget (code ++ rest) m = runAt p left l m')
  | fault (fault : Fault) (run : ∀ p rest, runFrom p budget (code ++ rest) m = (.error fault, m'))

variable {code : List Instr} {budget budget' : Nat}

/-- An instruction that is not the last one leaves the rest to be run. -/
theorem Leaves.cons (hrun : ∀ p rest, runFrom p budget (i :: rest) m = runFrom p budget' rest m')
    (h : Leaves code budget' m' m'') : Leaves (i :: code) budget m m'' := by
  cases h with
  | through left run => exact .through left fun p rest => (hrun p (code ++ rest)).trans (run p rest)
  | away left l run => exact .away left l fun p rest => (hrun p (code ++ rest)).trans (run p rest)
  | fault e run => exact .fault e fun p rest => (hrun p (code ++ rest)).trans (run p rest)

/-- However a run leaves code that makes no calls, it changes only what the instructions change. -/
theorem exists_leaves (hcode : ∀ i ∈ code, i.ChangesOnly ints floats) (hcall : .ecall ∉ code) (budget : Nat)
    (m : Machine) : ∃ m', Leaves code budget m m' ∧ ChangesOnly ints floats m m' := by
  induction code generalizing budget m with
  | nil => exact ⟨m, .through budget fun _ _ => rfl, .refl m⟩
  | cons i code ih =>
    obtain ⟨hi, hcode⟩ := List.forall_mem_cons.mp hcode
    obtain ⟨hne, hcall⟩ := not_or.mp (mt List.mem_cons.mpr hcall)
    -- labels come first, as they are passed without any budget
    cases hlabel : i.isLabel with
    | true =>
      obtain ⟨m', hleaves, hchanges⟩ := ih hcode hcall budget m
      refine ⟨m', hleaves.cons fun p rest => ?_, hchanges⟩
      rw [runFrom_dropWhile, List.dropWhile_cons_of_pos hlabel, ← runFrom_dropWhile]
    | false =>
      cases budget with
      | zero =>
        refine ⟨m, .fault (.stepLimit m.maxSteps) fun p rest => ?_, .refl m⟩
        rw [List.cons_append, runFrom_zero hlabel]
      | succ budget =>
        cases hexec : m.tick.exec i with
        | error e =>
          refine ⟨m.tick, .fault e fun p rest => ?_, .tick m⟩
          rw [List.cons_append, runFrom_cons hlabel, hexec]
        | ok q =>
          obtain ⟨m₁, control⟩ := q
          have hstep : ChangesOnly ints floats m m₁ := (ChangesOnly.tick m).trans (.of_exec hi hexec)
          cases control with
          | next =>
            obtain ⟨m', hleaves, hchanges⟩ := ih hcode hcall budget m₁
            exact ⟨m', hleaves.cons fun p rest => runFrom_next hlabel hexec budget, hstep.trans hchanges⟩
          | goto l =>
            exact ⟨m₁, .away budget l fun p rest => runFrom_goto hlabel hexec budget, hstep⟩
          | halt =>
            rcases (executes_of_exec hexec).control with ⟨h, -⟩ | ⟨_, -, h⟩ | ⟨h, -⟩
            · cases h
            · cases h
            · exact absurd h.symm hne

end Machine

namespace Condition

variable {c : Condition} {lhs rhs : Operand} {dest : Destination} {s s' : Scratch} {i : Instr} {l : Lowered}

/-- The integer registers that lowered code may change: that of the destination, and the free ones. -/
def ChangesInt (dest : Destination) (s : Scratch) (r : IntReg) : Prop := dest = .value r ∨ s.FreeInt r

/-- The float registers that lowered code may change: the free ones that no operand is in. -/
def ChangesFloat (lhs rhs : Operand) (s : Scratch) (f : FloatReg) : Prop :=
  s.FreeFloat f ∧ .register f ∉ [lhs.place, rhs.place]

theorem freeInt_of_reservation {r : IntReg} (h : (reservation lhs rhs dest s).FreeInt r) : s.FreeInt r := by
  refine ⟨(reservation_remaining lhs rhs dest s).1 ▸ h.1, fun hr => h.2 ?_⟩
  exact mem_reserved_ints.mpr (.inl hr)

theorem changesFloat_of_reservation {f : FloatReg} (h : (reservation lhs rhs dest s).FreeFloat f) :
    ChangesFloat lhs rhs s f := by
  have hfree := mt mem_reserved_floats.mpr h.2
  rw [not_or, not_or] at hfree
  obtain ⟨hreserved, hlhs, hrhs⟩ := hfree
  exact ⟨⟨(reservation_remaining lhs rhs dest s).2 ▸ h.1, hreserved⟩, by simp [Ne.symm hlhs, Ne.symm hrhs]⟩

theorem Emits.changesOnly (h : Emits lhs rhs dest s i) :
    i.ChangesOnly (ChangesInt dest s) (ChangesFloat lhs rhs s) := by
  -- a definition of `zero` is none
  have hdef {rd : IntReg} (hrd : dest = .value rd ∨ (reservation lhs rhs dest s).FreeInt rd) ⦃r : IntReg⦄
      (hr : (if rd = .zero then none else some rd) = some r) : ChangesInt dest s r := by
    have he : rd = r := by
      split at hr
      · cases hr
      · exact Option.some.inj hr
    exact he ▸ hrd.imp id freeInt_of_reservation
  have hfloat {fd : FloatReg} (hfd : (reservation lhs rhs dest s).FreeFloat fd) ⦃f : FloatReg⦄
      (hf : some fd = some f) : ChangesFloat lhs rhs s f := by
    cases hf
    exact changesFloat_of_reservation hfd
  cases h with
  | slot ho hslot hf => exact ⟨rfl, nofun, hfloat hf⟩
  | constant v hr => exact ⟨rfl, hdef (.inr hr), nofun⟩
  | move w r hf => exact ⟨rfl, nofun, hfloat hf⟩
  | probe test w f f' hr => exact ⟨rfl, hdef hr, nofun⟩
  | all r' r'' hr => exact ⟨rfl, hdef hr, nofun⟩
  | any r' r'' hr => exact ⟨rfl, hdef hr, nofun⟩
  | negate hr => exact ⟨rfl, hdef (.inl hr), nofun⟩
  | branch test r hdest => exact ⟨rfl, nofun, nofun⟩
  | jump hdest => exact ⟨rfl, nofun, nofun⟩

/-- Whatever the scratch is like, lowered code writes to no memory, to no operand and to no register but that of the
destination and those that are free. So however a run leaves the code, all else is as it was. An operand in a frame slot
is still found there unless the stack pointer itself was given away. -/
theorem lower_changesOnly (h : c.lower lhs rhs dest s = (.ok l, s')) :
    (∀ i ∈ l.code, i.ChangesOnly (ChangesInt dest s) (ChangesFloat lhs rhs s)) ∧
    ∀ budget m, ∃ m', Machine.Leaves l.code budget m m' ∧
      Machine.ChangesOnly (ChangesInt dest s) (ChangesFloat lhs rhs s) m m' ∧
      ∀ o ∈ [lhs, rhs], m'.int .sp = m.int .sp → o.wordIn m' = o.wordIn m := by
  obtain ⟨d, hcode⟩ := drawn_of_lower h
  have hchanges : ∀ i ∈ l.code, i.ChangesOnly (ChangesInt dest s) (ChangesFloat lhs rhs s) := by
    rw [hcode]
    exact fun i hi => (d.emits i hi).changesOnly
  refine ⟨hchanges, fun budget m => ?_⟩
  have hcall : .ecall ∉ l.code := by
    intro hmem
    rw [hcode] at hmem
    cases d.emits _ hmem
  obtain ⟨m', hleaves, hm⟩ := Machine.exists_leaves hchanges hcall budget m
  refine ⟨m', hleaves, hm, fun o ho hsp => Operand.wordIn_congr hm.memory hsp fun f hf => hm.float f ?_⟩
  rintro ⟨-, hnone⟩
  apply hnone
  rw [← hf]
  exact List.mem_map_of_mem (f := Operand.place) ho

/-- The code draws from pools that have the destination and an operand in them. -/
theorem lower_changesOnly_cramped :
    ∃ l, ueq.lower ⟨.register .ft0, .double⟩ ⟨.constant .nan, .double⟩ (.value .a0) .cramped = (.ok l, .cramped) ∧
      (∀ i ∈ l.code, i.floatDef? ≠ some .ft0 ∧ i.intDef? ≠ some .t6) ∧
      ∃ m', Machine.Leaves l.code 9 (.fresh 2048 9) m' ∧ m'.memory = (Machine.fresh 2048 9).memory ∧
        m'.float .ft0 = 0 ∧ m'.int .sp = .ofNat stackTop := by
  refine ⟨_, rfl, ?_⟩
  have hlower : ueq.lower ⟨.register .ft0, .double⟩ ⟨.constant .nan, .double⟩ (.value .a0) .cramped = (.ok _, _) := rfl
  obtain ⟨hcode, hrun⟩ := lower_changesOnly hlower
  have hint {r : IntReg} (hr : r ∉ [.a0, .t1]) : ¬ ChangesInt (.value .a0) .cramped r := by
    rintro (h | ⟨hmem, hfree⟩)
    · cases h
      exact hr (by decide)
    · change r ∈ [.t6, .a0, .t1, .t1] at hmem
      change r ∉ [.t6] at hfree
      grind
  have hfloat : ¬ ChangesFloat ⟨.register .ft0, .double⟩ ⟨.constant .nan, .double⟩ .cramped .ft0 :=
    fun h => h.2 (by decide)
  obtain ⟨m', hleaves, hm, -⟩ := hrun 9 (.fresh 2048 9)
  refine ⟨fun i hi => ⟨fun hd => hfloat ((hcode i hi).float hd), fun hd => hint (by decide) ((hcode i hi).int hd)⟩, m',
    hleaves, hm.memory, ?_, ?_⟩
  · rw [hm.float _ hfloat]
    decide
  · rw [hm.int _ (hint (by decide))]
    decide

end Condition
end Comparand
