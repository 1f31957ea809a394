import Comparand.Proofs.Lowering
import Comparand.Proofs.SourceCost
import Comparand.Proofs.Tracking
import Comparand.Proofs.WellFormed

/-! The code of single statements, run on a machine whose frame holds what the places hold. -/
namespace Comparand

/-- The slots of a frame hold what their places hold. Nothing is asked of the stack if there is no frame. -/
structure Machine.Represents (m : Machine) (size : Nat) (places : Places) (contents : Contents) : Prop where
  frame : 0 < size → m.HasFrame size
  holds : ∀ ⦃i : Nat⦄ ⦃ty s d⦄, places[i]? = some (ty, s) → contents[i]? = some d → m.Holds s d

namespace Machine.Represents

variable {m m' : Machine} {size i : Nat} {g g' : GenState} {places : Places} {env env' : Env}
  {contents : Contents} {ty : Scalar} {s : Slot} {d : Datum}

theorem of_same (h : m.Represents size places contents) (hmemory : m'.memory = m.memory)
    (hsp : m'.int .sp = m.int .sp) : m'.Represents size places contents :=
  ⟨fun hpos => (Confined.of_same hmemory hsp).hasFrame (h.frame hpos),
    fun _ _ _ _ hi hd => (h.holds hi hd).of_same hmemory hsp⟩

theorem hasFrame (h : m.Represents size places contents) (hs : s.Within size) : m.HasFrame size := h.frame hs.pos

theorem write (h : m.Represents size places contents) (ht : g.Tracks places env contents)
    (hsize : g.frame.next ≤ size) (hi : places[i]? = some (ty, s)) (hw : Writes s m m') (hd : m'.Holds s d) :
    m'.Represents size places (contents.set i d) := by
  have hs := (ht.within hi).mono hsize
  have hframe := h.hasFrame hs
  refine ⟨fun _ => (hw.confined hframe hs).hasFrame hframe, ?_⟩
  intro j ty' s' d' hj hd'
  by_cases hij : i = j
  · subst hij
    cases hi.symm.trans hj
    rw [List.getElem?_set_self (ht.lt_length hi)] at hd'
    cases hd'
    exact hd
  · rw [List.getElem?_set_ne hij] at hd'
    have hne : s' ≠ s := fun he => hij (ht.place_unique hi (he ▸ hj))
    exact (h.holds hj hd').of_writes hw hne hframe ((ht.within hj).mono hsize) hs

/-- A new place has a slot that no place had before. -/
theorem declare (h : m.Represents size places contents) (ht : g.Tracks places env contents)
    (ht' : g'.Tracks (places ++ [(ty, s)]) env' (contents ++ [d])) (hsize : g'.frame.next ≤ size)
    (hw : Writes s m m') (hd : m'.Holds s d) : m'.Represents size (places ++ [(ty, s)]) (contents ++ [d]) := by
  have hi : (places ++ [(ty, s)])[places.length]? = some (ty, s) := by simp
  have hs := (ht'.within hi).mono hsize
  have hframe := h.hasFrame hs
  refine ⟨fun _ => (hw.confined hframe hs).hasFrame hframe, ?_⟩
  intro j ty' s' d' hj hd'
  by_cases hij : places.length = j
  · subst hij
    cases hi.symm.trans hj
    rw [← ht.length, List.getElem?_concat_length] at hd'
    cases hd'
    exact hd
  · have hne : s' ≠ s := fun he => hij (ht'.place_unique hi (he ▸ hj))
    have hlt : j < places.length := by
      have := (List.getElem?_eq_some_iff.mp hj).1
      simp only [List.length_append, List.length_singleton] at this
      omega
    have hlength := ht.length
    refine Holds.of_writes ?_ hw hne hframe ((ht'.within hj).mono hsize) hs
    rw [List.getElem?_append_left hlt] at hj
    rw [List.getElem?_append_left (by omega)] at hd'
    exact h.holds hj hd'

end Machine.Represents
theorem toUInt64_ofInt (n : Int) : (Int64.ofInt n).toUInt64 = .ofInt n := by
  apply UInt64.toNat_inj.mp
  rw [UInt64.ofInt, UInt64.toNat_ofNat']
  change (BitVec.ofInt 64 n).toNat = _
  rw [BitVec.toNat_ofInt]
  omega

/-- The low half of an integer, read as signed. -/
theorem toInt32_low (v : Int64) : v.toUInt64.toUInt32.toInt32 = v.toInt32 := by
  apply Int32.toBitVec_inj.mp
  change v.toBitVec.setWidth 32 = v.toBitVec.signExtend 32
  rw [BitVec.signExtend_eq_setWidth_of_le _ (by decide)]

theorem Datum.datum_word {d : Datum} {w : Width} (hw : d.type.width? = some w) : w.datum d.word = d := by
  cases d <;> cases hw
  · rw [Width.datum, Datum.word, toUInt32_box]
  · rfl

theorem Width.word_datum (w : Width) (v : Binary64) : (w.datum (w.word v)).word = w.word v := by
  cases w with
  | single => rw [datum, Datum.word, word, toUInt32_box]
  | double => rfl

/-- The constant in a register of a float type is the constant that a variable of the type holds. -/
theorem Scalar.datum?_word {ty : Scalar} {w : Width} (hw : ty.width? = some w) (c : Constant) :
    ty.datum? c = some (w.datum (w.word c.toBinary64)) ∧ (w.datum (w.word c.toBinary64)).type = ty ∧
      (w.datum (w.word c.toBinary64)).constant = .float (w.round c.toBinary64) := by
  cases ty <;> cases hw
  · rw [Width.datum, Width.word, toUInt32_box]
    exact ⟨rfl, rfl, rfl⟩
  · exact ⟨rfl, rfl, rfl⟩

namespace Machine

variable {m : Machine} {s : Slot} {d : Datum} {w : Width} {size : Nat}

theorem Holds.wordIn (h : m.Holds s d) (hw : d.type.width? = some w) : Operand.wordIn m ⟨.slot s, w⟩ = .ok d.word := by
  cases d <;> cases hw
  · exact congrArg (Except.map box) h
  · exact h

variable (p : Routine) (rest : List Instr)

/-- A register is loaded first, and then a store writes the slot. -/
theorem Reaches.then_store {m₁ : Machine} {ahead ahead' : List Instr} {c c' : Cost} (h : Reaches p ahead m c ahead' m₁)
    (hmemory : m₁.memory = m.memory) (hsp : m₁.int .sp = m.int .sp)
    (h' : ∃ m', Reaches p ahead' m₁ c' rest m' ∧ Writes s m₁ m' ∧ m'.Holds s d) :
    ∃ m', Reaches p ahead m (c + c') rest m' ∧ Writes s m m' ∧ m'.Holds s d := by
  obtain ⟨m', hrun, hw, hd⟩ := h'
  exact ⟨m', h.trans hrun, hw.of_same hmemory hsp, hd⟩

theorem HasFrame.of_same {m₁ : Machine} (h : m.HasFrame size) (hmemory : m₁.memory = m.memory)
    (hsp : m₁.int .sp = m.int .sp) : m₁.HasFrame size :=
  (Confined.of_same hmemory hsp).hasFrame h

/-- A slot that is set to zero holds the initial datum of any type. -/
theorem zeroCode_run (hm : m.HasFrame size) (hs : s.Within size) (ty : Scalar) :
    ∃ m', Reaches p (zeroCode s ++ rest) m ⟨1, false⟩ rest m' ∧ Writes s m m' ∧ m'.Holds s ty.initial := by
  obtain ⟨m', hrun, hw, hload, hload'⟩ := sd_run p rest hm hs .zero
  rw [int_zero] at hload hload'
  refine ⟨m', hrun, hw, ?_⟩
  cases ty with
  | int | float64 => exact hload
  | float32 => exact hload'

/-- An integer in a register goes into a slot. -/
theorem sd_holds {r : IntReg} {v : Int64} (hm : m.HasFrame size) (hs : s.Within size) (hv : m.int r = v.toUInt64) :
    ∃ m', Reaches p (.sd r .sp s.offset :: rest) m ⟨1, false⟩ rest m' ∧ Writes s m m' ∧ m'.Holds s (.int v) := by
  obtain ⟨m', hrun, hw, hload, -⟩ := sd_run p rest hm hs r
  exact ⟨m', hrun, hw, hload.trans (congrArg Except.ok hv)⟩

theorem intCode_run (hm : m.HasFrame size) (hs : s.Within size) (v : Int64) :
    ∃ m', Reaches p (.li .t0 v :: .sd .t0 .sp s.offset :: rest) m ⟨2, false⟩ rest m' ∧ Writes s m m' ∧
      m'.Holds s (.int v) := by
  have hli : Reaches p (.li .t0 v :: .sd .t0 .sp s.offset :: rest) m ⟨1, false⟩ (.sd .t0 .sp s.offset :: rest)
      (m.tick.setInt .t0 v.toUInt64) := .next rfl rfl rfl
  have hsp : (m.tick.setInt .t0 v.toUInt64).int .sp = m.int .sp := int_setInt_of_ne (by decide)
  exact hli.then_store p rest memory_setInt hsp
    (sd_holds p rest (hm.of_same memory_setInt hsp) hs (int_setInt_self (by decide)))

theorem floatCode_run (hm : m.HasFrame size) (hs : s.Within size) (w : Width) (x : Binary64) :
    ∃ m', Reaches p (.li .t0 (w.immediate x) :: .fmv w .ft0 .t0 :: .fstore w .ft0 .sp s.offset :: rest) m
        ⟨3, false⟩ rest m' ∧ Writes s m m' ∧ m'.Holds s (w.datum (w.word x)) := by
  have ht0 : IntReg.t0 ≠ .zero := by decide
  have hload := @constant_run m .ft0 w p (.fstore w .ft0 .sp s.offset :: rest) _ ht0 x
  generalize hm₁ : ((m.tick.setInt .t0 (w.immediate x).toUInt64).tick.setFloat .ft0 (w.word x)) = m₁ at hload
  have hmemory : m₁.memory = m.memory := by
    rw [← hm₁]
    exact memory_setInt
  have hsp : m₁.int .sp = m.int .sp := by
    rw [← hm₁]
    exact int_setInt_of_ne (by decide)
  have hword : m₁.float .ft0 = w.word x := by
    rw [← hm₁, float_setFloat_self]
  have hstore := fstore_run p rest (hm.of_same hmemory hsp) hs w .ft0
  rw [hword] at hstore
  exact hload.then_store p rest hmemory hsp hstore

theorem copyCode_run (hm : m.HasFrame size) {t : Slot} (hs : s.Within size) {v : Int64} (hv : m.Holds t (.int v)) :
    ∃ m', Reaches p (.ld .t0 .sp t.offset :: .sd .t0 .sp s.offset :: rest) m ⟨2, false⟩ rest m' ∧ Writes s m m' ∧
      m'.Holds s (.int v) := by
  have hld : Reaches p (.ld .t0 .sp t.offset :: .sd .t0 .sp s.offset :: rest) m ⟨1, false⟩
      (.sd .t0 .sp s.offset :: rest) (m.tick.setInt .t0 v.toUInt64) :=
    .next rfl rfl (congrArg (Except.map _) hv)
  have hsp : (m.tick.setInt .t0 v.toUInt64).int .sp = m.int .sp := int_setInt_of_ne (by decide)
  exact hld.then_store p rest memory_setInt hsp
    (sd_holds p rest (hm.of_same memory_setInt hsp) hs (int_setInt_self (by decide)))

theorem floatCopyCode_run (hm : m.HasFrame size) {t : Slot} (hs : s.Within size) (hd : m.Holds t d)
    (hw : d.type.width? = some w) :
    ∃ m', Reaches p (.fload w .ft0 .sp t.offset :: .fstore w .ft0 .sp s.offset :: rest) m ⟨2, false⟩ rest m' ∧
      Writes s m m' ∧ m'.Holds s d := by
  have hload := @fload_run m .ft0 w d.word p (.fstore w .ft0 .sp s.offset :: rest) t (hd.wordIn hw)
  have hstore := @fstore_run (m.tick.setFloat .ft0 d.word) s size p rest (hm.of_same rfl rfl) hs w .ft0
  rw [float_setFloat_self, Datum.datum_word hw] at hstore
  exact hload.then_store p rest rfl rfl hstore

/-- An integer in a slot is changed by an immediate, wrapping around. -/
theorem stepCode_run (hm : m.HasFrame size) (hs : s.Within size) {v : Int64} (hv : m.Holds s (.int v)) (delta : Int) :
    ∃ m', Reaches p (.ld .t0 .sp s.offset :: .addi .t0 .t0 delta :: .sd .t0 .sp s.offset :: rest) m ⟨3, false⟩ rest m' ∧
      Writes s m m' ∧ m'.Holds s (.int (v + .ofInt delta)) := by
  have hld : Reaches p (.ld .t0 .sp s.offset :: .addi .t0 .t0 delta :: .sd .t0 .sp s.offset :: rest) m ⟨1, false⟩
      (.addi .t0 .t0 delta :: .sd .t0 .sp s.offset :: rest) (m.tick.setInt .t0 v.toUInt64) :=
    .next rfl rfl (congrArg (Except.map _) hv)
  generalize hm₁ : m.tick.setInt .t0 v.toUInt64 = m₁ at hld
  have hmemory : m₁.memory = m.memory := by
    rw [← hm₁]
    exact memory_setInt
  have hsp : m₁.int .sp = m.int .sp := by
    rw [← hm₁]
    exact int_setInt_of_ne (by decide)
  have hvalue : m₁.int .t0 = v.toUInt64 := by
    rw [← hm₁]
    exact int_setInt_self (by decide)
  have haddi : Reaches p (.addi .t0 .t0 delta :: .sd .t0 .sp s.offset :: rest) m₁ ⟨1, false⟩
      (.sd .t0 .sp s.offset :: rest) (m₁.tick.setInt .t0 (m₁.int .t0 + .ofInt delta)) := .next rfl rfl rfl
  have hsp' : (m₁.tick.setInt .t0 (m₁.int .t0 + .ofInt delta)).int .sp = m₁.int .sp := int_setInt_of_ne (by decide)
  have hsum : (m₁.tick.setInt .t0 (m₁.int .t0 + .ofInt delta)).int .t0 = (v + .ofInt delta).toUInt64 := by
    rw [int_setInt_self (by decide), hvalue, Int64.toUInt64_add, toUInt64_ofInt]
  exact (hld.trans haddi).then_store p rest (memory_setInt.trans hmemory) (hsp'.trans hsp)
    (sd_holds p rest (hm.of_same (memory_setInt.trans hmemory) (hsp'.trans hsp)) hs hsum)

/-- A program ends with the low half of what it loads into `a0`. -/
theorem Reaches.then_exit {ahead : List Instr} {v : Int64}
    (h : Reaches p ahead m ⟨1, false⟩ (.li .a7 exitCall.toInt64 :: .ecall :: rest) (m.tick.setInt .a0 v.toUInt64)) :
    ∃ m', Exits p ahead m ⟨3, false⟩ m' ∧ m'.exit.code = v.toInt32 ∧ m'.memory = m.memory ∧
      m'.int .sp = m.int .sp := by
  generalize hm₁ : m.tick.setInt .a0 v.toUInt64 = m₁ at h
  have hli : Reaches p (.li .a7 exitCall.toInt64 :: .ecall :: rest) m₁ ⟨1, false⟩ (.ecall :: rest)
      (m₁.tick.setInt .a7 exitCall.toInt64.toUInt64) := .next rfl rfl rfl
  refine ⟨_, (h.trans hli).exits (.ecall (int_setInt_self (by decide))), ?_, ?_, ?_⟩
  · have hvalue : ((m₁.tick.setInt .a7 exitCall.toInt64.toUInt64).tick).int .a0 = v.toUInt64 := by
      refine (int_setInt_of_ne (by decide)).trans ?_
      rw [int_tick, ← hm₁, int_setInt_self (by decide)]
    rw [exit, hvalue, toInt32_low]
  · refine memory_setInt.trans ?_
    rw [memory_tick, ← hm₁]
    exact memory_setInt
  · refine (int_setInt_of_ne (by decide)).trans ?_
    rw [int_tick, ← hm₁]
    exact int_setInt_of_ne (by decide)

end Machine

theorem storeCode_slot {k : Knowledge} {ty ty' : Scalar} {target s : Slot} {code : List Instr} {kept : Option Constant}
    (h : storeCode k ty target (.slot ty' s) = .ok (code, kept)) :
    ty' = ty ∧ kept = k.get? s ∧ code = match ty.width? with
      | none => [.ld .t0 .sp s.offset, .sd .t0 .sp target.offset]
      | some w => [.fload w .ft0 .sp s.offset, .fstore w .ft0 .sp target.offset] := by
  have hty : ty' = ty := storeCode_isOk.mp ⟨code, kept, h⟩
  subst hty
  cases ty' <;>
  · simp only [storeCode, Scalar.width?, ne_eq, not_true_eq_false, if_false] at h
    cases h
    exact ⟨rfl, rfl, rfl⟩

/-- Storing a value leaves in the slot what the value is at the type, and the compiler knows no more than that. -/
theorem storeCode_run (p : Routine) (rest : List Instr) {g : GenState} {places : Places} {env : Env}
    {contents : Contents} {r : Rvalue} {v : Value} {ty : Scalar} {target : Slot} {code : List Instr}
    {kept : Option Constant} (ht : g.Tracks places env contents) (hr : r.Denotes places v)
    (h : storeCode g.known ty target v = .ok (code, kept)) :
    ∃ d, r.datum? contents ty = some d ∧ d.type = ty ∧ (∀ c, kept = some c → d.constant = c) ∧
      code.length = r.storeSteps ty ∧
      ∀ {m : Machine} {size : Nat}, m.Represents size places contents → target.Within size →
        ∃ m', Machine.Reaches p (code ++ rest) m ⟨code.length, false⟩ rest m' ∧ Machine.Writes target m m' ∧
          m'.Holds target d := by
  cases hr with
  | constant c =>
    cases hw : ty.width? with
    | some w =>
      simp only [storeCode, hw] at h
      cases h
      obtain ⟨hd, htype, hconstant⟩ := Scalar.datum?_word hw c
      refine ⟨_, hd, htype, fun c' hc' => hconstant.trans (Option.some.inj hc'), ?_,
        fun hm hs => Machine.floatCode_run p rest (hm.hasFrame hs) hs w _⟩
      have hty : ty ≠ .int := by
        rintro rfl
        cases hw
      cases c <;> simp [Rvalue.storeSteps, hty]
    | none =>
      cases ty <;> cases hw
      cases c with
      | float v => cases h
      | int v =>
        cases h
        refine ⟨.int v, rfl, rfl, fun c hc => Option.some.inj hc, ?_⟩
        by_cases hv : v = 0
        · subst hv
          exact ⟨rfl, fun hm hs => Machine.zeroCode_run p rest (hm.hasFrame hs) hs .int⟩
        · simp only [hv, if_false, Rvalue.storeSteps, if_true]
          exact ⟨rfl, fun hm hs => Machine.intCode_run p rest (hm.hasFrame hs) hs v⟩
  | @stored i ty' s hi =>
    obtain ⟨rfl, rfl, rfl⟩ := storeCode_slot h
    obtain ⟨d, hd, rfl⟩ := ht.datum hi
    refine ⟨d, by simp [Rvalue.datum?, hd], rfl, fun c hc => ?_, ?_, fun hm hs => ?_⟩
    · obtain ⟨j, ty, d', hj, hd', hc⟩ := ht.known.get? hc
      cases ht.place_unique hi hj
      cases hd.symm.trans hd'
      exact hc
    · cases d <;> rfl
    · have hholds := hm.holds hi hd
      cases d with
      | int v => exact Machine.copyCode_run p rest (hm.hasFrame hs) hs hholds
      | single x | double x => exact Machine.floatCopyCode_run p rest (hm.hasFrame hs) hs hholds rfl

theorem exitCode_run (p : Routine) (rest : List Instr) {g : GenState} {places : Places} {env : Env}
    {contents : Contents} {r : Rvalue} {v : Value} {code : List Instr} (ht : g.Tracks places env contents)
    (hr : r.Denotes places v) (h : exitCode v = .ok code) :
    ∃ x, r.datum? contents .int = some (.int x) ∧ code.length = 3 ∧
      ∀ {m : Machine} {size : Nat}, m.Represents size places contents →
        ∃ m', Machine.Exits p (code ++ rest) m ⟨3, false⟩ m' ∧ m'.exit.code = x.toInt32 ∧
          m'.memory = m.memory ∧ m'.int .sp = m.int .sp := by
  cases hr with
  | constant c =>
    cases c with
    | float x => cases h
    | int x =>
      cases h
      exact ⟨x, rfl, rfl, fun _ => Machine.Reaches.then_exit p rest (.next rfl rfl rfl)⟩
  | @stored i ty s hi =>
    cases ty <;> cases h
    obtain ⟨d, hd, htype⟩ := ht.datum hi
    cases d <;> cases htype
    rename_i x
    refine ⟨x, by simp [Rvalue.datum?, hd, Datum.type], rfl, fun hm => Machine.Reaches.then_exit p rest ?_⟩
    exact .next rfl rfl (congrArg (Except.map _) (hm.holds hi hd))

end Comparand
