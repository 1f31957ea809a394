import Comparand.Compare.Operand
import Comparand.Proofs.Execution
import Comparand.Proofs.Meaning
import Comparand.Proofs.Memory

/-! Slots of a frame on a machine: what they hold, and what storing into one of them leaves alone. -/
namespace Comparand

/-- A whole slot in a frame of `size` bytes. -/
structure Slot.Within (s : Slot) (size : Nat) : Prop where
  nonneg : 0 ≤ s.offset
  aligned : s.offset % 8 = 0
  fits : s.offset + 8 ≤ size

theorem Slot.Within.mono {s : Slot} {n k : Nat} (h : s.Within n) (hle : n ≤ k) : s.Within k :=
  ⟨h.nonneg, h.aligned, by have := h.fits; omega⟩

theorem Slot.Within.pos {s : Slot} {size : Nat} (h : s.Within size) : 0 < size := by
  have hnonneg := h.nonneg
  have hfits := h.fits
  omega

/-- What a float store of a register word leaves in a slot. -/
def Width.datum : Width → UInt64 → Datum
  | .single, x => .single ⟨x.toUInt32⟩
  | .double, x => .double ⟨x⟩

/-- Slots are known by their offset. -/
theorem Slot.offset_ne {s t : Slot} (h : s ≠ t) : s.offset ≠ t.offset := by
  intro he
  apply h
  cases s
  cases t
  simp_all

namespace Memory

variable {m m' : Memory} {a : UInt64}

theorem load64_congr (hsize : m'.size = m.size)
    (h : ∀ b, a.toNat ≤ b → b < a.toNat + 8 → m'.byte b = m.byte b) : m'.load64 a = m.load64 a := by
  rw [load64, load64, check, check, hsize, read_congr h]

theorem load32_congr (hsize : m'.size = m.size)
    (h : ∀ b, a.toNat ≤ b → b < a.toNat + 4 → m'.byte b = m.byte b) : m'.load32 a = m.load32 a := by
  rw [load32, load32, check, check, hsize, read_congr h]

end Memory

namespace Machine

variable {m m' m'' : Machine} {s t : Slot} {size : Nat} {d : Datum}

/-- The stack pointer is at the low end of a frame in memory. -/
structure HasFrame (m : Machine) (size : Nat) : Prop where
  aligned : (m.int .sp).toNat % 8 = 0
  above : stackTop - m.memory.size ≤ (m.int .sp).toNat
  below : (m.int .sp).toNat + size ≤ stackTop

theorem HasFrame.address (hm : m.HasFrame size) (hs : s.Within size) :
    (m.address .sp s.offset).toNat = (m.int .sp).toNat + s.offset.toNat := by
  have hfits := hs.fits
  have hbelow := hm.below
  have htop : stackTop = 2 ^ 31 := rfl
  obtain ⟨n, hn⟩ := Int.eq_ofNat_of_zero_le hs.nonneg
  have hoffset : (UInt64.ofInt s.offset).toNat = n := by
    rw [UInt64.ofInt, UInt64.toNat_ofNat', hn]
    omega
  rw [Machine.address, UInt64.toNat_add, hoffset, hn]
  omega

theorem HasFrame.allows (hm : m.HasFrame size) (hs : s.Within size) : m.memory.Allows (m.address .sp s.offset) 8 := by
  have haddress := hm.address hs
  have hfits := hs.fits
  have hnonneg := hs.nonneg
  have hbelow := hm.below
  have habove := hm.above
  have haligned := hm.aligned
  have hs' := hs.aligned
  constructor <;> omega

/-- A slot holds a datum. Only the low half of a slot matters to a single. -/
def Holds (m : Machine) (s : Slot) : Datum → Prop
  | .int v => m.memory.load64 (m.address .sp s.offset) = .ok v.toUInt64
  | .single x => m.memory.load32 (m.address .sp s.offset) = .ok x.bits
  | .double x => m.memory.load64 (m.address .sp s.offset) = .ok x.bits

/-- The frame and all memory outside one slot is as before. -/
structure Writes (s : Slot) (m m' : Machine) : Prop where
  sp : m'.int .sp = m.int .sp
  extent : m'.memory.size = m.memory.size
  bytes : ∀ b, b < (m.address .sp s.offset).toNat ∨ (m.address .sp s.offset).toNat + 8 ≤ b →
    m'.memory.byte b = m.memory.byte b

/-- All memory outside the frame is as before, and the frame is in its place. -/
structure Confined (size : Nat) (m m' : Machine) : Prop where
  sp : m'.int .sp = m.int .sp
  extent : m'.memory.size = m.memory.size
  bytes : ∀ b, b < (m.int .sp).toNat ∨ (m.int .sp).toNat + size ≤ b → m'.memory.byte b = m.memory.byte b

theorem Confined.of_same (hmemory : m'.memory = m.memory) (hsp : m'.int .sp = m.int .sp) : Confined size m m' :=
  ⟨hsp, by rw [hmemory], fun _ _ => by rw [hmemory]⟩

theorem Confined.trans (h : Confined size m m') (h' : Confined size m' m'') : Confined size m m'' :=
  ⟨h'.sp.trans h.sp, h'.extent.trans h.extent, fun b hb => (h'.bytes b (h.sp ▸ hb)).trans (h.bytes b hb)⟩

theorem Confined.hasFrame (h : Confined size m m') (hm : m.HasFrame size) : m'.HasFrame size := by
  obtain ⟨haligned, habove, hbelow⟩ := hm
  rw [← h.sp] at haligned habove hbelow
  rw [← h.extent] at habove
  exact ⟨haligned, habove, hbelow⟩

theorem Writes.confined (h : Writes s m m') (hm : m.HasFrame size) (hs : s.Within size) : Confined size m m' := by
  refine ⟨h.sp, h.extent, fun b hb => h.bytes b ?_⟩
  have haddress := hm.address hs
  have hfits := hs.fits
  have hnonneg := hs.nonneg
  omega

/-- Registers do not matter before a slot is written. -/
theorem Writes.of_same {m₁ : Machine} (hmemory : m₁.memory = m.memory) (hsp : m₁.int .sp = m.int .sp)
    (h : Writes s m₁ m') : Writes s m m' := by
  obtain ⟨hsp', hsize, hbytes⟩ := h
  rw [Machine.address, hsp, ← Machine.address, hmemory] at hbytes
  exact ⟨hsp'.trans hsp, hsize.trans (by rw [hmemory]), hbytes⟩

theorem Holds.of_same (hmemory : m'.memory = m.memory) (hsp : m'.int .sp = m.int .sp) (h : m.Holds s d) :
    m'.Holds s d := by
  cases d <;> simpa only [Holds, Machine.address, hmemory, hsp] using h

/-- A slot keeps what it holds when another one is written. -/
theorem Holds.of_writes (h : m.Holds s d) (hw : Writes t m m') (hne : s ≠ t) (hm : m.HasFrame size)
    (hs : s.Within size) (ht : t.Within size) : m'.Holds s d := by
  have haddress : m'.address .sp s.offset = m.address .sp s.offset := by
    rw [Machine.address, hw.sp, ← Machine.address]
  have hapart (b : Nat) (hlow : (m.address .sp s.offset).toNat ≤ b)
      (hhigh : b < (m.address .sp s.offset).toNat + 8) : m'.memory.byte b = m.memory.byte b := by
    apply hw.bytes
    rw [hm.address hs] at hlow hhigh
    rw [hm.address ht]
    have hoffset := Slot.offset_ne hne
    have hs' := hs.aligned
    have ht' := ht.aligned
    have hs₀ := hs.nonneg
    have ht₀ := ht.nonneg
    omega
  cases d with
  | int v | double x => rwa [Holds, haddress, Memory.load64_congr hw.extent hapart]
  | single x =>
    rwa [Holds, haddress, Memory.load32_congr hw.extent fun b hlow hhigh => hapart b hlow (by omega)]

/-- The machine after a write of `n` bytes that starts at a slot. -/
def written (m : Machine) (s : Slot) (n v : Nat) : Machine :=
  { m.tick with memory := m.memory.write (m.address .sp s.offset).toNat n v }

theorem memory_written (m : Machine) (s : Slot) (n v : Nat) :
    (m.written s n v).memory = m.memory.write (m.address .sp s.offset).toNat n v := rfl

theorem address_written (m : Machine) (s t : Slot) (n v : Nat) :
    (m.written s n v).address .sp t.offset = m.address .sp t.offset := rfl

theorem Writes.written (m : Machine) (s : Slot) {n : Nat} (hn : n ≤ 8) (v : Nat) : Writes s m (m.written s n v) :=
  ⟨rfl, m.memory.size_write _ _ _, fun _ _ => Memory.byte_write_outside (by omega)⟩

variable (p : Routine) (rest : List Instr)

theorem sd_run (hm : m.HasFrame size) (hs : s.Within size) (r : IntReg) :
    ∃ m', Reaches p (.sd r .sp s.offset :: rest) m ⟨1, false⟩ rest m' ∧ Writes s m m' ∧
      m'.memory.load64 (m'.address .sp s.offset) = .ok (m.int r) ∧
      m'.memory.load32 (m'.address .sp s.offset) = .ok (m.int r).toUInt32 := by
  have hallows := hm.allows hs
  have hexec : m.tick.exec (.sd r .sp s.offset) = .ok (m.written s 8 (m.int r).toNat, .next) :=
    congrArg (Except.map _) (hallows.store64 _)
  refine ⟨_, .next rfl rfl hexec, .written m s (Nat.le_refl 8) _, ?_, ?_⟩
  · rw [memory_written, address_written, hallows.load64_write]
  · rw [memory_written, address_written, hallows.load32_write64]

theorem fstore_run (hm : m.HasFrame size) (hs : s.Within size) (w : Width) (f : FloatReg) :
    ∃ m', Reaches p (.fstore w f .sp s.offset :: rest) m ⟨1, false⟩ rest m' ∧ Writes s m m' ∧
      m'.Holds s (w.datum (m.float f)) := by
  have hallows := hm.allows hs
  cases w with
  | double =>
    have hexec : m.tick.exec (.fstore .double f .sp s.offset) = .ok (m.written s 8 (m.float f).toNat, .next) :=
      congrArg (Except.map _) (hallows.store64 _)
    refine ⟨_, .next rfl rfl hexec, .written m s (Nat.le_refl 8) _, ?_⟩
    rw [Width.datum, Holds, memory_written, address_written, hallows.load64_write]
  | single =>
    have hexec : m.tick.exec (.fstore .single f .sp s.offset) =
        .ok (m.written s 4 (m.float f).toUInt32.toNat, .next) :=
      congrArg (Except.map _) (hallows.half.store32 _)
    refine ⟨_, .next rfl rfl hexec, .written m s (by decide) _, ?_⟩
    rw [Width.datum, Holds, memory_written, address_written, hallows.half.load32_write]

end Machine
end Comparand
