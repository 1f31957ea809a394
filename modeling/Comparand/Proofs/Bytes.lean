import Comparand.Proofs.Placement

/-! Memory as one list of bytes. An access that is aligned and inside the stack reads or replaces a slice of the list,
the lowest byte first, and any other access is refused and changes nothing. -/
namespace Comparand

/-- The low `n` bytes of a number, the lowest first. -/
def littleEndian (n v : Nat) : List UInt8 := (List.range n).map fun i => .ofNat (v / 256 ^ i)

/-- The word with the given halves. -/
def ofHalves (low high : UInt32) : UInt64 := high.toUInt64 <<< 32 ||| low.toUInt64

/-- The high half of a word. -/
def highHalf (v : UInt64) : UInt32 := (v >>> 32).toUInt32

theorem toNat_ofHalves (low high : UInt32) : (ofHalves low high).toNat = low.toNat + 2 ^ 32 * high.toNat := by
  have hlow : low.toNat < 2 ^ 32 := low.toNat_lt
  have hhigh : high.toNat < 2 ^ 32 := high.toNat_lt
  have hshift : high.toNat <<< 32 % 2 ^ 64 = high.toNat <<< 32 := by
    apply Nat.mod_eq_of_lt
    rw [Nat.shiftLeft_eq]
    omega
  rw [ofHalves, UInt64.toNat_or, UInt64.toNat_shiftLeft, UInt32.toNat_toUInt64, UInt32.toNat_toUInt64]
  change high.toNat <<< 32 % 2 ^ 64 ||| low.toNat = _
  rw [hshift, ← Nat.shiftLeft_add_eq_or_of_lt hlow, Nat.shiftLeft_eq]
  omega

theorem toNat_highHalf (v : UInt64) : (highHalf v).toNat = v.toNat / 2 ^ 32 := by
  have hv : v.toNat < 2 ^ 64 := v.toNat_lt
  rw [highHalf, UInt64.toNat_toUInt32, UInt64.toNat_shiftRight]
  change v.toNat >>> 32 % 2 ^ 32 = _
  rw [Nat.shiftRight_eq_div_pow]
  omega

@[simp] theorem toUInt32_ofHalves (low high : UInt32) : (ofHalves low high).toUInt32 = low := by
  have hlow : low.toNat < 2 ^ 32 := low.toNat_lt
  apply UInt32.toNat_inj.mp
  rw [UInt64.toNat_toUInt32, toNat_ofHalves]
  omega

@[simp] theorem highHalf_ofHalves (low high : UInt32) : highHalf (ofHalves low high) = high := by
  have hlow : low.toNat < 2 ^ 32 := low.toNat_lt
  apply UInt32.toNat_inj.mp
  rw [toNat_highHalf, toNat_ofHalves]
  omega

namespace Memory

variable {m m' : Memory} {a b : UInt64} {n k v : Nat}

/-- The `n` bytes from `a` on. -/
def window (m : Memory) (a n : Nat) : List UInt8 := (List.range' a n).map m.byte

@[simp] theorem length_window (m : Memory) (a n : Nat) : (m.window a n).length = n := by simp [window]

theorem window_append (m : Memory) (a n k : Nat) : m.window a n ++ m.window (a + n) k = m.window a (n + k) := by
  rw [window, window, ← List.map_append, List.range'_append_1, window]

theorem window_congr {a : Nat} (h : ∀ b, a ≤ b → b < a + n → m'.byte b = m.byte b) :
    m'.window a n = m.window a n := by
  apply List.map_congr_left
  intro b hb
  obtain ⟨hlow, hhigh⟩ := List.mem_range'_1.mp hb
  exact h b hlow hhigh

theorem window_of_digits {a : Nat} (h : ∀ i < n, m.byte (a + i) = .ofNat (v / 256 ^ i)) :
    m.window a n = littleEndian n v := by
  rw [window, List.range'_eq_map_range, List.map_map]
  apply List.map_congr_left
  intro i hi
  exact h i (List.mem_range.mp hi)

/-- The bytes of the stack, from its lowest address on. -/
def bytes (m : Memory) : List UInt8 := m.window (stackTop - m.size) m.size

/-- Where an address of the stack lies in its bytes. -/
def index (m : Memory) (a : UInt64) : Nat := a.toNat - (stackTop - m.size)

@[simp] theorem length_bytes (m : Memory) : m.bytes.length = m.size := m.length_window _ _

/-- Any bytes can be the bytes of a stack. -/
theorem exists_bytes (bs : List UInt8) : ∃ m : Memory, m.bytes = bs := by
  -- the bytes are put in one after the other, at addresses of their own
  have hfill : ∀ n, ∃ m : Memory, m.size = bs.length ∧ ∀ i < n, m.byte (stackTop - bs.length + i) = bs.getD i 0 := by
    intro n
    induction n with
    | zero => exact ⟨{ size := bs.length }, rfl, fun i hi => absurd hi (Nat.not_lt_zero i)⟩
    | succ n ih =>
      obtain ⟨m, hsize, hm⟩ := ih
      refine ⟨m.setByte (stackTop - bs.length + n) (bs.getD n 0), hsize, ?_⟩
      intro i hi
      rw [byte_setByte]
      by_cases hin : i = n
      · subst hin
        rw [if_pos rfl]
      · rw [if_neg (by omega), hm i (by omega)]
  obtain ⟨m, hsize, hm⟩ := hfill bs.length
  refine ⟨m, List.ext_getElem (by rw [length_bytes, hsize]) ?_⟩
  intro i hi hi'
  simp [bytes, window, hsize, hm i hi', hi']

/-- The `n` bytes from `a` on all lie in the stack. -/
def Contains (m : Memory) (a : UInt64) (n : Nat) : Prop := stackTop - m.size ≤ a.toNat ∧ a.toNat + n ≤ stackTop

theorem Allows.index_add_le (h : m.Allows a n) : m.index a + n ≤ m.size := by
  have habove := h.above
  have hbelow := h.below
  unfold index
  omega

theorem Allows.base_add_index (h : m.Allows a n) : stackTop - m.size + m.index a = a.toNat := by
  have habove := h.above
  unfold index
  omega

/-- The verdict on an access of `n` bytes at `a`. -/
structure Judges {α : Type} (m : Memory) (a : UInt64) (n : Nat) (q : Except Fault α) : Prop where
  misaligned : q = .error (.misaligned a n) ↔ ¬ n ∣ a.toNat
  outside : q = .error (.memory a) ↔ n ∣ a.toNat ∧ ¬ m.Contains a n
  inside : (∃ x, q = .ok x) ↔ n ∣ a.toNat ∧ m.Contains a n
  /-- The bytes that are accessed exist. -/
  bounds : (∃ x, q = .ok x) → m.index a + n ≤ m.bytes.length

theorem judges_check {α : Type} (m : Memory) (a : UInt64) (n : Nat) (f : Unit → α) :
    m.Judges a n ((m.check a n).map f) := by
  by_cases haligned : n ∣ a.toNat
  · have hmod : a.toNat % n = 0 := Nat.mod_eq_zero_of_dvd haligned
    by_cases hin : m.Contains a n
    · have hallows : m.Allows a n := ⟨hmod, hin.1, hin.2⟩
      rw [hallows.check, Except.map]
      have hle := hallows.index_add_le
      constructor <;> simp [haligned, hin, hle]
    · have hcheck : m.check a n = .error (.memory a) := by
        rw [check, if_neg (by simpa using hmod)]
        exact if_neg hin
      rw [hcheck, Except.map]
      constructor <;> simp [haligned, hin]
  · have hmod : a.toNat % n ≠ 0 := fun h => haligned (Nat.dvd_of_mod_eq_zero h)
    rw [check, if_pos hmod, Except.map]
    constructor <;> simp [haligned]

/-- A number that is read consists of the bytes it is read from. -/
theorem ofNat_read_div (m : Memory) {a i : Nat} (hi : i < n) : UInt8.ofNat (m.read a n / 256 ^ i) = m.byte (a + i) := by
  induction n generalizing a i with
  | zero => exact absurd hi (Nat.not_lt_zero i)
  | succ n ih =>
    have hbyte : (m.byte a).toNat < 256 := (m.byte a).toNat_lt
    rw [read]
    cases i with
    | zero =>
      apply UInt8.toNat_inj.mp
      rw [UInt8.toNat_ofNat', Nat.pow_zero, Nat.div_one, Nat.add_mul_mod_self_left, Nat.add_zero]
      exact Nat.mod_eq_of_lt hbyte
    | succ i =>
      have hrest : ((m.byte a).toNat + 256 * m.read (a + 1) n) / 256 = m.read (a + 1) n := by omega
      rw [Nat.pow_succ', ← Nat.div_div_eq_div_mul, hrest, ih (by omega), Nat.add_assoc, Nat.add_comm 1 i]

theorem window_read (m : Memory) (a n : Nat) : m.window a n = littleEndian n (m.read a n) :=
  window_of_digits fun _ hi => (m.ofNat_read_div hi).symm

theorem window_write (m : Memory) (a n v : Nat) : (m.write a n v).window a n = littleEndian n v := by
  apply window_of_digits
  intro i hi
  rw [byte_write, if_pos (by omega), Nat.add_sub_cancel_left]

/-- An access divides the bytes into those below, its own and those above. -/
theorem Allows.bytes_eq (h : m.Allows a n) : m.bytes =
    m.window (stackTop - m.size) (m.index a) ++ m.window a.toNat n ++
      m.window (a.toNat + n) (m.size - (m.index a + n)) := by
  have hle := h.index_add_le
  have hbase := h.base_add_index
  have hsum : m.index a + (n + (m.size - (m.index a + n))) = m.size := by omega
  rw [List.append_assoc, window_append, ← hbase, window_append, hsum, bytes]

theorem Allows.slice (h : m.Allows a n) : (m.bytes.drop (m.index a)).take n = m.window a.toNat n := by
  rw [h.bytes_eq, List.append_assoc, List.drop_left' (m.length_window _ _), List.take_left' (m.length_window _ _)]

theorem Allows.bytes_write (h : m.Allows a n) (v : Nat) : (m.write a.toNat n v).bytes =
    m.bytes.take (m.index a) ++ littleEndian n v ++ m.bytes.drop (m.index a + n) := by
  have hbase := h.base_add_index
  have hbelow : (m.write a.toNat n v).window (stackTop - m.size) (m.index a) =
      m.window (stackTop - m.size) (m.index a) :=
    window_congr fun b hlow hhigh => byte_write_outside (by omega)
  have habove (k : Nat) : (m.write a.toNat n v).window (a.toNat + n) k = m.window (a.toNat + n) k :=
    window_congr fun b hlow hhigh => byte_write_outside (by omega)
  have htake : m.bytes.take (m.index a) = m.window (stackTop - m.size) (m.index a) := by
    rw [h.bytes_eq, List.append_assoc, List.take_left' (m.length_window _ _)]
  have hdrop : m.bytes.drop (m.index a + n) = m.window (a.toNat + n) (m.size - (m.index a + n)) := by
    rw [h.bytes_eq, List.drop_left' (by simp)]
  have hsize : (m.write a.toNat n v).size = m.size := size_write ..
  have hindex : (m.write a.toNat n v).index a = m.index a := by rw [index, hsize, index]
  rw [(h.of_size hsize).bytes_eq, hsize, hindex, hbelow, habove, window_write, htake, hdrop]

/-- What a store of the low `n` bytes of `v` at `a` does to the bytes, and to the loads that do not overlap it. -/
structure Stores (m : Memory) (a : UInt64) (n v : Nat) (m' : Memory) : Prop where
  bytes : m'.bytes = m.bytes.take (m.index a) ++ littleEndian n v ++ m.bytes.drop (m.index a + n)
  load64 : ∀ b : UInt64, b.toNat + 8 ≤ a.toNat ∨ a.toNat + n ≤ b.toNat → m'.load64 b = m.load64 b
  load32 : ∀ b : UInt64, b.toNat + 4 ≤ a.toNat ∨ a.toNat + n ≤ b.toNat → m'.load32 b = m.load32 b

theorem Allows.stores (h : m.Allows a n) (v : Nat) : m.Stores a n v (m.write a.toNat n v) where
  bytes := h.bytes_write v
  load64 b hb := load64_congr (size_write ..) fun x hlow hhigh => byte_write_outside (by omega)
  load32 b hb := load32_congr (size_write ..) fun x hlow hhigh => byte_write_outside (by omega)

theorem Allows.of_check {u : Unit} (h : m.check a n = .ok u) : m.Allows a n := by
  unfold Memory.check at h
  split at h
  · cases h
  · split at h <;> cases h
    next haligned hin => exact ⟨by simpa using haligned, hin.1, hin.2⟩

/-- Four bytes further on in the stack there is no wrapping. -/
theorem Allows.toNat_add_four (h : m.Allows a 8) : (a + 4).toNat = a.toNat + 4 := by
  have hbelow := h.below
  have htop : stackTop = 0x80000000 := rfl
  rw [UInt64.toNat_add]
  change (a.toNat + 4) % 2 ^ 64 = _
  omega

theorem Allows.upper_half (h : m.Allows a 8) : m.Allows (a + 4) 4 := by
  obtain ⟨haligned, habove, hbelow⟩ := h
  have hnat := Allows.toNat_add_four ⟨haligned, habove, hbelow⟩
  constructor <;> omega

/-- The high half of a word comes last. -/
theorem Allows.load32_write64_high (h : m.Allows a 8) (v : UInt64) :
    (m.write a.toNat 8 v.toNat).load32 (a + 4) = .ok (highHalf v) := by
  have hv : v.toNat < 2 ^ 64 := v.toNat_lt
  have hhigh : UInt32.ofNat (v.toNat / 256 ^ 4 % 256 ^ 4) = highHalf v := by
    apply UInt32.toNat_inj.mp
    rw [UInt32.toNat_ofNat', toNat_highHalf]
    omega
  rw [(h.upper_half.of_size (size_write ..)).load32, h.toNat_add_four, read_write_part (by decide), hhigh]

/-- The lowest address of the word that an address is in. -/
def wordAt (a : UInt64) : UInt64 := a - a % 8

theorem load64_map {f : UInt64 → UInt64} (hsize : m'.size = m.size)
    (hread : .ofNat (m'.read b.toNat 8) = f (.ofNat (m.read b.toNat 8))) : m'.load64 b = (m.load64 b).map f := by
  have hcheck : m'.check b 8 = m.check b 8 := by rw [check, check, hsize]
  rw [load64, load64, hcheck, hread]
  cases m.check b 8 <;> rfl

theorem ofNat_read_eight (m : Memory) (a : Nat) :
    UInt64.ofNat (m.read a 8) = ofHalves (.ofNat (m.read a 4)) (.ofNat (m.read (a + 4) 4)) := by
  have hlow := m.read_lt a 4
  have hhigh := m.read_lt (a + 4) 4
  apply UInt64.toNat_inj.mp
  rw [toNat_ofHalves, UInt64.toNat_ofNat', UInt32.toNat_ofNat', UInt32.toNat_ofNat', m.read_add a 4 4]
  omega

theorem ofNat_read_write (m : Memory) (a : Nat) (w : UInt32) :
    UInt32.ofNat ((m.write a 4 w.toNat).read a 4) = w := by
  have hw : w.toNat < 256 ^ 4 := w.toNat_lt
  rw [read_write (Nat.le_refl 4), Nat.mod_eq_of_lt hw, UInt32.ofNat_toNat]

/-- A half word that is stored replaces one half of the word that it is in. -/
theorem Allows.load64_write32 (h : m.Allows a 4) (w : UInt32) :
    (m.write a.toNat 4 w.toNat).load64 (wordAt a) = (m.load64 (wordAt a)).map fun v =>
      if a % 8 = 0 then ofHalves w (highHalf v) else ofHalves v.toUInt32 w := by
  have haligned := h.aligned
  have hmod : (a % 8).toNat = a.toNat % 8 := UInt64.toNat_mod ..
  have hword : (wordAt a).toNat = a.toNat - a.toNat % 8 := by
    rw [wordAt, UInt64.toNat_sub_of_le _ _ (UInt64.le_iff_toNat_le.mpr (hmod ▸ Nat.mod_le ..)), hmod]
  apply load64_map (size_write ..)
  rw [ofNat_read_eight, ofNat_read_eight]
  by_cases hlow : a % 8 = 0
  · -- the low half is written, and the high one is read as before
    have hzero : a.toNat % 8 = 0 := by
      rw [← hmod, hlow]
      rfl
    have hsame : (wordAt a).toNat = a.toNat := by omega
    have hrest : (m.write a.toNat 4 w.toNat).read (a.toNat + 4) 4 = m.read (a.toNat + 4) 4 :=
      read_congr fun b hle hlt => byte_write_outside (by omega)
    rw [if_pos hlow, hsame, ofNat_read_write, hrest, highHalf_ofHalves]
  · -- the other way round: the word starts four bytes below
    have hfour : a.toNat % 8 = 4 := by
      have hne : a.toNat % 8 ≠ 0 := fun h => hlow (UInt64.toNat_inj.mp (hmod.trans h))
      omega
    have hsame : (wordAt a).toNat + 4 = a.toNat := by omega
    have hrest : (m.write a.toNat 4 w.toNat).read (wordAt a).toNat 4 = m.read (wordAt a).toNat 4 :=
      read_congr fun b hle hlt => byte_write_outside (by omega)
    rw [if_neg hlow, hsame, ofNat_read_write, hrest, toUInt32_ofHalves]

/-- Memory is its bytes, which can be any, and the accesses are to them: an access is judged by alignment first and by
range next, a load gives the number in its bytes, a store replaces its bytes and is seen by all loads as that, and an
access that is refused leaves memory as it was. -/
theorem accesses_faithful (m : Memory) (a : UInt64) :
    (∀ bs : List UInt8, ∃ m : Memory, m.bytes = bs) ∧
    m.Judges a 8 (m.load64 a) ∧ m.Judges a 4 (m.load32 a) ∧
    (∀ v, m.Judges a 8 (m.store64 a v)) ∧ (∀ w, m.Judges a 4 (m.store32 a w)) ∧
    (∀ v, m.load64 a = .ok v → (m.bytes.drop (m.index a)).take 8 = littleEndian 8 v.toNat) ∧
    (∀ w, m.load32 a = .ok w → (m.bytes.drop (m.index a)).take 4 = littleEndian 4 w.toNat) ∧
    (∀ v m', m.store64 a v = .ok m' → m.Stores a 8 v.toNat m' ∧
      m'.load64 a = .ok v ∧ m'.load32 a = .ok v.toUInt32 ∧ m'.load32 (a + 4) = .ok (highHalf v)) ∧
    (∀ w m', m.store32 a w = .ok m' → m.Stores a 4 w.toNat m' ∧
      m'.load32 a = .ok w ∧ m'.load64 (wordAt a) = (m.load64 (wordAt a)).map fun v =>
        if a % 8 = 0 then ofHalves w (highHalf v) else ofHalves v.toUInt32 w) ∧
    ∀ (r : Routine) (budget : Nat) (i : Instr) (rest : List Instr) (s : Machine) (f : Fault), i.isLabel = false →
      s.memory = m → s.tick.exec i = .error f →
      ∃ s', Machine.runFrom r (budget + 1) (i :: rest) s = (.error f, s') ∧ s'.memory = m := by
  refine ⟨exists_bytes, judges_check .., judges_check .., fun v => judges_check .., fun w => judges_check ..,
    fun v hv => ?_, fun w hw => ?_, fun v m' hstore => ?_, fun w m' hstore => ?_,
    fun r budget i rest s f hi hs hfault => ?_⟩
  · obtain ⟨u, hcheck, rfl⟩ := ok_of_map hv
    rw [(Allows.of_check hcheck).slice, window_read, UInt64.toNat_ofNat_of_lt' (m.read_lt _ 8)]
  · obtain ⟨u, hcheck, rfl⟩ := ok_of_map hw
    rw [(Allows.of_check hcheck).slice, window_read, UInt32.toNat_ofNat_of_lt' (m.read_lt _ 4)]
  · obtain ⟨u, hcheck, rfl⟩ := ok_of_map hstore
    have h := Allows.of_check hcheck
    exact ⟨h.stores _, h.load64_write v, h.load32_write64 v, h.load32_write64_high v⟩
  · obtain ⟨u, hcheck, rfl⟩ := ok_of_map hstore
    have h := Allows.of_check hcheck
    exact ⟨h.stores _, h.load32_write w, h.load64_write32 w⟩
  · exact ⟨s.tick, by rw [Machine.runFrom_cons hi, hfault], hs⟩

/-- The stack has twelve bytes, so its lowest word is cut in half. A half word that is stored there is in no word that
can be loaded, one at the top is the high half of a word, and no address wraps around to either. -/
theorem accesses_faithful_uneven :
    (∃ m, ({ size := 12 } : Memory).store32 0x7ffffff4 7 = .ok m ∧ m.load32 0x7ffffff4 = .ok 7 ∧
      m.load64 0x7ffffff0 = .error (.memory 0x7ffffff0)) ∧
    (∃ m, ({ size := 12 } : Memory).store32 0x7ffffffc 7 = .ok m ∧ m.load64 0x7ffffff8 = .ok 0x700000000 ∧
      m.load32 0x7ffffff8 = .ok 0) ∧
    ({ size := 12 } : Memory).load64 0xfffffffffffffff8 = .error (.memory 0xfffffffffffffff8) := by
  let m : Memory := { size := 12 }
  have hlow : m.store32 0x7ffffff4 7 = .ok (m.write 0x7ffffff4 4 7) := rfl
  have hhigh : m.store32 0x7ffffffc 7 = .ok (m.write 0x7ffffffc 4 7) := rfl
  obtain ⟨-, -, -, -, -, -, -, -, hstore, -⟩ := accesses_faithful m 0x7ffffff4
  obtain ⟨-, -, -, -, -, -, -, -, hstore', -⟩ := accesses_faithful m 0x7ffffffc
  obtain ⟨-, hload, -⟩ := accesses_faithful m 0xfffffffffffffff8
  obtain ⟨-, hword, hcut⟩ := hstore 7 _ hlow
  obtain ⟨hapart, -, hcovered⟩ := hstore' 7 _ hhigh
  refine ⟨⟨_, hlow, hword, hcut⟩, ⟨_, hhigh, hcovered.trans (by decide), (hapart.load32 _ (by decide)).trans rfl⟩, ?_⟩
  exact hload.outside.mpr ⟨by decide, by unfold Contains; decide⟩

end Memory
end Comparand
