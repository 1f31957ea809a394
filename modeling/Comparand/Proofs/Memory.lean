import Mathlib
import Comparand.Riscv.Memory

/-! A word read back is the word written, and a write leaves all bytes outside its range alone. -/
namespace Comparand.Memory

variable {m m' : Memory} {a b n k v : Nat}

theorem byte_setByte (m : Memory) (a b : Nat) (v : UInt8) :
    (m.setByte a v).byte b = if a = b then v else m.byte b := by
  simp [byte, setByte, Std.TreeMap.getD_insert]

theorem size_write (m : Memory) (a n v : Nat) : (m.write a n v).size = m.size := by
  induction n generalizing m a v with
  | zero => rfl
  | succ n ih => exact ih _ _ _

/-- The byte at distance `i` from the start of a write is the `i`-th digit of the number written. -/
theorem byte_write (m : Memory) (a n v b : Nat) :
    (m.write a n v).byte b = if a ≤ b ∧ b < a + n then .ofNat (v / 256 ^ (b - a)) else m.byte b := by
  induction n generalizing m a v with
  | zero =>
    have hout : ¬ (a ≤ b ∧ b < a + 0) := by omega
    rw [if_neg hout, write]
  | succ n ih =>
    rw [write, ih, byte_setByte]
    by_cases hin : a + 1 ≤ b ∧ b < a + 1 + n
    · have hdigit : v / 256 / 256 ^ (b - (a + 1)) = v / 256 ^ (b - a) := by
        rw [Nat.div_div_eq_div_mul, ← Nat.pow_succ', show (b - (a + 1)).succ = b - a by omega]
      rw [if_pos hin, if_pos (by omega), hdigit]
    · rw [if_neg hin]
      by_cases hab : a = b
      · subst hab
        simp
      · rw [if_neg hab, if_neg (by omega)]

theorem byte_write_outside (h : b < a ∨ a + n ≤ b) : (m.write a n v).byte b = m.byte b := by
  rw [byte_write, if_neg (by omega)]

theorem read_congr (h : ∀ b, a ≤ b → b < a + n → m'.byte b = m.byte b) : m'.read a n = m.read a n := by
  induction n generalizing a with
  | zero => rfl
  | succ n ih =>
    rw [read, read, h a (by omega) (by omega), ih fun b hlo hhi => h b (by omega) (by omega)]

theorem read_of_digits (h : ∀ i < n, m.byte (a + i) = .ofNat (v / 256 ^ i)) : m.read a n = v % 256 ^ n := by
  induction n generalizing a v with
  | zero => rw [read, Nat.pow_zero, Nat.mod_one]
  | succ n ih =>
    have hrest : m.read (a + 1) n = v / 256 % 256 ^ n := by
      apply ih
      intro i hi
      have hdigit := h (i + 1) (by omega)
      rwa [Nat.pow_succ', ← Nat.div_div_eq_div_mul, ← Nat.add_assoc, Nat.add_right_comm] at hdigit
    have hfirst := h 0 (by omega)
    rw [Nat.pow_zero, Nat.div_one, Nat.add_zero] at hfirst
    rw [read, hfirst, hrest, UInt8.toNat_ofNat', Nat.pow_succ' (m := 256), Nat.mod_mul]

/-- A part of the bytes of a write holds the part of its number that is as high up. -/
theorem read_write_part {j : Nat} (hk : j + k ≤ n) : (m.write a n v).read (a + j) k = v / 256 ^ j % 256 ^ k := by
  apply read_of_digits
  intro i hi
  rw [byte_write, if_pos (by omega), show a + j + i - a = j + i by omega, Nat.pow_add, Nat.div_div_eq_div_mul]

theorem read_write (hk : k ≤ n) : (m.write a n v).read a k = v % 256 ^ k := by
  have hpart := read_write_part (m := m) (a := a) (v := v) (j := 0) (k := k) (n := n) (by omega)
  rwa [Nat.add_zero, Nat.pow_zero, Nat.div_one] at hpart

theorem read_add (m : Memory) (a n k : Nat) : m.read a (n + k) = m.read a n + 256 ^ n * m.read (a + n) k := by
  induction n generalizing a with
  | zero => rw [Nat.zero_add, read, Nat.pow_zero, Nat.one_mul, Nat.add_zero, Nat.zero_add]
  | succ n ih =>
    have hnext : a + 1 + n = a + (n + 1) := by omega
    rw [Nat.succ_add, read, ih, hnext, read, Nat.pow_succ', Nat.mul_add, Nat.mul_assoc, Nat.add_assoc]

theorem read_lt (m : Memory) (a n : Nat) : m.read a n < 256 ^ n := by
  induction n generalizing a with
  | zero => exact Nat.one_pos
  | succ n ih =>
    have hbyte : (m.byte a).toNat < 256 := (m.byte a).toNat_lt
    have hrest := ih (a + 1)
    rw [read, Nat.pow_succ']
    omega

/-- The accesses that memory allows. -/
structure Allows (m : Memory) (a : UInt64) (n : Nat) : Prop where
  aligned : a.toNat % n = 0
  above : stackTop - m.size ≤ a.toNat
  below : a.toNat + n ≤ stackTop

theorem Allows.check {a : UInt64} (h : m.Allows a n) : m.check a n = .ok () := by
  rw [Memory.check, if_neg (by simpa using h.aligned), if_pos ⟨h.above, h.below⟩]

theorem fault_of_check {a : UInt64} {f : Fault} (h : m.check a n = .error f) : f = .misaligned a n ∨ f = .memory a := by
  unfold check at h
  split at h
  · cases h
    exact .inl rfl
  · split at h <;> cases h
    exact .inr rfl

theorem Allows.of_size {a : UInt64} (hs : m'.size = m.size) (h : m.Allows a n) : m'.Allows a n :=
  ⟨h.aligned, hs ▸ h.above, h.below⟩

theorem Allows.half {a : UInt64} (h : m.Allows a 8) : m.Allows a 4 := by
  obtain ⟨haligned, habove, hbelow⟩ := h
  exact ⟨by omega, habove, by omega⟩

theorem Allows.load64 {a : UInt64} (h : m.Allows a 8) : m.load64 a = .ok (.ofNat (m.read a.toNat 8)) := by
  rw [Memory.load64, h.check]
  rfl

theorem Allows.load32 {a : UInt64} (h : m.Allows a 4) : m.load32 a = .ok (.ofNat (m.read a.toNat 4)) := by
  rw [Memory.load32, h.check]
  rfl

theorem Allows.store64 {a : UInt64} (h : m.Allows a 8) (v : UInt64) :
    m.store64 a v = .ok (m.write a.toNat 8 v.toNat) := by
  rw [Memory.store64, h.check]
  rfl

theorem Allows.store32 {a : UInt64} (h : m.Allows a 4) (v : UInt32) :
    m.store32 a v = .ok (m.write a.toNat 4 v.toNat) := by
  rw [Memory.store32, h.check]
  rfl

theorem Allows.load64_write {a : UInt64} (h : m.Allows a 8) (v : UInt64) :
    (m.write a.toNat 8 v.toNat).load64 a = .ok v := by
  have hv : v.toNat < 256 ^ 8 := v.toNat_lt
  rw [(h.of_size (size_write ..)).load64, read_write (Nat.le_refl 8), Nat.mod_eq_of_lt hv, UInt64.ofNat_toNat]

/-- The low half of a word comes first. -/
theorem Allows.load32_write64 {a : UInt64} (h : m.Allows a 8) (v : UInt64) :
    (m.write a.toNat 8 v.toNat).load32 a = .ok v.toUInt32 := by
  have hlow : UInt32.ofNat (v.toNat % 256 ^ 4) = v.toUInt32 := by
    apply UInt32.toNat_inj.mp
    rw [UInt32.toNat_ofNat', UInt64.toNat_toUInt32]
    exact Nat.mod_mod _ (2 ^ 32)
  rw [(h.of_size (size_write ..)).half.load32, read_write (by decide), hlow]

theorem Allows.load32_write {a : UInt64} (h : m.Allows a 4) (v : UInt32) :
    (m.write a.toNat 4 v.toNat).load32 a = .ok v := by
  have hv : v.toNat < 256 ^ 4 := v.toNat_lt
  rw [(h.of_size (size_write ..)).load32, read_write (Nat.le_refl 4), Nat.mod_eq_of_lt hv, UInt32.ofNat_toNat]

end Comparand.Memory
