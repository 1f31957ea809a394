import Mathlib
import Comparand.Width

/-! Widening a single is exact: it keeps the order of numbers, tells NaNs apart from them, and is undone by narrowing. -/
namespace Comparand

theorem roundHalfEven_mul (k : Nat) {d : Nat} (hd : 0 < d) : roundHalfEven (k * d) d = k := by
  simp [roundHalfEven, Nat.mul_div_cancel k hd, hd]

/-- Scaling by a power of two moves the exponent and nothing else. -/
theorem binaryExponent_scaled {s : Nat} (hs : 0 < s) (e : Int) :
    binaryExponent (s * 2 ^ e.toNat) (2 ^ (-e).toNat) = s.log2 + e := by
  have hn : (s * 2 ^ e.toNat).log2 = s.log2 + e.toNat := by
    rw [Nat.log2_eq_iff (Nat.ne_of_gt (Nat.mul_pos hs (Nat.two_pow_pos _)))]
    have hlo := Nat.log2_self_le (Nat.ne_of_gt hs)
    have hhi := Nat.lt_log2_self (n := s)
    constructor
    · rw [Nat.pow_add]
      exact Nat.mul_le_mul_right _ hlo
    · rw [show s.log2 + e.toNat + 1 = s.log2 + 1 + e.toNat by omega, Nat.pow_add]
      exact Nat.mul_lt_mul_of_pos_right hhi (Nat.two_pow_pos _)
  have he : ((s.log2 + e.toNat : Nat) : Int) - (-e).toNat = s.log2 + e := by omega
  simp only [binaryExponent, hn, Nat.log2_two_pow, he]
  rw [if_pos]
  have hexp : (-e).toNat + (s.log2 + e).toNat = s.log2 + (e.toNat + (-(s.log2 + e)).toNat) := by omega
  calc 2 ^ (-e).toNat * 2 ^ (s.log2 + e).toNat
      = 2 ^ s.log2 * 2 ^ (e.toNat + (-(s.log2 + e)).toNat) := by rw [← Nat.pow_add, hexp, Nat.pow_add]
    _ ≤ s * 2 ^ (e.toNat + (-(s.log2 + e)).toNat) :=
        Nat.mul_le_mul_right _ (Nat.log2_self_le (Nat.ne_of_gt hs))
    _ = s * 2 ^ e.toNat * 2 ^ (-(s.log2 + e)).toNat := by rw [Nat.pow_add, Nat.mul_assoc]

namespace Format

variable {f : Format} {m : Nat}

/-- A number that has `k` units in the last place of its rounding is rounded to them. -/
theorem nearestScaled_of_eq {s k : Nat} {e q : Int} (hs : 0 < s)
    (hq : q = max (s.log2 + e - f.fractionBits) f.leastExponent)
    (hk : s * 2 ^ (e.toNat + (-q).toNat) = k * 2 ^ ((-e).toNat + q.toNat)) :
    f.nearestScaled s e = min ((q - f.leastExponent).toNat * 2 ^ f.fractionBits + k) f.infinity := by
  have hround : roundHalfEven (s * 2 ^ e.toNat * 2 ^ (-q).toNat) (2 ^ (-e).toNat * 2 ^ q.toNat) = k := by
    rw [Nat.mul_assoc, ← Nat.pow_add, ← Nat.pow_add, hk]
    exact roundHalfEven_mul k (Nat.two_pow_pos _)
  have hne : s * 2 ^ e.toNat ≠ 0 := Nat.ne_of_gt (Nat.mul_pos hs (Nat.two_pow_pos _))
  simp only [nearestScaled, nearest, Nat.pow_eq, if_neg hne, binaryExponent_scaled hs, ← hq, hround]

theorem magnitude_signed (b : Bool) (hm : m < f.signWeight) : f.magnitude (f.signed b m) = m := by
  cases b <;> simp [magnitude, signed, Nat.mod_eq_of_lt hm]

theorem isNegative_signed (b : Bool) (hm : m < f.signWeight) : f.isNegative (f.signed b m) = b := by
  cases b
  · simpa [isNegative, signed] using hm
  · simp [isNegative, signed]

/-- What conversion makes of a magnitude. -/
def carried (f g : Format) (m : Nat) : Nat :=
  if f.infinity < m then
    let fraction := (m - f.infinity) * 2 ^ g.fractionBits / 2 ^ f.fractionBits
    g.infinity + (if fraction < g.quietBit then fraction + g.quietBit else fraction)
  else if m = f.infinity then g.infinity
  else g.nearestScaled (f.significand m) (f.lastPlace m)

theorem convert_eq (f g : Format) (p : Nat) :
    f.convert g p = g.signed (f.isNegative p) (f.carried g (f.magnitude p)) := by
  simp only [convert, carried, isNaN, decide_eq_true_eq, Nat.pow_eq]

theorem infinity_binary32 : binary32.infinity = 0x7f800000 := rfl
theorem infinity_binary64 : binary64.infinity = 0x7ff0000000000000 := rfl
theorem leastExponent_binary32 : binary32.leastExponent = -149 := rfl
theorem leastExponent_binary64 : binary64.leastExponent = -1074 := rfl
theorem fractionBits_binary32 : binary32.fractionBits = 23 := rfl
theorem fractionBits_binary64 : binary64.fractionBits = 52 := rfl
theorem quietBit_binary64 : binary64.quietBit = 2 ^ 51 := rfl
theorem quietBit_binary32 : binary32.quietBit = 2 ^ 22 := rfl
theorem signWeight_binary32 : binary32.signWeight = 2 ^ 31 := rfl
theorem signWeight_binary64 : binary64.signWeight = 2 ^ 63 := rfl

/-- A single's magnitude is `s` units of `2 ^ e`, with a full significand unless the exponent is the least one. -/
structure Decodes (m s : Nat) (e : Int) : Prop where
  eq : m = (e + 149).toNat * 2 ^ 23 + s
  pos : 0 < s
  log2_le : s.log2 ≤ 23
  exponent_ge : -149 ≤ e
  exponent_le : e ≤ 104
  full : e = -149 ∨ s.log2 = 23

theorem decodes (hpos : 0 < m) (h : m < 0x7f800000) :
    Decodes m (binary32.significand m) (binary32.lastPlace m) := by
  by_cases hm : m < 2 ^ 23
  · have hs : binary32.significand m = m := by rw [significand, Nat.pow_eq, fractionBits_binary32, if_pos hm]
    have he : binary32.lastPlace m = -149 := by
      rw [lastPlace, Nat.pow_eq, leastExponent_binary32, fractionBits_binary32, Nat.div_eq_of_lt hm]
      rfl
    have hlog : m.log2 < 23 := (Nat.log2_lt (Nat.ne_of_gt hpos)).mpr hm
    rw [hs, he]
    exact ⟨by simp, hpos, by omega, by omega, by omega, .inl rfl⟩
  · have hs : binary32.significand m = 2 ^ 23 + m % 2 ^ 23 := by
      rw [significand, Nat.pow_eq, fractionBits_binary32, if_neg hm]
    have he : binary32.lastPlace m = (m / 2 ^ 23 : Nat) - 150 := by
      rw [lastPlace, Nat.pow_eq, leastExponent_binary32, fractionBits_binary32]
      omega
    have hlog : (2 ^ 23 + m % 2 ^ 23).log2 = 23 := by
      rw [Nat.log2_eq_iff (by omega)]
      omega
    rw [hs, he]
    exact ⟨by omega, by omega, by omega, by omega, by omega, .inr hlog⟩

/-- The significand of a double that holds `s` units. -/
theorem full_significand {s : Nat} (hpos : 0 < s) (hlog : s.log2 ≤ 52) :
    2 ^ 52 ≤ s * 2 ^ (52 - s.log2) ∧ s * 2 ^ (52 - s.log2) < 2 ^ 53 := by
  have hlo := Nat.mul_le_mul_right (2 ^ (52 - s.log2)) (Nat.log2_self_le (Nat.ne_of_gt hpos))
  have hhi := Nat.mul_lt_mul_of_pos_right (Nat.lt_log2_self (n := s)) (Nat.two_pow_pos (52 - s.log2))
  rw [← Nat.pow_add] at hlo hhi
  rw [show s.log2 + (52 - s.log2) = 52 by omega] at hlo
  rw [show s.log2 + 1 + (52 - s.log2) = 53 by omega] at hhi
  exact ⟨hlo, hhi⟩

theorem Decodes.carried {s : Nat} {e : Int} (hd : Decodes m s e) (hs : binary32.significand m = s)
    (he : binary32.lastPlace m = e) (h : m < 0x7f800000) :
    binary32.carried binary64 m = (s.log2 + e + 1022).toNat * 2 ^ 52 + s * 2 ^ (52 - s.log2) := by
  obtain ⟨_, hpos, hlog, hge, hle, _⟩ := hd
  have hfull := full_significand hpos (by omega)
  have hnear := nearestScaled_of_eq (f := binary64) (k := s * 2 ^ (52 - s.log2)) (e := e)
    (q := s.log2 + e - 52) hpos
    (by rw [fractionBits_binary64, leastExponent_binary64]; omega)
    (by rw [Nat.mul_assoc, ← Nat.pow_add]; congr 2; omega)
  have hinf : ¬ binary32.infinity < m := by rw [infinity_binary32]; omega
  have hne : m ≠ binary32.infinity := by rw [infinity_binary32]; omega
  have hexp : (s.log2 + e - 52 - -1074 : Int) = s.log2 + e + 1022 := by omega
  rw [Format.carried, if_neg hinf, if_neg hne, hs, he, hnear, infinity_binary64, leastExponent_binary64,
    fractionBits_binary64, hexp]
  apply Nat.min_eq_left
  omega

theorem carried_zero : binary32.carried binary64 0 = 0 := by decide

theorem carried_infinity : binary32.carried binary64 0x7f800000 = 0x7ff0000000000000 := by decide

theorem carried_lt (h : m < 0x7f800000) : binary32.carried binary64 m < 0x7ff0000000000000 := by
  rcases Nat.eq_zero_or_pos m with rfl | hpos
  · simp [carried_zero]
  · have hd := decodes hpos h
    have hfull := full_significand hd.pos (by have := hd.log2_le; omega)
    rw [hd.carried rfl rfl h]
    have := hd.log2_le
    have := hd.exponent_le
    omega

theorem lt_of_log2_lt {s t : Nat} (hs : 0 < s) (h : t.log2 < s.log2) : t < s := by
  calc t < 2 ^ (t.log2 + 1) := Nat.lt_log2_self
    _ ≤ 2 ^ s.log2 := Nat.pow_le_pow_right (by decide) h
    _ ≤ s := Nat.log2_self_le (Nat.ne_of_gt hs)

/-- Of two magnitudes the greater one has no smaller binade, and in one binade they differ in the significand. -/
theorem Decodes.binade_le {s t n : Nat} {e k : Int} (hm : Decodes m s e) (hn : Decodes n t k) (hmn : m < n) :
    s.log2 + e < t.log2 + k ∨ s.log2 = t.log2 ∧ e = k ∧ s < t := by
  obtain ⟨rfl, hs, hslog, hse, -, hsfull⟩ := hm
  obtain ⟨rfl, ht, htlog, hte, -, htfull⟩ := hn
  have hs24 : s < 2 ^ 24 := (Nat.log2_lt (Nat.ne_of_gt hs)).mp (by omega)
  have ht24 : t < 2 ^ 24 := (Nat.log2_lt (Nat.ne_of_gt ht)).mp (by omega)
  rcases Int.lt_trichotomy e k with hek | rfl | hek
  · omega
  · have hst : s < t := by omega
    rcases Nat.lt_trichotomy s.log2 t.log2 with hlog | hlog | hlog
    · omega
    · exact .inr ⟨hlog, rfl, hst⟩
    · have := lt_of_log2_lt hs hlog
      omega
  · have hfull : s.log2 = 23 := by omega
    have hs23 := Nat.log2_self_le (Nat.ne_of_gt hs)
    rw [hfull] at hs23
    omega

/-- Widening keeps the order of finite magnitudes. -/
theorem carried_strictMono {n : Nat} (hmn : m < n) (h : n < 0x7f800000) :
    binary32.carried binary64 m < binary32.carried binary64 n := by
  have hn := decodes (by omega) h
  have hfulln := full_significand hn.pos (by have := hn.log2_le; omega)
  rcases Nat.eq_zero_or_pos m with rfl | hpos
  · rw [carried_zero, hn.carried rfl rfl h]
    omega
  have hm := decodes hpos (by omega)
  have hfullm := full_significand hm.pos (by have := hm.log2_le; omega)
  rw [hm.carried rfl rfl (by omega), hn.carried rfl rfl h]
  rcases hm.binade_le hn hmn with hlt | ⟨hlog, he, hlt⟩
  · have := hm.exponent_ge
    omega
  · rw [hlog, he]
    exact Nat.add_lt_add_left (Nat.mul_lt_mul_of_pos_right hlt (Nat.two_pow_pos _)) _

theorem carried_lt_carried_iff {n : Nat} (hm : m ≤ 0x7f800000) (hn : n ≤ 0x7f800000) :
    binary32.carried binary64 m < binary32.carried binary64 n ↔ m < n := by
  have hmono {a b : Nat} (hab : a < b) (hb : b ≤ 0x7f800000) :
      binary32.carried binary64 a < binary32.carried binary64 b := by
    rcases Nat.eq_or_lt_of_le hb with rfl | hb
    · rw [carried_infinity]
      exact carried_lt hab
    · exact carried_strictMono hab hb
  refine ⟨fun h => ?_, fun h => hmono h hn⟩
  rcases Nat.lt_trichotomy m n with hlt | rfl | hgt
  · exact hlt
  · omega
  · have := hmono hgt hm
    omega

theorem carried_eq_zero_iff (hm : m ≤ 0x7f800000) : binary32.carried binary64 m = 0 ↔ m = 0 := by
  have := carried_lt_carried_iff (m := 0) (by omega) hm
  rw [carried_zero] at this
  omega

/-- A widened magnitude has its units in the last place of a full double. -/
theorem significand_lastPlace_full {a : Nat} {q : Nat} (hlo : 2 ^ 52 ≤ a) (hhi : a < 2 ^ 53) :
    binary64.significand (q * 2 ^ 52 + a) = a ∧ binary64.lastPlace (q * 2 ^ 52 + a) = q - 1074 := by
  have hlt : ¬ q * 2 ^ 52 + a < 2 ^ 52 := by omega
  have hmod : (q * 2 ^ 52 + a) % 2 ^ 52 = a - 2 ^ 52 := by omega
  have hdiv : (q * 2 ^ 52 + a) / 2 ^ 52 = q + 1 := by omega
  refine ⟨?_, ?_⟩
  · rw [significand, Nat.pow_eq, fractionBits_binary64, if_neg hlt, hmod]
    omega
  · rw [lastPlace, Nat.pow_eq, fractionBits_binary64, leastExponent_binary64, hdiv]
    omega

theorem log2_eq_52 {a : Nat} (hlo : 2 ^ 52 ≤ a) (hhi : a < 2 ^ 53) : a.log2 = 52 := by
  rw [Nat.log2_eq_iff (by omega)]
  exact ⟨hlo, hhi⟩

/-- Narrowing undoes widening. -/
theorem carried_carried (h : m ≤ 0x7f800000) :
    binary64.carried binary32 (binary32.carried binary64 m) = m := by
  rcases Nat.eq_zero_or_pos m with rfl | hpos
  · decide
  rcases Nat.eq_or_lt_of_le h with rfl | hlt
  · decide
  have hd := decodes hpos hlt
  have hlt64 := carried_lt hlt
  rw [hd.carried rfl rfl hlt] at hlt64 ⊢
  obtain ⟨heq, hs, hlog, hge, hle, hfull⟩ := hd
  have ha := full_significand hs (by omega)
  generalize binary32.significand m = s at *
  generalize binary32.lastPlace m = e at *
  obtain ⟨hsig, hplace⟩ := significand_lastPlace_full (q := (s.log2 + e + 1022).toNat) ha.1 ha.2
  have hnear := nearestScaled_of_eq (f := binary32) (s := s * 2 ^ (52 - s.log2)) (k := s)
    (e := s.log2 + e - 52) (q := e) (by omega)
    (by rw [fractionBits_binary32, leastExponent_binary32, log2_eq_52 ha.1 ha.2]; omega)
    (by rw [Nat.mul_assoc, ← Nat.pow_add]; congr 2; omega)
  have hexp : ((s.log2 + e + 1022).toNat : Int) - 1074 = s.log2 + e - 52 := by omega
  have hinf : ¬ binary64.infinity < (s.log2 + e + 1022).toNat * 2 ^ 52 + s * 2 ^ (52 - s.log2) := by
    rw [infinity_binary64]
    omega
  have hne : (s.log2 + e + 1022).toNat * 2 ^ 52 + s * 2 ^ (52 - s.log2) ≠ binary64.infinity := by
    rw [infinity_binary64]
    omega
  rw [carried, if_neg hinf, if_neg hne, hsig, hplace, hexp, hnear, leastExponent_binary32,
    fractionBits_binary32, infinity_binary32, Int.sub_neg, ← heq]
  exact Nat.min_eq_left h

theorem carried_nan (h : 0x7f800000 < m) (hm : m < 2 ^ 31) :
    0x7ff0000000000000 < binary32.carried binary64 m ∧ binary32.carried binary64 m < 2 ^ 63 := by
  have hfraction : (m - 0x7f800000) * 2 ^ 52 / 2 ^ 23 = (m - 0x7f800000) * 2 ^ 29 := by omega
  have hcarried : binary32.carried binary64 m = 0x7ff0000000000000 +
      if (m - 0x7f800000) * 2 ^ 29 < 2 ^ 51 then (m - 0x7f800000) * 2 ^ 29 + 2 ^ 51
      else (m - 0x7f800000) * 2 ^ 29 := by
    rw [carried, infinity_binary32, infinity_binary64, if_pos h, quietBit_binary64, fractionBits_binary64,
      fractionBits_binary32, hfraction]
  rw [hcarried]
  split <;> omega

theorem carried_le_iff (hm : m < 2 ^ 31) :
    0x7ff0000000000000 < binary32.carried binary64 m ↔ 0x7f800000 < m := by
  rcases Nat.lt_trichotomy m 0x7f800000 with h | rfl | h
  · have := carried_lt h
    omega
  · simp [carried_infinity]
  · simp [h, (carried_nan h hm).1]

theorem carried_lt_signWeight (hm : m < 2 ^ 31) : binary32.carried binary64 m < 2 ^ 63 := by
  rcases Nat.lt_trichotomy m 0x7f800000 with h | rfl | h
  · have := carried_lt h
    omega
  · simp [carried_infinity]
  · exact (carried_nan h hm).2

/-- Narrowing makes no number of a NaN. -/
theorem carried_nan_narrow (h : 0x7ff0000000000000 < m) (hm : m < 2 ^ 63) :
    0x7f800000 < binary64.carried binary32 m ∧ binary64.carried binary32 m < 2 ^ 31 := by
  have hcarried : binary64.carried binary32 m = 0x7f800000 +
      if (m - 0x7ff0000000000000) * 2 ^ 23 / 2 ^ 52 < 2 ^ 22 then
        (m - 0x7ff0000000000000) * 2 ^ 23 / 2 ^ 52 + 2 ^ 22
      else (m - 0x7ff0000000000000) * 2 ^ 23 / 2 ^ 52 := by
    rw [carried, infinity_binary32, infinity_binary64, if_pos h, quietBit_binary32, fractionBits_binary64,
      fractionBits_binary32]
  rw [hcarried]
  split <;> omega

theorem signed_lt {b : Bool} (hm : m < f.signWeight) : f.signed b m < 2 * f.signWeight := by
  cases b <;> simp [signed] <;> omega

end Format

theorem compare_congr {a b c d : Int} (hlt : a < b ↔ c < d) (hgt : b < a ↔ d < c) : compare a b = compare c d := by
  simp only [compare, compareOfLessAndEq]
  split <;> split <;> (try split) <;> (try split) <;> (try rfl) <;> omega

namespace Binary32

open Format

variable {x y : Binary32}

def magnitude (x : Binary32) : Nat := binary32.magnitude x.bits.toNat

theorem magnitude_lt (x : Binary32) : x.magnitude < 2 ^ 31 := Nat.mod_lt _ (by decide)

theorem isNaN_iff : x.isNaN = true ↔ 0x7f800000 < x.magnitude := by
  exact decide_eq_true_iff

theorem magnitude_le_of_not_isNaN (h : x.isNaN = false) : x.magnitude ≤ 0x7f800000 := by
  have := isNaN_iff (x := x)
  simp only [h, Bool.false_eq_true, false_iff] at this
  omega

theorem widen_pattern (x : Binary32) :
    x.widen.bits.toNat =
      binary64.signed (binary32.isNegative x.bits.toNat) (binary32.carried binary64 x.magnitude) := by
  have hlt := carried_lt_signWeight x.magnitude_lt
  have hsigned := signed_lt (f := binary64) (b := binary32.isNegative x.bits.toNat) hlt
  rw [signWeight_binary64] at hsigned
  rw [widen, convert_eq, UInt64.toNat_ofNat']
  exact Nat.mod_eq_of_lt hsigned

theorem magnitude_widen (x : Binary32) : x.widen.magnitude = binary32.carried binary64 x.magnitude := by
  rw [Binary64.magnitude, widen_pattern, magnitude_signed _ (carried_lt_signWeight x.magnitude_lt)]

theorem isNegative_widen (x : Binary32) : x.widen.isNegative = binary32.isNegative x.bits.toNat := by
  rw [Binary64.isNegative, widen_pattern, isNegative_signed _ (carried_lt_signWeight x.magnitude_lt)]

theorem isNaN_widen (x : Binary32) : x.widen.isNaN = x.isNaN := by
  rw [Bool.eq_iff_iff, isNaN_iff, ← carried_le_iff x.magnitude_lt, ← magnitude_widen]
  exact decide_eq_true_iff

/-- Both zeros have rank 0, so the order of ranks is that of magnitudes only once signs are taken into account. -/
theorem rank_widen_lt (hx : x.isNaN = false) (hy : y.isNaN = false) :
    binary64.rank x.widen.bits.toNat < binary64.rank y.widen.bits.toNat ↔
      binary32.rank x.bits.toNat < binary32.rank y.bits.toNat := by
  have hrank (z : Binary32) : binary64.rank z.widen.bits.toNat =
      if binary32.isNegative z.bits.toNat then -(binary32.carried binary64 z.magnitude : Int)
      else binary32.carried binary64 z.magnitude := by
    have hneg := isNegative_widen z
    have hmag := magnitude_widen z
    rw [Binary64.isNegative] at hneg
    rw [Binary64.magnitude] at hmag
    rw [rank, hneg, hmag]
  have hrank' (z : Binary32) : binary32.rank z.bits.toNat =
      if binary32.isNegative z.bits.toNat then -(z.magnitude : Int) else z.magnitude := rfl
  rw [hrank, hrank, hrank', hrank']
  have hxy := carried_lt_carried_iff (magnitude_le_of_not_isNaN hx) (magnitude_le_of_not_isNaN hy)
  have hyx := carried_lt_carried_iff (magnitude_le_of_not_isNaN hy) (magnitude_le_of_not_isNaN hx)
  have hx0 := carried_eq_zero_iff (magnitude_le_of_not_isNaN hx)
  have hy0 := carried_eq_zero_iff (magnitude_le_of_not_isNaN hy)
  split <;> split <;> omega

theorem compare?_widen (x y : Binary32) : x.widen.compare? y.widen = x.compare? y := by
  have hx := isNaN_widen x
  have hy := isNaN_widen y
  simp only [Binary64.isNaN, isNaN] at hx hy
  simp only [Binary64.compare?, compare?, Format.compare?, hx, hy]
  split
  · rfl
  · rename_i h
    simp only [Bool.or_eq_true, not_or, Bool.not_eq_true] at h
    rw [compare_congr (rank_widen_lt h.1 h.2) (rank_widen_lt h.2 h.1)]

theorem eq_signed (x : Binary32) :
    x.bits.toNat = binary32.signed (binary32.isNegative x.bits.toNat) x.magnitude := by
  have hlt := x.bits.toNat_lt
  by_cases h : 2 ^ 31 ≤ x.bits.toNat
  · have hneg : binary32.isNegative x.bits.toNat = true := decide_eq_true h
    rw [hneg, signed, magnitude, Format.magnitude, signWeight_binary32, if_pos rfl]
    omega
  · have hneg : binary32.isNegative x.bits.toNat = false := decide_eq_false h
    rw [hneg, signed, magnitude, Format.magnitude, signWeight_binary32, if_neg (by decide)]
    omega

theorem narrow_widen (hx : x.isNaN = false) : x.widen.narrow = x := by
  have hneg := isNegative_widen x
  have hmag := magnitude_widen x
  rw [Binary64.isNegative] at hneg
  rw [Binary64.magnitude] at hmag
  have hpattern : binary64.convert binary32 x.widen.bits.toNat = x.bits.toNat := by
    rw [convert_eq, hneg, hmag, carried_carried (magnitude_le_of_not_isNaN hx), ← eq_signed]
  rw [Binary64.narrow, hpattern, UInt32.ofNat_toNat]

theorem isNaN_narrow {z : Binary64} (h : z.isNaN = true) : z.narrow.isNaN = true := by
  have hinf : 0x7ff0000000000000 < z.magnitude := decide_eq_true_iff.mp h
  have hnarrow := carried_nan_narrow hinf (Nat.mod_lt _ (by decide))
  have hsigned := signed_lt (f := binary32) (b := z.isNegative) hnarrow.2
  have hpattern : z.narrow.bits.toNat = binary32.signed z.isNegative (binary64.carried binary32 z.magnitude) := by
    rw [Binary64.narrow, convert_eq, UInt32.toNat_ofNat']
    exact Nat.mod_eq_of_lt hsigned
  rw [isNaN_iff, magnitude, hpattern, magnitude_signed _ hnarrow.2]
  exact hnarrow.1

/-- Whatever becomes of the payload of a NaN, rounding a single again does not change how it compares. -/
theorem compare?_widen_narrow (x : Binary32) (y : Binary64) :
    x.widen.narrow.widen.compare? y = x.widen.compare? y := by
  cases hx : x.isNaN with
  | false => rw [narrow_widen hx]
  | true =>
    have hnan : x.widen.isNaN = true := by rw [isNaN_widen, hx]
    have hnan' : x.widen.narrow.widen.isNaN = true := by rw [isNaN_widen, isNaN_narrow hnan]
    simp only [Binary64.isNaN] at hnan hnan'
    simp [Binary64.compare?, Format.compare?, hnan, hnan']

end Binary32
end Comparand
