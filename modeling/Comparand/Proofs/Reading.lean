import Comparand.Compare.Condition
import Comparand.Proofs.Widening
import Comparand.Riscv.Machine

/-! What float instructions see in registers, and how the native comparisons of a recipe decide its condition. -/
namespace Comparand

namespace Format

variable {f : Format} {p q : Nat}

theorem compare?_swap : f.compare? q p = (f.compare? p q).map Ordering.swap := by
  simp only [compare?, Bool.or_comm (f.isNaN q)]
  split
  · rfl
  · rw [Option.map_some, ← Std.OrientedOrd.eq_swap]

theorem compare?_self : f.compare? p p = if f.isNaN p then none else some .eq := by
  simp only [compare?, Bool.or_self, Std.ReflCmp.compare_self]

theorem compare?_isNone : (f.compare? p q).isNone = (f.isNaN p || f.isNaN q) := by
  simp only [compare?]
  split <;> simp_all

end Format

/-- The single that a register word stands for. -/
def unbox (x : UInt64) : Binary32 := if x >>> 32 = 0xffffffff then ⟨x.toUInt32⟩ else .nan

theorem toNat_box (b : UInt32) : (box b).toNat = 0xffffffff00000000 + b.toNat := by
  have hor := Nat.two_pow_add_eq_or_of_lt (i := 32) b.toNat_lt 0xffffffff
  rw [box, UInt64.toNat_or, UInt32.toNat_toUInt64]
  exact hor.symm

theorem toUInt32_box (b : UInt32) : (box b).toUInt32 = b := by
  have hlt := b.toNat_lt
  apply UInt32.toNat_inj.mp
  rw [UInt64.toNat_toUInt32, toNat_box]
  omega

theorem box_shiftRight (b : UInt32) : box b >>> 32 = 0xffffffff := by
  have hlt := b.toNat_lt
  apply UInt64.toNat_inj.mp
  rw [UInt64.toNat_shiftRight, toNat_box, Nat.shiftRight_eq_div_pow]
  change (0xffffffff00000000 + b.toNat) / 2 ^ 32 = 0xffffffff
  omega

theorem unbox_box (b : UInt32) : unbox (box b) = ⟨b⟩ := by rw [unbox, if_pos (box_shiftRight b), toUInt32_box]

namespace Width

/-- The number that instructions of a width see in a register word. -/
def value : Width → UInt64 → Binary64
  | single, x => (unbox x).widen
  | double, x => ⟨x⟩

/-- The register word of a constant. -/
def word : Width → Binary64 → UInt64
  | single, v => box v.narrow.bits
  | double, v => v.bits

/-- What a comparison sees in two register words. -/
def reading : Width → UInt64 → UInt64 → Reading
  | single, x, y => ⟨(unbox x).compare? (unbox y), (unbox x).isSignaling || (unbox y).isSignaling⟩
  | double, x, y => ⟨(⟨x⟩ : Binary64).compare? ⟨y⟩, (⟨x⟩ : Binary64).isSignaling || (⟨y⟩ : Binary64).isSignaling⟩

variable (w : Width) (x y : UInt64)

theorem inspect_eq (m : Machine) (f g : FloatReg) : m.inspect w f g = w.reading (m.float f) (m.float g) := by
  cases w <;> rfl

theorem order_reading : (w.reading x y).order = (w.value x).compare? (w.value y) := by
  cases w with
  | single => exact (Binary32.compare?_widen _ _).symm
  | double => rfl

theorem value_word (v : Binary64) : w.value (w.word v) = w.round v := by
  cases w with
  | single => rw [value, word, unbox_box, round]
  | double => rfl

end Width

/-- The choice between two things that a side stands for. -/
def Side.pick {α : Type} (s : Side) (a b : α) : α :=
  match s with
  | .lhs => a
  | .rhs => b

theorem Side.apply_pick {α β : Type} (f : α → β) (s : Side) (a b : α) : f (s.pick a b) = s.pick (f a) (f b) := by
  cases s <;> rfl

/-- How the answers to the probes of a recipe combine. -/
def Recipe.answer (r : Recipe) (f : Probe → Bool) : Bool :=
  match r with
  | .single p => f p
  | .all p q => f p && f q
  | .any p q => f p || f q

/-- The answer of a native comparison on two values. -/
def Probe.answer (a b : Binary64) (p : Probe) : Bool :=
  p.test.holdsOf ((p.first.pick a b).compare? (p.second.pick a b))

namespace Condition

/-- The recipe of a condition decides it or, if it is negated, its complement. -/
theorem recipe_answer (c : Condition) (a b : Binary64) :
    c.recipe.answer (Probe.answer a b) = (c.holds a b != c.isNegated) := by
  have hswap : b.compare? a = (a.compare? b).map Ordering.swap := Format.compare?_swap
  have hself (x : Binary64) : x.compare? x = if x.isNaN then none else some .eq := Format.compare?_self
  have hnone : (a.compare? b).isNone = (a.isNaN || b.isNaN) := Format.compare?_isNone
  simp only [holds]
  cases c
  case ord | uno =>
    simp only [recipe, Recipe.answer, Probe.answer, Side.pick, hself, holdsOf, hnone, isNegated, ← Option.not_isNone]
    cases a.isNaN <;> cases b.isNaN <;> rfl
  all_goals
    simp only [recipe, Recipe.answer, Probe.answer, Side.pick, hswap]
    rcases a.compare? b with _ | _ | _ | _ <;> rfl

/-- Whether a probe of the recipe is an invalid operation on two register words. -/
def raises (c : Condition) (w : Width) (x y : UInt64) : Bool :=
  c.recipe.probes.any fun p => p.test.isInvalid (w.reading (p.first.pick x y) (p.second.pick x y))

end Condition
end Comparand
