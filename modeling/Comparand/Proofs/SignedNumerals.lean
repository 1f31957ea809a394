import Comparand.Proofs.Codegen
import Comparand.Proofs.Parsing

/-!
Integer constants are exact. A number is written with digits, signs and parentheses, and stands for an integer without
bounds. Whether it fits 64 bits is asked in two places: the parser looks at the digits, together with a minus directly
before them, and the compiler at what is negated.
-/
namespace Comparand

open Lexeme

/-- A number as it is written: digits, under signs and parentheses. -/
inductive Signed where
  | numeral (n : Numeral)
  | neg (e : Signed)
  | paren (e : Signed)

namespace Signed

@[simp] def core : Signed → Numeral
  | numeral n => n
  | neg e | paren e => e.core

/-- The integer that a number stands for. -/
@[simp] def exact : Signed → Int
  | numeral n => n.value
  | neg e => -e.exact
  | paren e => e.exact

/-- The integers of all parts of a number. Digits directly behind a minus are one part with it. -/
@[simp] def parts : Signed → List Int
  | numeral n => [n.value]
  | neg (numeral n) => [-n.value]
  | neg e => -e.exact :: e.parts
  | paren e => e.exact :: e.parts

/-- The integers of 64 bits. -/
def Wide (v : Int) : Prop := Int64.minValue.toInt ≤ v ∧ v ≤ Int64.maxValue.toInt

instance (v : Int) : Decidable (Wide v) := inferInstanceAs (Decidable (_ ∧ _))

def Fits (e : Signed) : Prop := ∀ v ∈ e.parts, Wide v

instance (e : Signed) : Decidable e.Fits := inferInstanceAs (Decidable (∀ v ∈ e.parts, Wide v))

@[simp] def term : Signed → Concrete.Term
  | numeral n => .int n
  | neg e => .neg e.term
  | paren e => .paren (.term e.term)

variable {e : Signed}

theorem wide_iff {v : Int} : Wide v ↔ -9223372036854775808 ≤ v ∧ v < 9223372036854775808 := by
  rw [Wide, Int64.toInt_minValue, Int64.toInt_maxValue]
  omega

theorem wide_toInt (v : Int64) : Wide v.toInt := ⟨v.minValue_le_toInt, v.toInt_le⟩

theorem fits_numeral {n : Numeral} : (numeral n).Fits ↔ Wide n.value := by simp [Fits]

theorem wide_exact (h : e.Fits) : Wide e.exact := by
  cases e with
  | numeral n => exact fits_numeral.mp h
  | neg e => cases e <;> exact h _ (by simp)
  | paren e => exact h _ (by simp)

theorem fits_paren : (paren e).Fits ↔ e.Fits := by
  refine ⟨fun h v hv => h v (by simp [hv]), fun h v hv => ?_⟩
  rcases List.mem_cons.mp hv with rfl | hv
  · exact wide_exact h
  · exact h v hv

theorem isLeast_term (h : e.term.isLeast = true) : ∃ n, e = numeral n ∧ n.value = Nat.pow 2 63 := by
  cases e with
  | numeral n => exact ⟨n, rfl, by simpa [Concrete.Term.isLeast] using h⟩
  | neg e => cases h
  | paren e => cases h

/-- Apart from the least integer, what is negated has to fit too. -/
theorem fits_neg (h : e.term.isLeast = false) : (neg e).Fits ↔ Wide (-e.exact) ∧ e.Fits := by
  cases e with
  | numeral n =>
    have hn : n.value ≠ 9223372036854775808 := by simpa [Concrete.Term.isLeast] using h
    rw [fits_numeral]
    simp only [Fits, parts, exact, List.mem_singleton, forall_eq, wide_iff]
    omega
  | neg e => simp [Fits]
  | paren e => simp [Fits]

theorem fits_least {n : Numeral} (hn : n.value = Nat.pow 2 63) : (neg (numeral n)).Fits := by
  simp [Fits, wide_iff, hn]

/-- Digits that are too large are a part that does not fit. -/
theorem not_fits_of_literal (h : e.term.fits = false) : ¬ e.Fits := by
  induction e with
  | numeral n =>
    have hn : 9223372036854775808 ≤ n.value := by simpa [Concrete.Term.fits] using h
    rw [fits_numeral, wide_iff]
    omega
  | neg e ih =>
    obtain ⟨hleast, hfits⟩ := Bool.or_eq_false_iff.mp h
    rw [fits_neg hleast]
    exact fun hneg => ih hfits hneg.2
  | paren e ih => exact fun hparen => ih h (fits_paren.mp hparen)

theorem toInt_neg_of_ne {v : Int64} (hv : v ≠ Int64.minValue) : (-v).toInt = -v.toInt := by
  have hmin : v.toInt ≠ -2 ^ 63 := fun h => hv (Int64.toInt_inj.mp (h.trans Int64.toInt_minValue.symm))
  have hle := v.le_toInt
  have hlt := v.toInt_lt
  rw [Int64.toInt_neg]
  exact Int.bmod_eq_of_le (by omega) (by omega)

/-- What the compiler makes of digits that the parser takes: the exact integer if all parts fit, and otherwise nothing,
because of a negation. -/
theorem constant?_ast (h : e.term.fits = true) :
    (e.Fits ∧ ∃ v : Int64, v.toInt = e.exact ∧ e.term.ast.constant? = some (.int v)) ∨
    (¬ e.Fits ∧ e.term.ast.constant? = none ∧ ∃ a, e.term.ast.unparen = .neg a) := by
  induction e with
  | numeral n =>
    have hn : n.value < 2 ^ 63 := by simpa [Concrete.Term.fits] using h
    exact .inl ⟨fits_numeral.mpr (by rw [wide_iff]; omega), .ofNat n.value, Int64.toInt_ofNat_of_lt hn, rfl⟩
  | paren e ih =>
    rcases ih h with ⟨hfits, hv⟩ | ⟨hfits, hnone⟩
    · exact .inl ⟨fits_paren.mpr hfits, hv⟩
    · exact .inr ⟨fun hparen => hfits (fits_paren.mp hparen), hnone⟩
  | neg e ih =>
    cases hleast : e.term.isLeast with
    | true =>
      obtain ⟨n, rfl, hn⟩ := isLeast_term hleast
      refine .inl ⟨fits_least hn, Int64.minValue, ?_, ?_⟩
      · rw [Int64.toInt_minValue, exact, exact, hn]
        rfl
      · rw [term, Concrete.Term.ast, hleast]
        rfl
    | false =>
      have hast : (neg e).term.ast = .neg e.term.ast := by rw [term, Concrete.Term.ast, hleast]; rfl
      rw [fits_neg hleast, hast]
      rw [term, Concrete.Term.fits, hleast] at h
      rcases ih h with ⟨hfits, v, hv, hconstant⟩ | ⟨hfits, hnone, -⟩
      · by_cases hmin : v = Int64.minValue
        · refine .inr ⟨fun hneg => ?_, by simp [Expr.constant?, hconstant, hmin], _, rfl⟩
          rw [← hv, hmin, Int64.toInt_minValue] at hneg
          exact absurd hneg.1.2 (by decide)
        · refine .inl ⟨⟨?_, hfits⟩, -v, ?_, by simp [Expr.constant?, hconstant, hmin]⟩
          · rw [← hv, ← toInt_neg_of_ne hmin]
            exact wide_toInt _
          · rw [toInt_neg_of_ne hmin, hv, exact]
      · exact .inr ⟨fun hneg => hfits hneg.2, by simp [Expr.constant?, hnone], _, rfl⟩

/-! Reading -/

/-- How a number is spelled: what stands before its digits and what behind them. -/
inductive Spelling : Signed → List Char → List Char → Prop where
  | numeral (n : Numeral) : Spelling (numeral n) [] []
  | neg {e : Signed} {gap lead tail : List Char} (hgap : Layout gap) (h : Spelling e lead tail) :
      Spelling (neg e) ('-' :: (gap ++ lead)) tail
  | paren {e : Signed} {gap gap' lead tail : List Char} (hgap : Layout gap) (hgap' : Layout gap')
      (h : Spelling e lead tail) : Spelling (paren e) ('(' :: (gap ++ lead)) (tail ++ (gap' ++ [')']))

/-- What the parser makes of a number; from its digits on there are `ahead` characters. -/
def reading (e : Signed) (ahead : Nat) : Checked Expr :=
  if e.term.fits then .ok e.term.ast else .error ⟨String.ofList e.core.digits, ahead⟩

theorem reading_neg (h : e.term.isLeast = false) (ahead : Nat) :
    (neg e).reading ahead = (e.reading ahead).map .neg := by
  simp only [reading, term, core, Concrete.Term.fits, Concrete.Term.ast, h, Bool.false_or]
  split <;> rfl

theorem reading_paren (ahead : Nat) : (paren e).reading ahead = (e.reading ahead).map .paren := by
  simp only [reading, term, core, Concrete.Term.fits, Concrete.Term.ast, Concrete.Expr.fits, Concrete.Expr.ast]
  split <;> rfl

theorem stops_layout {p : Char → Bool} {gap rest : List Char} (hgap : Layout gap) (hp : boundaries.any p = false)
    (h : Stops p rest) : Stops p (gap ++ rest) := by
  by_cases hnil : gap = []
  · rw [hnil]
    exact h
  · exact (hgap.bounded hnil rest).stops hp

variable {lead tail rest : List Char}

theorem Spelling.skip_eq (h : Spelling e lead tail) :
    skip (lead ++ (e.core.digits ++ rest)) = lead ++ (e.core.digits ++ rest) := by
  cases h with
  | numeral n => exact skip_of_solid (Token.solid_of_digits n rest)
  | neg => rfl
  | paren => rfl

open Reader

theorem unary_numeral (n : Numeral) (d : Nat) (hrest : Stops numberGoesOn rest) :
    unary (d + 1) (n.digits ++ rest) = some ((numeral n).reading (n.digits ++ rest).length, rest) := by
  rw [unary_int hrest, intLiteral_digits n hrest]
  by_cases hn : n.value < Nat.pow 2 63 <;> simp [reading, Concrete.Term.fits, Concrete.Term.ast, hn]

/-- The least integer is read only where it is. -/
theorem leastInt_eq_none (h : Spelling e lead tail) (hleast : e.term.isLeast = false)
    (hrest : Stops numberGoesOn rest) : leastInt (lead ++ (e.core.digits ++ (tail ++ rest))) = none := by
  cases h with
  | numeral n =>
    have hn : n.value ≠ Nat.pow 2 63 := by simpa [Concrete.Term.isLeast] using hleast
    exact (leastInt_digits n hrest).trans (if_neg hn)
  | neg => rfl
  | paren => rfl

section

variable {d : Nat} {gap gap' cs : List Char} {v : Checked Expr}

theorem unary_least {n : Numeral} (hn : n.value = Nat.pow 2 63) (hgap : Layout gap) (hrest : Stops numberGoesOn rest) :
    unary (d + 1) ('-' :: (gap ++ (n.digits ++ rest))) = some (.ok (.literal (.int Int64.minValue)), rest) := by
  rw [unary, hgap.skip_append, skip_of_solid (Token.solid_of_digits n rest), leastInt_digits n hrest, if_pos hn]
  rfl

theorem unary_neg (hgap : Layout gap) (hsolid : skip cs = cs) (hleast : leastInt cs = none)
    (h : unary d cs = some (v, rest)) : unary (d + 1) ('-' :: (gap ++ cs)) = some (v.map .neg, rest) := by
  rw [unary, hgap.skip_append, hsolid, hleast, h]
  rfl

theorem unary_paren (hgap : Layout gap) (hgap' : Layout gap') (hsolid : skip cs = cs)
    (h : unary d cs = some (v, gap' ++ ')' :: rest)) :
    unary (d + 1) ('(' :: (gap ++ cs)) = some (v.map .paren, rest) := by
  have hend : skip (gap' ++ ')' :: rest) = ')' :: rest := hgap'.skip_append _
  have hinner : comparison (unary d) cs = some (v, gap' ++ ')' :: rest) := by
    have hrelation : relation (')' :: rest) = none := rfl
    simp [comparison, h, hend, hrelation]
  have hbefore : before (comparison (unary d)) ")" cs = some (v, rest) := by
    have hclose : fixed ")" (')' :: rest) = some rest := rfl
    simp [before, hinner, hend, hclose]
  have hparens : parenthesized (comparison (unary d)) ('(' :: (gap ++ cs)) = some (v.map .paren, rest) := by
    have hopen : fixed "(" ('(' :: (gap ++ cs)) = some (gap ++ cs) := rfl
    simp [parenthesized, after, hopen, hgap.skip_append, hsolid, hbefore]
  exact hparens

end

/-- By induction over signs and parentheses. Each takes a character before the digits, so a depth above the number of
these characters suffices. -/
theorem unary_spelling (h : Spelling e lead tail) (hrest : Stops numberGoesOn rest) {d : Nat} (hd : lead.length < d) :
    unary d (lead ++ (e.core.digits ++ (tail ++ rest))) =
      some (e.reading (e.core.digits ++ (tail ++ rest)).length, rest) := by
  induction h generalizing rest d with
  | numeral n =>
    obtain ⟨d, rfl⟩ := Nat.exists_eq_add_of_lt hd
    exact unary_numeral n _ hrest
  | @neg e gap lead tail hgap h ih =>
    obtain ⟨d, rfl⟩ := Nat.exists_eq_add_of_lt hd
    rw [List.cons_append, List.append_assoc, core]
    cases hleast : e.term.isLeast with
    | true =>
      obtain ⟨n, rfl, hn⟩ := isLeast_term hleast
      cases h
      have hreading : (neg (numeral n)).reading (n.digits ++ rest).length = .ok (.literal (.int Int64.minValue)) := by
        simp [reading, Concrete.Term.fits, Concrete.Term.ast, Concrete.Term.isLeast, hn]
      exact (unary_least hn hgap hrest).trans (congrArg (fun v => some (v, rest)) hreading.symm)
    | false =>
      rw [reading_neg hleast]
      exact unary_neg hgap h.skip_eq (leastInt_eq_none h hleast hrest) (ih hrest (by simp; omega))
  | @paren e gap gap' lead tail hgap hgap' h ih =>
    obtain ⟨d, rfl⟩ := Nat.exists_eq_add_of_lt hd
    have hstops : Stops numberGoesOn (gap' ++ ')' :: rest) :=
      stops_layout hgap' (by decide) (stops_cons (by decide) rest)
    have hassoc : tail ++ (gap' ++ [')']) ++ rest = tail ++ (gap' ++ ')' :: rest) := by simp
    rw [List.cons_append, List.append_assoc, core, reading_paren, hassoc]
    exact unary_paren hgap hgap' h.skip_eq (ih hstops (by simp; omega))

end Signed

end Comparand
