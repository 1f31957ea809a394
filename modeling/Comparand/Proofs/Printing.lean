import Mathlib

/-! Printed texts: lines that a line feed ends, parts that a mark divides, and the characters that numbers are written
with. -/
namespace Comparand.Text

/-- The lines of a text, each without the line feed that ends it. -/
def lines : List Char → List (List Char)
  | [] => []
  | c :: cs =>
    if c = '\n' then [] :: lines cs
    else match lines cs with
      | [] => []
      | l :: ls => (c :: l) :: ls

/-- Lines one below the other. -/
def unlines (ls : List (List Char)) : List Char := ls.flatMap (· ++ ['\n'])

variable {a a' b b' l : List Char} {ls : List (List Char)} {c : Char} {n : Nat} {k : Int}

@[simp] theorem unlines_nil : unlines [] = [] := rfl

@[simp] theorem unlines_cons (l : List Char) (ls : List (List Char)) : unlines (l :: ls) = l ++ '\n' :: unlines ls := by
  simp [unlines]

@[simp] theorem unlines_append (ls ls' : List (List Char)) : unlines (ls ++ ls') = unlines ls ++ unlines ls' := by
  simp [unlines]

theorem lines_append (hl : '\n' ∉ l) (rest : List Char) : lines (l ++ '\n' :: rest) = l :: lines rest := by
  induction l with
  | nil => rw [List.nil_append, lines, if_pos rfl]
  | cons c l ih =>
    obtain ⟨hc, hl⟩ := List.ne_and_not_mem_of_not_mem_cons hl
    rw [List.cons_append, lines, if_neg (Ne.symm hc), ih hl]

theorem lines_unlines (h : ∀ l ∈ ls, '\n' ∉ l) : lines (unlines ls) = ls := by
  induction ls with
  | nil => rfl
  | cons l ls ih =>
    obtain ⟨hl, hls⟩ := List.forall_mem_cons.mp h
    rw [unlines_cons, lines_append hl, ih hls]

/-- Texts that are equal are equal before and behind the first of their marks. -/
theorem eq_of_append_cons (ha : c ∉ a) (ha' : c ∉ a') (h : a ++ c :: b = a' ++ c :: b') : a = a' ∧ b = b' := by
  induction a generalizing a' with
  | nil =>
    cases a' with
    | nil => exact ⟨rfl, List.tail_eq_of_cons_eq h⟩
    | cons d a' => exact absurd (List.head_eq_of_cons_eq h) (List.ne_of_not_mem_cons ha')
  | cons d a ih =>
    cases a' with
    | nil => exact absurd (List.head_eq_of_cons_eq h).symm (List.ne_of_not_mem_cons ha)
    | cons d' a' =>
      obtain ⟨rfl, hb⟩ := ih (List.not_mem_of_not_mem_cons ha) (List.not_mem_of_not_mem_cons ha')
        (List.tail_eq_of_cons_eq h)
      rw [List.head_eq_of_cons_eq h]
      exact ⟨rfl, hb⟩

theorem mem_intercalate {separator : String} {ss : List String} (h : c ∈ (String.intercalate separator ss).toList) :
    c ∈ separator.toList ∨ ∃ s ∈ ss, c ∈ s.toList := by
  induction ss with
  | nil => cases h
  | cons s ss ih =>
    cases ss with
    | nil =>
      rw [String.intercalate_singleton] at h
      exact .inr ⟨s, List.mem_cons_self, h⟩
    | cons t ss =>
      rw [String.intercalate_cons_cons, String.toList_append, String.toList_append, List.mem_append,
        List.mem_append] at h
      rcases h with (h | h) | h
      · exact .inr ⟨s, List.mem_cons_self, h⟩
      · exact .inl h
      · exact (ih h).imp_right fun ⟨u, hu, hc⟩ => ⟨u, List.mem_cons_of_mem s hu, hc⟩

theorem isDigit_of_mem_toString (h : c ∈ (toString n).toList) : c.isDigit = true := by
  rw [Nat.toString_eq_ofList_toDigits, String.toList_ofList] at h
  exact Nat.isDigit_of_mem_toDigits (by decide) (by decide) h

/-- An integer is written with digits, behind a minus if it is negative. -/
theorem exists_toString_int (k : Int) :
    ∃ sign n, (toString k).toList = sign ++ (toString (n : Nat)).toList ∧ (sign = [] ∨ sign = ['-']) := by
  rw [Int.toString_eq_repr, Int.repr_eq_if]
  split
  · exact ⟨[], k.toNat, rfl, .inl rfl⟩
  · exact ⟨['-'], (-k).toNat, by rw [String.toList_append]; rfl, .inr rfl⟩

theorem isDigit_or_minus_of_mem_toString (h : c ∈ (toString k).toList) : c.isDigit = true ∨ c = '-' := by
  obtain ⟨sign, n, hk, hsign⟩ := exists_toString_int k
  rw [hk] at h
  rcases List.mem_append.mp h with h | h
  · rcases hsign with rfl | rfl
    · cases h
    · exact .inr (List.mem_singleton.mp h)
  · exact .inl (isDigit_of_mem_toString h)

theorem notMem_toString_int (hdigit : c.isDigit = false) (hminus : c ≠ '-') (k : Int) : c ∉ (toString k).toList := by
  intro h
  rcases isDigit_or_minus_of_mem_toString h with h | h
  · exact Bool.noConfusion (hdigit.symm.trans h)
  · exact hminus h

end Comparand.Text
