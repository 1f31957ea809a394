import Comparand.Proofs.Aliasing

/-! Merging is a join. States of knowledge are ordered by what they allow for, and where two paths meet the least state
is kept that allows for both. The laws of merging follow from this order, with dead and live paths alike. -/
namespace Comparand

namespace Knowledge

variable {a b k : Knowledge}

/-- Both are out of reach, or both can be reached and the same is known, bit for bit, and the same cells are noted. -/
def Equivalent (a b : Knowledge) : Prop :=
  a.reachable = false ∧ b.reachable = false ∨
    a.reachable = true ∧ b.reachable = true ∧ (∀ s, a.get? s = b.get? s) ∧ ∀ s, s ∈ a.cells ↔ s ∈ b.cells

/-- The greater state allows for more: it knows less and has more cells. What is out of reach allows for nothing. -/
instance : Preorder Knowledge where
  le a b := a.reachable = true →
    b.reachable = true ∧ (∀ s d, b.get? s = some d → a.get? s = some d) ∧ ∀ s ∈ a.cells, s ∈ b.cells
  le_refl _ hr := ⟨hr, fun _ _ hs => hs, fun _ hs => hs⟩
  le_trans a b c hab hbc hr := by
    obtain ⟨hb, hvalues, hcells⟩ := hab hr
    obtain ⟨hc, hvalues', hcells'⟩ := hbc hb
    exact ⟨hc, fun s d hs => hvalues s d (hvalues' s d hs), fun s hs => hcells' s (hcells s hs)⟩

theorem le_of_unreachable (ha : a.reachable = false) : a ≤ b := fun hr => by cases ha.symm.trans hr

/-- States are equivalent if each allows for what the other does. -/
theorem equivalent_of_le (hab : a ≤ b) (hba : b ≤ a) : a.Equivalent b := by
  cases ha : a.reachable with
  | false =>
    refine .inl ⟨ha, Bool.eq_false_iff.mpr fun hb => ?_⟩
    exact Bool.noConfusion (ha.symm.trans (hba hb).1)
  | true =>
    obtain ⟨hb, hvalues, hcells⟩ := hab ha
    obtain ⟨-, hvalues', hcells'⟩ := hba hb
    exact .inr ⟨ha, hb, fun s => Option.ext fun d => ⟨hvalues' s d, hvalues s d⟩, fun s => ⟨hcells s, hcells' s⟩⟩

/-! Slots are noted once -/

/-- No slot is noted twice. -/
def Distinct (k : Knowledge) : Prop := (k.values.map Prod.fst).Nodup

/-- With no slot noted twice, each note is what is found. -/
theorem Distinct.get? (hk : k.Distinct) {e : Slot × Constant} (he : e ∈ k.values) : k.get? e.1 = some e.2 := by
  cases hget : k.get? e.1 with
  | none => exact absurd rfl (get?_eq_none_iff.mp hget e he)
  | some d =>
    have hpair : e = (e.1, d) := List.inj_on_of_nodup_map hk he (mem_values_of_get? hget) rfl
    rw [hpair]

theorem Distinct.filter (hk : k.Distinct) (p : Slot × Constant → Bool) : ((k.values.filter p).map Prod.fst).Nodup :=
  List.Nodup.sublist (List.filter_sublist.map Prod.fst) hk

theorem Distinct.set (hk : k.Distinct) (s : Slot) (v : Option Constant) : (k.set s v).Distinct := by
  have hothers := hk.filter fun e => e.1 ≠ s
  cases v with
  | none => exact hothers
  | some d =>
    refine List.nodup_cons.mpr ⟨fun hs => ?_, hothers⟩
    obtain ⟨e, he, hes⟩ := List.mem_map.mp hs
    exact absurd hes (by simpa using (List.mem_filter.mp he).2)

theorem Distinct.storeThrough (hk : k.Distinct) (s : Slot) (v : Option Constant) : (k.storeThrough s v).Distinct :=
  Distinct.set (k := { k with values := k.values.filter fun e => e.1 ∉ k.cells }) (hk.filter _) s v

theorem Distinct.merge (ha : a.Distinct) (hb : b.Distinct) : (a.merge b).Distinct := by
  unfold Knowledge.merge
  split
  · exact hb
  · split
    · exact ha
    · exact ha.filter _

end Knowledge

theorem History.distinct (h : History) : h.knowledge.Distinct := by
  induction h with
  | start => exact List.nodup_nil
  | register h cell ih =>
    rw [knowledge, Knowledge.Distinct, Knowledge.values_registerCell]
    exact ih
  | set h s v ih => exact ih.set s v
  | store h cell v ih => exact ih.storeThrough cell v
  | leave h ih => exact ih
  | meet a b iha ihb => exact iha.merge ihb

namespace Knowledge

variable {a b c : Knowledge}

/-! The least state that allows for both -/

theorem values_merge (ha : a.reachable = true) (hb : b.reachable = true) :
    (a.merge b).values = a.values.filter fun e => b.get? e.1 = some e.2 := by simp [merge, ha, hb]

theorem mem_merge_of_get? {s : Slot} {d : Constant} (ha : a.reachable = true) (hb : b.reachable = true)
    (hs : (a.merge b).get? s = some d) : (s, d) ∈ a.values ∧ b.get? s = some d := by
  have hmem := mem_values_of_get? hs
  rw [values_merge ha hb, List.mem_filter, decide_eq_true_eq] at hmem
  exact hmem

theorem le_merge_left (hd : a.Distinct) (b : Knowledge) : a ≤ a.merge b := by
  intro ha
  have hr : (a.merge b).reachable = true := by rw [reachable_merge, ha, Bool.true_or]
  refine ⟨hr, fun s d hs => ?_, fun s hs => (mem_cells_merge_iff hr).mpr (.inl ⟨hs, ha⟩)⟩
  cases hb : b.reachable with
  | false => rwa [merge_of_right ha hb] at hs
  | true => exact hd.get? (mem_merge_of_get? ha hb hs).1

theorem le_merge_right (a b : Knowledge) : b ≤ a.merge b := by
  intro hb
  have hr : (a.merge b).reachable = true := by rw [reachable_merge, hb, Bool.or_true]
  refine ⟨hr, fun s d hs => ?_, fun s hs => (mem_cells_merge_iff hr).mpr (.inr ⟨hs, hb⟩)⟩
  cases ha : a.reachable with
  | false => rwa [merge_of_left ha] at hs
  | true => exact (mem_merge_of_get? ha hb hs).2

theorem merge_le (hac : a ≤ c) (hbc : b ≤ c) : a.merge b ≤ c := by
  cases ha : a.reachable with
  | false => rwa [merge_of_left ha]
  | true =>
    cases hb : b.reachable with
    | false => rwa [merge_of_right ha hb]
    | true =>
      obtain ⟨hc, hvalues, hcells⟩ := hac ha
      obtain ⟨-, hvalues', hcells'⟩ := hbc hb
      refine fun hr => ⟨hc, fun s d hs => get?_merge_of_both ha hb (hvalues s d hs) (hvalues' s d hs), fun s hs => ?_⟩
      rcases (mem_cells_merge_iff hr).mp hs with ⟨hs, -⟩ | ⟨hs, -⟩
      · exact hcells s hs
      · exact hcells' s hs

theorem merge_comm_le (hb : b.Distinct) : a.merge b ≤ b.merge a := merge_le (le_merge_right b a) (le_merge_left hb a)

theorem merge_assoc_le (ha : a.Distinct) (hb : b.Distinct) : (a.merge b).merge c ≤ a.merge (b.merge c) :=
  merge_le (merge_le (le_merge_left ha _) ((le_merge_left hb c).trans (le_merge_right a _)))
    ((le_merge_right b c).trans (le_merge_right a _))

theorem merge_assoc_ge (ha : a.Distinct) (hb : b.Distinct) : a.merge (b.merge c) ≤ (a.merge b).merge c :=
  have hab : a.merge b ≤ (a.merge b).merge c := le_merge_left (ha.merge hb) c
  merge_le ((le_merge_left ha b).trans hab) (merge_le ((le_merge_right a b).trans hab) (le_merge_right _ c))

/-- Merging is a join of the states that can come about. It is commutative, associative and idempotent, and a state that
is out of reach is neutral. Where both paths can be taken, a constant is known exactly if both know it, bit for bit. -/
theorem merge_join (a b c : History) :
    (a.knowledge.merge b.knowledge).Equivalent (b.knowledge.merge a.knowledge) ∧
    ((a.knowledge.merge b.knowledge).merge c.knowledge).Equivalent
      (a.knowledge.merge (b.knowledge.merge c.knowledge)) ∧
    (a.knowledge.merge a.knowledge).Equivalent a.knowledge ∧
    (b.knowledge.reachable = false → (a.knowledge.merge b.knowledge).Equivalent a.knowledge ∧
      (b.knowledge.merge a.knowledge).Equivalent a.knowledge) ∧
    (a.knowledge.reachable = true → b.knowledge.reachable = true → ∀ s d,
      (a.knowledge.merge b.knowledge).get? s = some d ↔
        a.knowledge.get? s = some d ∧ b.knowledge.get? s = some d) := by
  have ha := a.distinct
  have hb := b.distinct
  refine ⟨equivalent_of_le (merge_comm_le hb) (merge_comm_le ha),
    equivalent_of_le (merge_assoc_le ha hb) (merge_assoc_ge ha hb),
    equivalent_of_le (merge_le le_rfl le_rfl) (le_merge_left ha _), fun hdead => ?_,
    fun hra hrb s d => ⟨fun hs => ?_, ?_⟩⟩
  · exact ⟨equivalent_of_le (merge_le le_rfl (le_of_unreachable hdead)) (le_merge_left ha _),
      equivalent_of_le (merge_le (le_of_unreachable hdead) le_rfl) (le_merge_right _ _)⟩
  · obtain ⟨hmem, hbs⟩ := mem_merge_of_get? hra hrb hs
    exact ⟨ha.get? hmem, hbs⟩
  · exact fun ⟨has, hbs⟩ => get?_merge_of_both hra hrb has hbs

/-- A NaN agrees with itself and the two zeros do not agree; a path that is left, though it notes another number, does
not matter. -/
theorem merge_join_signed : ∃ (a b c : History) (x z : Slot), a.knowledge.reachable = true ∧
    b.knowledge.reachable = true ∧ c.knowledge.reachable = false ∧
    (a.knowledge.merge b.knowledge).get? x = some (.float .nan) ∧
    (∀ d, (a.knowledge.merge b.knowledge).get? z ≠ some d) ∧
    (a.knowledge.merge c.knowledge).Equivalent a.knowledge := by
  let x : Slot := ⟨0, by decide⟩
  let z : Slot := ⟨8, by decide⟩
  let shared := History.start.set x (some (.float .nan))
  let a := shared.set z (some (.float .zero))
  let b := shared.set z (some (.float Binary64.zero.neg))
  let c := (shared.set x (some (.int 1))).leave
  have ha : a.knowledge.reachable = true := by decide
  have hb : b.knowledge.reachable = true := by decide
  have hc : c.knowledge.reachable = false := by decide
  have hagree := (merge_join a b c).2.2.2.2 ha hb
  refine ⟨a, b, c, x, z, ha, hb, hc, (hagree x _).mpr (by decide), fun d hd => ?_, ((merge_join a c b).2.2.2.1 hc).1⟩
  obtain ⟨haz, hbz⟩ := (hagree z d).mp hd
  exact absurd (haz.trans hbz.symm) (by decide)

end Knowledge
end Comparand
