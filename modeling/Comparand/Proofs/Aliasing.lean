import Comparand.Proofs.Forgetting

/-! What is known about slots is true wherever pointers point: along every way that execution can have come, and
although each store through a pointer may change all cells at once. No more than this could be known. -/
namespace Comparand

/-- How a point of a program is come to: what is done along a path, and where two paths meet. -/
inductive History where
  | start
  | register (h : History) (cell : Slot)
  | set (h : History) (s : Slot) (v : Option Constant)
  | store (h : History) (cell : Slot) (v : Option Constant)
  | leave (h : History)
  | meet (a b : History)

namespace History

/-- What is noted along the way. -/
@[simp] def knowledge : History → Knowledge
  | start => {}
  | register h cell => h.knowledge.registerCell cell
  | set h s v => h.knowledge.set s v
  | store h cell v => h.knowledge.storeThrough cell v
  | leave h => h.knowledge.markUnreachable
  | meet a b => a.knowledge.merge b.knowledge

/-- What execution can find at such a point: the cells that were registered on its path, and the contents of all slots.
A store through a pointer gives its cell the value and every other registered cell whatever it likes. Where the path was
left, anything may follow; a path that is known to be left is not one that execution comes from. -/
inductive Leads : History → Set Slot → (Slot → Constant) → Prop where
  | start (contents : Slot → Constant) : Leads .start ∅ contents
  | register {h cells contents} (cell : Slot) (hl : Leads h cells contents) :
      Leads (.register h cell) (insert cell cells) contents
  | set {h cells contents contents' s v} (hl : Leads h cells contents) (hv : ∀ c, v = some c → contents' s = c)
      (hothers : ∀ t, t ≠ s → contents' t = contents t) : Leads (.set h s v) cells contents'
  | store {h cells contents contents' cell v} (hl : Leads h cells contents)
      (hv : ∀ c, v = some c → contents' cell = c)
      (hothers : ∀ t, t ≠ cell → t ∉ cells → contents' t = contents t) : Leads (.store h cell v) cells contents'
  | leave {h cells contents} (hl : Leads h cells contents) (contents' : Slot → Constant) :
      Leads (.leave h) cells contents'
  | left {a cells contents} (hl : Leads a cells contents) (hr : a.knowledge.reachable = true) (b : History) :
      Leads (.meet a b) cells contents
  | right {b cells contents} (a : History) (hl : Leads b cells contents) (hr : b.knowledge.reachable = true) :
      Leads (.meet a b) cells contents

end History

namespace Knowledge

variable {a b k : Knowledge} {s t : Slot} {v : Option Constant}

@[simp] theorem reachable_registerCell (k : Knowledge) (s : Slot) : (k.registerCell s).reachable = k.reachable := by
  unfold registerCell
  split <;> rfl

@[simp] theorem values_registerCell (k : Knowledge) (s : Slot) : (k.registerCell s).values = k.values := by
  unfold registerCell
  split <;> rfl

@[simp] theorem reachable_storeThrough (k : Knowledge) (s : Slot) (v : Option Constant) :
    (k.storeThrough s v).reachable = k.reachable := reachable_set ..

theorem merge_of_left (ha : a.reachable = false) : a.merge b = b := by simp [merge, ha]

theorem merge_of_right (ha : a.reachable = true) (hb : b.reachable = false) : a.merge b = a := by simp [merge, ha, hb]

/-- A meeting point can be reached if one of the two paths can. -/
theorem reachable_merge (a b : Knowledge) : (a.merge b).reachable = (a.reachable || b.reachable) := by
  cases ha : a.reachable with
  | false => rw [merge_of_left ha, Bool.false_or]
  | true =>
    cases hb : b.reachable with
    | false => rw [merge_of_right ha hb, ha, Bool.true_or]
    | true => simp [merge, ha, hb]

/-- The cells at a meeting point are those of the paths that can be taken. -/
theorem mem_cells_merge_iff (hr : (a.merge b).reachable = true) :
    t ∈ (a.merge b).cells ↔ t ∈ a.cells ∧ a.reachable = true ∨ t ∈ b.cells ∧ b.reachable = true := by
  rw [reachable_merge] at hr
  cases ha : a.reachable with
  | false => simp_all [merge_of_left ha]
  | true =>
    cases hb : b.reachable with
    | false => simp_all [merge_of_right ha hb]
    | true => by_cases ht : t ∈ a.cells <;> simp_all [merge]

/-- What both of two paths that can be taken know is known where they meet. -/
theorem get?_merge_of_both {c : Constant} (ha : a.reachable = true) (hb : b.reachable = true)
    (hac : a.get? t = some c) (hbc : b.get? t = some c) : (a.merge b).get? t = some c := by
  have hvalues : (a.merge b).values = a.values.filter fun e => b.get? e.1 = some e.2 := by simp [merge, ha, hb]
  cases h : (a.merge b).get? t with
  | none =>
    refine absurd rfl (get?_eq_none_iff.mp h (t, c) ?_)
    rw [hvalues]
    exact List.mem_filter.mpr ⟨mem_values_of_get? hac, by simpa using hbc⟩
  | some d =>
    have hd := mem_values_of_get? h
    rw [hvalues] at hd
    have hbd : b.get? t = some d := by simpa using (List.mem_filter.mp hd).2
    exact hbd.symm.trans hbc

end Knowledge

namespace History

variable {h : History} {cells : Set Slot} {contents : Slot → Constant} {s : Slot} {c : Constant}

/-- The registered cells of every path are among those that are noted. -/
theorem Leads.registered (hl : h.Leads cells contents) : ∀ t ∈ cells, t ∈ h.knowledge.cells := by
  induction hl with
  | start => exact fun t ht => absurd ht (Set.notMem_empty t)
  | register cell _ ih =>
    intro t ht
    exact Knowledge.mem_cells_registerCell.mpr (ht.imp id (ih t))
  | set _ _ _ ih =>
    rw [knowledge, Knowledge.cells_set]
    exact ih
  | store _ _ _ ih =>
    rw [knowledge, Knowledge.cells_storeThrough]
    exact ih
  | leave _ _ ih => exact ih
  | left _ hr b ih =>
    intro t ht
    exact (Knowledge.mem_cells_merge_iff (by simp [Knowledge.reachable_merge, hr])).mpr (.inl ⟨ih t ht, hr⟩)
  | right a _ hr ih =>
    intro t ht
    exact (Knowledge.mem_cells_merge_iff (by simp [Knowledge.reachable_merge, hr])).mpr (.inr ⟨ih t ht, hr⟩)

/-- The slots hold what is noted for them. -/
theorem Leads.holds (hl : h.Leads cells contents) (hr : h.knowledge.reachable = true) :
    ∀ e ∈ h.knowledge.values, contents e.1 = e.2 := by
  induction hl with
  | start => simp
  | register cell _ ih =>
    simp only [knowledge, Knowledge.reachable_registerCell, Knowledge.values_registerCell] at hr ⊢
    exact ih hr
  | set _ hv hothers ih =>
    rw [knowledge, Knowledge.reachable_set] at hr
    intro e he
    rcases Knowledge.mem_values_set.mp he with ⟨hmem, hne⟩ | ⟨hc, hs⟩
    · rw [hothers _ hne, ih hr e hmem]
    · rw [hs, hv _ hc]
  | store hl hv hothers ih =>
    rw [knowledge, Knowledge.reachable_storeThrough] at hr
    intro e he
    rcases Knowledge.mem_values_storeThrough.mp he with ⟨⟨hmem, hcell⟩, hne⟩ | ⟨hc, hs⟩
    · rw [hothers _ hne fun ht => hcell (hl.registered _ ht), ih hr e hmem]
    · rw [hs, hv _ hc]
  | leave => cases hr
  | left _ ha b ih => exact (Knowledge.forall_values_merge (.inl ⟨ih ha, ha⟩)).1
  | right a _ hb ih => exact (Knowledge.forall_values_merge (.inr ⟨ih hb, hb⟩)).1

theorem Leads.get? (hl : h.Leads cells contents) (hr : h.knowledge.reachable = true)
    (hs : h.knowledge.get? s = some c) : contents s = c :=
  hl.holds hr _ (Knowledge.mem_values_of_get? hs)

/-- A slot is noted, and its contents are as they have to be. -/
theorem Leads.set_update (hl : h.Leads cells contents) {v : Option Constant} {d : Constant}
    (hd : ∀ c, v = some c → d = c) : Leads (.set h s v) cells (Function.update contents s d) :=
  .set hl (fun c hc => (Function.update_self ..).trans (hd c hc)) fun _ ht => Function.update_of_ne ht ..

/-- A store through a pointer changes no cell but its own. -/
theorem Leads.store_update (hl : h.Leads cells contents) {v : Option Constant} {d : Constant}
    (hd : ∀ c, v = some c → d = c) : Leads (.store h s v) cells (Function.update contents s d) :=
  .store hl (fun c hc => (Function.update_self ..).trans (hd c hc)) fun _ ht _ => Function.update_of_ne ht ..

/-- A value that a slot can have been given. -/
theorem exists_given (v : Option Constant) : ∃ d : Constant, ∀ c, v = some c → d = c := by
  cases v with
  | none => exact ⟨.int 0, by simp⟩
  | some c => exact ⟨c, by simp⟩

instance : Nontrivial Constant := ⟨.int 0, .int 1, by decide⟩

theorem exists_given_ne {v : Option Constant} (hv : v ≠ some c) : ∃ d, (∀ e, v = some e → d = e) ∧ d ≠ c := by
  cases v with
  | none =>
    obtain ⟨d, hd⟩ := exists_ne c
    exact ⟨d, by simp, hd⟩
  | some e => exact ⟨e, by simp, fun he => hv (he ▸ rfl)⟩

/-- Execution can come to every point that is not known to be out of reach, and along a path that registers a given
cell if the cell is noted there. -/
theorem exists_leads (hr : h.knowledge.reachable = true) (s : Slot) :
    ∃ cells contents, h.Leads cells contents ∧ (s ∈ h.knowledge.cells → s ∈ cells) := by
  induction h with
  | start => exact ⟨_, fun _ => .int 0, .start _, by simp⟩
  | register h cell ih =>
    rw [knowledge, Knowledge.reachable_registerCell] at hr
    obtain ⟨cells, contents, hl, hcells⟩ := ih hr
    refine ⟨_, _, hl.register cell, fun hs => ?_⟩
    exact (Knowledge.mem_cells_registerCell.mp hs).imp id hcells
  | set h t v ih =>
    rw [knowledge, Knowledge.reachable_set] at hr
    rw [knowledge, Knowledge.cells_set]
    obtain ⟨cells, contents, hl, hcells⟩ := ih hr
    obtain ⟨d, hd⟩ := exists_given v
    exact ⟨_, _, hl.set_update hd, hcells⟩
  | store h t v ih =>
    rw [knowledge, Knowledge.reachable_storeThrough] at hr
    rw [knowledge, Knowledge.cells_storeThrough]
    obtain ⟨cells, contents, hl, hcells⟩ := ih hr
    obtain ⟨d, hd⟩ := exists_given v
    exact ⟨_, _, hl.store_update hd, hcells⟩
  | leave h => cases hr
  | meet a b iha ihb =>
    have hcells := Knowledge.mem_cells_merge_iff (t := s) hr
    by_cases ha : a.knowledge.reachable = true ∧ (s ∈ a.knowledge.cells ∨ b.knowledge.reachable = false)
    · obtain ⟨cells, contents, hl, hregistered⟩ := iha ha.1
      refine ⟨_, _, hl.left ha.1 b, fun hs => hregistered ?_⟩
      rcases hcells.mp hs with ⟨hs, -⟩ | ⟨-, hb⟩
      · exact hs
      · simpa [hb] using ha.2
    · have hb : b.knowledge.reachable = true := by
        rw [knowledge, Knowledge.reachable_merge] at hr
        by_contra hb
        simp_all
      obtain ⟨cells, contents, hl, hregistered⟩ := ihb hb
      refine ⟨_, _, hl.right a hb, fun hs => hregistered ?_⟩
      rcases hcells.mp hs with ⟨hs, har⟩ | ⟨hs, -⟩
      · exact absurd ⟨har, .inl hs⟩ ha
      · exact hs

/-- A constant that is not noted for a slot need not be what it holds. -/
theorem exists_leads_ne (hr : h.knowledge.reachable = true) (hs : h.knowledge.get? s ≠ some c) :
    ∃ cells contents, h.Leads cells contents ∧ contents s ≠ c := by
  induction h with
  | start =>
    obtain ⟨d, hd⟩ := exists_ne c
    exact ⟨_, fun _ => d, .start _, hd⟩
  | register h cell ih =>
    rw [knowledge, Knowledge.reachable_registerCell] at hr
    rw [knowledge, Knowledge.get?_registerCell] at hs
    obtain ⟨cells, contents, hl, hc⟩ := ih hr hs
    exact ⟨_, _, hl.register cell, hc⟩
  | set h t v ih =>
    rw [knowledge, Knowledge.reachable_set] at hr
    by_cases hst : s = t
    · subst hst
      rw [knowledge, Knowledge.get?_set_self] at hs
      obtain ⟨d, hd, hdc⟩ := exists_given_ne hs
      obtain ⟨cells, contents, hl, -⟩ := exists_leads hr s
      refine ⟨_, _, hl.set_update hd, ?_⟩
      rwa [Function.update_self]
    · rw [knowledge, Knowledge.get?_set_of_ne hst] at hs
      obtain ⟨cells, contents, hl, hc⟩ := ih hr hs
      obtain ⟨d, hd⟩ := exists_given v
      refine ⟨_, _, hl.set_update hd, ?_⟩
      rwa [Function.update_of_ne hst]
  | store h t v ih =>
    rw [knowledge, Knowledge.reachable_storeThrough] at hr
    by_cases hst : s = t
    · subst hst
      rw [knowledge, Knowledge.storeThrough, Knowledge.get?_set_self] at hs
      obtain ⟨d, hd, hdc⟩ := exists_given_ne hs
      obtain ⟨cells, contents, hl, -⟩ := exists_leads hr s
      refine ⟨_, _, hl.store_update hd, ?_⟩
      rwa [Function.update_self]
    · rw [knowledge, Knowledge.get?_storeThrough_of_ne hst] at hs
      obtain ⟨d, hd⟩ := exists_given v
      by_cases hcell : s ∈ h.knowledge.cells
      · -- the store changes this cell as well, on a path that registers it
        obtain ⟨cells, contents, hl, hregistered⟩ := exists_leads hr s
        obtain ⟨d', hd'⟩ := exists_ne c
        refine ⟨cells, Function.update (Function.update contents t d) s d', .store hl ?_ ?_, ?_⟩
        · intro e he
          rw [Function.update_of_ne (Ne.symm hst), Function.update_self, hd e he]
        · intro u hut hu
          have hus : u ≠ s := fun he => hu (he ▸ hregistered hcell)
          rw [Function.update_of_ne hus, Function.update_of_ne hut]
        · rwa [Function.update_self]
      · rw [if_neg hcell] at hs
        obtain ⟨cells, contents, hl, hc⟩ := ih hr hs
        refine ⟨_, _, hl.store_update hd, ?_⟩
        rwa [Function.update_of_ne hst]
  | leave h => cases hr
  | meet a b iha ihb =>
    -- one of the two paths can be taken and does not know the constant either
    have hpath : a.knowledge.reachable = true ∧ a.knowledge.get? s ≠ some c ∨
        b.knowledge.reachable = true ∧ b.knowledge.get? s ≠ some c := by
      simp only [knowledge] at hr hs
      cases ha : a.knowledge.reachable with
      | false =>
        rw [Knowledge.merge_of_left ha] at hr hs
        exact .inr ⟨hr, hs⟩
      | true =>
        cases hb : b.knowledge.reachable with
        | false =>
          rw [Knowledge.merge_of_right ha hb] at hs
          exact .inl ⟨rfl, hs⟩
        | true =>
          by_cases hac : a.knowledge.get? s = some c
          · exact .inr ⟨rfl, fun hbc => hs (Knowledge.get?_merge_of_both ha hb hac hbc)⟩
          · exact .inl ⟨rfl, hac⟩
    rcases hpath with ⟨ha, hac⟩ | ⟨hb, hbc⟩
    · obtain ⟨cells, contents, hl, hc⟩ := iha ha hac
      exact ⟨_, _, hl.left ha b, hc⟩
    · obtain ⟨cells, contents, hl, hc⟩ := ihb hb hbc
      exact ⟨_, _, hl.right a hb, hc⟩

/-- Where execution can come, a constant is noted for a slot exactly if the slot holds it, bit for bit, however
execution came and whatever the stores through pointers changed. A meeting point counts as out of reach only if both paths do. -/
theorem knowledge_exact :
    (∀ h : History, h.knowledge.reachable = true → ∀ s c,
      h.knowledge.get? s = some c ↔ ∀ cells contents, h.Leads cells contents → contents s = c) ∧
    ∀ a b : History, (a.meet b).knowledge.reachable = false ↔
      a.knowledge.reachable = false ∧ b.knowledge.reachable = false := by
  refine ⟨fun h hr s c => ⟨fun hs cells contents hl => hl.get? hr hs, fun hall => ?_⟩, fun a b => ?_⟩
  · by_contra hs
    obtain ⟨cells, contents, hl, hc⟩ := exists_leads_ne hr hs
    exact hc (hall cells contents hl)
  · rw [knowledge, Knowledge.reachable_merge, Bool.or_eq_false_iff]

/-- Two paths agree on a NaN and not on the sign of a zero. Only one of them registers a second cell; a store to it
makes the NaN uncertain all the same. -/
theorem knowledge_exact_signed : ∃ (h : History) (x y z : Slot),
    h.knowledge.reachable = true ∧
    (∀ cells contents, h.Leads cells contents → contents x = .float .nan) ∧
    (¬ ∀ cells contents, h.Leads cells contents → contents z = .float .zero) ∧
    ¬ ∀ cells contents, (h.store y none).Leads cells contents → contents x = .float .nan := by
  let x : Slot := ⟨0, by decide⟩
  let y : Slot := ⟨8, by decide⟩
  let z : Slot := ⟨16, by decide⟩
  let shared := (History.start.register x).store x (some (.float .nan))
  let h := (shared.set z (some (.float .zero))).meet ((shared.register y).set z (some (.float Binary64.zero.neg)))
  have hr : h.knowledge.reachable = true := by decide
  refine ⟨h, x, y, z, hr, (knowledge_exact.1 h hr x _).mp (by decide), fun hall => ?_, fun hall => ?_⟩
  · exact absurd ((knowledge_exact.1 h hr z _).mpr hall) (by decide)
  · exact absurd ((knowledge_exact.1 (h.store y none) (by decide) x _).mpr hall) (by decide)

end History
end Comparand
