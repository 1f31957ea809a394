import Comparand.Proofs.Course
import Comparand.Proofs.Testing

/-! Stores through pointers make the contents of all other cells unknown. They stay so until a store through a pointer
to the cell itself, so that tests of such a cell are left to the code. -/
namespace Comparand

theorem lookup_filter {α β : Type} [DecidableEq α] {p : α → Bool} {a : α} (ha : p a = true) (l : List (α × β)) :
    (l.filter fun e => p e.1).lookup a = l.lookup a := by
  induction l with
  | nil => rfl
  | cons e l ih =>
    obtain ⟨b, v⟩ := e
    by_cases hab : a = b
    · subst hab
      rw [List.filter_cons_of_pos (by exact ha), List.lookup_cons_self, List.lookup_cons_self]
    · have hne : (a == b) = false := by simpa using hab
      by_cases hb : p b = true
      · rw [List.filter_cons_of_pos (by exact hb), List.lookup_cons, List.lookup_cons, hne, ih]
      · rw [List.filter_cons_of_neg (by exact hb), List.lookup_cons, hne, ih]

namespace Knowledge

variable {k a b : Knowledge} {s t : Slot} {v : Option Constant}

theorem get?_eq_none_iff : k.get? s = none ↔ ∀ e ∈ k.values, e.1 ≠ s := by
  rw [get?, List.lookup_eq_none_iff]
  refine forall₂_congr fun e _ => ?_
  rw [bne_iff_ne, ne_comm]

theorem cells_set (k : Knowledge) (s : Slot) (v : Option Constant) : (k.set s v).cells = k.cells := by
  cases v <;> rfl

theorem cells_storeThrough (k : Knowledge) (s : Slot) (v : Option Constant) :
    (k.storeThrough s v).cells = k.cells := cells_set ..

theorem mem_cells_registerCell : t ∈ (k.registerCell s).cells ↔ t = s ∨ t ∈ k.cells := by
  unfold registerCell
  split
  next hs => exact ⟨.inr, fun h => h.elim (fun he => he ▸ hs) id⟩
  next => exact List.mem_cons

theorem get?_registerCell (k : Knowledge) (s t : Slot) : (k.registerCell s).get? t = k.get? t := by
  unfold registerCell
  split <;> rfl

theorem get?_set_self (k : Knowledge) (s : Slot) (v : Option Constant) : (k.set s v).get? s = v := by
  cases v with
  | some c => exact List.lookup_cons_self
  | none =>
    refine get?_eq_none_iff.mpr fun e he => ?_
    simpa using (List.mem_filter.mp he).2

/-- What is noted for one slot says nothing about the others. -/
theorem get?_set_of_ne (h : t ≠ s) : (k.set s v).get? t = k.get? t := by
  have hothers : (k.values.filter fun e => e.1 ≠ s).lookup t = k.get? t :=
    lookup_filter (p := fun t => decide (t ≠ s)) (by simpa using h) k.values
  cases v with
  | none => exact hothers
  | some c =>
    have hne : (t == s) = false := by simpa using h
    rw [← hothers, get?, set, List.lookup_cons, hne]

/-- A store through a pointer leaves nothing known about the other cells. -/
theorem get?_storeThrough_of_ne (h : t ≠ s) :
    (k.storeThrough s v).get? t = if t ∈ k.cells then none else k.get? t := by
  rw [storeThrough, get?_set_of_ne h]
  split
  next ht =>
    refine get?_eq_none_iff.mpr fun e he het => ?_
    simp [het, ht] at he
  next ht => exact lookup_filter (p := fun t => decide (t ∉ k.cells)) (by simpa using ht) k.values

theorem get?_set_eq_none (hne : t ≠ s) (h : k.get? t = none) : (k.set s v).get? t = none :=
  (get?_set_of_ne hne).trans h

theorem get?_storeThrough_eq_none (hne : t ≠ s) (h : t ∈ k.cells ∨ k.get? t = none) :
    (k.storeThrough s v).get? t = none := by
  rw [get?_storeThrough_of_ne hne]
  rcases h with h | h
  · rw [if_pos h]
  · rw [h, ite_self]

/-- Where two paths meet, all is as one of them has it, or less is known than on each. -/
theorem merge_cases (a b : Knowledge) :
    a.merge b = a ∨ a.merge b = b ∨
      (∀ t, a.get? t = none → (a.merge b).get? t = none) ∧
        ∀ t, t ∈ (a.merge b).cells ↔ t ∈ a.cells ∨ t ∈ b.cells := by
  unfold merge
  split
  next => exact .inr (.inl rfl)
  next =>
    split
    next => exact .inl rfl
    next =>
      refine .inr (.inr ⟨fun t ht => ?_, fun t => ?_⟩)
      · exact get?_eq_none_iff.mpr fun e he => get?_eq_none_iff.mp ht e (List.mem_filter.mp he).1
      · by_cases ht : t ∈ a.cells <;> simp [ht]

theorem mem_cells_merge (ha : t ∈ a.cells) (hb : t ∈ b.cells) : t ∈ (a.merge b).cells := by
  rcases merge_cases a b with h | h | ⟨-, h⟩
  · rwa [h]
  · rwa [h]
  · exact (h t).mpr (.inl ha)

theorem get?_merge_eq_none (ha : a.get? t = none) (hb : b.get? t = none) : (a.merge b).get? t = none := by
  rcases merge_cases a b with h | h | ⟨h, -⟩
  · rw [h, ha]
  · rw [h, hb]
  · exact h t ha

/-- A comparison with an unknown side is not decided. -/
theorem decide?_eq_none {op : Relation} {lhs rhs : Value} {c : Comparison} (hc : Comparison.ofValues lhs rhs = .ok c)
    (h : k.value? lhs = none ∨ k.value? rhs = none) : k.decide? op c = none := by
  obtain ⟨-, -, ⟨w, -, rfl⟩ | ⟨-, -, -, rfl⟩⟩ := Comparison.ofValues_eq_ok.mp hc
  all_goals
    refine Option.eq_none_iff_forall_ne_some.mpr fun b hb => ?_
  · obtain ⟨x, y, hx, hy, -⟩ := decide?_float hb
    rcases h with h | h
    · cases h.symm.trans hx
    · cases h.symm.trans hy
  · obtain ⟨x, y, hx, hy, -⟩ := decide?_int hb
    rcases h with h | h
    · cases h.symm.trans hx
    · cases h.symm.trans hy

end Knowledge

/-- A test that compares the contents of a cell, under parentheses and negations. -/
inductive Expr.Tests (scopes : Scopes) (cell : Slot) : Expr → Prop where
  | paren {e} (h : Tests scopes cell e) : Tests scopes cell (.paren e)
  | not {e} (h : Tests scopes cell e) : Tests scopes cell (.not e)
  | left {op lhs rhs x ty} (hx : lhs.unparen = .deref x) (hcell : scopes.lookup? x = some ⟨.pointer ty, cell⟩) :
      Tests scopes cell (.compare op lhs rhs)
  | right {op lhs rhs x ty} (hx : rhs.unparen = .deref x) (hcell : scopes.lookup? x = some ⟨.pointer ty, cell⟩) :
      Tests scopes cell (.compare op lhs rhs)

namespace Expr

variable {scopes : Scopes} {cell : Slot} {k : Knowledge} {e : Expr}

theorem value?_of_deref {x : String} {ty : Scalar} {v : Value} (hx : e.unparen = .deref x)
    (hcell : scopes.lookup? x = some ⟨.pointer ty, cell⟩) (hk : k.get? cell = none)
    (hv : e.value scopes = .ok v) : k.value? v = none := by
  have hv' := value_eq_ok.mpr (.inr (.inr ⟨x, ty, cell, hx, hcell, rfl⟩))
  cases hv.symm.trans hv'
  exact hk

/-- Nothing is decided about a cell of which nothing is known. -/
theorem Tests.decide (h : e.Tests scopes cell) (hk : k.get? cell = none) {b : Option Bool}
    (hb : e.decide scopes k = .ok b) : b = none := by
  induction h generalizing b with
  | paren _ ih => exact ih hb
  | not _ ih =>
    obtain ⟨b', hb', hb⟩ := ok_of_bind hb
    cases ih hb'
    exact (Except.ok.inj hb).symm
  | left hx hcell =>
    obtain ⟨c, hc, hb⟩ := ok_of_bind hb
    obtain ⟨lhs, rhs, hlhs, -, hvalues⟩ := Comparison.ofExprs_eq_ok.mp hc
    rw [← Except.ok.inj hb]
    exact Knowledge.decide?_eq_none hvalues (.inl (value?_of_deref hx hcell hk hlhs))
  | right hx hcell =>
    obtain ⟨c, hc, hb⟩ := ok_of_bind hb
    obtain ⟨lhs, rhs, -, hrhs, hvalues⟩ := Comparison.ofExprs_eq_ok.mp hc
    rw [← Except.ok.inj hb]
    exact Knowledge.decide?_eq_none hvalues (.inr (value?_of_deref hx hcell hk hrhs))

end Expr

namespace Stmt

variable {o : CompileOptions} {g g₁ g' : GenState} {code : List Instr} {trace : List (Stmt × GenState)} {s : Slot}
  {x : String} {symbol : Symbol} {known : Knowledge}

theorem lookup?_of_declares (h : g.Declares x symbol known g') {y : String} {found : Symbol}
    (hy : g'.scopes.lookup? y = some found) : found = symbol ∨ g.scopes.lookup? y = some found := by
  rw [h.state, Scopes.lookup?_eq, List.cons_append, List.lookup_cons] at hy
  split at hy
  · exact .inl (Option.some.inj hy).symm
  · exact .inr ((Scopes.lookup?_eq ..).trans hy)

/-! Slots of variables and cells -/

/-- The slot was taken by a variable. -/
def IsVariable (o : CompileOptions) (trace : List (Stmt × GenState)) (s : Slot) : Prop :=
  ∃ visit ∈ trace, ∃ ty, Declared o visit ⟨.scalar ty, s⟩

theorem IsVariable.append (h : IsVariable o trace s) (more : List (Stmt × GenState)) :
    IsVariable o (trace ++ more) s := by
  obtain ⟨visit, hvisit, hs⟩ := h
  exact ⟨visit, List.mem_append_left _ hvisit, hs⟩

/-- Everything that is known is known of a registered cell or of a variable, and names stand for these. A cell of a
branch that does not come to its end may get lost, but then with all that is known of it. -/
structure Accounted (o : CompileOptions) (trace : List (Stmt × GenState)) (g : GenState) : Prop where
  known : ∀ ⦃s⦄, s ∉ g.known.cells → ¬ IsVariable o trace s → g.known.get? s = none
  scalars : ∀ ⦃x ty s⦄, g.scopes.lookup? x = some ⟨.scalar ty, s⟩ → IsVariable o trace s
  cells : ∀ ⦃x ty s⦄, g.scopes.lookup? x = some ⟨.pointer ty, s⟩ → s ∈ g.known.cells

theorem Accounted.append (h : Accounted o trace g) (more : List (Stmt × GenState)) : Accounted o (trace ++ more) g where
  known _ hs hno := h.known hs fun hs => hno (hs.append more)
  scalars _ _ _ hx := (h.scalars hx).append more
  cells := h.cells

/-- From one state to another, with the statements compiled meanwhile. -/
structure Accounts (o : CompileOptions) (visited : List (Stmt × GenState)) (g g' : GenState) : Prop where
  cells : g.known.cells ⊆ g'.known.cells
  accounted : ∀ ⦃trace⦄, Accounted o trace g → Accounted o (trace ++ visited) g'

theorem Accounts.declare {ty : Scalar} {slot : Slot} {kept : Option Constant} {st : Stmt}
    (hst : st.declared? = some x) (hgen : st.gen o g = .ok (code, g'))
    (hdeclares : g.Declares x ⟨.scalar ty, slot⟩ (g.known.set slot kept) g') : Accounts o [(st, g)] g g' := by
  have hknown : g'.known = g.known.set slot kept := by rw [hdeclares.state]
  refine ⟨by simp [hknown, Knowledge.cells_set], fun trace h => ?_⟩
  have hslot : IsVariable o (trace ++ [(st, g)]) slot :=
    ⟨(st, g), by simp, ty, Declares.declared hdeclares hst hgen⟩
  have h := h.append [(st, g)]
  refine ⟨fun s hs hno => ?_, fun y ty' s hy => ?_, fun y ty' s hy => ?_⟩
  · rw [hknown, Knowledge.cells_set] at hs
    rw [hknown]
    exact Knowledge.get?_set_eq_none (fun he => hno (he ▸ hslot)) (h.known hs hno)
  · rcases lookup?_of_declares hdeclares hy with he | hy
    · cases he
      exact hslot
    · exact h.scalars hy
  · rcases lookup?_of_declares hdeclares hy with he | hy
    · cases he
    · rw [hknown, Knowledge.cells_set]
      exact h.cells hy

theorem Accounts.new {ty : Scalar} {cell : Slot} {visited : List (Stmt × GenState)}
    (hdeclares : g.Declares x ⟨.pointer ty, cell⟩ ((g.known.registerCell cell).set cell (some ty.zero)) g') :
    Accounts o visited g g' := by
  have hknown : g'.known = (g.known.registerCell cell).set cell (some ty.zero) := by rw [hdeclares.state]
  have hcells : ∀ t, t ∈ g'.known.cells ↔ t = cell ∨ t ∈ g.known.cells := fun t => by
    rw [hknown, Knowledge.cells_set, Knowledge.mem_cells_registerCell]
  refine ⟨fun t ht => (hcells t).mpr (.inr ht), fun trace h => ?_⟩
  have h := h.append visited
  refine ⟨fun s hs hno => ?_, fun y ty' s hy => ?_, fun y ty' s hy => ?_⟩
  · rw [hcells, not_or] at hs
    rw [hknown]
    exact Knowledge.get?_set_eq_none hs.1 ((Knowledge.get?_registerCell ..).trans (h.known hs.2 hno))
  · rcases lookup?_of_declares hdeclares hy with he | hy
    · cases he
    · exact h.scalars hy
  · rcases lookup?_of_declares hdeclares hy with he | hy
    · cases he
      exact (hcells _).mpr (.inl rfl)
    · exact (hcells s).mpr (.inr (h.cells hy))

theorem Accounts.assign {ty : Scalar} {slot : Slot} {kept : Option Constant} {visited : List (Stmt × GenState)}
    (hx : g.scopes.lookup? x = some ⟨.scalar ty, slot⟩) :
    Accounts o visited g { g with known := g.known.set slot kept } := by
  refine ⟨by simp [Knowledge.cells_set], fun trace h => ?_⟩
  have h := h.append visited
  refine ⟨fun s hs hno => ?_, h.scalars, fun y ty' s hy => ?_⟩
  · rw [Knowledge.cells_set] at hs
    exact Knowledge.get?_set_eq_none (fun he => hno (he ▸ h.scalars hx)) (h.known hs hno)
  · rw [Knowledge.cells_set]
    exact h.cells hy

theorem Accounts.store {ty : Scalar} {cell : Slot} {kept : Option Constant} {visited : List (Stmt × GenState)}
    (hx : g.scopes.lookup? x = some ⟨.pointer ty, cell⟩) :
    Accounts o visited g { g with known := g.known.storeThrough cell kept } := by
  refine ⟨by simp [Knowledge.cells_storeThrough], fun trace h => ?_⟩
  have h := h.append visited
  refine ⟨fun s hs hno => ?_, h.scalars, fun y ty' s hy => ?_⟩
  · rw [Knowledge.cells_storeThrough] at hs
    exact Knowledge.get?_storeThrough_eq_none (fun he => hs (he ▸ h.cells hx)) (.inr (h.known hs hno))
  · rw [Knowledge.cells_storeThrough]
    exact h.cells hy

theorem Accounted.merge {a b : Knowledge} (ha : Accounted o trace { g with known := a })
    (hb : Accounted o trace { g with known := b }) : Accounted o trace { g with known := a.merge b } := by
  rcases Knowledge.merge_cases a b with h | h | ⟨hget, hcells⟩
  · rwa [h]
  · rwa [h]
  · refine ⟨fun s hs hno => ?_, ha.scalars, fun y ty s hy => (hcells s).mpr (.inl (ha.cells hy))⟩
    rw [hcells, not_or] at hs
    exact hget s (ha.known hs.1 hno)

/-- Names that stand for the same, with what was known before or is known now. -/
theorem Accounted.restore (h : Accounted o trace g) (hscopes : g'.scopes = g.scopes) :
    Accounted o trace { g' with known := g.known } where
  known := h.known
  scalars _ _ _ hx := h.scalars (hscopes ▸ hx)
  cells _ _ _ hx := h.cells (hscopes ▸ hx)

theorem Accounted.enter (h : Accounted o trace g) : Accounted o trace g.enter where
  known := h.known
  scalars x _ _ hx := h.scalars (g.scopes.lookup?_push x ▸ hx)
  cells x _ _ hx := h.cells (g.scopes.lookup?_push x ▸ hx)

theorem accounts_compositional (o : CompileOptions) : Compositional o (Accounts o) where
  nothing g := ⟨fun _ hs => hs, fun trace h => by simpa using h⟩
  plain s g code g' hplain hgen := by
    cases effect_of_gen hplain hgen with
    | declare hx h => exact .declare hx hgen h
    | new _ h => exact .new h
    | assign hx => exact .assign hx
    | store hx => exact .store hx
    | exit => exact ⟨fun _ hs => hs, fun trace h => ⟨(h.append _).known, (h.append _).scalars, h.cells⟩⟩
  append visited more g g₁ g' h h' := by
    refine ⟨fun s hs => h'.cells (h.cells hs), fun trace ht => ?_⟩
    rw [← List.append_assoc]
    exact h'.accounted (h.accounted ht)
  cond test body otherwise visited g g' h := by
    refine ⟨h.cells, fun trace ht => ?_⟩
    rw [List.append_cons]
    exact h.accounted (ht.append _)
  enter g := ⟨fun _ hs => hs, fun trace ht => by simpa using ht.enter⟩
  block visited g g' h := by
    refine ⟨h.cells, fun trace ht => ?_⟩
    exact ⟨(h.accounted ht.enter).known, (ht.append visited).scalars, fun _ _ _ hx => h.cells (ht.cells hx)⟩
  labelled visited g g' hint h := ⟨h.cells, fun trace ht => h.accounted ⟨ht.known, ht.scalars, ht.cells⟩⟩
  restore visited g g' hscopes h := ⟨fun _ hs => hs, fun trace ht => (ht.append visited).restore hscopes⟩
  short visited g g' hscopes h := by
    refine ⟨fun s hs => Knowledge.mem_cells_merge (h.cells hs) hs, fun trace ht => ?_⟩
    exact (h.accounted ht).merge ((ht.append visited).restore hscopes)
  long visited more g g₁ g' hscopes hscopes' h h' := by
    refine ⟨fun s hs => Knowledge.mem_cells_merge (h.cells hs) (h'.cells hs), fun trace ht => ?_⟩
    rw [← List.append_assoc]
    have hfirst := ((h.accounted ht).append more).restore (hscopes'.trans hscopes.symm)
    exact hfirst.merge (h'.accounted ((ht.append visited).restore hscopes))

theorem accounted_start : Accounted o [] {} where
  known _ _ _ := rfl
  scalars _ _ _ hx := by cases hx
  cells _ _ _ hx := by cases hx

/-! Cells of which nothing is known -/

/-- Nothing is known about a cell, and it is no variable that could be assigned. -/
structure Blind (cell : Slot) (g : GenState) : Prop where
  unknown : g.known.get? cell = none
  apart : ∀ ⦃x ty s⦄, g.scopes.lookup? x = some ⟨.scalar ty, s⟩ → s ≠ cell
  taken : cell.offset < g.frame.next

/-- The statement stores through a pointer to the cell. -/
def StoresInto (cell : Slot) (visit : Stmt × GenState) : Prop :=
  ∃ x e ty, visit.1 = .store x e ∧ visit.2.scopes.lookup? x = some ⟨.pointer ty, cell⟩

variable {cell : Slot}

theorem Blind.declare (h : Blind cell g) (hdeclares : g.Declares x symbol known g')
    (hknown : symbol.slot ≠ cell → known.get? cell = none) : Blind cell g' := by
  have hne : symbol.slot ≠ cell := by
    rintro rfl
    have htaken := h.taken
    rw [hdeclares.slot] at htaken
    omega
  refine ⟨by simpa [hdeclares.state] using hknown hne, fun y ty s hy => ?_, ?_⟩
  · rcases lookup?_of_declares hdeclares hy with he | hy
    · cases he
      exact hne
    · exact h.apart hy
  · have htaken := h.taken
    rw [hdeclares.state]
    push_cast
    omega

theorem Blind.restore (h : Blind cell g) (h' : Blind cell g') : Blind cell { g' with known := g.known } :=
  ⟨h.unknown, h'.apart, h'.taken⟩

theorem Blind.merge (h : Blind cell g) {k : Knowledge} (hk : k.get? cell = none) {known : Knowledge}
    (hknown : known.get? cell = none) : Blind cell { g with known := known.merge k } :=
  ⟨Knowledge.get?_merge_eq_none hknown hk, h.apart, h.taken⟩

theorem Blind.enter (h : Blind cell g) : Blind cell g.enter :=
  ⟨h.unknown, fun x _ _ hx => h.apart (g.scopes.lookup?_push x ▸ hx), h.taken⟩

theorem Blind.effect {st : Stmt} (h : Blind cell g) (heffect : Effect st g g') (hquiet : ¬ StoresInto cell (st, g)) :
    Blind cell g' := by
  cases heffect with
  | declare _ hdeclares =>
    exact h.declare hdeclares fun hne => Knowledge.get?_set_eq_none hne.symm h.unknown
  | new _ hdeclares =>
    refine h.declare hdeclares fun hne => Knowledge.get?_set_eq_none hne.symm ?_
    rw [Knowledge.get?_registerCell, h.unknown]
  | assign hx => exact ⟨Knowledge.get?_set_eq_none (h.apart hx).symm h.unknown, h.apart, h.taken⟩
  | @store x e ty target _ _ hx =>
    have hne : cell ≠ target := by
      rintro rfl
      exact hquiet ⟨x, e, ty, rfl, hx⟩
    exact ⟨Knowledge.get?_storeThrough_eq_none hne (.inr h.unknown), h.apart, h.taken⟩
  | exit => exact ⟨h.unknown, h.apart, h.taken⟩

/-- As long as no store goes into it, nothing gets known about the cell. -/
def StaysBlind (cell : Slot) (visited : List (Stmt × GenState)) (g g' : GenState) : Prop :=
  Blind cell g → (∀ visit ∈ visited, ¬ StoresInto cell visit) → Blind cell g'

theorem staysBlind_compositional (o : CompileOptions) (cell : Slot) : Compositional o (StaysBlind cell) where
  nothing g h _ := h
  plain s g code g' hplain hgen h hquiet := h.effect (effect_of_gen hplain hgen) (hquiet _ (by simp))
  append visited more g g₁ g' h h' hg hquiet :=
    h' (h hg fun visit hv => hquiet visit (by simp [hv])) fun visit hv => hquiet visit (by simp [hv])
  cond test body otherwise visited g g' h hg hquiet := h hg fun visit hv => hquiet visit (by simp [hv])
  enter g h _ := h.enter
  block visited g g' h hg hquiet := by
    have hafter := h hg.enter hquiet
    exact ⟨hafter.unknown, hg.apart, hafter.taken⟩
  labelled visited g g' hint h hg hquiet := h ⟨hg.unknown, hg.apart, hg.taken⟩ hquiet
  restore visited g g' _ h hg hquiet := hg.restore (h hg hquiet)
  short visited g g' _ h hg hquiet := (h hg hquiet).merge hg.unknown (h hg hquiet).unknown
  long visited more g g₁ g' _ _ h h' hg hquiet := by
    have hfirst := h hg fun visit hv => hquiet visit (by simp [hv])
    have hlast := h' (hg.restore hfirst) fun visit hv => hquiet visit (by simp [hv])
    exact hlast.merge hlast.unknown hfirst.unknown

/-- The statement makes the cell with `new`. -/
def Creates (o : CompileOptions) (visit : Stmt × GenState) (cell : Slot) : Prop :=
  ∃ x e ty code g, visit.1 = .define x e ∧ e.unparen = .new ty ∧ visit.1.gen o visit.2 = .ok (code, g) ∧
    g.scopes.lookup? x = some ⟨.pointer ty, cell⟩

theorem Creates.declared {visit : Stmt × GenState} (h : Creates o visit cell) :
    ∃ ty, Declared o visit ⟨.pointer ty, cell⟩ := by
  obtain ⟨x, e, ty, code, g, hvisit, -, hgen, hx⟩ := h
  exact ⟨ty, x, code, g, by rw [hvisit]; rfl, hgen, hx⟩

variable {block rest ss : List Stmt} {whole : List Instr} {last : GenState} {visit : Stmt × GenState} {z : String}
  {e test : Expr} {ty : Scalar} {target : Slot}

/-- Slots are handed out once, so a cell is never a variable as well. -/
theorem Lays.not_isVariable {start : GenState} (h : Lays o trace start whole g) (hvisit : visit ∈ trace)
    (hcell : Creates o visit cell) : ¬ IsVariable o trace cell := by
  rintro ⟨visit', hvisit', ty', hvariable⟩
  obtain ⟨ty, hdeclared⟩ := hcell.declared
  cases h.slot_unique hvisit hvisit' hdeclared hvariable rfl

/-- A store through a pointer makes the other cells unknown. -/
theorem Reached.blind (h : Reached o block {} trace (.store z e :: rest) g)
    (hblock : genList o block {} = .ok (whole, last)) (hvisit : visit ∈ trace) (hcell : Creates o visit cell)
    (hz : g.scopes.lookup? z = some ⟨.pointer ty, target⟩) (hne : cell ≠ target)
    (hgen : (Stmt.store z e).gen o g = .ok (code, g₁)) : Blind cell g₁ := by
  have hlays := (h.underway hblock).lays
  have haccounted : Accounted o trace g := (h.related (accounts_compositional o)).accounted accounted_start
  have hno := hlays.not_isVariable hvisit hcell
  have hcells : cell ∈ g.known.cells ∨ g.known.get? cell = none := by
    by_cases hmem : cell ∈ g.known.cells
    · exact .inl hmem
    · exact .inr (haccounted.known hmem hno)
  obtain ⟨ty', hdeclared⟩ := hcell.declared
  obtain ⟨_, _, v, kept, hz', -, -, rfl⟩ := storeGen_eq_ok.mp hgen
  cases hz.symm.trans hz'
  refine ⟨Knowledge.get?_storeThrough_eq_none hne hcells, fun x _ s hx => ?_, hlays.slot_lt hvisit hdeclared⟩
  rintro rfl
  exact hno (haccounted.scalars hx)

theorem foreseen_of_tests (h : test.Tests g.scopes cell) (hk : g.known.get? cell = none) {b : Option Bool}
    (hb : foreseen o test g = .ok b) : b = none := by
  unfold foreseen at hb
  split at hb
  · exact h.decide hk hb
  · exact (Except.ok.inj hb).symm

/-- An `if` that is not decided beforehand has its test in the code, right before the label of its first branch. -/
theorem Underway.tested {start : GenState} {body : List Stmt} {otherwise : Option (List Stmt)}
    (h : Underway o start whole trace (.cond test body otherwise :: ss) g)
    (hopen : ∀ b, foreseen o test g = .ok b → b = none) :
    foreseen o test g = .ok none ∧ ∃ testCode branches,
      test.testCode o.lowering g.scopes g.nextLabel (g.labelled "then").nextLabel = .ok testCode ∧
      testCode ++ .label g.nextLabel :: branches <:+: whole := by
  obtain ⟨code, g', hcode, hin⟩ := h.cond
  generalize otherwise.map (genList o) = alternative at hcode
  cases hcode with
  | decided hb => cases hopen _ hb
  | short hnone htest =>
    rw [List.append_assoc] at hin
    exact ⟨hnone, _, _, htest, hin⟩
  | long hnone htest =>
    rw [List.append_assoc, List.append_assoc] at hin
    exact ⟨hnone, _, _, htest, hin⟩

end Stmt

namespace Program

/-- Once a store through the pointer `z` is compiled, the compiler knows nothing about another cell in the rest of that
block, until a store goes into it. All tests of the cell there are left to the code. -/
theorem compile_store_forgets {p : Program} {o : CompileOptions} {r : Routine} (hp : p.compile o = .ok r)
    {trace later : List (Stmt × GenState)} {rest ss : List Stmt} {g g₁ g' : GenState} {z : String} {e : Expr}
    {visit : Stmt × GenState} {cell target : Slot} {ty : Scalar} {code : List Instr}
    (hstore : Stmt.Reached o p.body {} trace (.store z e :: rest) g)
    (hvisit : visit ∈ trace) (hcell : Stmt.Creates o visit cell)
    (hz : g.scopes.lookup? z = some ⟨.pointer ty, target⟩) (hne : cell ≠ target)
    (hgen : (Stmt.store z e).gen o g = .ok (code, g₁))
    (hlater : Stmt.Reached o rest g₁ later ss g') (hquiet : ∀ visit ∈ later, ¬ Stmt.StoresInto cell visit) :
    g'.known.get? cell = none ∧
    ∀ test body otherwise more, ss = .cond test body otherwise :: more → test.Tests g'.scopes cell →
      Stmt.foreseen o test g' = .ok none ∧ ∃ testCode branches,
        test.testCode o.lowering g'.scopes g'.nextLabel (g'.labelled "then").nextLabel = .ok testCode ∧
        testCode ++ .label g'.nextLabel :: branches <:+: r.code := by
  obtain ⟨whole, last, hbody, rfl⟩ := compile_eq_ok.mp hp
  have hblind := hlater.related (Stmt.staysBlind_compositional o cell)
    (hstore.blind hbody hvisit hcell hz hne hgen) hquiet
  refine ⟨hblind.unknown, ?_⟩
  rintro test body otherwise more rfl htests
  have hunderway := ((hstore.next hgen).trans hlater).underway hbody
  obtain ⟨hopen, testCode, branches, htest, hin⟩ :=
    hunderway.tested fun b => Stmt.foreseen_of_tests htests hblind.unknown
  exact ⟨hopen, testCode, branches, htest, hin.trans ⟨_, _, rfl⟩⟩

/-- The test of a cell that was set before a store through another pointer, under an `if` that is decided
beforehand. -/
def clouded : Program where
  package := none
  name := "main"
  body := [
    .define "x" (.new .float64), .define "z" (.paren (.new .int)), .store "x" (.literal (.float .nan)),
    .store "z" (.literal (.int 1)),
    .cond (.compare .eq (.deref "z") (.literal (.int 1))) [
      .define "y" (.deref "x"),
      .cond (.not (.compare .lt (.literal (.int 1)) (.paren (.deref "x")))) [.exit (.literal (.int 1))] none] none]

namespace clouded

def x : Slot := ⟨0, by decide⟩

def z : Slot := ⟨8, by decide⟩

def beforeStore : GenState where
  scopes := ⟨[("z", ⟨.pointer .int, z⟩), ("x", ⟨.pointer .float64, x⟩)], []⟩
  frame := ⟨16⟩
  known := { values := [(x, .float .nan)], cells := [z, x] }

def afterStore : GenState := { beforeStore with known := { values := [(z, .int 1)], cells := [z, x] } }

def beforeTest : GenState := { afterStore with
  scopes := ⟨[("y", ⟨.scalar .float64, ⟨16, by decide⟩⟩)], [beforeStore.scopes.current]⟩
  frame := ⟨24⟩ }

end clouded

open clouded in
theorem compile_store_forgets_clouded :
    ∃ r trace ss test body, clouded.compile {} = .ok r ∧
      Stmt.Reached {} clouded.body {} trace (.cond test body none :: ss) beforeTest ∧ trace.length = 6 ∧
      ∃ testCode branches, test.testCode .nanSafe beforeTest.scopes ⟨0⟩ ⟨1⟩ = .ok testCode ∧
        testCode ++ .label ⟨0⟩ :: branches <:+: r.code := by
  have hcompile : ((clouded.compile {}).map Routine.frameSize) = .ok 32 := by decide +kernel
  obtain ⟨r, hr, -⟩ := ok_of_map hcompile
  have hfirst : (Stmt.genList {} (clouded.body.take 3) {}).map Prod.snd = .ok beforeStore := by decide +kernel
  obtain ⟨⟨firstCode, before⟩, hfirst, rfl⟩ := ok_of_map hfirst
  have hgen : ((Stmt.store "z" (.literal (.int 1))).gen {} beforeStore).map Prod.snd = .ok afterStore := by
    decide +kernel
  obtain ⟨⟨code, after⟩, hgen, rfl⟩ := ok_of_map hgen
  have htaken : Stmt.foreseen {} (.compare .eq (.deref "z") (.literal (.int 1))) afterStore = .ok (some true) := by
    decide +kernel
  have hinner : ((Stmt.define "y" (.deref "x")).gen {} afterStore.enter).map Prod.snd = .ok beforeTest := by
    decide +kernel
  obtain ⟨⟨innerCode, inner⟩, hinner, rfl⟩ := ok_of_map hinner
  have hstore : Stmt.Reached {} clouded.body {} _ (clouded.body.drop 3) beforeStore :=
    Stmt.reached_of_genList (clouded.body.take 3) hfirst
  have hlater : Stmt.Reached {} (clouded.body.drop 4) afterStore _ _ beforeTest :=
    (Stmt.Reached.start.taken htaken).next hinner
  have hcell : Stmt.Creates {} (.define "x" (.new .float64), {}) x := ⟨"x", _, _, _, _, rfl, rfl, rfl, rfl⟩
  have hz : beforeStore.scopes.lookup? "z" = some ⟨.pointer .int, z⟩ := by decide
  obtain ⟨-, htests⟩ := compile_store_forgets hr hstore (List.mem_append_left _ List.mem_cons_self) hcell hz
    (by decide) hgen hlater (by simp [Stmt.StoresInto, Stmt.visits])
  have hlookup : beforeTest.scopes.lookup? "x" = some ⟨.pointer .float64, x⟩ := by decide
  obtain ⟨-, htested⟩ := htests _ _ _ _ rfl (.not (.right rfl hlookup))
  exact ⟨r, _, _, _, _, hr, (hstore.next hgen).trans hlater, rfl, htested⟩

end Program
end Comparand
