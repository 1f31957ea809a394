import Comparand.Proofs.Growth
import Comparand.Proofs.Placement

/-! How the state of code generation follows a program: each place has a slot of its own, names lead to the slots of
their places, and what is known about a slot is true of its place. -/
namespace Comparand

theorem getElem?_append_of_some {α : Type} {l : List α} {i : Nat} {a : α} (h : l[i]? = some a) (more : List α) :
    (l ++ more)[i]? = some a := by
  rw [List.getElem?_append_left (List.getElem?_eq_some_iff.mp h).1, h]

/-- The type and the slot of every place. -/
abbrev Places := List (Scalar × Slot)

/-- The constant that is noted for a datum. -/
def Datum.constant : Datum → Constant
  | int v => .int v
  | single x => .float x.widen
  | double x => .float x

/-- A slot belongs to a place that holds the constant. -/
def Places.Hold (places : Places) (contents : Contents) (s : Slot) (c : Constant) : Prop :=
  ∃ (i : Nat) (ty : Scalar) (d : Datum), places[i]? = some (ty, s) ∧ contents[i]? = some d ∧ d.constant = c

namespace Knowledge

/-- All that is known is true. -/
def Sound (k : Knowledge) (places : Places) (contents : Contents) : Prop :=
  ∀ e ∈ k.values, places.Hold contents e.1 e.2

variable {k k' : Knowledge} {places places' : Places} {contents contents' : Contents} {s : Slot} {c : Constant}
  {kept : Option Constant}

theorem reachable_set (k : Knowledge) (s : Slot) (kept : Option Constant) : (k.set s kept).reachable = k.reachable := by
  cases kept <;> rfl

/-- What is known after a slot was noted: what was known of the others, and what is noted. -/
theorem mem_values_set {e : Slot × Constant} :
    e ∈ (k.set s kept).values ↔ e ∈ k.values ∧ e.1 ≠ s ∨ kept = some e.2 ∧ e.1 = s := by
  have hfilter : e ∈ k.values.filter (fun e => e.1 ≠ s) ↔ e ∈ k.values ∧ e.1 ≠ s := by
    rw [List.mem_filter, decide_eq_true_eq]
  cases kept with
  | none =>
    rw [← hfilter, or_iff_left (by simp)]
    rfl
  | some c =>
    have hnew : e = (s, c) ↔ some c = some e.2 ∧ e.1 = s := by
      rw [Prod.ext_iff, Option.some.injEq, and_comm, eq_comm (a := e.2)]
    rw [← hfilter, ← hnew, or_comm]
    exact List.mem_cons

theorem mem_values_storeThrough {e : Slot × Constant} :
    e ∈ (k.storeThrough s kept).values ↔ (e ∈ k.values ∧ e.1 ∉ k.cells) ∧ e.1 ≠ s ∨ kept = some e.2 ∧ e.1 = s := by
  rw [storeThrough, mem_values_set, List.mem_filter, decide_eq_true_eq]

theorem mem_values_of_get? (h : k.get? s = some c) : (s, c) ∈ k.values := by
  obtain ⟨before, after, hvalues, -⟩ := List.lookup_eq_some_iff.mp h
  rw [hvalues]
  exact List.mem_append_right _ List.mem_cons_self

theorem Sound.get? (h : k.Sound places contents) (hs : k.get? s = some c) : places.Hold contents s c :=
  h _ (mem_values_of_get? hs)

/-- What is noted for one slot has to be true, and what is known of the others has to stay so. -/
theorem Sound.set (hothers : ∀ e ∈ k.values, e.1 ≠ s → places.Hold contents e.1 e.2)
    (hkept : ∀ c, kept = some c → places.Hold contents s c) : (k.set s kept).Sound places contents := by
  intro e he
  rcases mem_values_set.mp he with ⟨hmem, hne⟩ | ⟨hc, hs⟩
  · exact hothers e hmem hne
  · exact hs ▸ hkept e.2 hc

theorem Sound.storeThrough (hothers : ∀ e ∈ k.values, e.1 ≠ s → places.Hold contents e.1 e.2)
    (hkept : ∀ c, kept = some c → places.Hold contents s c) : (k.storeThrough s kept).Sound places contents :=
  Sound.set (fun e he hne => hothers e (List.mem_filter.mp he).1 hne) hkept

/-- Where two paths meet, whatever is true of all that one of them knows is true of what is known, if this path can be
taken. -/
theorem forall_values_merge {P : Slot × Constant → Prop}
    (h : (∀ e ∈ k.values, P e) ∧ k.reachable = true ∨ (∀ e ∈ k'.values, P e) ∧ k'.reachable = true) :
    (∀ e ∈ (k.merge k').values, P e) ∧ (k.merge k').reachable = true := by
  unfold Knowledge.merge
  cases hk : k.reachable with
  | false =>
    rcases h with ⟨-, h⟩ | h
    · cases hk.symm.trans h
    · exact h
  | true =>
    cases hk' : k'.reachable with
    | false =>
      rcases h with h | ⟨-, h⟩
      · exact h
      · cases hk'.symm.trans h
    | true =>
      refine ⟨fun e he => ?_, rfl⟩
      obtain ⟨hmem, hagree⟩ := List.mem_filter.mp he
      rcases h with ⟨h, -⟩ | ⟨h, -⟩
      · exact h e hmem
      · exact h e (mem_values_of_get? (by simpa using hagree))

/-- Where two paths meet, what both know is known, whichever of them was taken. -/
theorem Sound.merge
    (h : k.Sound places contents ∧ k.reachable = true ∨ k'.Sound places contents ∧ k'.reachable = true) :
    (k.merge k').Sound places contents ∧ (k.merge k').reachable = true :=
  forall_values_merge h

end Knowledge

/-- What a name stands for is where its symbol says. -/
inductive Binding.Denotes (places : Places) : Binding → Symbol → Prop where
  | scalar {i ty s} (h : places[i]? = some (ty, s)) : Denotes places (.scalar i) ⟨.scalar ty, s⟩
  | pointer {i ty s} (h : places[i]? = some (ty, s)) : Denotes places (.pointer i) ⟨.pointer ty, s⟩

/-- A value of an expression is where the compiler takes it from. -/
inductive Rvalue.Denotes (places : Places) : Rvalue → Value → Prop where
  | constant (c : Constant) : Denotes places (.constant c) (.constant c)
  | stored {i ty s} (h : places[i]? = some (ty, s)) : Denotes places (.stored i) (.slot ty s)

theorem Binding.Denotes.append {places : Places} {b : Binding} {symbol : Symbol} (h : b.Denotes places symbol)
    (more : Places) : b.Denotes (places ++ more) symbol := by
  cases h with
  | scalar h => exact .scalar (getElem?_append_of_some h _)
  | pointer h => exact .pointer (getElem?_append_of_some h _)

namespace Expr

variable {e : Expr} {env : Env} {c : Constant} {ty : Scalar}

theorem rvalue?_unparen (env : Env) (e : Expr) : e.unparen.rvalue? env = e.rvalue? env := by
  induction e with
  | paren e ih => exact ih
  | _ => rfl

theorem rvalue?_of_constant (h : e.constant? = some c) : e.rvalue? env = some (.constant c) := by
  induction e generalizing c with
  | literal d =>
    cases h
    rfl
  | paren e ih => exact ih h
  | neg e ih =>
    rw [constant?] at h
    split at h
    next v hv =>
      split at h
      next => cases h
      next =>
        cases h
        simp [rvalue?, ih hv, Constant.neg]
    next v hv =>
      cases h
      simp [rvalue?, ih hv, Constant.neg]
    next => cases h
  | _ => cases h

theorem cell?_eq_some : e.cell? = some ty ↔ e.unparen = .new ty := by
  induction e with
  | paren e ih => exact ih
  | new ty' => simp [cell?, unparen]
  | _ => exact ⟨nofun, nofun⟩

end Expr

/-- The state of code generation fits what names and places are at a point of the program. -/
structure GenState.Tracks (g : GenState) (places : Places) (env : Env) (contents : Contents) : Prop where
  frame : g.frame.Sound
  slots : ∀ e ∈ places, e.2.Within g.frame.next
  distinct : (places.map Prod.snd).Nodup
  types : contents.map Datum.type = places.map Prod.fst
  names : ∀ ⦃x symbol⦄, g.scopes.lookup? x = some symbol → ∃ b, env.lookup x = some b ∧ b.Denotes places symbol
  known : g.known.Sound places contents
  reachable : g.known.reachable = true

namespace GenState.Tracks

variable {g g' : GenState} {places : Places} {env env' : Env} {contents contents' : Contents} {i j : Nat}
  {ty ty' : Scalar} {s : Slot} {d : Datum}

theorem length (h : g.Tracks places env contents) : contents.length = places.length := by
  have := congrArg List.length h.types
  simpa using this

theorem datum (h : g.Tracks places env contents) (hi : places[i]? = some (ty, s)) :
    ∃ d, contents[i]? = some d ∧ d.type = ty := by
  have htypes := congrArg (fun types => types[i]?) h.types
  simp only [List.getElem?_map, hi, Option.map_some, Option.map_eq_some_iff] at htypes
  exact htypes

theorem lt_length (h : g.Tracks places env contents) (hi : places[i]? = some (ty, s)) : i < contents.length := by
  rw [h.length]
  exact (List.getElem?_eq_some_iff.mp hi).1

theorem place_unique (h : g.Tracks places env contents) (hi : places[i]? = some (ty, s))
    (hj : places[j]? = some (ty', s)) : i = j := by
  have hlt : i < (places.map Prod.snd).length := by
    rw [List.length_map]
    exact (List.getElem?_eq_some_iff.mp hi).1
  apply (List.getElem?_inj hlt h.distinct).mp
  rw [List.getElem?_map, List.getElem?_map, hi, hj]
  rfl

theorem within (h : g.Tracks places env contents) (hi : places[i]? = some (ty, s)) : s.Within g.frame.next :=
  h.slots _ (List.mem_of_getElem? hi)

theorem known_append (h : g.Tracks places env contents) (more : Places) (data : Contents) :
    ∀ e ∈ g.known.values, (places ++ more : Places).Hold (contents ++ data) e.1 e.2 := by
  intro e he
  obtain ⟨i, ty, d, hi, hd, hc⟩ := h.known e he
  exact ⟨i, ty, d, getElem?_append_of_some hi _, getElem?_append_of_some hd _, hc⟩

/-- A declaration makes a new place, whose slot no other place has. -/
theorem declare (h : g.Tracks places env contents) {x : String} {type : VarType} {k : Knowledge} {b : Binding}
    {kept : Option Constant} (hg : g.Declares x ⟨type, s⟩ (k.set s kept) g') (hvalues : k.values = g.known.values)
    (hreachable : k.reachable = g.known.reachable) (hd : d.type = ty)
    (hb : b.Denotes (places ++ [(ty, s)]) ⟨type, s⟩) (hkept : ∀ c, kept = some c → d.constant = c) :
    g'.Tracks (places ++ [(ty, s)]) ((x, b) :: env) (contents ++ [d]) := by
  have hlength := h.length
  have hsound := h.frame
  have hoffset := hg.slot
  obtain ⟨-, -, rfl⟩ := hg
  simp only at hoffset
  have hslot : s.Within (g.frame.next + 8) := by
    have := hsound.aligned
    constructor <;> omega
  have hfresh : s ∉ places.map Prod.snd := by
    intro hs
    obtain ⟨e, he, rfl⟩ := List.mem_map.mp hs
    have := (h.slots e he).fits
    omega
  constructor
  case frame =>
    have := hsound.aligned
    have := s.inRange
    constructor <;> simp only <;> omega
  case slots =>
    intro e he
    rcases List.mem_append.mp he with he | he
    · exact (h.slots e he).mono (Nat.le_add_right ..)
    · cases List.mem_singleton.mp he
      exact hslot
  case distinct =>
    rw [List.map_append, List.nodup_append]
    refine ⟨h.distinct, by simp, ?_⟩
    rintro a ha _ hb rfl
    cases List.mem_singleton.mp hb
    exact hfresh ha
  case types => simp [h.types, hd]
  case names =>
    intro y symbol hy
    rw [Scopes.lookup?_eq, List.cons_append, List.lookup_cons] at hy
    rw [List.lookup_cons]
    cases hyx : y == x with
    | true =>
      rw [hyx] at hy
      cases hy
      exact ⟨b, rfl, hb⟩
    | false =>
      rw [hyx] at hy
      obtain ⟨b', hb', hdenotes⟩ := h.names ((Scopes.lookup?_eq g.scopes y).trans hy)
      exact ⟨b', hb', hdenotes.append _⟩
  case known =>
    refine Knowledge.Sound.set (fun e he _ => h.known_append _ _ e (hvalues ▸ he)) fun c hc => ?_
    exact ⟨places.length, ty, d, by simp, by simp [hlength], hkept c hc⟩
  case reachable => exact (k.reachable_set s kept).trans (hreachable.trans h.reachable)

/-- A write to one place leaves what is known of other slots true. -/
theorem known_set (h : g.Tracks places env contents) (hi : places[i]? = some (ty, s)) (d : Datum) :
    ∀ e ∈ g.known.values, e.1 ≠ s → places.Hold (contents.set i d) e.1 e.2 := by
  intro e he hne
  obtain ⟨j, ty', d', hj, hd', hc⟩ := h.known e he
  have hij : i ≠ j := by
    rintro rfl
    cases hi.symm.trans hj
    exact hne rfl
  exact ⟨j, ty', d', hj, by rw [List.getElem?_set_ne hij, hd'], hc⟩

theorem hold_set (h : g.Tracks places env contents) (hi : places[i]? = some (ty, s)) (d : Datum) :
    places.Hold (contents.set i d) s d.constant :=
  ⟨i, ty, d, hi, List.getElem?_set_self (h.lt_length hi), rfl⟩

/-- Places keep their types. -/
theorem write (h : g.Tracks places env contents) (hi : places[i]? = some (ty, s)) (hd : d.type = ty) {k : Knowledge}
    (hk : k.Sound places (contents.set i d)) (hreachable : k.reachable = true) :
    { g with known := k }.Tracks places env (contents.set i d) := by
  refine { h with known := hk, reachable := hreachable, types := ?_ }
  have htype : (places.map Prod.fst)[i]? = some d.type := by
    rw [List.getElem?_map, hi, hd]
    rfl
  rw [List.map_set, h.types]
  apply List.ext_getElem?
  intro j
  rw [List.getElem?_set]
  split
  next hij =>
    subst hij
    rw [htype, if_pos (List.getElem?_eq_some_iff.mp htype).1]
  next => rfl

theorem enter (h : g.Tracks places env contents) : { g with scopes := g.scopes.push }.Tracks places env contents :=
  { h with names := h.names }

/-- After a block the names lead where they led before it. -/
theorem leave (h : g.Tracks places env contents) {more : Places} (h' : g'.Tracks (places ++ more) env' contents')
    (hscopes : g'.scopes.pop = g.scopes) :
    { g' with scopes := g'.scopes.pop }.Tracks (places ++ more) env contents' := by
  refine { h' with names := ?_ }
  intro x symbol hx
  simp only [hscopes] at hx
  obtain ⟨b, hb, hdenotes⟩ := h.names hx
  exact ⟨b, hb, hdenotes.append more⟩

theorem rvalue (h : g.Tracks places env contents) {e : Expr} {v : Value} (hv : e.value g.scopes = .ok v) :
    ∃ r, e.rvalue? env = some r ∧ r.Denotes places v := by
  rcases Expr.value_eq_ok.mp hv with ⟨c, hc, rfl⟩ | ⟨x, ty, s, he, hx, rfl⟩ | ⟨x, ty, s, he, hx, rfl⟩
  · exact ⟨_, Expr.rvalue?_of_constant hc, .constant c⟩
  all_goals
    obtain ⟨b, hb, hdenotes⟩ := h.names hx
    rw [← Expr.rvalue?_unparen, he]
    cases hdenotes with
    | _ hi => exact ⟨_, by simp [Expr.rvalue?, hb], .stored hi⟩

end GenState.Tracks
end Comparand
