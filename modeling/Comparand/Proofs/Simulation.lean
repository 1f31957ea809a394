import Comparand.Proofs.Testing

/-! Generated code does on a machine what statements mean, and takes no more than they cost. -/
namespace Comparand

open Machine

/-- What a run through code spends: no more than its instructions are and than its price is, and just its price if every
test is made. -/
structure Cost.Spent (o : CompileOptions) (code : List Instr) (spent price : Cost) : Prop where
  within : spent.steps ≤ code.countP (!·.isLabel)
  atMost : spent.AtMost price
  exact_of_not_fold : o.fold = false → spent = price

/-- The cost of what comes after a statement, if anything does. -/
def Completion.onward (c : Cost) : Completion → Cost
  | .normal .. => c
  | .exited _ => 0

theorem Completion.onward_zero (done : Completion) : done.onward 0 = 0 := by
  cases done <;> rfl

/-- From a machine that represents what the places hold, the run gets to where a statement ends: to the code that
follows and a machine that represents what the places hold then, or to the end of the program. -/
def Completion.Reached (p : Routine) (size : Nat) (ahead rest : List Instr) (places : Places) (contents : Contents)
    (g' : GenState) (spent : Cost) : Completion → Prop
  | .normal env' contents' => ∃ more : Places, g'.Tracks (places ++ more) env' contents' ∧
      ∀ ⦃m : Machine⦄, m.Represents size places contents →
        ∃ m', Reaches p ahead m spent rest m' ∧ m'.Represents size (places ++ more) contents' ∧ Confined size m m'
  | .exited v => ∀ ⦃m : Machine⦄, m.Represents size places contents →
      ∃ m', Exits p ahead m spent m' ∧ m'.exit.code = v.toInt32 ∧ Confined size m m'

/-- The code of a piece of code generation, wherever it stands in a routine, does what the piece means. -/
def Gen.Simulates (p : Routine) (o : CompileOptions) (size : Nat) (a : Gen)
    (eval : Env → Contents → Option Completion) (price : Env → Contents → Cost) : Prop :=
  ∀ ⦃g code g' rest places env contents⦄, a g = .ok (code, g') → code ++ rest <:+ p.code → g'.frame.next ≤ size →
    g.Tracks places env contents →
    ∃ done spent, eval env contents = some done ∧ Cost.Spent o code spent (price env contents) ∧
      done.Reached p size (code ++ rest) rest places contents g' spent

section Statements

variable {p : Routine} {o : CompileOptions} {size : Nat} {g g' : GenState} {code rest : List Instr} {places : Places}
  {env : Env} {contents : Contents}

/-- Code without labels runs from its start to its end. -/
theorem Cost.Spent.straight (hcode : code.all (!·.isLabel) = true) :
    Cost.Spent o code ⟨code.length, false⟩ ⟨code.length, false⟩ := by
  have hcount : code.countP (!·.isLabel) = code.length := List.countP_eq_length.mpr (List.all_eq_true.mp hcode)
  exact ⟨Nat.le_of_eq hcount.symm, .refl _, fun _ => rfl⟩

theorem Completion.Reached.declare {x : String} {type : VarType} {s : Slot} {k : Knowledge} {kept : Option Constant}
    {d : Datum} {ty : Scalar} {b : Binding} {spent : Cost} (ht : g.Tracks places env contents)
    (hg : g.Declares x ⟨type, s⟩ (k.set s kept) g') (hvalues : k.values = g.known.values)
    (hreachable : k.reachable = g.known.reachable) (hd : d.type = ty)
    (hb : b.Denotes (places ++ [(ty, s)]) ⟨type, s⟩) (hkept : ∀ c, kept = some c → d.constant = c)
    (hsize : g'.frame.next ≤ size)
    (hrun : ∀ {m : Machine} {size : Nat}, m.Represents size places contents → s.Within size →
      ∃ m', Reaches p (code ++ rest) m spent rest m' ∧ Writes s m m' ∧ m'.Holds s d) :
    (Completion.normal ((x, b) :: env) (contents ++ [d])).Reached p size (code ++ rest) rest places contents g'
      spent := by
  have ht' := ht.declare hg hvalues hreachable hd hb hkept
  refine ⟨_, ht', fun m hm => ?_⟩
  have hs : s.Within size := (ht'.slots (ty, s) (by simp)).mono hsize
  obtain ⟨m', hreaches, hw, hholds⟩ := hrun hm hs
  exact ⟨m', hreaches, hm.declare ht ht' hsize hw hholds, hw.confined (hm.hasFrame hs) hs⟩

theorem Completion.Reached.write {i : Nat} {s : Slot} {k : Knowledge} {d : Datum} {ty : Scalar} {spent : Cost}
    (ht : g.Tracks places env contents) (hi : places[i]? = some (ty, s)) (hd : d.type = ty)
    (hk : k.Sound places (contents.set i d)) (hreachable : k.reachable = true) (hsize : g.frame.next ≤ size)
    (hrun : ∀ {m : Machine} {size : Nat}, m.Represents size places contents → s.Within size →
      ∃ m', Reaches p (code ++ rest) m spent rest m' ∧ Writes s m m' ∧ m'.Holds s d) :
    (Completion.normal env (contents.set i d)).Reached p size (code ++ rest) rest places contents
      { g with known := k } spent := by
  refine ⟨[], by simpa using ht.write hi hd hk hreachable, fun m hm => ?_⟩
  have hs := (ht.within hi).mono hsize
  obtain ⟨m', hreaches, hw, hholds⟩ := hrun hm hs
  exact ⟨m', hreaches, by simpa using hm.write ht hsize hi hw hholds, hw.confined (hm.hasFrame hs) hs⟩

end Statements

theorem Scalar.constant_initial (ty : Scalar) : ty.initial.constant = ty.zero := by
  cases ty <;> decide

theorem Rvalue.Denotes.type? {g : GenState} {places : Places} {env : Env} {contents : Contents} {r : Rvalue} {v : Value}
    (h : r.Denotes places v) (ht : g.Tracks places env contents) : r.type? contents = some v.type := by
  cases h with
  | constant c => cases c <;> rfl
  | stored hi =>
    obtain ⟨d, hd, rfl⟩ := ht.datum hi
    rw [Rvalue.type?, hd]
    rfl

theorem Env.typeOf_eq {g : GenState} {places : Places} {env : Env} {contents : Contents} {x : String} {i : Nat}
    {ty : Scalar} {s : Slot} (ht : g.Tracks places env contents) (hi : places[i]? = some (ty, s))
    (hx : env.lookup x = some (.scalar i) ∨ env.lookup x = some (.pointer i)) : env.typeOf contents x = ty := by
  obtain ⟨d, hd, rfl⟩ := ht.datum hi
  rcases hx with hx | hx <;> simp [typeOf, hx, hd]

namespace Stmt

variable {p : Routine} {o : CompileOptions} {size : Nat} {g g' : GenState} {code rest : List Instr} {places : Places}
  {env : Env} {contents : Contents} {x : String} {e : Expr} {ty : Scalar} {s : Slot} {v : Value}
  {kept : Option Constant} {k : Knowledge}

/-- A new variable or cell that is set to zero. -/
theorem introduce_initial {type : VarType} {kind : Nat → Binding} (ht : g.Tracks places env contents)
    (hg : g.Declares x ⟨type, s⟩ (k.set s (some ty.zero)) g') (hvalues : k.values = g.known.values)
    (hreachable : k.reachable = g.known.reachable)
    (hb : (kind places.length).Denotes (places ++ [(ty, s)]) ⟨type, s⟩) (hsize : g'.frame.next ≤ size) :
    (introduce env contents x kind ty.initial).Reached p size (zeroCode s ++ rest) rest places contents g'
      ⟨1, false⟩ := by
  rw [introduce, ht.length]
  refine Completion.Reached.declare ht hg hvalues hreachable ?_ hb ?_ hsize ?_
  · cases ty <;> rfl
  · rintro c ⟨⟩
    exact ty.constant_initial
  · intro m size hm hs
    exact zeroCode_run p rest (hm.hasFrame hs) hs ty

/-- A new variable with a value. -/
theorem introduce_stored (ht : g.Tracks places env contents) (hv : e.value g.scopes = .ok v)
    (hcode : storeCode g.known ty s v = .ok (code, kept))
    (hg : g.Declares x ⟨.scalar ty, s⟩ (g.known.set s kept) g') (hsize : g'.frame.next ≤ size) :
    ∃ r d, e.rvalue? env = some r ∧ r.Denotes places v ∧ r.datum? contents ty = some d ∧
      Cost.Spent o code ⟨code.length, false⟩ ⟨e.storeSteps env ty, false⟩ ∧
      (introduce env contents x .scalar d).Reached p size (code ++ rest) rest places contents g'
        ⟨code.length, false⟩ := by
  obtain ⟨r, hr, hdenotes⟩ := ht.rvalue hv
  obtain ⟨d, hd, htype, hkept, hlength, hrun⟩ := storeCode_run p rest ht hdenotes hcode
  refine ⟨r, d, hr, hdenotes, hd, ?_, ?_⟩
  · rw [Expr.storeSteps, hr, Option.elim_some, ← hlength]
    exact .straight (storeCode_labels hcode)
  · rw [introduce, ht.length]
    exact .declare ht hg rfl rfl htype (.scalar (by simp)) hkept hsize hrun

/-- A store to a variable or a cell. What is known afterwards may be any facts about other slots that were known
before, and the constant kept for the slot. -/
theorem overwrite_simulated {i : Nat} (ht : g.Tracks places env contents) (hi : places[i]? = some (ty, s))
    (hv : e.value g.scopes = .ok v) (hcode : storeCode g.known ty s v = .ok (code, kept))
    (hk : ∀ {contents : Contents}, (∀ e ∈ g.known.values, e.1 ≠ s → places.Hold contents e.1 e.2) →
      (∀ c, kept = some c → places.Hold contents s c) → k.Sound places contents)
    (hreachable : k.reachable = true) (hsize : g.frame.next ≤ size) :
    ∃ done, overwrite env contents i e = some done ∧
      Cost.Spent o code ⟨code.length, false⟩ ⟨e.storeSteps env ty, false⟩ ∧
      done.Reached p size (code ++ rest) rest places contents { g with known := k } ⟨code.length, false⟩ := by
  obtain ⟨r, hr, hdenotes⟩ := ht.rvalue hv
  obtain ⟨d, hd, htype, hkept, hlength, hrun⟩ := storeCode_run p rest ht hdenotes hcode
  obtain ⟨old, hold, rfl⟩ := ht.datum hi
  refine ⟨.normal env (contents.set i d), by simp [overwrite, hold, hr, hd], ?_, ?_⟩
  · rw [Expr.storeSteps, hr, Option.elim_some, ← hlength]
    exact .straight (storeCode_labels hcode)
  · refine .write ht hi htype (hk (ht.known_set hi d) fun c hc => ?_) hreachable hsize hrun
    rw [← hkept c hc]
    exact ht.hold_set hi d

theorem define_simulates (x : String) (e : Expr) :
    (defineGen x e).Simulates p o size (eval (.define x e)) (cost (.define x e)) := by
  intro g code g' rest places env contents h _ hsize ht
  by_cases he : ∃ ty, e.unparen = .new ty
  · obtain ⟨ty, he⟩ := he
    obtain ⟨cell, rfl, hg⟩ := (defineGen_new he).mp h
    have hcell := Expr.cell?_eq_some.mpr he
    refine ⟨introduce env contents x .pointer ty.initial, ⟨1, false⟩, by simp only [eval, hcell], ?_,
      introduce_initial ht hg ?_ ?_ (.pointer (by simp)) hsize⟩
    · simp only [cost, hcell, Option.isSome_some, if_true]
      exact .straight rfl
    all_goals
      rw [Knowledge.registerCell]
      split <;> rfl
  · obtain ⟨v, s, kept, hv, hcode, hg⟩ := (defineGen_value fun ty hty => he ⟨ty, hty⟩).mp h
    obtain ⟨r, d, hr, hdenotes, hd, hspent, hreached⟩ := introduce_stored ht hv hcode hg hsize
    have hcell : e.cell? = none :=
      Option.eq_none_iff_forall_ne_some.mpr fun ty hty => he ⟨ty, Expr.cell?_eq_some.mp hty⟩
    have htype := hdenotes.type? ht
    refine ⟨introduce env contents x .scalar d, _, by simp [hcell, hr, htype, hd], ?_, hreached⟩
    simpa [hcell, Expr.ownType, hr, htype] using hspent

theorem var_simulates (x : String) (ty : Scalar) (init : Option Expr) :
    (varGen x ty init).Simulates p o size (eval (.var x ty init)) (cost (.var x ty init)) := by
  intro g code g' rest places env contents h _ hsize ht
  cases init with
  | none =>
    obtain ⟨s, rfl, hg⟩ := varGen_none.mp h
    exact ⟨_, _, rfl, .straight rfl, introduce_initial ht hg rfl rfl (.scalar (by simp)) hsize⟩
  | some e =>
    obtain ⟨v, s, kept, hv, hcode, hg⟩ := varGen_some.mp h
    obtain ⟨r, d, hr, -, hd, hspent, hreached⟩ := introduce_stored ht hv hcode hg hsize
    exact ⟨introduce env contents x .scalar d, _, by simp [hr, hd], hspent, hreached⟩

theorem assign_simulates (x : String) (e : Expr) :
    (assignGen x e).Simulates p o size (eval (.assign x e)) (cost (.assign x e)) := by
  intro g code g' rest places env contents h _ hsize ht
  obtain ⟨ty, s, v, kept, hx, hv, hcode, rfl⟩ := assignGen_eq_ok.mp h
  obtain ⟨b, hb, hdenotes⟩ := ht.names hx
  cases hdenotes with
  | @scalar i _ _ hi =>
    have hreachable := (g.known.reachable_set s kept).trans ht.reachable
    obtain ⟨done, hdone, hspent, hreached⟩ := overwrite_simulated ht hi hv hcode .set hreachable hsize
    refine ⟨done, _, by simp only [eval, hb, hdone], ?_, hreached⟩
    rwa [cost, Env.typeOf_eq ht hi (.inl hb)]

theorem store_simulates (x : String) (e : Expr) :
    (storeGen x e).Simulates p o size (eval (.store x e)) (cost (.store x e)) := by
  intro g code g' rest places env contents h _ hsize ht
  obtain ⟨ty, s, v, kept, hx, hv, hcode, rfl⟩ := storeGen_eq_ok.mp h
  obtain ⟨b, hb, hdenotes⟩ := ht.names hx
  cases hdenotes with
  | @pointer i _ _ hi =>
    have hreachable : (g.known.storeThrough s kept).reachable = true :=
      (Knowledge.reachable_set _ s kept).trans ht.reachable
    obtain ⟨done, hdone, hspent, hreached⟩ := overwrite_simulated ht hi hv hcode .storeThrough hreachable hsize
    refine ⟨done, _, by simp only [eval, hb, hdone], ?_, hreached⟩
    rwa [cost, Env.typeOf_eq ht hi (.inr hb)]

/-- An increment that does not wrap is what the machine's addition does. -/
theorem constant_step {delta : Int} {w : Int64} {c : Constant} (h : stepConstant delta (.int w) = some c) :
    (Datum.int (w + .ofInt delta)).constant = c := by
  simp only [stepConstant] at h
  split at h
  next =>
    cases h
    rw [Datum.constant, Int64.ofInt_add, Int64.ofInt_toInt]
  next => cases h

theorem step_simulates {s : Stmt} (x : String) (delta : Int) (hs : ∀ env contents, s.eval env contents =
    addTo env contents x (.ofInt delta)) (hcost : ∀ env contents, s.cost env contents = ⟨3, false⟩) :
    (stepGen x delta).Simulates p o size s.eval s.cost := by
  intro g code g' rest places env contents h _ hsize ht
  obtain ⟨s, hx, rfl, rfl⟩ := stepGen_eq_ok.mp h
  obtain ⟨b, hb, hdenotes⟩ := ht.names hx
  cases hdenotes with
  | @scalar i _ _ hi =>
    obtain ⟨d, hd, htype⟩ := ht.datum hi
    cases d with
    | int w =>
      refine ⟨.normal env (contents.set i (.int (w + .ofInt delta))), ⟨3, false⟩, ?_, ?_, ?_⟩
      · simp only [hs, addTo, hb, hd]
      · rw [hcost]
        exact .straight rfl
      · refine .write ht hi rfl (.set (ht.known_set hi _) fun c hc => ?_) ?_ hsize fun hm hw =>
          stepCode_run p rest (hm.hasFrame hw) hw (hm.holds hi hd) delta
        · obtain ⟨c', hc', hstep⟩ := Option.bind_eq_some_iff.mp hc
          obtain ⟨j, ty, d', hj, hd', rfl⟩ := ht.known.get? hc'
          cases ht.place_unique hi hj
          cases hd.symm.trans hd'
          rw [← constant_step hstep]
          exact ht.hold_set hi _
        · exact (g.known.reachable_set s _).trans ht.reachable
    | single | double => cases htype

theorem exit_simulates (e : Expr) : (exitGen e).Simulates p o size (eval (.exit e)) (cost (.exit e)) := by
  intro g code g' rest places env contents h _ hsize ht
  obtain ⟨v, hv, hcode, rfl⟩ := exitGen_eq_ok.mp h
  obtain ⟨r, hr, hdenotes⟩ := ht.rvalue hv
  obtain ⟨x, hx, hlength, hrun⟩ := exitCode_run p rest ht hdenotes hcode
  refine ⟨.exited x, ⟨3, false⟩, by simp [hr, hx], ?_, fun m hm => ?_⟩
  · rw [cost, ← hlength]
    exact .straight (exitCode_labels hcode)
  · obtain ⟨m', hexits, hstatus, hmemory, hsp⟩ := hrun hm
    exact ⟨m', hexits, hstatus, .of_same hmemory hsp⟩

end Stmt

section Composition

variable {p : Routine} {o : CompileOptions} {size n : Nat} {g g' : GenState} {code more rest ahead ahead' : List Instr}
  {places : Places} {env : Env} {contents contents' : Contents} {spent spent' price price' : Cost} {done : Completion}

theorem Cost.Spent.append (h : Spent o code spent price) (h' : Spent o more spent' price') :
    Spent o (code ++ more) (spent + spent') (price + price') where
  within := by
    have := h.within
    have := h'.within
    rw [Cost.steps_add, List.countP_append]
    omega
  atMost := h.atMost.add h'.atMost
  exact_of_not_fold hfold := by rw [h.exact_of_not_fold hfold, h'.exact_of_not_fold hfold]

/-- Code that is not run to its end spends no more. -/
theorem Cost.Spent.mono (h : Spent o code spent price) (hcode : code.countP (!·.isLabel) ≤ more.countP (!·.isLabel)) :
    Spent o more spent price :=
  { h with within := Nat.le_trans h.within hcode }

/-- What folding leaves out is not paid for. -/
theorem Cost.Spent.of_fold (h : Spent o code spent price) (hfold : o.fold = true) (hprice : price.AtMost price') :
    Spent o code spent price' where
  within := h.within
  atMost := h.atMost.trans hprice
  exact_of_not_fold hopen := by simp [hfold] at hopen

/-- No code spends nothing. -/
theorem Cost.Spent.nothing : Spent o [] 0 0 := ⟨Nat.le_refl _, .refl _, fun _ => rfl⟩

/-- The jump over the other branch is made only if the program has not ended. -/
theorem Cost.Spent.onward (l : Label) (done : Completion) :
    Spent o [.jump l] (done.onward ⟨1, false⟩) (done.onward ⟨1, false⟩) := by
  cases done with
  | normal => exact .straight rfl
  | exited => exact nothing.mono (Nat.zero_le _)

namespace Completion.Reached

theorem nothing (ht : g.Tracks places env contents) :
    (Completion.normal env contents).Reached p size rest rest places contents g 0 := by
  refine ⟨[], by simpa using ht, fun m hm => ⟨m, .refl .., by simpa using hm, .of_same rfl rfl⟩⟩

/-- Code that runs before. -/
theorem prepend {places' extra : Places} (hplaces : places' = places ++ extra)
    (hrun : ∀ ⦃m : Machine⦄, m.Represents size places contents →
      ∃ m', Reaches p ahead m spent ahead' m' ∧ m'.Represents size places' contents' ∧ Confined size m m')
    (h : done.Reached p size ahead' rest places' contents' g' spent') :
    done.Reached p size ahead rest places contents g' (spent + spent') := by
  subst hplaces
  cases done with
  | normal env' contents'' =>
    obtain ⟨further, ht, hrun'⟩ := h
    refine ⟨extra ++ further, List.append_assoc .. ▸ ht, fun m hm => ?_⟩
    obtain ⟨m₁, hreaches, hm₁, hconfined⟩ := hrun hm
    obtain ⟨m₂, hreaches', hm₂, hconfined'⟩ := hrun' hm₁
    exact ⟨m₂, hreaches.trans hreaches', List.append_assoc .. ▸ hm₂, hconfined.trans hconfined'⟩
  | exited v =>
    intro m hm
    obtain ⟨m₁, hreaches, hm₁, hconfined⟩ := hrun hm
    obtain ⟨m₂, hexits, hcode, hconfined'⟩ := h hm₁
    exact ⟨m₂, hreaches.exits hexits, hcode, hconfined.trans hconfined'⟩

/-- Code that runs afterwards if the program has not ended, and leaves the memory alone. -/
theorem append {c : Cost} (h : done.Reached p size ahead ahead' places contents g' spent)
    (hrun : ∀ m : Machine, ∃ m', Reaches p ahead' m c rest m' ∧ m'.memory = m.memory ∧ m'.int .sp = m.int .sp) :
    done.Reached p size ahead rest places contents g' (spent + done.onward c) := by
  cases done with
  | normal env' contents' =>
    obtain ⟨extra, ht, hrun'⟩ := h
    refine ⟨extra, ht, fun m hm => ?_⟩
    obtain ⟨m₁, hreaches, hm₁, hconfined⟩ := hrun' hm
    obtain ⟨m₂, hreaches', hmemory, hsp⟩ := hrun m₁
    exact ⟨m₂, hreaches.trans hreaches', hm₁.of_same hmemory hsp, hconfined.trans (.of_same hmemory hsp)⟩
  | exited v =>
    rw [onward, Cost.add_zero]
    exact h

theorem append_label {l : Label} (h : done.Reached p size ahead (.label l :: rest) places contents g' spent) :
    done.Reached p size ahead rest places contents g' spent := by
  have := h.append fun m => ⟨m, .label, rfl, rfl⟩
  rwa [onward_zero, Cost.add_zero] at this

/-- The state of code generation matters only where the program goes on. -/
theorem imp (h : done.Reached p size ahead rest places contents g spent)
    (hg : ∀ ⦃extra env' contents'⦄, g.Tracks (places ++ extra) env' contents' →
      g'.Tracks (places ++ extra) env' contents') : done.Reached p size ahead rest places contents g' spent := by
  cases done with
  | normal env' contents' =>
    obtain ⟨extra, ht, hrun⟩ := h
    exact ⟨extra, hg ht, hrun⟩
  | exited v => exact h

end Completion.Reached

theorem GenState.Tracks.labelled (h : g.Tracks places env contents) (hint : String) :
    (g.labelled hint).Tracks places env contents :=
  { h with names := h.names }

theorem GenState.Tracks.learn (h : g.Tracks places env contents) {k : Knowledge}
    (hk : k.Sound places contents ∧ k.reachable = true) : { g with known := k }.Tracks places env contents :=
  { h with known := hk.1, reachable := hk.2 }

/-- A block that is not run takes slots all the same. -/
theorem GenState.Tracks.skip (h : g.Tracks places env contents) (hframe : g'.frame.Sound)
    (hle : g.frame.next ≤ g'.frame.next) (hscopes : g'.scopes = g.scopes) {k : Knowledge}
    (hk : k.Sound places contents ∧ k.reachable = true) : { g' with known := k }.Tracks places env contents where
  frame := hframe
  slots e he := (h.slots e he).mono hle
  distinct := h.distinct
  types := h.types
  names _ _ hx := h.names (hscopes ▸ hx)
  known := hk.1
  reachable := hk.2

theorem Stmt.inScope_scopes {a : Gen} (ha : a.Advances o n) (h : a.inScope g = .ok (code, g')) :
    g'.scopes = g.scopes := by
  obtain ⟨g₁, hcode, rfl⟩ := Gen.inScope_eq_ok.mp h
  exact (ha hcode).pop

theorem Gen.Simulates.inScope {a : Gen} {eval : Env → Contents → Option Completion} {price : Env → Contents → Cost}
    (h : a.Simulates p o size eval price) (ha : a.Advances o n) :
    a.inScope.Simulates p o size (fun env contents => (eval env contents).map (·.leave env)) price := by
  intro g code g' rest places env contents hblock hsuffix hsize ht
  obtain ⟨g₁, hcode, rfl⟩ := inScope_eq_ok.mp hblock
  obtain ⟨done, spent, hdone, hspent, hreached⟩ := h hcode hsuffix hsize ht.enter
  refine ⟨done.leave env, spent, by simp only [hdone, Option.map_some], hspent, ?_⟩
  cases done with
  | normal env' contents' =>
    obtain ⟨extra, ht', hrun⟩ := hreached
    exact ⟨extra, ht.leave ht' (ha hcode).pop, hrun⟩
  | exited v => exact hreached

/-- A test leads to the label of its outcome, and changes nothing. -/
theorem Expr.testCode_reaches (hp : (Routine.boundLabels p.code).Nodup) (rest : List Instr) {test : Expr}
    {yes no : Label} (ht : g.Tracks places env contents) (h : test.testCode .nanSafe g.scopes yes no = .ok code) :
    ∃ b, test.truth? env contents = some b ∧
      Cost.Spent o code (test.testCost env contents) (test.testCost env contents) ∧
      ∀ ⦃ahead⦄, .label (if b then yes else no) :: ahead <:+ p.code →
      ∀ ⦃m : Machine⦄, m.Represents size places contents →
        ∃ m', Reaches p (code ++ rest) m (test.testCost env contents) ahead m' ∧
          m'.Represents size places contents ∧ Confined size m m' := by
  obtain ⟨b, hb, hsteps, hrun⟩ := test.testCode_run p rest ht h
  refine ⟨b, hb, ⟨?_, .refl _, fun _ => rfl⟩, fun ahead hahead m hm => ?_⟩
  · rwa [List.countP_eq_length.mpr (List.all_eq_true.mp (testCode_labels h))]
  · obtain ⟨m', hjumps, hmemory, hsp⟩ := hrun hm
    have hreaches := (hjumps.reaches (Routine.codeAt?_of_suffix hp hahead)).trans .label
    rw [Cost.add_zero] at hreaches
    exact ⟨m', hreaches, hm.of_same hmemory hsp, .of_same hmemory hsp⟩

end Composition

namespace Stmt

variable {p : Routine} {o : CompileOptions} {size n k : Nat} {test : Expr} {body otherwise : List Stmt}

theorem truth?_of_foreseen {g : GenState} {places : Places} {env : Env} {contents : Contents} {b : Bool}
    (ht : g.Tracks places env contents) (h : foreseen o test g = .ok (some b)) :
    o.fold = true ∧ test.truth? env contents = some b := by
  unfold foreseen at h
  split at h
  next hfold => exact ⟨hfold, Expr.truth?_of_decide ht h⟩
  next => cases h

/-- A branch that is over jumps over the other one. -/
theorem cost_cond_some {env : Env} {contents : Contents} {done : Completion} (h : test.truth? env contents = some true)
    (hdone : (evalList body env contents).map (·.leave env) = some done) :
    cost (.cond test body (some otherwise)) env contents =
      test.testCost env contents + (costList body env contents + done.onward ⟨1, false⟩) := by
  obtain ⟨inner, hinner, rfl⟩ := Option.map_eq_some_iff.mp hdone
  rw [cost, h, hinner]
  cases inner <;> rfl

theorem cond_simulates_none (hp : (Routine.boundLabels p.code).Nodup) (ho : o.lowering = .nanSafe)
    (hbody : (genList o body).Simulates p o size (evalList body) (costList body)) :
    (condGen o test (genList o body) none).Simulates p o size (eval (.cond test body none))
      (cost (.cond test body none)) := by
  have hadvances := genList_advances ho body
  intro g code g' rest places env contents h hsuffix hsize ht
  cases condGen_eq_ok.mp h with
  | @decided b _ _ _ hb hcode =>
    obtain ⟨hfold, htruth⟩ := truth?_of_foreseen ht hb
    rw [eval_cond_none htruth, cost, htruth]
    cases b with
    | true =>
      obtain ⟨done, spent, hdone, hspent, hreached⟩ := hbody.inScope hadvances hcode hsuffix hsize ht
      refine ⟨done, spent, hdone, hspent.of_fold hfold ?_, hreached⟩
      exact .of_add_left _ _
    | false =>
      cases hcode
      exact ⟨_, 0, rfl, Cost.Spent.nothing.of_fold hfold (.zero _), .nothing ht⟩
  | @short testCode bodyCode after hopen htest hcode =>
    rw [ho] at htest
    simp only [List.append_assoc, List.cons_append, List.nil_append] at hsuffix ⊢
    have hyes := (List.suffix_append ..).trans hsuffix
    have hbodySuffix := (List.suffix_cons ..).trans hyes
    have hno := (List.suffix_append ..).trans hbodySuffix
    obtain ⟨b, htruth, hspent, hrun⟩ := test.testCode_reaches hp _ ht htest
    rw [eval_cond_none htruth, cost, htruth]
    cases b with
    | true =>
      obtain ⟨done, spent, hdone, hspent', hreached⟩ := hbody.inScope hadvances hcode hbodySuffix hsize
        ((ht.labelled "then").labelled "endif")
      refine ⟨done, _, hdone, (hspent.append hspent').mono ?_, .prepend (List.append_nil _).symm (hrun hyes) ?_⟩
      · simp only [List.countP_append, List.countP_cons]
        omega
      · exact hreached.append_label.imp fun _ _ _ ht' =>
          ht'.learn (Knowledge.Sound.merge (.inl ⟨ht'.known, ht'.reachable⟩))
    | false =>
      have hafter := inScope_advances hadvances hcode
      have ht' := ((ht.labelled "then").labelled "endif").skip (hafter.sound ht.frame) hafter.frame_le
        (inScope_scopes hadvances hcode) (Knowledge.Sound.merge (k := after.known) (.inr ⟨ht.known, ht.reachable⟩))
      refine ⟨_, _, rfl, (hspent.append .nothing).mono ?_, .prepend (List.append_nil _).symm (hrun hno) (.nothing ht')⟩
      simp only [List.countP_append, List.countP_nil]
      omega

theorem cond_simulates_some (hp : (Routine.boundLabels p.code).Nodup) (ho : o.lowering = .nanSafe)
    (hbody : (genList o body).Simulates p o size (evalList body) (costList body))
    (helse : (genList o otherwise).Simulates p o size (evalList otherwise) (costList otherwise)) :
    (condGen o test (genList o body) (some (genList o otherwise))).Simulates p o size
      (eval (.cond test body (some otherwise))) (cost (.cond test body (some otherwise))) := by
  have hadvances := genList_advances ho body
  have hadvances' := genList_advances ho otherwise
  intro g code g' rest places env contents h hsuffix hsize ht
  cases condGen_eq_ok.mp h with
  | @decided b _ _ _ hb hcode =>
    obtain ⟨hfold, htruth⟩ := truth?_of_foreseen ht hb
    rw [eval_cond_some htruth]
    cases b with
    | true =>
      obtain ⟨done, spent, hdone, hspent, hreached⟩ := hbody.inScope hadvances hcode hsuffix hsize ht
      refine ⟨done, spent, hdone, hspent.of_fold hfold ?_, hreached⟩
      rw [cost_cond_some htruth hdone]
      exact (Cost.AtMost.of_add_right _ _).trans (.of_add_left _ _)
    | false =>
      obtain ⟨done, spent, hdone, hspent, hreached⟩ := helse.inScope hadvances' hcode hsuffix hsize ht
      rw [cost, htruth]
      exact ⟨done, spent, hdone, hspent.of_fold hfold (.of_add_left _ _), hreached⟩
  | @long testCode bodyCode after _ elseCode last hopen htest hcode hcode' =>
    rw [ho] at htest
    simp only [List.append_assoc, List.cons_append, List.nil_append] at hsuffix ⊢
    have hyes := (List.suffix_append ..).trans hsuffix
    have hbodySuffix := (List.suffix_cons ..).trans hyes
    have hno := (List.suffix_cons ..).trans ((List.suffix_append ..).trans hbodySuffix)
    have helseSuffix := (List.suffix_cons ..).trans hno
    have hend := (List.suffix_append ..).trans helseSuffix
    have hlast := inScope_advances hadvances' hcode'
    have hscopes := inScope_scopes hadvances' hcode'
    obtain ⟨b, htruth, hspent, hrun⟩ := test.testCode_reaches hp _ ht htest
    rw [eval_cond_some htruth]
    cases b with
    | true =>
      obtain ⟨done, spent, hdone, hspent', hreached⟩ := hbody.inScope hadvances hcode hbodySuffix
        (Nat.le_trans hlast.frame_le hsize) ((ht.labelled "then").labelled "else")
      have hjump (m : Machine) : Reaches p (.jump after.nextLabel :: .label (g.labelled "then").nextLabel ::
          (elseCode ++ .label after.nextLabel :: rest)) m ⟨1, false⟩ rest m.tick :=
        ((Jumps.goto rfl rfl rfl).reaches (Routine.codeAt?_of_suffix hp hend)).trans .label
      rw [cost_cond_some htruth hdone]
      refine ⟨done, _, hdone, (hspent.append (hspent'.append (.onward after.nextLabel done))).mono ?_,
        .prepend (List.append_nil _).symm (hrun hyes) ?_⟩
      · simp only [List.countP_append, List.countP_cons, List.countP_nil]
        omega
      · refine (hreached.append fun m => ⟨_, hjump m, rfl, rfl⟩).imp fun _ _ _ ht' => ?_
        exact ht'.skip (hlast.sound ht'.frame) hlast.frame_le hscopes
          (Knowledge.Sound.merge (.inl ⟨ht'.known, ht'.reachable⟩))
    | false =>
      have hafter := inScope_advances hadvances hcode
      -- code for the second branch starts in the state after the first, but with what was known before the test
      have hentry := ((ht.labelled "then").labelled "else").skip (hafter.sound ht.frame) hafter.frame_le
        (inScope_scopes hadvances hcode) ⟨ht.known, ht.reachable⟩
      obtain ⟨done, spent, hdone, hspent', hreached⟩ := helse.inScope hadvances' hcode' helseSuffix hsize
        (hentry.labelled "endif")
      rw [cost, htruth]
      refine ⟨done, _, hdone, (hspent.append hspent').mono ?_, .prepend (List.append_nil _).symm (hrun hno) ?_⟩
      · simp only [List.countP_append, List.countP_cons]
        omega
      · exact hreached.append_label.imp fun _ _ _ ht' =>
          ht'.learn (Knowledge.Sound.merge (.inr ⟨ht'.known, ht'.reachable⟩))

mutual

theorem gen_simulates (hp : (Routine.boundLabels p.code).Nodup) (ho : o.lowering = .nanSafe) (s : Stmt) :
    (s.gen o).Simulates p o size s.eval s.cost := by
  cases s with
  | define x e => exact define_simulates x e
  | var x ty init => exact var_simulates x ty init
  | assign x e => exact assign_simulates x e
  | store x e => exact store_simulates x e
  | inc x => exact step_simulates x 1 (fun _ _ => rfl) fun _ _ => rfl
  | dec x => exact step_simulates x (-1) (fun _ _ => rfl) fun _ _ => rfl
  | exit e => exact exit_simulates e
  | cond test body otherwise =>
    cases otherwise with
    | none => exact cond_simulates_none hp ho (genList_simulates hp ho body)
    | some otherwise =>
      exact cond_simulates_some hp ho (genList_simulates hp ho body) (genList_simulates hp ho otherwise)

theorem genList_simulates (hp : (Routine.boundLabels p.code).Nodup) (ho : o.lowering = .nanSafe) (ss : List Stmt) :
    (genList o ss).Simulates p o size (evalList ss) (costList ss) := by
  intro g code g' rest places env contents h hsuffix hsize ht
  cases ss with
  | nil =>
    cases h
    exact ⟨_, 0, rfl, .nothing, .nothing ht⟩
  | cons s ss =>
    obtain ⟨first, g₁, second, hs, hss, rfl⟩ := Gen.andThen_eq_ok.mp h
    rw [List.append_assoc] at hsuffix ⊢
    have hle := (genList_advances ho ss hss).frame_le
    obtain ⟨done, spent, hdone, hspent, hreached⟩ := gen_simulates hp ho s hs hsuffix (Nat.le_trans hle hsize) ht
    rw [evalList, costList, hdone]
    cases done with
    | normal env' contents' =>
      obtain ⟨extra, ht', hrun⟩ := hreached
      obtain ⟨done', spent', hdone', hspent', hreached'⟩ :=
        genList_simulates hp ho ss hss ((List.suffix_append ..).trans hsuffix) hsize ht'
      exact ⟨done', _, hdone', hspent.append hspent', hreached'.prepend rfl hrun⟩
    | exited v =>
      refine ⟨.exited v, spent, rfl, ?_, hreached⟩
      rw [Cost.add_zero]
      refine hspent.mono ?_
      rw [List.countP_append]
      exact Nat.le_add_right ..

end

end Stmt
end Comparand
