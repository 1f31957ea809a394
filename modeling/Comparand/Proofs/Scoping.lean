import Comparand.Proofs.Codegen

/-! Scopes are lexical. However scopes are opened and left and names declared in them, the scopes that are open hold
exactly what was declared in them, and a block leaves no trace. -/
namespace Comparand
namespace Scopes

/-- What is done to scopes. -/
inductive Action where
  | push
  | pop
  | declare (x : String) (symbol : Symbol)
deriving DecidableEq

/-- A declaration that fails leaves everything as it is. -/
def act (s : Scopes) : Action → Scopes
  | .push => s.push
  | .pop => s.pop
  | .declare x symbol =>
    match s.declare x symbol with
    | .ok s' => s'
    | .error _ => s

def run (s : Scopes) (actions : List Action) : Scopes := actions.foldl act s

/-- The scopes after the first `n` actions. -/
def after (s : Scopes) (actions : List Action) (n : Nat) : Scopes := s.run (actions.take n)

/-- How many scopes are around the current one. -/
def depth (s : Scopes) : Nat := s.enclosing.length

/-- The scope that has so many others around it, so that the outermost one is at level 0. No names are declared beyond
the current scope. -/
def level (s : Scopes) (d : Nat) : Scope := (s.enclosing.reverse ++ [s.current])[d]?.getD []

/-- After the first `n` actions there is a scope with `d` others around it that declares the name: it did so from the
start, or one of the actions declared the name there with success, and since then the scope has not been left. -/
inductive Declared (s : Scopes) (actions : List Action) (n d : Nat) (x : String) (symbol : Symbol) : Prop where
  | already (hx : (s.level d).lookup x = some symbol) (hopen : ∀ k, k ≤ n → d ≤ (s.after actions k).depth)
  | since (i : Nat) (hi : i < n) (ha : actions[i]? = some (.declare x symbol))
      (hok : ∃ t, (s.after actions i).declare x symbol = .ok t) (hd : (s.after actions i).depth = d)
      (hopen : ∀ k, i < k → k ≤ n → d ≤ (s.after actions k).depth)

/-- What stands between a push and its pop: declarations, successful or not, and whole blocks. -/
inductive Body : List Action → Prop where
  | nil : Body []
  | declare (x : String) (symbol : Symbol) {rest : List Action} (h : Body rest) : Body (.declare x symbol :: rest)
  | block {inner rest : List Action} (hinner : Body inner) (h : Body rest) : Body (.push :: inner ++ .pop :: rest)

variable {s t : Scopes} {actions body : List Action} {a : Action} {n d : Nat} {x : String} {symbol : Symbol}

theorem declare_eq_ok :
    s.declare x symbol = .ok t ↔ s.current.lookup x = none ∧ t = { s with current := (x, symbol) :: s.current } := by
  rw [declare]
  cases s.current.lookup x with
  | none => simp [eq_comm]
  | some found => simp

theorem declare_eq_error {e : CompileError} :
    s.declare x symbol = .error e ↔ (∃ found, s.current.lookup x = some found) ∧ e = .redeclared x := by
  rw [declare]
  cases s.current.lookup x with
  | none => simp
  | some found => simp [eq_comm]

theorem act_of_ok (h : s.declare x symbol = .ok t) : s.act (.declare x symbol) = t := by
  rw [act, h]

theorem act_of_error {e : CompileError} (h : s.declare x symbol = .error e) : s.act (.declare x symbol) = s := by
  rw [act, h]

theorem enclosing_act_declare (s : Scopes) (x : String) (symbol : Symbol) :
    (s.act (.declare x symbol)).enclosing = s.enclosing := by
  cases h : s.declare x symbol with
  | error e => rw [act_of_error h]
  | ok t => rw [act_of_ok h, (declare_eq_ok.mp h).2]

/-- A pop with no scope to go back to does nothing. -/
theorem pop_of_depth (h : s.depth = 0) : s.pop = s := by
  have hnone : s.enclosing = [] := List.eq_nil_of_length_eq_zero h
  rw [pop, hnone]

theorem depth_pop (h : s.depth ≠ 0) : s.pop.depth + 1 = s.depth := by
  obtain ⟨current, enclosing⟩ := s
  cases enclosing with
  | nil => exact absurd rfl h
  | cons scope rest => rfl

/-- A pop goes back to where the scope was opened, if the scopes around it are still the same. -/
theorem run_block_of_enclosing (h : (s.push.run body).enclosing = s.push.enclosing) :
    s.run (.push :: body ++ [.pop]) = s := by
  have hrun : s.run (.push :: body ++ [.pop]) = (s.push.run body).pop := by
    simp [run, act]
  rw [hrun, pop, h]
  rfl

/-- Between a push and its pop, the scopes around stay the same. -/
theorem Body.enclosing_run (h : Body body) (s : Scopes) : (s.run body).enclosing = s.enclosing := by
  induction h generalizing s with
  | nil => rfl
  | declare x symbol _ ih => exact (ih (s.act (.declare x symbol))).trans (s.enclosing_act_declare x symbol)
  | @block inner rest _ _ ihinner ih =>
    have hrun : s.run (.push :: inner ++ .pop :: rest) = (s.run (.push :: inner ++ [.pop])).run rest := by
      simp [run]
    rw [hrun, run_block_of_enclosing (ihinner s.push)]
    exact ih s

theorem Body.run_block (h : Body body) (s : Scopes) : s.run (.push :: body ++ [.pop]) = s :=
  run_block_of_enclosing (h.enclosing_run s.push)

/-- The levels from the outside in: the scopes around the current one, that one itself, and nothing. -/
theorem level_eq (s : Scopes) (d : Nat) :
    s.level d = if d < s.depth then s.enclosing.reverse[d]?.getD [] else if d = s.depth then s.current else [] := by
  have hlength : s.enclosing.reverse.length = s.depth := List.length_reverse
  rw [level, List.getElem?_append, hlength]
  by_cases hlt : d < s.depth
  · rw [if_pos hlt, if_pos hlt]
  · rw [if_neg hlt, if_neg hlt]
    by_cases he : d = s.depth
    · rw [if_pos he, he, Nat.sub_self]
      rfl
    · have hbeyond : [s.current].length ≤ d - s.depth := by
        rw [List.length_singleton]
        omega
      rw [if_neg he, List.getElem?_eq_none hbeyond, Option.getD_none]

theorem level_depth (s : Scopes) : s.level s.depth = s.current := by
  rw [level_eq, if_neg (Nat.lt_irrefl _), if_pos rfl]

theorem level_of_lt (h : s.depth < d) : s.level d = [] := by
  rw [level_eq, if_neg (by omega), if_neg (by omega)]

theorem le_depth (h : (s.level d).lookup x = some symbol) : d ≤ s.depth := by
  apply Nat.le_of_not_lt
  intro hlt
  rw [level_of_lt hlt] at h
  cases h

theorem level_push (s : Scopes) (d : Nat) : s.push.level d = s.level d := by
  have hdepth : s.push.depth = s.depth + 1 := rfl
  by_cases hlt : d < s.push.depth
  · rw [level_eq, if_pos hlt, push, List.reverse_cons, level]
  · rw [level_eq, if_neg hlt, level_of_lt (s := s) (by omega)]
    split <;> rfl

theorem level_pop (h : d < s.depth) : s.pop.level d = s.level d := by
  obtain ⟨current, enclosing⟩ := s
  cases enclosing with
  | nil => cases h
  | cons scope rest => rw [level_eq ⟨current, scope :: rest⟩, if_pos h, List.reverse_cons, pop, level]

theorem level_current (s : Scopes) (scope : Scope) (d : Nat) :
    level { s with current := scope } d = if d = s.depth then scope else s.level d := by
  have hdepth : depth { s with current := scope } = s.depth := rfl
  rw [level_eq, level_eq s, hdepth]
  by_cases he : d = s.depth
  · rw [if_pos he, if_pos he, if_neg (by omega)]
  · rw [if_neg he, if_neg he, if_neg he]

theorem lookup_level_pop :
    (s.pop.level d).lookup x = some symbol ↔ (s.level d).lookup x = some symbol ∧ d ≤ s.pop.depth := by
  by_cases hzero : s.depth = 0
  · rw [pop_of_depth hzero]
    exact ⟨fun h => ⟨h, le_depth h⟩, fun h => h.1⟩
  · have hdepth := depth_pop hzero
    constructor
    · intro h
      have hle := le_depth h
      rw [level_pop (by omega)] at h
      exact ⟨h, hle⟩
    · rintro ⟨h, hle⟩
      rw [level_pop (by omega)]
      exact h

/-- The name is new in the current scope, and nothing else is. -/
theorem lookup_level_declare {y : String} {other : Symbol} (h : s.declare y other = .ok t) :
    (t.level d).lookup x = some symbol ↔
      (s.level d).lookup x = some symbol ∨ (y = x ∧ other = symbol) ∧ s.depth = d := by
  obtain ⟨hnew, rfl⟩ := declare_eq_ok.mp h
  rw [level_current]
  by_cases hd : d = s.depth
  · rw [if_pos hd, hd, level_depth, List.lookup_cons]
    by_cases hx : x = y
    · subst hx
      simp [hnew]
    · rw [beq_false_of_ne hx]
      simp [Ne.symm hx]
  · simp [hd, Ne.symm hd]

/-- An action takes no name out of a scope that stays open, and brings none into it but by declaring it there. -/
theorem lookup_level_act (s : Scopes) (a : Action) (d : Nat) (x : String) (symbol : Symbol) :
    ((s.act a).level d).lookup x = some symbol ↔
      (s.level d).lookup x = some symbol ∧ d ≤ (s.act a).depth ∨
      a = .declare x symbol ∧ (∃ t, s.declare x symbol = .ok t) ∧ s.depth = d := by
  cases a with
  | push =>
    have hle : (s.level d).lookup x = some symbol → d ≤ s.push.depth := fun h => Nat.le_succ_of_le (le_depth h)
    simpa [act, level_push] using hle
  | pop => simp [act, lookup_level_pop]
  | declare y other =>
    have hdepth : (s.act (.declare y other)).depth = s.depth := congrArg List.length (s.enclosing_act_declare y other)
    rw [hdepth]
    have hle : (s.level d).lookup x = some symbol → d ≤ s.depth := le_depth
    cases h : s.declare y other with
    | error e =>
      have hnot : ¬ (Action.declare y other = .declare x symbol ∧ (∃ t, s.declare x symbol = .ok t) ∧ s.depth = d) := by
        rintro ⟨⟨⟩, ⟨t, ht⟩, -⟩
        rw [h] at ht
        cases ht
      rw [act_of_error h]
      exact ⟨fun hx => .inl ⟨hx, hle hx⟩, fun hx => (hx.resolve_right hnot).1⟩
    | ok t =>
      rw [act_of_ok h, lookup_level_declare h]
      constructor
      · rintro (hx | ⟨⟨rfl, rfl⟩, hd⟩)
        · exact .inl ⟨hx, hle hx⟩
        · exact .inr ⟨rfl, ⟨t, h⟩, hd⟩
      · rintro (⟨hx, -⟩ | ⟨he, -, hd⟩)
        · exact .inl hx
        · exact .inr ⟨Action.declare.inj he, hd⟩

theorem after_succ (h : actions[n]? = some a) : s.after actions (n + 1) = (s.after actions n).act a := by
  rw [after, List.take_add_one, h, run, List.foldl_append]
  rfl

theorem after_succ_of_none (h : actions[n]? = none) : s.after actions (n + 1) = s.after actions n := by
  rw [after, List.take_add_one, h, Option.toList_none, List.append_nil, after]

/-- One more action: what was declared still is if its scope is not left, and the action itself may declare a name. -/
theorem declared_succ : s.Declared actions (n + 1) d x symbol ↔
    s.Declared actions n d x symbol ∧ d ≤ (s.after actions (n + 1)).depth ∨
    actions[n]? = some (.declare x symbol) ∧ (∃ t, (s.after actions n).declare x symbol = .ok t) ∧
      (s.after actions n).depth = d := by
  constructor
  · intro h
    cases h with
    | already hx hopen =>
      exact .inl ⟨.already hx fun k hk => hopen k (by omega), hopen (n + 1) (Nat.le_refl _)⟩
    | since i hi ha hok hd hopen =>
      by_cases hin : i = n
      · subst hin
        exact .inr ⟨ha, hok, hd⟩
      · exact .inl ⟨.since i (by omega) ha hok hd fun k hik hk => hopen k hik (by omega),
          hopen (n + 1) (by omega) (Nat.le_refl _)⟩
  · rintro (⟨h, hlast⟩ | ⟨ha, hok, hd⟩)
    · -- the scope is open at the new point and at all before it
      have hall {k : Nat} (hk : k ≤ n + 1) (hbefore : k ≤ n → d ≤ (s.after actions k).depth) :
          d ≤ (s.after actions k).depth := by
        by_cases hkn : k = n + 1
        · exact hkn ▸ hlast
        · exact hbefore (by omega)
      cases h with
      | already hx hopen => exact .already hx fun k hk => hall hk (hopen k)
      | since i hi ha hok hd hopen => exact .since i (by omega) ha hok hd fun k hik hk => hall hk (hopen k hik)
    · refine .since n (Nat.lt_succ_self n) ha hok hd ?_
      intro k hnk hk
      have hkn : k = n + 1 := by omega
      have hdepth : (s.after actions k).depth = d := by
        rw [hkn, after_succ ha, ← hd]
        exact congrArg List.length (enclosing_act_declare ..)
      exact Nat.le_of_eq hdepth.symm

/-- An open scope holds exactly what has been declared in it. -/
theorem lookup_level_after (s : Scopes) (actions : List Action) (n d : Nat) (x : String) (symbol : Symbol) :
    ((s.after actions n).level d).lookup x = some symbol ↔ s.Declared actions n d x symbol := by
  induction n with
  | zero =>
    constructor
    · intro h
      refine .already h ?_
      intro k hk
      cases hk
      exact le_depth h
    · intro h
      cases h with
      | already hx _ => exact hx
      | since i hi => cases hi
  | succ n ih =>
    rw [declared_succ, ← ih]
    cases ha : actions[n]? with
    | none =>
      rw [after_succ_of_none ha]
      constructor
      · intro h
        exact .inl ⟨h, le_depth h⟩
      · rintro (⟨h, -⟩ | ⟨he, -⟩)
        · exact h
        · cases he
    | some a => rw [after_succ ha, lookup_level_act, Option.some.injEq]

/-- A scope declares the name, and no scope further inside does. -/
def Innermost (s : Scopes) (x : String) (symbol : Symbol) : Prop :=
  ∃ d, (s.level d).lookup x = some symbol ∧ ∀ d' symbol', (s.level d').lookup x = some symbol' → d' ≤ d

theorem innermost_of_current {found : Symbol} (hx : s.current.lookup x = some found) :
    s.Innermost x symbol ↔ found = symbol := by
  rw [← level_depth] at hx
  constructor
  · rintro ⟨d, hd, hmax⟩
    have he : d = s.depth := Nat.le_antisymm (le_depth hd) (hmax _ _ hx)
    rw [he, hx] at hd
    exact Option.some.inj hd
  · rintro rfl
    exact ⟨s.depth, hx, fun _ _ => le_depth⟩

theorem innermost_pop (hx : s.current.lookup x = none) (hdepth : s.depth ≠ 0) :
    s.Innermost x symbol ↔ s.pop.Innermost x symbol := by
  have hpop := depth_pop hdepth
  have hlevel (d : Nat) (found : Symbol) :
      (s.pop.level d).lookup x = some found ↔ (s.level d).lookup x = some found := by
    rw [lookup_level_pop, and_iff_left_iff_imp]
    intro h
    have hle := le_depth h
    have hne : d ≠ s.depth := by
      rintro rfl
      rw [level_depth, hx] at h
      cases h
    omega
  simp only [Innermost, hlevel]

theorem lookup?_of_current (hx : s.current.lookup x = some symbol) : s.lookup? x = some symbol := by
  rw [lookup?, List.findSome?_cons, hx]

/-- What a name stands for is what the innermost scope says that declares it. -/
theorem lookup?_eq_some_iff : s.lookup? x = some symbol ↔ s.Innermost x symbol := by
  obtain ⟨current, enclosing⟩ := s
  -- a current scope without the name is left, so the induction is on the scopes around it
  induction enclosing generalizing current with
  | nil =>
    cases hx : current.lookup x with
    | none =>
      have hnone : lookup? ⟨current, []⟩ x = none := by simp [lookup?, hx]
      rw [hnone]
      refine ⟨by simp, ?_⟩
      rintro ⟨d, hd, -⟩
      have hzero : d = 0 := Nat.le_zero.mp (le_depth hd)
      subst hzero
      exact hx.symm.trans hd
    | some found => rw [innermost_of_current hx, lookup?_of_current hx, Option.some.injEq]
  | cons scope rest ih =>
    cases hx : current.lookup x with
    | none =>
      rw [innermost_pop hx (by simp [depth]), lookup?, List.findSome?_cons, hx]
      exact ih scope
    | some found => rw [innermost_of_current hx, lookup?_of_current hx, Option.some.injEq]

/-- Scopes are lexical, whatever state they are in and whatever is done to them. A block leaves everything as it was. At
every point a name stands for what the innermost open scope that declares it declares it as; as a scope takes a name
only once, that is its latest declaration there. To declare a name fails exactly if the current scope has it already,
and then nothing changes. No pop ever takes away the outermost scope or a name in it. -/
theorem lexical (s : Scopes) :
    (∀ body, Body body → s.run (.push :: body ++ [.pop]) = s) ∧
    ∀ actions n,
      (∀ x symbol, (s.after actions n).lookup x = .ok symbol ↔
        ∃ d, s.Declared actions n d x symbol ∧ ∀ d' symbol', s.Declared actions n d' x symbol' → d' ≤ d) ∧
      (∀ x symbol, ((∃ e, (s.after actions n).declare x symbol = .error e) ↔
          ∃ found, s.Declared actions n (s.after actions n).depth x found) ∧
        ((∃ e, (s.after actions n).declare x symbol = .error e) →
          (s.after actions n).act (.declare x symbol) = s.after actions n)) ∧
      ((s.after actions n).depth = 0 → (s.after actions n).pop = s.after actions n) ∧
      ∀ x symbol, (s.level 0).lookup x = some symbol → ((s.after actions n).level 0).lookup x = some symbol := by
  refine ⟨fun body hbody => hbody.run_block s, fun actions n => ⟨?_, ?_, pop_of_depth, ?_⟩⟩
  · intro x symbol
    simp only [lookup_eq_ok, lookup?_eq_some_iff, Innermost, lookup_level_after]
  · intro x symbol
    refine ⟨?_, ?_⟩
    · simp only [← lookup_level_after, level_depth, declare_eq_error, exists_and_left, exists_eq, and_true]
    · rintro ⟨e, he⟩
      exact act_of_error he
  · intro x symbol hx
    exact (lookup_level_after ..).mpr (.already hx fun k _ => Nat.zero_le _)

/-- In a block a name is declared anew, then again in vain, and once more in a block inside. In the end a pop that has no
push comes before the block. -/
theorem lexical_shadowed : ∃ (s : Scopes) (body : List Action) (outer inner : Symbol), outer ≠ inner ∧ Body body ∧
    s.lookup "v" = .ok outer ∧ s.run (.push :: body ++ [.pop]) = s ∧
    (s.after (.push :: body) 6).lookup "v" = .ok inner ∧
    (∃ e, (s.after (.push :: body) 2).declare "v" outer = .error e) ∧
    ((s.after (.pop :: .push :: body) 7).level 0).lookup "v" = some outer := by
  let outer : Symbol := ⟨.scalar .int, ⟨0, by decide⟩⟩
  let inner : Symbol := ⟨.scalar .float64, ⟨8, by decide⟩⟩
  let s : Scopes := { current := [("v", outer)] }
  let body : List Action :=
    [.declare "v" inner, .declare "v" outer, .push, .declare "v" outer, .pop]
  have hbody : Body body := .declare _ _ (.declare _ _ (.block (.declare "v" outer .nil) .nil))
  have hopen : ∀ k, 1 < k → k ≤ 6 → 1 ≤ (s.after (.push :: body) k).depth := by
    intro k hlt hle
    have hk : k = 2 ∨ k = 3 ∨ k = 4 ∨ k = 5 ∨ k = 6 := by omega
    rcases hk with rfl | rfl | rfl | rfl | rfl <;> decide
  have hdeclared : s.Declared (.push :: body) 6 1 "v" inner := .since 1 (by decide) rfl ⟨_, rfl⟩ rfl hopen
  have hdeclared' : s.Declared (.push :: body) 2 1 "v" inner :=
    .since 1 (by decide) rfl ⟨_, rfl⟩ rfl fun k hk hk' => hopen k hk (by omega)
  obtain ⟨hblock, hactions⟩ := lexical s
  refine ⟨s, body, outer, inner, by decide, hbody, by rfl, hblock body hbody, ?_, ?_, ?_⟩
  · refine ((hactions (.push :: body) 6).1 "v" inner).mpr ⟨1, hdeclared, ?_⟩
    intro d found h
    exact le_depth ((lookup_level_after ..).mpr h)
  · exact ((hactions (.push :: body) 2).2.1 "v" outer).1.mpr ⟨inner, hdeclared'⟩
  · exact (hactions (.pop :: .push :: body) 7).2.2.2 "v" outer rfl

end Scopes
end Comparand
