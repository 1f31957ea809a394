import Comparand.Proofs.Result
import Comparand.Proofs.Supply

/-! Scratch in use: registers are taken and reserved, marks are set and gone back to. As long as each reset goes back to
the latest mark, no register that is held is handed out again, and a reset undoes all that was done since its mark. -/
namespace Comparand

namespace Pool

variable {α : Type} {p p' p'' : Pool α}

/-- A pool that has grown and not gone back. -/
structure Onward (p p' : Pool α) : Prop extends Grown p p' where
  used : p.used ≤ p'.used

theorem Onward.refl (p : Pool α) : p.Onward p := ⟨.refl p, Nat.le_refl _⟩

theorem Onward.trans (h : p.Onward p') (h' : p'.Onward p'') : p.Onward p'' :=
  ⟨h.toGrown.trans h'.toGrown, Nat.le_trans h.used h'.used⟩

theorem onward_reserve (p : Pool α) (r : α) : p.Onward (p.reserve r) := ⟨p.grown_reserve r, Nat.le_refl _⟩

theorem Onward.suffix (h : p.Onward p') : p'.remaining <:+ p.remaining := by
  rw [remaining, remaining, h.regs]
  exact List.drop_suffix_drop_left p.regs h.used

variable [DecidableEq α]

theorem le_scan (reserved rs : List α) (n : Nat) : n ≤ (scan reserved rs n).2 := by
  induction rs generalizing n with
  | nil => exact Nat.le_refl n
  | cons r rs ih =>
    have hnext := ih (n + 1)
    rw [scan]
    split
    · omega
    · exact Nat.le_succ n

/-- Whether a register is left or not, a pool does not go back to look for it. -/
theorem onward_alloc (p : Pool α) : p.Onward p.alloc.2 := ⟨grown_alloc rfl, le_scan ..⟩

end Pool

/-- A register of either class. -/
inductive Register where
  | int (r : IntReg)
  | float (f : FloatReg)
deriving DecidableEq

namespace Scratch

/-- Takes a register of a class. -/
def take (s : Scratch) : RegisterClass → Except CodeError Register × Scratch
  | .integer => (s.allocInt.1.map .int, s.allocInt.2)
  | .float => (s.allocFloat.1.map .float, s.allocFloat.2)

def reserve (s : Scratch) : Register → Scratch
  | .int r => s.reserveInt r
  | .float f => s.reserveFloat f

def Reserved (s : Scratch) : Register → Prop
  | .int r => r ∈ s.ints.reserved
  | .float f => f ∈ s.floats.reserved

/-- The register has not been passed yet. -/
def Ahead (s : Scratch) : Register → Prop
  | .int r => r ∈ s.ints.remaining
  | .float f => f ∈ s.floats.remaining

/-- Both pools have grown and not gone back. -/
structure Onward (s s' : Scratch) : Prop where
  ints : s.ints.Onward s'.ints
  floats : s.floats.Onward s'.floats

variable {s s' s'' : Scratch} {r : Register} {cls : RegisterClass}

theorem Onward.refl (s : Scratch) : s.Onward s := ⟨.refl _, .refl _⟩

theorem Onward.trans (h : s.Onward s') (h' : s'.Onward s'') : s.Onward s'' :=
  ⟨h.ints.trans h'.ints, h.floats.trans h'.floats⟩

/-- What was passed stays behind. -/
theorem Onward.ahead (h : s.Onward s') (hr : s'.Ahead r) : s.Ahead r := by
  cases r with
  | int r => exact h.ints.suffix.subset hr
  | float f => exact h.floats.suffix.subset hr

theorem Onward.reset (h : s.Onward s') : s'.reset s.mark = s :=
  Grown.reset ⟨h.ints.toGrown, h.floats.toGrown⟩

theorem onward_take (s : Scratch) (cls : RegisterClass) : s.Onward (s.take cls).2 := by
  cases cls with
  | integer => exact ⟨s.ints.onward_alloc, .refl _⟩
  | float => exact ⟨.refl _, s.floats.onward_alloc⟩

theorem onward_reserve (s : Scratch) (r : Register) : s.Onward (s.reserve r) := by
  cases r with
  | int r => exact ⟨s.ints.onward_reserve r, .refl _⟩
  | float f => exact ⟨.refl _, s.floats.onward_reserve f⟩

/-- What is taken was ahead and free, and is passed if no register comes twice. -/
theorem take_ok (h : (s.take cls).1 = .ok r) :
    s.Ahead r ∧ ¬ s.Reserved r ∧
      (s.ints.regs.Nodup → s.floats.regs.Nodup → ¬ (s.take cls).2.Ahead r) := by
  cases cls with
  | integer =>
    obtain ⟨r, hr, rfl⟩ := ok_of_map h
    have hdraws := (Drawing.yields_int (Prod.ext hr rfl : s.allocInt = (.ok r, s.allocInt.2))).1
    refine ⟨hdraws.mem, hdraws.free, ?_⟩
    intro hints _
    exact hdraws.notMem (hints.sublist (List.drop_sublist ..))
  | float =>
    obtain ⟨f, hf, rfl⟩ := ok_of_map h
    have hdraws := (Drawing.yields_float (Prod.ext hf rfl : s.allocFloat = (.ok f, s.allocFloat.2))).1
    refine ⟨hdraws.mem, hdraws.free, ?_⟩
    intro _ hfloats
    exact hdraws.notMem (hfloats.sublist (List.drop_sublist ..))

/-- What is done with scratch. A reset goes back to the latest mark that has not been reset. -/
inductive Action where
  | take (cls : RegisterClass)
  | reserve (r : Register)
  | mark
  | reset
deriving DecidableEq

/-- Scratch in use, with the marks that have not been reset, the latest first. -/
structure Session where
  scratch : Scratch
  marks : List Mark := []
deriving DecidableEq

namespace Session

/-- Without a mark there is nothing to go back to. -/
def act (t : Session) : Action → Session
  | .take cls => { t with scratch := (t.scratch.take cls).2 }
  | .reserve r => { t with scratch := t.scratch.reserve r }
  | .mark => { t with marks := t.scratch.mark :: t.marks }
  | .reset =>
    match t.marks with
    | [] => t
    | m :: marks => ⟨t.scratch.reset m, marks⟩

end Session

/-- The scratch and its marks after the first `n` actions. -/
def after (s : Scratch) (actions : List Action) (n : Nat) : Session := (actions.take n).foldl Session.act ⟨s, []⟩

/-- How many marks have been set and not reset after the first `n` actions. -/
def openMarks (s : Scratch) (actions : List Action) (n : Nat) : Nat := (s.after actions n).marks.length

/-- Each reset finds a mark. -/
def WellNested (s : Scratch) (actions : List Action) : Prop :=
  ∀ n < actions.length, actions[n]? = some .reset → (s.after actions n).marks ≠ []

/-- After the first `n` actions, the register that action `i` took has not been given back. A reset gives it back if its
mark was set before; fewer marks are open then than when the register was taken. -/
structure Holds (s : Scratch) (actions : List Action) (n i : Nat) (r : Register) : Prop where
  lt : i < n
  took : ∃ cls, actions[i]? = some (.take cls) ∧ ((s.after actions i).scratch.take cls).1 = .ok r
  kept : ∀ k, i < k → k ≤ n → s.openMarks actions i ≤ s.openMarks actions k

/-- After the first `n` actions, the mark that action `k` set has not been reset. -/
structure OpenMark (s : Scratch) (actions : List Action) (n k : Nat) : Prop where
  lt : k < n
  set : actions[k]? = some .mark
  kept : ∀ m, k < m → m ≤ n → s.openMarks actions k < s.openMarks actions m

variable {actions : List Action} {n i j k : Nat} {a : Action}

theorem after_succ (h : actions[n]? = some a) : s.after actions (n + 1) = (s.after actions n).act a := by
  rw [after, List.take_add_one, h, List.foldl_append]
  rfl

theorem after_succ_of_none (h : actions[n]? = none) : s.after actions (n + 1) = s.after actions n := by
  rw [after, List.take_add_one, h, Option.toList_none, List.append_nil, after]

/-- Scratch that has come onward from `s`, with the marks that were set on the way, the latest first. -/
inductive Trail (s : Scratch) : List Mark → Scratch → Prop where
  | plain {s' : Scratch} (h : s.Onward s') : Trail s [] s'
  | marked {marks : List Mark} {t s' : Scratch} (h : Trail s marks t) (ht : t.Onward s') : Trail s (t.mark :: marks) s'

namespace Trail

variable {marks rest : List Mark} {m : Mark}

theorem extend (h : Trail s marks s') (ht : s'.Onward s'') : Trail s marks s'' := by
  cases h with
  | plain h => exact .plain (h.trans ht)
  | marked h h' => exact .marked h (h'.trans ht)

theorem onward (h : Trail s marks s') : s.Onward s' := by
  induction h with
  | plain h => exact h
  | marked _ ht ih => exact ih.trans ht

/-- A reset takes the trail back to where its latest mark was set. -/
theorem reset (h : Trail s (m :: marks) s') : Trail s marks (s'.reset m) := by
  cases h with
  | marked h ht =>
    rw [ht.reset]
    exact h

/-- An action goes on with a trail, unless it goes back to a mark from before it. -/
theorem act {t : Session} (h : Trail s marks t.scratch) (hmarks : t.marks = marks ++ rest) (a : Action)
    (hle : rest.length ≤ (t.act a).marks.length) :
    ∃ marks', (t.act a).marks = marks' ++ rest ∧ Trail s marks' (t.act a).scratch := by
  obtain ⟨scratch, all⟩ := t
  subst hmarks
  cases a with
  | take cls => exact ⟨marks, rfl, h.extend (onward_take scratch cls)⟩
  | reserve r => exact ⟨marks, rfl, h.extend (onward_reserve scratch r)⟩
  | mark => exact ⟨scratch.mark :: marks, rfl, h.marked (.refl scratch)⟩
  | reset =>
    cases marks with
    | cons m marks => exact ⟨marks, rfl, h.reset⟩
    | nil =>
      -- the trail has no mark of its own, so the reset would go to one from before it
      cases rest with
      | nil => exact ⟨[], rfl, h⟩
      | cons m rest =>
        simp only [Session.act, List.nil_append, List.length_cons] at hle
        omega

end Trail

/-- As long as the marks that are open at a point stay open, there is a trail from it. -/
theorem exists_trail (s : Scratch) (actions : List Action) (hin : i ≤ n)
    (hkept : ∀ k, i < k → k ≤ n → s.openMarks actions i ≤ s.openMarks actions k) :
    ∃ marks, (s.after actions n).marks = marks ++ (s.after actions i).marks ∧
      Trail (s.after actions i).scratch marks (s.after actions n).scratch := by
  induction n, hin using Nat.le_induction with
  | base => exact ⟨[], rfl, .plain (.refl _)⟩
  | succ n hin ih =>
    obtain ⟨marks, hmarks, htrail⟩ := ih fun k hik hkn => hkept k hik (by omega)
    cases ha : actions[n]? with
    | none =>
      rw [after_succ_of_none ha]
      exact ⟨marks, hmarks, htrail⟩
    | some a =>
      have hle := hkept (n + 1) (by omega) (Nat.le_refl _)
      rw [openMarks, openMarks, after_succ ha] at hle
      rw [after_succ ha]
      exact htrail.act hmarks a hle

/-- No mark was set before the first action, so all scratch has come onward from the first. -/
theorem onward_after (s : Scratch) (actions : List Action) (n : Nat) : s.Onward (s.after actions n).scratch := by
  obtain ⟨_, -, htrail⟩ := s.exists_trail actions (Nat.zero_le n) fun k _ _ => Nat.zero_le _
  exact htrail.onward

namespace Holds

/-- A register that is held is not ahead. -/
theorem not_ahead (h : s.Holds actions n i r) (hints : s.ints.regs.Nodup) (hfloats : s.floats.regs.Nodup)
    (hik : i < k) (hkn : k ≤ n) : ¬ (s.after actions k).scratch.Ahead r := by
  obtain ⟨cls, htake, hok⟩ := h.took
  have hstart := s.onward_after actions i
  have hnext : s.after actions (i + 1) = (s.after actions i).act (.take cls) := after_succ htake
  have hmarks : s.openMarks actions (i + 1) = s.openMarks actions i := congrArg (·.marks.length) hnext
  obtain ⟨marks, -, htrail⟩ := s.exists_trail actions (i := i + 1) hik fun m him hmk => by
    rw [hmarks]
    exact h.kept m (by omega) (by omega)
  intro hahead
  have hpassed := (take_ok hok).2.2 (hstart.ints.regs ▸ hints) (hstart.floats.regs ▸ hfloats)
  have hahead' := htrail.onward.ahead hahead
  rw [hnext] at hahead'
  exact hpassed hahead'

theorem ahead (h : s.Holds actions n i r) : (s.after actions i).scratch.Ahead r := by
  obtain ⟨cls, -, hok⟩ := h.took
  exact (take_ok hok).1

theorem free (h : s.Holds actions n i r) : ¬ (s.after actions i).scratch.Reserved r := by
  obtain ⟨cls, -, hok⟩ := h.took
  exact (take_ok hok).2.1

/-- A register that is held was taken once. -/
theorem unique (hints : s.ints.regs.Nodup) (hfloats : s.floats.regs.Nodup) (hi : s.Holds actions n i r)
    (hj : s.Holds actions n j r) : i = j := by
  rcases Nat.lt_trichotomy i j with hij | hij | hij
  · exact absurd hj.ahead (hi.not_ahead hints hfloats hij (Nat.le_of_lt hj.lt))
  · exact hij
  · exact absurd hi.ahead (hj.not_ahead hints hfloats hij (Nat.le_of_lt hi.lt))

end Holds

/-- Only setting a mark opens one. -/
theorem openMarks_succ (s : Scratch) (actions : List Action) (n : Nat) :
    actions[n]? = some .mark ∧ s.openMarks actions (n + 1) = s.openMarks actions n + 1 ∨
      s.openMarks actions (n + 1) ≤ s.openMarks actions n := by
  cases ha : actions[n]? with
  | none =>
    rw [openMarks, openMarks, after_succ_of_none ha]
    exact .inr (Nat.le_refl _)
  | some a =>
    rw [openMarks, openMarks, after_succ ha]
    cases a with
    | take cls => exact .inr (Nat.le_refl _)
    | reserve r => exact .inr (Nat.le_refl _)
    | mark => exact .inl ⟨rfl, rfl⟩
    | reset =>
      right
      rw [Session.act]
      split
      next => exact Nat.le_refl _
      next m marks hmarks =>
        rw [hmarks]
        exact Nat.le_succ _

namespace OpenMark

theorem succ (h : s.OpenMark actions n k) (hlt : s.openMarks actions k < s.openMarks actions (n + 1)) :
    s.OpenMark actions (n + 1) k := by
  refine ⟨Nat.lt_succ_of_lt h.lt, h.set, ?_⟩
  intro m hkm hmn
  rcases Nat.le_succ_iff.mp hmn with hmn | rfl
  · exact h.kept m hkm hmn
  · exact hlt

/-- Behind each number of open marks stands one of them. -/
theorem exists_of_lt {d : Nat} (hd : d < s.openMarks actions n) :
    ∃ k, s.OpenMark actions n k ∧ s.openMarks actions k = d := by
  induction n with
  | zero => cases hd
  | succ n ih =>
    by_cases hlt : d < s.openMarks actions n
    · obtain ⟨k, hk, rfl⟩ := ih hlt
      exact ⟨k, hk.succ hd, rfl⟩
    · rcases s.openMarks_succ actions n with ⟨hset, hmarks⟩ | hle
      · have he : s.openMarks actions n = d := by omega
        refine ⟨n, ⟨Nat.lt_succ_self n, hset, ?_⟩, he⟩
        intro m hnm hmn
        have hm : m = n + 1 := by omega
        subst m
        omega
      · omega

end OpenMark

/-- A reset makes everything as it was before the latest mark that has not been reset. -/
theorem after_reset (hreset : actions[n]? = some .reset) (hmarks : (s.after actions n).marks ≠ []) :
    ∃ k, s.OpenMark actions n k ∧ (∀ j, s.OpenMark actions n j → j ≤ k) ∧
      s.after actions (n + 1) = s.after actions k := by
  have hpos : 0 < s.openMarks actions n := List.length_pos_of_ne_nil hmarks
  obtain ⟨k, hk, hcount⟩ := OpenMark.exists_of_lt (show s.openMarks actions n - 1 < s.openMarks actions n by omega)
  refine ⟨k, hk, ?_, ?_⟩
  · -- a later mark would make one more than there are
    intro j hj
    by_contra hkj
    have hset := hk.kept j (by omega) (Nat.le_of_lt hj.lt)
    have hopen := hj.kept n hj.lt (Nat.le_refl n)
    omega
  · have hnext : s.after actions (k + 1) = (s.after actions k).act .mark := after_succ hk.set
    have hmark : s.openMarks actions (k + 1) = s.openMarks actions k + 1 := congrArg (·.marks.length) hnext
    obtain ⟨marks, hall, htrail⟩ := s.exists_trail actions (i := k + 1) hk.lt fun m hkm hmn => by
      have hopen := hk.kept m (by omega) hmn
      omega
    have hnone : marks = [] := by
      have hlength : s.openMarks actions n = marks.length + s.openMarks actions (k + 1) := by
        rw [openMarks, hall, List.length_append, openMarks]
      exact List.eq_nil_of_length_eq_zero (by omega)
    rw [hnext, hnone] at hall htrail
    rw [after_succ hreset, Session.act, hall]
    exact congrArg (Session.mk · _) htrail.onward.reset

/-- If each reset goes back to the latest mark that has not been reset, then at every point no register is held twice,
none was reserved when it was taken, and each reset makes everything exactly as it was before its mark, whatever was
taken, reserved and not found in between. -/
theorem sound_of_wellNested (hints : s.ints.regs.Nodup) (hfloats : s.floats.regs.Nodup)
    (hnested : s.WellNested actions) :
    (∀ n i j r, s.Holds actions n i r → s.Holds actions n j r → i = j) ∧
    (∀ n i r, s.Holds actions n i r → ¬ (s.after actions i).scratch.Reserved r) ∧
    ∀ n, actions[n]? = some .reset → ∃ k, s.OpenMark actions n k ∧ (∀ j, s.OpenMark actions n j → j ≤ k) ∧
      s.after actions (n + 1) = s.after actions k := by
  refine ⟨?_, ?_, ?_⟩
  · intro n i j r hi hj
    exact hi.unique hints hfloats hj
  · intro n i r h
    exact h.free
  · intro n hreset
    obtain ⟨hn, -⟩ := List.getElem?_eq_some_iff.mp hreset
    exact after_reset hreset (hnested n hn hreset)

/-- Of three registers one is reserved first. Between the two marks both pools are asked in vain, the float pool because
its only register has just been reserved. The second reset undoes all that, so that this register can be taken. -/
theorem sound_of_wellNested_scant : ∃ (s : Scratch) (actions : List Action),
    s.WellNested actions ∧ ((s.after actions 5).scratch.take .float).1 = .error (.scratchExhausted .float) ∧
    s.Holds actions 10 1 (.int .t1) ∧ s.Holds actions 10 9 (.float .ft0) ∧
    (∀ i, s.Holds actions 10 i (.float .ft0) → i = 9) ∧ ¬ (s.after actions 9).scratch.Reserved (.float .ft0) ∧
    ∃ k < 8, actions[k]? = some .mark ∧ s.after actions 9 = s.after actions k := by
  let s : Scratch := { ints := { regs := [.t0, .t1] }, floats := { regs := [.ft0] } }
  let actions : List Action :=
    [.reserve (.int .t0), .take .integer, .mark, .take .integer, .reserve (.float .ft0), .take .float, .mark, .reset,
      .reset, .take .float]
  have hnested : s.WellNested actions := by
    unfold WellNested
    decide
  have hint : s.Holds actions 10 1 (.int .t1) := by
    refine ⟨by decide, ⟨.integer, rfl, rfl⟩, ?_⟩
    intro k _ hk
    interval_cases k <;> decide
  have hfloat : s.Holds actions 10 9 (.float .ft0) := by
    refine ⟨by decide, ⟨.float, rfl, rfl⟩, ?_⟩
    intro k _ hk
    interval_cases k
    decide
  obtain ⟨hunique, hfree, hreset⟩ := sound_of_wellNested (s := s) (by decide) (by decide) hnested
  obtain ⟨k, hk, -, hback⟩ := hreset 8 rfl
  exact ⟨s, actions, hnested, rfl, hint, hfloat, fun i hi => hunique 10 i 9 _ hi hfloat, hfree 10 9 _ hfloat, k, hk.lt,
    hk.set, hback⟩

end Scratch
end Comparand
