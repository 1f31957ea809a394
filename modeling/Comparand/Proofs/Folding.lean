import Comparand.Proofs.Correctness

/-! Deciding tests beforehand keeps what programs do, and never makes them slower or raises more flags. -/
namespace Comparand

open Machine

theorem Cost.AtMost.flags {a b : Cost} (h : a.AtMost b) : a.flags 0 &&& b.flags 0 = a.flags 0 := by
  have hinvalid := h.2
  unfold Cost.flags
  cases ha : a.invalid with
  | false => simp
  | true =>
    rw [if_pos (hinvalid ha)]
    rfl

namespace Program

variable {p : Program} {o o' : CompileOptions} {r r' : Routine}

/-- Folding may leave out declarations, and makes no others. -/
theorem frameSize_le_of_not_fold (ho : o.lowering = .nanSafe) (h : p.compile o = .ok r) (ho' : o'.lowering = .nanSafe)
    (hfold : o'.fold = false) (h' : p.compile o' = .ok r') : r.frameSize ≤ r'.frameSize := by
  obtain ⟨code, g, hcode, rfl⟩ := compile_eq_ok.mp h
  obtain ⟨code', g', hcode', rfl⟩ := compile_eq_ok.mp h'
  apply Frame.size_mono
  rw [(Stmt.genList_advances ho' p.body hcode').frame_eq hfold]
  exact (Stmt.genList_advances ho p.body hcode).le_frame

theorem cost_mono (p : Program) {size size' : Nat} (h : size ≤ size') : (p.cost size).AtMost (p.cost size') := by
  refine Cost.AtMost.add ⟨?_, id⟩ (.refl _)
  unfold prologue
  by_cases hzero : size = 0
  · rw [if_pos hzero]
    exact Nat.zero_le _
  · rw [if_neg hzero, if_neg (by omega)]
    exact Nat.le_refl 1

/-- Folding keeps exit codes and adds neither steps nor flags. -/
theorem fold_sound (h : p.compile { fold := false, lowering := .nanSafe } = .ok r) :
    ∃ r', p.compile { fold := true, lowering := .nanSafe } = .ok r' ∧
      ∀ limits : Limits, 2048 ≤ limits.stackSize → limits.stackSize ≤ stackTop → ∀ e, r.run limits = .ok e →
        ∃ e', r'.run limits = .ok e' ∧ e'.code = e.code ∧ e'.steps ≤ e.steps ∧ e'.fflags &&& e.fflags = e'.fflags := by
  have hwell := wellFormed_of_compile rfl rfl h
  obtain ⟨r', h'⟩ := compile_of_wellFormed (o := { fold := true, lowering := .nanSafe }) rfl hwell
  refine ⟨r', h', fun limits hstack htop e he => ?_⟩
  obtain ⟨status, spent, hmeaning, hspent, hrun⟩ := compiled_exits rfl h
  obtain ⟨status', spent', hmeaning', hspent', hrun'⟩ := compiled_exits rfl h'
  obtain ⟨m, hexits, rfl⟩ := hrun (fresh_hasRoom (Nat.le_trans (frameSize_le rfl h) hstack) htop)
  obtain ⟨m', hexits', rfl⟩ := hrun' (fresh_hasRoom (Nat.le_trans (frameSize_le rfl h') hstack) htop)
  -- what the unfolded run costs is known exactly, so that the bound of the folded one applies to it
  have hcost : spent'.AtMost spent := by
    rw [hspent.exact_of_not_fold rfl]
    exact hspent'.atMost.trans (p.cost_mono (frameSize_le_of_not_fold rfl h' rfl rfl h))
  obtain ⟨rfl, hsteps⟩ := (Routine.run_eq_ok_iff (boundLabels_nodup rfl h) hexits).mp he
  refine ⟨m'.exit, (Routine.run_eq_ok_iff (boundLabels_nodup rfl h') hexits').mpr ⟨rfl, Nat.le_trans hcost.1 hsteps⟩,
    Option.some.inj (hmeaning'.symm.trans hmeaning), ?_, ?_⟩
  · change m'.steps ≤ m.steps
    rw [hexits.steps, hexits'.steps]
    exact Nat.add_le_add_left hcost.1 _
  · change m'.fflags &&& m.fflags = m'.fflags
    rw [hexits.flags, hexits'.flags]
    exact hcost.flags

/-- A NaN is compared, which raises the invalid flag unless the test is decided beforehand. -/
def unordered : Program where
  package := none
  name := "main"
  body := [
    .var "x" .float64 (some (.literal (.float .nan))),
    .cond (.compare .lt (.name "x") (.literal (.int 1))) [.exit (.literal (.int 1))] none]

theorem fold_sound_unordered :
    ∃ r r' e', unordered.compile { fold := false, lowering := .nanSafe } = .ok r ∧
      unordered.compile { fold := true, lowering := .nanSafe } = .ok r' ∧ r.run {} = .ok ⟨0, 13, invalidFlag⟩ ∧
      r'.run {} = .ok e' ∧ e'.code = 0 ∧ e'.steps ≤ 13 ∧ e'.fflags &&& invalidFlag = e'.fflags := by
  have hexit : ((unordered.compile { fold := false, lowering := .nanSafe }).toOption.bind fun r =>
      (r.run {}).toOption) = some ⟨0, 13, invalidFlag⟩ := by decide
  cases h : unordered.compile { fold := false, lowering := .nanSafe } with
  | error e =>
    rw [h] at hexit
    cases hexit
  | ok r =>
    rw [h] at hexit
    have hrun : r.run {} = .ok ⟨0, 13, invalidFlag⟩ := by
      cases hrun : r.run {} with
      | error fault => simp [Except.toOption, hrun] at hexit
      | ok e => simpa [Except.toOption, hrun] using hexit
    obtain ⟨r', h', hsound⟩ := fold_sound h
    obtain ⟨e', hrun', hfold⟩ := hsound {} (by decide) (by decide) _ hrun
    exact ⟨r, r', e', rfl, h', hrun, hrun', hfold⟩

end Program
end Comparand
