import Comparand.Proofs.Correctness

/-! What a compiled program does depends on nothing that registers and memory hold before it starts, and it leaves all
memory outside its frame alone. -/
namespace Comparand

open Machine

theorem Machine.Exits.run_eq {r : Routine} {m m' : Machine} {c : Cost} (h : Exits r r.code m c m')
    (hr : (Routine.boundLabels r.code).Nodup) (hsteps : c.steps ≤ m.maxSteps - m.steps) :
    m.run r = (.ok m'.exit, m') := by
  have hrun := h.run (m.maxSteps - m.steps - c.steps)
  rw [Nat.add_sub_cancel' hsteps] at hrun
  rw [Machine.run, Routine.checkLabels_of_nodup hr]
  exact hrun

namespace Program

variable {p : Program} {r : Routine} {fold : Bool}

/-- A program that compiles has one exit code and one number of steps. On every machine with room for its frame and as
many steps left, whatever else registers and memory hold, it exits with this code after so many steps, and no byte
outside its frame changes. -/
theorem compile_isolated (h : p.compile { fold, lowering := .nanSafe } = .ok r) :
    ∃ code steps, steps ≤ r.length ∧
      ∀ m : Machine, (0 < r.frameSize → m.HasRoom r.frameSize) → steps ≤ m.maxSteps - m.steps →
        ∃ e m', m.run r = (.ok e, m') ∧ e.code = code ∧ e.steps = m.steps + steps ∧ Spares r.frameSize m m' := by
  obtain ⟨status, spent, -, hspent, hrun⟩ := compiled_run rfl h
  refine ⟨status, spent.steps, hspent.within, fun m hm hsteps => ?_⟩
  obtain ⟨m', hexits, hcode, hspares⟩ := hrun hm
  exact ⟨m'.exit, m', hexits.run_eq (boundLabels_nodup rfl h) hsteps, hcode, hexits.steps, hspares⟩

/-- A cell and variables of four and of eight bytes, set on one of two paths each and compared. -/
def patchwork : Program where
  package := none
  name := "main"
  body := [
    .define "p" (.new .float32), .var "f" .float32 none, .var "d" .float64 none, .define "n" (.literal (.int 3)),
    .cond (.compare .ge (.name "f") (.deref "p"))
      [.store "p" (.literal (.float .nan))] (some [.assign "f" (.literal (.int 1))]),
    .cond (.not (.compare .lt (.deref "p") (.name "f"))) [.define "c" (.name "d"), .inc "n"] none,
    .exit (.name "n")]

/-- A machine in the middle of its stack that has run before and left something everywhere. -/
def littered : Machine where
  ints := (Vector.replicate 32 0xdeadbeefdeadbeef).set 2 0x7ffff000 (IntReg.index_lt .sp)
  floats := Vector.replicate 32 0x7ff0000000000001
  memory := ({ size := 65536 } : Memory).write 0x7fffefd0 64 (256 ^ 64 - 1)
  fflags := 0xff
  steps := 7
  maxSteps := 100

theorem compile_isolated_littered :
    ∃ r, patchwork.compile { fold := false, lowering := .nanSafe } = .ok r ∧ r.frameSize = 48 ∧ r.length ≤ 93 ∧
      (fresh 4096 93).HasRoom 48 ∧ littered.HasRoom 48 ∧
      ∃ e e' m m', (fresh 4096 93).run r = (.ok e, m) ∧ littered.run r = (.ok e', m') ∧ e'.code = e.code ∧
        e'.steps = 7 + e.steps ∧ Spares 48 (fresh 4096 93) m ∧ Spares 48 littered m' := by
  have hcompile : ((patchwork.compile { fold := false, lowering := .nanSafe }).map fun r =>
      (r.frameSize, decide (r.length ≤ 93))) = .ok (48, true) := by decide +kernel
  obtain ⟨r, hr, hsizes⟩ := ok_of_map hcompile
  obtain ⟨hframe, hlength⟩ := Prod.mk.inj hsizes
  have hlength : r.length ≤ 93 := of_decide_eq_true hlength
  have hroom : (fresh 4096 93).HasRoom 48 := fresh_hasRoom (by decide) (by decide)
  have hroom' : littered.HasRoom 48 := ⟨by decide, by decide, by decide⟩
  obtain ⟨code, steps, hsteps, hrun⟩ := compile_isolated hr
  rw [hframe] at hrun
  obtain ⟨e, m, he, hcode, hcount, hspares⟩ := hrun (fresh 4096 93) (fun _ => hroom) (Nat.le_trans hsteps hlength)
  obtain ⟨e', m', he', hcode', hcount', hspares'⟩ := hrun littered (fun _ => hroom') (Nat.le_trans hsteps hlength)
  refine ⟨r, hr, hframe, hlength, hroom, hroom', e, e', m, m', he, he', hcode'.trans hcode.symm, ?_, hspares, hspares'⟩
  rw [hcount', hcount]
  exact congrArg (7 + ·) (Nat.zero_add steps).symm

end Program
end Comparand
