import Comparand.Command.Action
import Comparand.Proofs.Correctness

/-! The way of a status from the program to the process. The machine keeps the low 32 bits of what a program exits with,
so a program whose status no process can have may end the process as another one would. -/
namespace Comparand

/-- The status that a process should have for a program that exits with a number. -/
def Output.statusFor (n : Int) : Int := if 0 ≤ n ∧ n ≤ 255 then n else failureStatus.toNat

theorem low_of_byte {v : Int64} (h : 0 ≤ v.toInt ∧ v.toInt ≤ 255) : v.toInt32.toInt = v.toInt := by
  rw [Int64.toInt_toInt32, Int.bmod_def]
  omega

/-- The low bits stand for the whole exactly if they are the whole, or no status of a process, or the status of a
failure. -/
theorem Output.statusFor_low (v : Int64) : statusFor v.toInt32.toInt = statusFor v.toInt ↔
    v.toInt32.toInt = v.toInt ∨ ¬(0 ≤ v.toInt32.toInt ∧ v.toInt32.toInt ≤ 255) ∨ v.toInt32.toInt = 125 := by
  have hfailure : (failureStatus.toNat : Int) = 125 := rfl
  by_cases hv : 0 ≤ v.toInt ∧ v.toInt ≤ 255
  · simp [low_of_byte hv]
  · unfold statusFor
    rw [if_neg hv, hfailure]
    split <;> omega

theorem Outcome.code_ofCode (c : Int32) : (ofCode c).code = c := by
  unfold ofCode
  split
  · simp_all [code]
  · split
    · simp_all [code]
    · split <;> simp_all [code]

namespace Program

variable {p : Program} {o : CompileOptions} {r : Routine} {limits : Limits} {e : Exit} {done : Completion}

/-- A run that ends does so with the status of the program. -/
theorem code_of_run (ho : o.lowering = .nanSafe) (h : p.compile o = .ok r)
    (hdone : Stmt.evalList p.body [] [] = some done) (hstack : 2048 ≤ limits.stackSize)
    (htop : limits.stackSize ≤ stackTop) (hrun : r.run limits = .ok e) : e.code = done.status := by
  obtain ⟨status, spent, hmeaning, -, hexits⟩ := compiled_exits ho h
  obtain ⟨m, hexits, hcode⟩ := hexits (fresh_hasRoom (Nat.le_trans (frameSize_le ho h) hstack) htop)
  obtain ⟨rfl, -⟩ := (Routine.run_eq_ok_iff (boundLabels_nodup ho h) hexits).mp hrun
  rw [meaning?, hdone, Option.map_some] at hmeaning
  rw [hcode, Option.some.inj hmeaning]

end Program

section Execution

variable {source : String} {p : Program} {o : CompileOptions} {r : Routine} {limits : Limits} {e : Exit}

theorem execute_eq_ok (hparse : Program.parse source = .ok p) (hcompile : p.compile o = .ok r)
    (hrun : r.run limits = .ok e) : execute source o limits = .ok e := by
  have hsource : compileSource source o = .ok r := by
    refine bind_ok (a := p) (by rw [hparse]; rfl) ?_
    rw [hcompile]
    rfl
  refine bind_ok hsource ?_
  rw [hrun]
  rfl

theorem passed_iff {path : String} {report : Report} (hexecute : execute source o {} = .ok e)
    (h : Report.ofSource o path source = .ok report) : report.passed = true ↔ e.code.toInt = report.expected := by
  unfold Report.ofSource at h
  split at h
  · cases h
  · cases h
    simp [Report.passed, verdict, hexecute, Except.map, Except.mapError, Outcome.code_ofCode]

end Execution

namespace Command

variable {m : Type → Type} [Monad m] [LawfulMonad m] {fs : Files m} {input source : String} {colors fold : Bool}
  {p : Program} {r : Routine} {e : Exit} {v : Int64}

theorem perform_run_eq {maxSteps : Nat} (hread : fs.read input = pure (.ok source))
    (hexecute : execute source (options fold) { maxSteps } = .ok e) :
    perform fs colors (.run input fold maxSteps) = pure (exitOutput colors input e) := by
  simp [perform, hread, hexecute]

/-- Codes that a process can have are its status. -/
theorem exitOutput_of_byte (path : String) (h : 0 ≤ e.code.toInt ∧ e.code.toInt ≤ 255) :
    ((exitOutput colors path e).status.toNat : Int) = e.code.toInt ∧ (exitOutput colors path e).stderr = "" := by
  simp only [exitOutput, if_pos h, UInt8.toNat_ofNat', and_true]
  omega

theorem exitOutput_of_not_byte (path : String) (h : ¬(0 ≤ e.code.toInt ∧ e.code.toInt ≤ 255)) :
    exitOutput colors path e = .failure (path ++ " exited with " ++ toString e.code.toInt ++
      ", which is not a process status (0..=255)") := by
  simp only [exitOutput, if_neg h]

theorem status_exitOutput (path : String) (e : Exit) :
    ((exitOutput colors path e).status.toNat : Int) = Output.statusFor e.code.toInt := by
  unfold Output.statusFor
  split
  next h => exact (exitOutput_of_byte path h).1
  next h => rw [exitOutput_of_not_byte path h, Output.failure]

/-- How a program that exits with `v` ends the process, and whether it passes. It does so as the whole of `v` demands
exactly if the low 32 bits of `v` stand for the whole. -/
theorem perform_run_exited (path : String) (hread : fs.read input = pure (.ok source))
    (hparse : Program.parse source = .ok p) (hcompile : p.compile (options fold) = .ok r) (hrun : r.run {} = .ok e)
    (hexited : Stmt.evalList p.body [] [] = some (.exited v)) :
    (∃ out, perform fs colors (.run input fold ({} : Limits).maxSteps) = pure out ∧
      (out.status.toNat : Int) = Output.statusFor v.toInt32.toInt ∧
      (out.stderr = "" ↔ 0 ≤ v.toInt32.toInt ∧ v.toInt32.toInt ≤ 255) ∧
      ((out.status.toNat : Int) = Output.statusFor v.toInt ↔ v.toInt32.toInt = v.toInt ∨
        ¬(0 ≤ v.toInt32.toInt ∧ v.toInt32.toInt ≤ 255) ∨ v.toInt32.toInt = 125)) ∧
    ∀ report, Report.ofSource (options fold) path source = .ok report →
      (report.passed = true ↔ v.toInt32.toInt = report.expected) ∧
      ((report.passed = true → v.toInt = report.expected) ↔
        (v.toInt32.toInt = report.expected → v.toInt32.toInt = v.toInt)) := by
  have hcode : e.code = v.toInt32 := Program.code_of_run rfl hcompile hexited (by decide) (by decide) hrun
  have hexecute : execute source (options fold) {} = .ok e := execute_eq_ok hparse hcompile hrun
  constructor
  · refine ⟨_, perform_run_eq hread hexecute, ?_, ?_, ?_⟩
    · rw [status_exitOutput, hcode]
    · rw [← hcode]
      by_cases h : 0 ≤ e.code.toInt ∧ e.code.toInt ≤ 255
      · exact iff_of_true (exitOutput_of_byte input h).2 h
      · rw [exitOutput_of_not_byte input h]
        exact iff_of_false (by simp [Output.failure]) h
    · rw [status_exitOutput, hcode, Output.statusFor_low]
  · intro report hreport
    have hpassed := passed_iff hexecute hreport
    rw [hcode] at hpassed
    refine ⟨hpassed, ?_⟩
    rw [hpassed]
    constructor
    · intro h hlow
      rw [h hlow, hlow]
    · intro h hlow
      rw [← h hlow, hlow]

/-- Files that all hold one text. -/
def holding (text : String) : Files Id where
  read _ := .ok text
  write _ _ := .ok ()
  walk path := [.file path]

/-- A status one beyond those of processes, which is reached by counting. -/
def beyond : String := "// want: 256\nfunc main() \x7b\n\tn := 255\n\tn++\n\triscvexit(n)\n\x7d\n"

/-- The process fails, and the program passes. -/
theorem perform_run_exited_beyond :
    (∃ out, perform (holding beyond) false (.run "p.rv" true ({} : Limits).maxSteps) = pure out ∧ out.status = 125) ∧
    ∃ report, Report.ofSource (options true) "p.rv" beyond = .ok report ∧ report.passed = true := by
  have hrun : (Program.parse beyond).toOption.any (fun p => (p.compile (options true)).toOption.any fun r =>
      (r.run {}).toOption.any fun _ => Stmt.evalList p.body [] [] = some (.exited 256)) = true := by decide +kernel
  obtain ⟨p, hparse, hrun⟩ := ok_of_any hrun
  obtain ⟨r, hcompile, hrun⟩ := ok_of_any hrun
  obtain ⟨e, hrun, hexited⟩ := ok_of_any hrun
  have hexited := of_decide_eq_true hexited
  have hexpected : (Report.ofSource (options true) "p.rv" beyond).toOption.any (·.expected = 256) = true := by
    decide +kernel
  obtain ⟨report, hreport, hexpected⟩ := ok_of_any hexpected
  obtain ⟨⟨out, hout, hstatus, -, -⟩, hpassed⟩ :=
    @perform_run_exited Id _ _ (holding beyond) "p.rv" beyond false true p r e 256 "p.rv" rfl hparse hcompile hrun
      hexited
  refine ⟨⟨out, hout, UInt8.toNat_inj.mp (Int.ofNat.inj hstatus)⟩, report, hreport, (hpassed report hreport).1.mpr ?_⟩
  exact (of_decide_eq_true hexpected).symm

/-- A status whose low bits are all 0. -/
def wrapped : String := "// want: 0\nfunc main() \x7b\n\triscvexit(4294967296)\n\x7d\n"

/-- The process ends as if all were well, and the program passes. -/
theorem perform_run_wrapped :
    (∃ p, Program.parse wrapped = .ok p ∧ Stmt.evalList p.body [] [] = some (.exited 4294967296)) ∧
    (Id.run (perform (holding wrapped) false (.run "p.rv" true ({} : Limits).maxSteps))).status = 0 ∧
    ∃ report, Report.ofSource (options true) "p.rv" wrapped = .ok report ∧ report.expected = 0 ∧
      report.passed = true := by
  have hexited : (Program.parse wrapped).toOption.any
      (fun p => Stmt.evalList p.body [] [] = some (.exited 4294967296)) = true := by decide +kernel
  have hpassed : (Report.ofSource (options true) "p.rv" wrapped).toOption.any
      (fun report => report.expected = 0 ∧ report.passed = true) = true := by decide +kernel
  obtain ⟨p, hparse, hexited⟩ := ok_of_any hexited
  obtain ⟨report, hreport, hpassed⟩ := ok_of_any hpassed
  exact ⟨⟨p, hparse, of_decide_eq_true hexited⟩, by decide +kernel, report, hreport, of_decide_eq_true hpassed⟩

end Command
end Comparand
