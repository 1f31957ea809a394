import Comparand.Proofs.Codegen
import Comparand.Proofs.Execution

/-! Code generation only adds: slots to the frame, names to the current scope, and labels that no other code binds. -/
namespace Comparand

open Routine (boundLabels boundLabels_append)

namespace Stmt

mutual

/-- The number of declarations in a statement, in branches that may not be taken too. -/
def declarations : Stmt → Nat
  | .define .. | .var .. => 1
  | .cond _ body none => declarationsList body
  | .cond _ body (some otherwise) => declarationsList body + declarationsList otherwise
  | _ => 0

def declarationsList : List Stmt → Nat
  | [] => 0
  | s :: ss => s.declarations + declarationsList ss

end

end Stmt

/-- Frames consist of whole slots, all of which instructions can reach. -/
structure Frame.Sound (f : Frame) : Prop where
  aligned : f.next % 8 = 0
  reachable : f.next ≤ 2048

/-- How a piece of code generation with `n` declarations moves the state. -/
structure GenState.Advances (o : CompileOptions) (n : Nat) (g : GenState) (code : List Instr) (g' : GenState) :
    Prop where
  frame_le : g.frame.next ≤ g'.frame.next
  le_frame : g'.frame.next ≤ g.frame.next + 8 * n
  frame_eq : o.fold = false → g'.frame.next = g.frame.next + 8 * n
  sound : g.frame.Sound → g'.frame.Sound
  enclosing : g'.scopes.enclosing = g.scopes.enclosing
  hints_le : g.hints.length ≤ g'.hints.length
  labels : ∀ l ∈ boundLabels code, g.hints.length ≤ l.index ∧ l.index < g'.hints.length
  nodup : (boundLabels code).Nodup

/-- All successes of a piece of code generation move the state so. -/
def Gen.Advances (o : CompileOptions) (n : Nat) (a : Gen) : Prop :=
  ∀ ⦃g code g'⦄, a g = .ok (code, g') → g.Advances o n code g'

namespace GenState

variable {o : CompileOptions} {n k : Nat} {g g₁ g' : GenState} {code more : List Instr}

theorem Declares.advances {x : String} {symbol : Symbol} {known : Knowledge} (h : g.Declares x symbol known g')
    (hcode : code.all (!·.isLabel) = true) : g.Advances o 1 code g' := by
  obtain ⟨-, hslot, rfl⟩ := h
  have hrange := symbol.slot.inRange
  refine ⟨by simp, by simp, fun _ => rfl, fun hs => ?_, rfl, Nat.le_refl _, ?_, ?_⟩
  · have := hs.aligned
    constructor <;> simp only <;> omega
  all_goals simp [hcode]

theorem Advances.known (known : Knowledge) (hcode : code.all (!·.isLabel) = true) :
    g.Advances o 0 code { g with known } := by
  refine ⟨Nat.le_refl _, Nat.le_refl _, fun _ => rfl, id, rfl, Nat.le_refl _, ?_, ?_⟩ <;> simp [hcode]

theorem Advances.append (h : g.Advances o n code g₁) (h' : g₁.Advances o k more g') :
    g.Advances o (n + k) (code ++ more) g' where
  frame_le := Nat.le_trans h.frame_le h'.frame_le
  le_frame := by
    have := h.le_frame
    have := h'.le_frame
    omega
  frame_eq hfold := by
    have := h.frame_eq hfold
    have := h'.frame_eq hfold
    omega
  sound hs := h'.sound (h.sound hs)
  enclosing := h'.enclosing.trans h.enclosing
  hints_le := Nat.le_trans h.hints_le h'.hints_le
  labels l hl := by
    rw [boundLabels_append, List.mem_append] at hl
    have := h.hints_le
    have := h'.hints_le
    rcases hl with hl | hl
    · have := h.labels l hl
      omega
    · have := h'.labels l hl
      omega
  nodup := by
    rw [boundLabels_append, List.nodup_append]
    refine ⟨h.nodup, h'.nodup, ?_⟩
    rintro l hl _ hl' rfl
    have := h.labels l hl
    have := h'.labels l hl'
    omega

/-- After a block the names are those from before it. -/
theorem Advances.pop (h : { g with scopes := g.scopes.push }.Advances o n code g₁) : g₁.scopes.pop = g.scopes := by
  have := h.enclosing
  simp only [Scopes.push] at this
  rw [Scopes.pop, this]

theorem Advances.inScope (h : { g with scopes := g.scopes.push }.Advances o n code g₁) :
    g.Advances o n code { g₁ with scopes := g₁.scopes.pop } :=
  ⟨h.frame_le, h.le_frame, h.frame_eq, h.sound, by rw [h.pop], h.hints_le, h.labels, h.nodup⟩

end GenState

theorem storeCode_labels {k : Knowledge} {ty : Scalar} {target : Slot} {v : Value} {code : List Instr}
    {kept : Option Constant} (h : storeCode k ty target v = .ok (code, kept)) : code.all (!·.isLabel) = true := by
  rcases v with (v | v) | ⟨sourceTy, source⟩
  case constant.int =>
    cases ty <;> cases h
    · split <;> rfl
    all_goals rfl
  case constant.float => cases ty <;> cases h <;> rfl
  case slot =>
    by_cases hty : sourceTy = ty
    · subst hty
      cases sourceTy <;>
      · simp only [storeCode, Scalar.width?, ne_eq, not_true_eq_false, if_false] at h
        cases h
        rfl
    · cases ty <;> simp [storeCode, Scalar.width?, hty] at h

theorem exitCode_labels {v : Value} {code : List Instr} (h : exitCode v = .ok code) :
    code.all (!·.isLabel) = true := by
  rcases v with (v | v) | ⟨ty, s⟩
  case slot =>
    cases ty <;> cases h
    rfl
  case constant.int =>
    cases h
    rfl
  case constant.float => cases h

theorem Expr.testCode_labels {e : Expr} {scopes : Scopes} {yes no : Label} {code : List Instr}
    (h : e.testCode .nanSafe scopes yes no = .ok code) : code.all (!·.isLabel) = true := by
  induction e generalizing yes no with
  | paren e ih => exact ih h
  | not e ih => exact ih h
  | compare op lhs rhs =>
    obtain ⟨c, -, h⟩ := ok_of_bind h
    obtain ⟨code', hcode, hlabels⟩ := c.code_ok op yes no
    cases (ok_of_mapError h).symm.trans hcode
    exact hlabels
  | _ => cases h

namespace Stmt

variable {o : CompileOptions} {n k : Nat} {test : Expr} {body elseBody : Gen} {g g' : GenState} {code : List Instr}

/-- A branch that is decided beforehand may leave out declarations of the other one. -/
theorem advances_of_foreseen {b : Bool} (h : foreseen o test g = .ok (some b)) (hg : g.Advances o n code g')
    (hn : n ≤ k) : g.Advances o k code g' := by
  have hfold : o.fold = true := by
    cases hfold : o.fold with
    | true => rfl
    | false => simp [foreseen, hfold] at h
  have := hg.le_frame
  exact { hg with
    le_frame := by omega
    frame_eq := by simp [hfold] }

theorem inScope_advances (ha : body.Advances o n) : body.inScope.Advances o n := by
  intro g code g' h
  obtain ⟨g₁, hbody, rfl⟩ := Gen.inScope_eq_ok.mp h
  exact (ha hbody).inScope

theorem condGen_advances_none (ho : o.lowering = .nanSafe) (hbody : body.Advances o n) :
    (condGen o test body none).Advances o n := by
  intro g code g' h
  cases condGen_eq_ok.mp h with
  | @decided b _ _ _ hb hcode =>
    cases b with
    | true => exact inScope_advances hbody hcode
    | false =>
      cases hcode
      exact advances_of_foreseen hb (.known g.known rfl) (Nat.zero_le _)
  | @short testCode bodyCode after hopen htest hcode =>
    rw [ho] at htest
    have htest := Expr.testCode_labels htest
    have hafter := inScope_advances hbody hcode
    have hlabels := hafter.labels
    have hle := hafter.hints_le
    simp only [GenState.labelled, List.length_append, List.length_singleton] at hlabels hle
    refine ⟨hafter.frame_le, hafter.le_frame, hafter.frame_eq, hafter.sound, hafter.enclosing, ?_, ?_, ?_⟩
    · simp only
      omega
    all_goals
      simp only [boundLabels_append, Routine.boundLabels_of_all htest, Routine.boundLabels_label,
        GenState.nextLabel, GenState.labelled, List.length_append, List.length_singleton]
    · simp only [List.mem_append, List.mem_cons]
      grind [Routine.boundLabels]
    · have hnodup := hafter.nodup
      simp only [List.nodup_append, List.nodup_cons]
      grind [Routine.boundLabels]

theorem condGen_advances_some (ho : o.lowering = .nanSafe) (hbody : body.Advances o n)
    (helse : elseBody.Advances o k) : (condGen o test body (some elseBody)).Advances o (n + k) := by
  intro g code g' h
  cases condGen_eq_ok.mp h with
  | @decided b _ _ _ hb hcode =>
    cases b with
    | true => exact advances_of_foreseen hb (inScope_advances hbody hcode) (Nat.le_add_right ..)
    | false => exact advances_of_foreseen hb (inScope_advances helse hcode) (Nat.le_add_left ..)
  | @long testCode bodyCode after _ elseCode last hopen htest hbodyCode helseCode =>
    rw [ho] at htest
    have htest := Expr.testCode_labels htest
    have hafter := inScope_advances hbody hbodyCode
    have hlast := inScope_advances helse helseCode
    have hlabels := hafter.labels
    have hlabels' := hlast.labels
    have hle := hafter.hints_le
    have hle' := hlast.hints_le
    simp only [GenState.labelled, List.length_append, List.length_singleton] at hlabels hle hlabels' hle'
    refine ⟨Nat.le_trans hafter.frame_le hlast.frame_le, ?_, fun hfold => ?_, fun hs => hlast.sound (hafter.sound hs),
      hlast.enclosing.trans hafter.enclosing, ?_, ?_, ?_⟩
    · have := hafter.le_frame
      have := hlast.le_frame
      simp only [GenState.labelled] at *
      omega
    · have := hafter.frame_eq hfold
      have := hlast.frame_eq hfold
      simp only [GenState.labelled] at *
      omega
    · simp only
      omega
    all_goals
      simp only [boundLabels_append, Routine.boundLabels_of_all htest, Routine.boundLabels_label,
        GenState.nextLabel, GenState.labelled, List.length_append, List.length_singleton]
    · simp only [List.mem_append, List.mem_cons]
      grind [Routine.boundLabels]
    · have hnodup := hafter.nodup
      have hnodup' := hlast.nodup
      simp only [List.nodup_append, List.nodup_cons]
      grind [Routine.boundLabels]

mutual

theorem gen_advances (ho : o.lowering = .nanSafe) (s : Stmt) : (s.gen o).Advances o s.declarations := by
  cases s with
  | define x e =>
    intro g code g' h
    by_cases he : ∃ ty, e.unparen = .new ty
    · obtain ⟨ty, he⟩ := he
      obtain ⟨cell, rfl, hg⟩ := (defineGen_new he).mp h
      exact hg.advances rfl
    · obtain ⟨v, slot, kept, -, hcode, hg⟩ := (defineGen_value fun ty hty => he ⟨ty, hty⟩).mp h
      exact hg.advances (storeCode_labels hcode)
  | var x ty init =>
    intro g code g' h
    cases init with
    | none =>
      obtain ⟨slot, rfl, hg⟩ := varGen_none.mp h
      exact hg.advances rfl
    | some e =>
      obtain ⟨v, slot, kept, -, hcode, hg⟩ := varGen_some.mp h
      exact hg.advances (storeCode_labels hcode)
  | assign x e =>
    intro g code g' h
    obtain ⟨ty, slot, v, kept, -, -, hcode, rfl⟩ := assignGen_eq_ok.mp h
    exact .known _ (storeCode_labels hcode)
  | store x e =>
    intro g code g' h
    obtain ⟨ty, cell, v, kept, -, -, hcode, rfl⟩ := storeGen_eq_ok.mp h
    exact .known _ (storeCode_labels hcode)
  | inc x | dec x =>
    intro g code g' h
    obtain ⟨slot, -, rfl, rfl⟩ := stepGen_eq_ok.mp h
    exact .known _ rfl
  | exit e =>
    intro g code g' h
    obtain ⟨v, -, hcode, rfl⟩ := exitGen_eq_ok.mp h
    exact .known _ (exitCode_labels hcode)
  | cond test body otherwise =>
    cases otherwise with
    | none => exact condGen_advances_none ho (genList_advances ho body)
    | some otherwise => exact condGen_advances_some ho (genList_advances ho body) (genList_advances ho otherwise)

theorem genList_advances (ho : o.lowering = .nanSafe) (ss : List Stmt) :
    (genList o ss).Advances o (declarationsList ss) := by
  intro g code g' h
  cases ss with
  | nil =>
    cases h
    exact .known g.known rfl
  | cons s ss =>
    obtain ⟨first, g₁, second, hs, hss, rfl⟩ := Gen.andThen_eq_ok.mp h
    exact (gen_advances ho s hs).append (genList_advances ho ss hss)

end

end Stmt
end Comparand
