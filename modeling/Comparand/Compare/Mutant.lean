import Comparand.Compare.Lowering

/-!
Lowerings with a planted fault in `>`. A suite of programs is good if it tells each of them from the right one.
-/

namespace Comparand.Lowering

/-- Forgets to exchange the operands. -/
def unswappedGreater : Lowering := fun r lhs rhs dest s =>
  Relation.lower (if r = .gt then .lt else r) lhs rhs dest s

/-- Branches on the negation of `<=`, which is wrong for unordered operands. -/
def negatedGreater : Lowering := fun r lhs rhs dest s =>
  match r, dest with
  | .gt, .branch yes no => Relation.lower .le lhs rhs (.branch no yes) s
  | _, _ => Relation.lower r lhs rhs dest s

/-- Inserts code right after the first float comparison. -/
def insertAfterCompare (extra : List Instr) : List Instr → List Instr
  | [] => []
  | i :: code => if i.isFloatCompare then i :: extra ++ code else i :: insertAfterCompare extra code

/-- Answers rightly, and then overwrites the left operand with the right one. -/
def clobberOnGreater : Lowering := fun r lhs rhs dest s =>
  match Relation.lower r lhs rhs dest s with
  | (.ok lowered, s) =>
    if r = .gt then
      match lhs.place, rhs.place with
      | .slot slot, .constant v =>
        let extra : List Instr := [.li .t6 (lhs.width.immediate v), .sd .t6 .sp slot.offset]
        (.ok { lowered with code := insertAfterCompare extra lowered.code }, s)
      | _, _ => (.error (.invalidOperand "clobbering needs a slot and an immediate"), s)
    else (.ok lowered, s)
  | failed => failed

/-- The lowerings by name. -/
def ofName? : String → Option Lowering
  | "nan-safe" => some nanSafe
  | "unswapped-greater" => some unswappedGreater
  | "negated-greater" => some negatedGreater
  | "clobber-on-greater" => some clobberOnGreater
  | _ => none

end Comparand.Lowering
