import Comparand.Proofs.Agreement
import Comparand.Proofs.Result

/-!
Which texts are programs. One that is holds the tokens of a concrete program and nothing else but layout, and what is
read is what that one stands for. A text that the grammar fits can only be wrong in an integer that is too large, and
the first of them is named.
-/
namespace Comparand

open Lexeme

namespace Program

variable {source : String} {p : Program} {ps : List Piece} {c : Cursor}

theorem fits_iff : fits source = true ↔ ∃ v, Reader.program source.toList = some v := by
  rw [fits]
  cases hread : Reader.program source.toList with
  | none => simp [walkProgram_of_none hread]
  | some v =>
    obtain ⟨ps, c, hwalk, -⟩ := walkProgram_of_some hread
    simp [hwalk]

/-- What was found is only wrong in its literals. -/
theorem build_of_walk (h : (Phrase.walkProgram source.toList).1 = some (ps, c)) :
    ∃ v : Checked Program, build ps = v.built := by
  cases hread : Reader.program source.toList with
  | none =>
    rw [walkProgram_of_none hread] at h
    cases h
  | some v =>
    obtain ⟨ps', c', hwalk, hbuild⟩ := walkProgram_of_some hread
    rw [hwalk] at h
    cases h
    exact ⟨v, hbuild⟩

/-- A text that fits holds the tokens of a concrete program, and is read as that one unless a literal is bad. -/
theorem parse_of_fits (h : fits source = true) : ∃ (p : Concrete.Program) (ss : List Sighting) (rest : List Char),
    Written ss source.toList rest ∧ ss.map Sighting.token = p.tokens ∧ Trailing rest ∧
      (firstBad false ss).isNone = p.fits ∧
      parse source = (judge p.ast (firstBad false ss)).mapError (BadLiteral.located source.toList) := by
  obtain ⟨v, hread⟩ := fits_iff.mp h
  obtain ⟨p, rest, ⟨ss, hwritten, htokens, -, hfits, rfl⟩, htrailing⟩ := Reader.taken_program hread
  exact ⟨p, ss, rest, hwritten, htokens, htrailing, hfits, parse_of_some hread⟩

theorem fits_of_parse (h : ∀ e, parse source ≠ .error (.ungrammatical e)) : fits source = true := by
  rw [fits_iff]
  cases hread : Reader.program source.toList with
  | none => exact absurd (parse_of_none hread) (h _)
  | some v => exact ⟨v, rfl⟩

/-- Nothing is made up and nothing is passed over. A text that is read as a program holds the tokens of a concrete
program that stands for it, in order, and besides them only layout: before, between and behind them. A comment may be
open at the end of the text. -/
theorem parse_sound (h : parse source = .ok p) :
    ∃ (q : Concrete.Program) (ss : List Sighting) (rest : List Char), Written ss source.toList rest ∧
      ss.map Sighting.token = q.tokens ∧ Trailing rest ∧ q.fits = true ∧ q.ast = p := by
  have hfits : fits source = true := fits_of_parse fun e he => by rw [h] at he; cases he
  obtain ⟨q, ss, rest, hwritten, htokens, htrailing, hq, hparse⟩ := parse_of_fits hfits
  refine ⟨q, ss, rest, hwritten, htokens, htrailing, ?_⟩
  rw [h] at hparse
  cases hbad : firstBad false ss with
  | none =>
    rw [hbad] at hq hparse
    cases hparse
    exact ⟨hq.symm, rfl⟩
  | some bad =>
    rw [hbad] at hparse
    cases hparse

/-- There is layout only where it is needed, comments end with different ends of lines, and the last one has none. -/
def cramped : String :=
  "package m//else\rfunc f()\x7bx:=-9223372036854775808 x--;if!(x)==1e5\x7b\x7delse if//\n-1<x\x7b\x7d\x7d// func"

theorem parse_sound_cramped : ∃ p, parse cramped = .ok p ∧ p.body.length = 3 ∧
    ∃ (q : Concrete.Program) (ss : List Sighting) (rest : List Char), Written ss cramped.toList rest ∧
      ss.map Sighting.token = q.tokens ∧ Trailing rest ∧ q.fits = true ∧ q.ast = p := by
  have hparse : (parse cramped).toOption.any (fun p => p.body.length = 3) = true := by decide +kernel
  obtain ⟨p, hparse, hlength⟩ := ok_of_any hparse
  exact ⟨p, hparse, of_decide_eq_true hlength, parse_sound hparse⟩

/-- The grammar and the builder agree. A text fits the grammar exactly if it is not called ungrammatical; pieces that
were found are never of a wrong rule and never lack the function. A text that fits holds the tokens of a concrete
program, and is read as that one unless a literal is bad: then the first bad one is reported, with its place. -/
theorem parse_grammatical (source : String) :
    (fits source = true ↔ ∀ e, parse source ≠ .error (.ungrammatical e)) ∧
    (∀ ps c, (Phrase.walkProgram source.toList).1 = some (ps, c) →
      (∀ r ahead, build ps ≠ .error (.unexpectedRule r ahead)) ∧ build ps ≠ .error .missingFunction) ∧
    (fits source = true → ∃ (q : Concrete.Program) (ss : List Sighting) (rest : List Char),
      Written ss source.toList rest ∧ ss.map Sighting.token = q.tokens ∧ Trailing rest ∧
      (q.fits = true ↔ firstBad false ss = none) ∧
      parse source = match firstBad false ss with
        | none => .ok q.ast
        | some bad => .error (bad.located source.toList)) := by
  refine ⟨⟨fun hfits e he => ?_, fits_of_parse⟩, fun ps c hwalk => ?_, fun hfits => ?_⟩
  · obtain ⟨q, ss, -, -, -, -, -, hparse⟩ := parse_of_fits hfits
    rw [he] at hparse
    cases hbad : firstBad false ss <;> rw [hbad] at hparse <;> cases hparse
  · obtain ⟨v, hbuild⟩ := build_of_walk hwalk
    rw [hbuild]
    cases v with
    | ok p => exact ⟨nofun, nofun⟩
    | error bad => exact ⟨nofun, nofun⟩
  · obtain ⟨q, ss, rest, hwritten, htokens, htrailing, hq, hparse⟩ := parse_of_fits hfits
    refine ⟨q, ss, rest, hwritten, htokens, htrailing, by rw [← hq, Option.isNone_iff_eq_none], ?_⟩
    rw [hparse]
    cases firstBad false ss <;> rfl

/-- The least integer, and behind it two that do not fit, one of them behind two signs. -/
def oversized : String :=
  "func f() \x7b\n\tif -9223372036854775808 < x \x7b\n\t\ty := 9223372036854775808\n\t\x7d else \x7b\n" ++
  "\t\ty = - -9223372036854775809\n\t\x7d\n\x7d\n"

theorem parse_grammatical_oversized : fits oversized = true ∧
    parse oversized = .error (.invalidLiteral "9223372036854775808" 3 8) ∧
    ∃ (q : Concrete.Program) (ss : List Sighting) (rest : List Char),
      Written ss oversized.toList rest ∧ ss.map Sighting.token = q.tokens ∧ Trailing rest ∧
      (q.fits = true ↔ firstBad false ss = none) ∧
      parse oversized = match firstBad false ss with
        | none => .ok q.ast
        | some bad => .error (bad.located oversized.toList) := by
  have hfits : fits oversized = true := by decide +kernel
  have hreport : (match parse oversized with
      | .ok _ => none
      | .error e => some e) = some (.invalidLiteral "9223372036854775808" 3 8) := by decide +kernel
  refine ⟨hfits, ?_, (parse_grammatical oversized).2.2 hfits⟩
  cases hparse : parse oversized <;> rw [hparse] at hreport <;> cases hreport
  rfl

end Program

end Comparand
