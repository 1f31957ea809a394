import Comparand.Proofs.Scanning
import Comparand.Source.Diagnosis

/-!
Following the grammar side by side with the direct readers. What a walk finds does not depend on what it notes on the
way, so the notes are left out first. Then there is one rule for each way in which phrases are put together; each says
how deep the walk goes.
-/
namespace Comparand

open Lexeme

theorem Lexeme.skip_skip (cs : List Char) : skip (skip cs) = skip cs := by
  by_cases hskip : skip cs = []
  · rw [hskip]
    rfl
  · obtain ⟨gap, hgap, hcs⟩ := layout_of_skip hskip
    conv_rhs => rw [hcs, hgap.skip_append]

theorem Lexeme.length_skip_le (cs : List Char) : (skip cs).length ≤ cs.length := by
  by_cases hskip : skip cs = []
  · simp [hskip]
  · obtain ⟨gap, -, hcs⟩ := layout_of_skip hskip
    have hlength := congrArg List.length hcs
    rw [List.length_append] at hlength
    omega

/-- What is left behind a part of a text, without the layout before it. -/
theorem length_behind_le {cs text rest : List Char} (hcs : cs = text ++ rest) :
    text.length + (skip rest).length ≤ cs.length := by
  have hskip := length_skip_le rest
  rw [hcs, List.length_append]
  omega

theorem length_behind {cs rest : List Char} {s : String} (hs : s.toList ≠ []) (hcs : cs = s.toList ++ rest) :
    (skip rest).length < cs.length := by
  have hlength := length_behind_le hcs
  have hpos := List.length_pos_iff.mpr hs
  omega

theorem Cursor.rest_skip (c : Cursor) : c.skip.rest = Lexeme.skip c.rest := by
  unfold Cursor.skip
  split
  next hrest =>
    rw [hrest]
    rfl
  next d ds hrest =>
    split
    next => rfl
    next hd =>
      rw [hrest, skip_of_solid]
      simpa [solid, isSpace, boundaries, and_assoc] using hd

namespace Phrase

/-- The pieces that a phrase finds in a text, and what is left of it. -/
@[simp] def follow : Nat → Phrase → List Char → Option (List Piece × List Char)
  | 0, _, _ => none
  | _ + 1, fixed s, cs => (Lexeme.fixed s cs).map fun rest => ([], rest)
  | _ + 1, lexeme rest?, cs => (rest? cs).map fun rest => ([], rest)
  | n + 1, rule r, cs => (follow n r.phrase cs).map fun found => ([.mk r cs found.2 found.1], found.2)
  | n + 1, seq p q, cs =>
    match follow n p cs with
    | none => none
    | some (first, cs) => (follow n q (skip cs)).map fun found => (first ++ found.1, found.2)
  | n + 1, alt p q, cs => (follow n p cs).or (follow n q cs)
  | n + 1, opt p, cs => some ((follow n p cs).getD ([], cs))
  | n + 1, many p, cs =>
    match follow n p (skip cs) with
    | none => some ([], cs)
    | some (first, cs) => (follow n (many p) cs).map fun found => (first ++ found.1, found.2)

/-- Neither the notes nor the lengths that a walk carries along have a part in what it finds. -/
theorem map_walk (n : Nat) (p : Phrase) (c : Cursor) (t : Trace) :
    (walk n p c t).1.map (fun found => (found.1, found.2.rest)) = follow n p c.rest := by
  induction n generalizing p c t with
  | zero => rfl
  | succ n ih =>
    cases p with
    | fixed s => simp [walk, Function.comp_def]
    | lexeme rest? => simp [walk, Function.comp_def, Cursor.moveTo]
    | rule r =>
      have hwalk := ih r.phrase c t
      rcases hfound : walk n r.phrase c t with ⟨_ | ⟨inner, d⟩, after⟩ <;> rw [hfound] at hwalk <;>
        simp [walk, hfound, ← hwalk]
    | seq p q =>
      have hwalk := ih p c t
      rcases hfound : walk n p c t with ⟨_ | ⟨first, d⟩, t'⟩ <;> rw [hfound] at hwalk
      · simp [walk, hfound, ← hwalk]
      · have hwalk' := ih q d.skip t'
        rw [Cursor.rest_skip] at hwalk'
        rcases hfound' : walk n q d.skip t' with ⟨_ | ⟨second, e⟩, t''⟩ <;> rw [hfound'] at hwalk' <;>
          simp [walk, hfound, hfound', ← hwalk, ← hwalk']
    | alt p q =>
      have hwalk := ih p c t
      rcases hfound : walk n p c t with ⟨_ | ⟨first, d⟩, t'⟩ <;> rw [hfound] at hwalk
      · simp [walk, hfound, ← hwalk, ih]
      · simp [walk, hfound, ← hwalk]
    | opt p =>
      have hwalk := ih p c t
      rcases hfound : walk n p c t with ⟨_ | ⟨first, d⟩, t'⟩ <;> rw [hfound] at hwalk <;>
        simp [walk, hfound, ← hwalk]
    | many p =>
      have hwalk := ih p c.skip t
      rw [Cursor.rest_skip] at hwalk
      rcases hfound : walk n p c.skip t with ⟨_ | ⟨first, d⟩, t'⟩ <;> rw [hfound] at hwalk
      · simp [walk, hfound, ← hwalk]
      · have hwalk' := ih (many p) d t'
        rcases hfound' : walk n (many p) d t' with ⟨_ | ⟨more, e⟩, t''⟩ <;> rw [hfound'] at hwalk' <;>
          simp [walk, hfound, hfound', ← hwalk, ← hwalk']

end Phrase

/-- What was found is what was read: both failed, or both leave the same rest up to layout and the pieces mean what was
read. -/
def Matches {α : Type} (means : List Piece → α → Prop) (found : Option (List Piece × List Char)) :
    Option (α × List Char) → Prop
  | none => found = none
  | some (a, rest) => ∃ ps rest', found = some (ps, rest') ∧ skip rest' = skip rest ∧ means ps a

/-- Following a phrase through a text finds what was read, with more than `N` levels to go down. -/
def Agrees {α : Type} (N : Nat) (p : Phrase) (means : List Piece → α → Prop) (cs : List Char)
    (read : Option (α × List Char)) : Prop :=
  ∀ n, N < n → Matches means (p.follow n cs) read

namespace Agrees

open Phrase

variable {α β : Type} {N N' : Nat} {p q : Phrase} {cs rest : List Char} {s : String} {r : Rule} {b : β}
  {means : List Piece → α → Prop} {means' : List Piece → β → Prop}
  {x y : Option (α × List Char)} {z : Option (β × List Char)}

theorem mono (h : Agrees N p means cs x) (hN : N ≤ N') : Agrees N' p means cs x := fun n hn => h n (by omega)

theorem of_succ (h : ∀ n, N ≤ n → Matches means (p.follow (n + 1) cs) x) : Agrees N p means cs x
  | 0, hn => absurd hn (Nat.not_lt_zero N)
  | n + 1, hn => h n (Nat.le_of_lt_succ hn)

theorem map {f : α → β} (h : Agrees N p means cs x) (hmeans : ∀ ps a, means ps a → means' ps (f a)) :
    Agrees N p means' cs (x.map fun read => (f read.1, read.2)) := by
  intro n hn
  rcases x with _ | ⟨a, rest⟩
  · exact h n hn
  · obtain ⟨ps, rest', hps, hrest, ha⟩ := h n hn
    exact ⟨ps, rest', hps, hrest, hmeans ps a ha⟩

theorem imp {means' : List Piece → α → Prop} (h : Agrees N p means cs x)
    (hmeans : ∀ ps a, means ps a → means' ps a) : Agrees N p means' cs x := by
  simpa using h.map (f := id) hmeans

/-- A rule for a lexeme: the piece ends exactly where the lexeme does. -/
theorem leaf {rest? : List Char → Option (List Char)} (hr : r.phrase = .lexeme rest?) (hx : rest? cs = x.map (·.2))
    (hmeans : ∀ a rest, x = some (a, rest) → means [.mk r cs rest []] a) : Agrees 1 (.rule r) means cs x := by
  rintro (_ | _ | n) hn
  · cases hn
  · exact absurd hn (Nat.lt_irrefl 1)
  · rcases x with _ | ⟨a, rest⟩
    · simp [Matches, hr, hx]
    · exact ⟨[.mk r cs rest []], rest, by simp [hr, hx], rfl, hmeans a rest rfl⟩

theorem rule {means' : List Piece → α → Prop} (h : Agrees N r.phrase means cs x)
    (hmeans : ∀ inner a mid rest, x = some (a, mid) → means inner a → means' [.mk r cs rest inner] a) :
    Agrees (N + 1) (rule r) means' cs x := by
  refine of_succ fun n hn => ?_
  have hinner := h n hn
  rcases x with _ | ⟨a, rest⟩
  · rw [Matches] at hinner
    simp [Matches, hinner]
  · obtain ⟨inner, rest', hinner, hrest, ha⟩ := hinner
    exact ⟨[.mk r cs rest' inner], rest', by simp [hinner], hrest, hmeans inner a rest rest' rfl ha⟩

/-- A rule whose piece means something else than the pieces in it. -/
theorem build (f : α → β) (h : Agrees N r.phrase means cs x)
    (hmeans : ∀ inner a mid rest, x = some (a, mid) → means inner a → means' [.mk r cs rest inner] (f a)) :
    Agrees (N + 1) (.rule r) means' cs (do let (a, rest) ← x; return (f a, rest)) := by
  have hread : (do let (a, rest) ← x; return (f a, rest)) = x.map fun read => (f read.1, read.2) := by
    rcases x with _ | ⟨a, rest⟩ <;> rfl
  rw [hread]
  exact (h.rule hmeans).map fun _ _ ha => ha

/-- The pieces of the second phrase come behind those of the first. -/
theorem seq (hp : Agrees N p means cs x) (hnone : x = none → z = none)
    (hq : ∀ ps a rest, x = some (a, rest) → means ps a → Agrees N q (fun qs => means' (ps ++ qs)) (skip rest) z) :
    Agrees (N + 1) (seq p q) means' cs z := by
  refine of_succ fun n hn => ?_
  have hfirst := hp n hn
  rcases x with _ | ⟨a, rest⟩
  · rw [Matches] at hfirst
    rw [hnone rfl, Matches, follow, hfirst]
  · obtain ⟨ps, mid, hps, hmid, ha⟩ := hfirst
    have hsecond := hq ps a rest rfl ha n hn
    rcases z with _ | ⟨b, rest'⟩
    · rw [Matches] at hsecond
      simp [Matches, hps, hmid, hsecond]
    · obtain ⟨qs, rest'', hqs, hrest, hb⟩ := hsecond
      exact ⟨ps ++ qs, rest'', by simp [hps, hmid, hqs], hrest, hb⟩

theorem fixed (s : String) (cs : List Char) :
    Agrees 0 (fixed s) (fun ps _ => ps = []) cs ((Lexeme.fixed s cs).map fun rest => ((), rest)) := by
  refine of_succ fun n _ => ?_
  rcases hread : Lexeme.fixed s cs with _ | rest <;> simp [Matches, hread]

/-- A fixed text leaves no piece. -/
theorem mark (hnone : Lexeme.fixed s cs = none → x = none)
    (h : ∀ rest, Lexeme.fixed s cs = some rest → Agrees N p means (skip rest) x) :
    Agrees (N + 1) (.seq (.fixed s) p) means cs x := by
  refine seq ((fixed s cs).mono (Nat.zero_le N)) (fun hfixed => hnone (by simpa using hfixed))
    fun ps _ rest hsome hps => ?_
  obtain ⟨rest', hfixed, heq⟩ := Option.map_eq_some_iff.mp hsome
  cases heq
  subst hps
  exact h rest hfixed

theorem after {f : Reader α} (h : ∀ rest, cs = s.toList ++ rest → Agrees N p means (skip rest) (f (skip rest))) :
    Agrees (N + 1) (.seq (.fixed s) p) means cs (Reader.after s f cs) := by
  refine mark (fun hnone => by simp [Reader.after, hnone]) fun rest hfixed => ?_
  simpa [Reader.after, hfixed] using h rest (fixed_eq_some.mp hfixed)

theorem before {f : Reader α} (h : Agrees N p means cs (f cs)) :
    Agrees (N + 1) (.seq p (.fixed s)) means cs (Reader.before f s cs) := by
  refine seq h (fun hnone => by simp [Reader.before, hnone]) fun ps a rest hsome ha => ?_
  have hread : Reader.before f s cs = ((Lexeme.fixed s (skip rest)).map fun rest => ((), rest)).map
      fun read => (a, read.2) := by
    simp only [Reader.before, hsome, Option.bind_eq_bind, Option.bind_some]
    cases Lexeme.fixed s (skip rest) <;> rfl
  rw [hread]
  refine ((fixed s (skip rest)).map (f := fun _ => a) ?_).mono (Nat.zero_le N)
  rintro qs _ rfl
  simpa using ha

theorem alt (hp : Agrees N p means cs x) (hq : x = none → Agrees N q means cs y) :
    Agrees (N + 1) (alt p q) means cs (x <|> y) := by
  refine of_succ fun n hn => ?_
  have hfirst := hp n hn
  rcases x with _ | ⟨a, rest⟩
  · rw [Matches] at hfirst
    simpa [hfirst] using hq rfl n hn
  · obtain ⟨ps, rest', hps, hrest, ha⟩ := hfirst
    exact ⟨ps, rest', by simp [hps], hrest, ha⟩

theorem opt (hp : Agrees N p means cs x) (hnone : x = none → skip cs = skip rest ∧ means' [] b)
    (hsome : ∀ ps a mid, x = some (a, mid) → means ps a → skip mid = skip rest ∧ means' ps b) :
    Agrees (N + 1) (opt p) means' cs (some (b, rest)) := by
  refine of_succ fun n hn => ?_
  have hfound := hp n hn
  rcases x with _ | ⟨a, mid⟩
  · rw [Matches] at hfound
    obtain ⟨hrest, hb⟩ := hnone rfl
    exact ⟨[], cs, by simp [hfound], hrest, hb⟩
  · obtain ⟨ps, mid', hps, hmid, ha⟩ := hfound
    obtain ⟨hrest, hb⟩ := hsome ps a mid rfl ha
    exact ⟨ps, mid', by simp [hps], hmid.trans hrest, hb⟩

/-- One round of a repetition. -/
theorem many (hp : Agrees N p means (skip cs) x) (hnone : x = none → skip cs = skip rest ∧ means' [] b)
    (hsome : ∀ ps a mid mid', x = some (a, mid) → skip mid' = skip mid → means ps a →
      Agrees N (many p) (fun qs => means' (ps ++ qs)) mid' (some (b, rest))) :
    Agrees (N + 1) (many p) means' cs (some (b, rest)) := by
  refine of_succ fun n hn => ?_
  have hfound := hp n hn
  rcases x with _ | ⟨a, mid⟩
  · rw [Matches] at hfound
    obtain ⟨hrest, hb⟩ := hnone rfl
    exact ⟨[], cs, by simp [hfound], hrest, hb⟩
  · obtain ⟨ps, mid', hps, hmid, ha⟩ := hfound
    obtain ⟨qs, rest', hqs, hrest, hb⟩ := hsome ps a mid mid' rfl hmid ha n hn
    exact ⟨ps ++ qs, rest', by simp [hps, hqs], hrest, hb⟩

end Agrees
end Comparand
