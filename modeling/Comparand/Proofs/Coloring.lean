import Comparand.Proofs.Legibility

/-! Colours are decoration: what is left of a coloured text without its escape sequences is the plain text. -/
namespace Comparand
namespace Text

/-- What stands behind the escape sequence that a text begins with, which has digits between a bracket and an m. -/
def behindSequence? : List Char → Option (List Char)
  | '\x1b' :: '[' :: cs =>
    match Decimal.spanDigits cs with
    | (_ :: _, 'm' :: rest) => some rest
    | _ => none
  | _ => none

/-- There is no escape sequence in a text. -/
def Plain (cs : List Char) : Prop := ∀ tail, tail <:+ cs → behindSequence? tail = none

variable {cs rest a b o w : List Char} {c : Char}

theorem exists_of_behindSequence? (h : behindSequence? cs = some rest) :
    ∃ ds : List Char, ds ≠ [] ∧ (∀ d ∈ ds, d.isDigit = true) ∧ cs = '\x1b' :: '[' :: (ds ++ 'm' :: rest) := by
  fun_cases behindSequence? cs with
  | case1 cs d ds rest' hspan =>
    obtain rfl : rest' = rest := by simpa [behindSequence?, hspan] using h
    rw [Decimal.spanDigits, List.span_eq_takeWhile_dropWhile, Prod.mk.injEq] at hspan
    refine ⟨d :: ds, List.cons_ne_nil _ _, fun e he => ?_, ?_⟩
    · rw [← hspan.1] at he
      exact List.mem_takeWhile_imp he
    · rw [← hspan.1, ← hspan.2, List.takeWhile_append_dropWhile]
  | case2 cs => simp [behindSequence?] at h
  | case3 cs => simp [behindSequence?] at h

theorem behindSequence?_of_eq {ds : List Char} (hne : ds ≠ []) (hds : ∀ d ∈ ds, d.isDigit = true)
    (hcs : cs = '\x1b' :: '[' :: (ds ++ 'm' :: rest)) : behindSequence? cs = some rest := by
  have hstops : Lexeme.Stops Char.isDigit ('m' :: rest) := by simp [Lexeme.Stops]
  have hspan := hstops.spanDigits_append hds
  obtain ⟨d, ds, rfl⟩ := List.exists_cons_of_ne_nil hne
  rw [hcs, behindSequence?, hspan]
  rfl

theorem length_lt_of_behindSequence? (h : behindSequence? cs = some rest) : rest.length < cs.length := by
  obtain ⟨ds, -, -, rfl⟩ := exists_of_behindSequence? h
  simp
  omega

/-- A text without its escape sequences. -/
def strip : List Char → List Char
  | [] => []
  | c :: cs =>
    match _h : behindSequence? (c :: cs) with
    | some rest => strip rest
    | none => c :: strip cs
termination_by cs => cs.length
decreasing_by
  · exact length_lt_of_behindSequence? ‹_›
  · simp

theorem strip_nil : strip [] = [] := by rw [strip]

theorem strip_cons_eq_elim (c : Char) (cs : List Char) :
    strip (c :: cs) = (behindSequence? (c :: cs)).elim (c :: strip cs) strip := by
  rw [strip]
  split
  · next hsome => rw [hsome, Option.elim_some]
  · next hnone => rw [hnone, Option.elim_none]

theorem strip_of_some (h : behindSequence? cs = some rest) : strip cs = strip rest := by
  cases cs with
  | nil => cases h
  | cons c cs => rw [strip_cons_eq_elim, h, Option.elim_some]

theorem strip_of_none (h : behindSequence? (c :: cs) = none) : strip (c :: cs) = c :: strip cs := by
  rw [strip_cons_eq_elim, h, Option.elim_none]

theorem strip_cons (hc : c ≠ '\x1b') (cs : List Char) : strip (c :: cs) = c :: strip cs := by
  refine strip_of_none (Option.eq_none_iff_forall_ne_some.mpr fun rest h => ?_)
  obtain ⟨ds, -, -, htext⟩ := exists_of_behindSequence? h
  exact hc (List.head_eq_of_cons_eq htext)

theorem strip_append_of_notMem (ha : '\x1b' ∉ a) (b : List Char) : strip (a ++ b) = a ++ strip b := by
  induction a with
  | nil => rfl
  | cons c a ih =>
    obtain ⟨hc, ha⟩ := List.ne_and_not_mem_of_not_mem_cons ha
    rw [List.cons_append, strip_cons hc.symm, ih ha, List.cons_append]

theorem strip_of_notMem (ha : '\x1b' ∉ a) : strip a = a := by
  simpa [strip_nil] using strip_append_of_notMem ha []

theorem length_strip_le (cs : List Char) : (strip cs).length ≤ cs.length := by
  fun_induction strip cs with
  | case1 => exact Nat.le_refl _
  | case2 c cs rest h ih => exact ih.trans (length_lt_of_behindSequence? h).le
  | case3 c cs h ih => exact Nat.succ_le_succ ih

theorem strip_eq_self_iff : strip cs = cs ↔ Plain cs := by
  induction cs with
  | nil => simp [Plain, strip_nil, behindSequence?]
  | cons c cs ih =>
    cases h : behindSequence? (c :: cs) with
    | some rest =>
      constructor
      · intro heq
        have hlen := (length_strip_le rest).trans_lt (length_lt_of_behindSequence? h)
        rw [← strip_of_some h, heq] at hlen
        exact absurd hlen (Nat.lt_irrefl _)
      · intro hplain
        cases (hplain _ (List.suffix_refl _)).symm.trans h
    | none =>
      rw [strip_of_none h, List.cons_inj_right, ih]
      constructor
      · intro hplain tail htail
        rcases List.suffix_cons_iff.mp htail with rfl | htail
        · exact h
        · exact hplain tail htail
      · exact fun hplain tail htail => hplain tail (htail.trans (List.suffix_cons c cs))

/-- The characters that an escape sequence goes on with. -/
def goesOn (c : Char) : Bool := c == '[' || c.isDigit || c == 'm'

theorem behindSequence?_append (hb : Lexeme.Stops goesOn b) (h : behindSequence? (c :: a) = none) :
    behindSequence? (c :: a ++ b) = none := by
  rw [Option.eq_none_iff_forall_ne_some] at h ⊢
  intro rest hsome
  obtain ⟨ds, hne, hds, htext⟩ := exists_of_behindSequence? hsome
  obtain ⟨rfl, hbehind⟩ := List.cons.inj htext
  have hsplit : a ++ b = ('[' :: (ds ++ ['m'])) ++ rest := by simpa using hbehind
  have hgoesOn : ∀ d ∈ '[' :: (ds ++ ['m']), goesOn d = true := by
    intro d hd
    simp only [List.mem_cons, List.mem_append, List.not_mem_nil, or_false] at hd
    rcases hd with rfl | hd | rfl
    · rfl
    · simp [goesOn, hds d hd]
    · rfl
  have hwhole (w : List Char) : a ≠ '[' :: (ds ++ ['m']) ++ w := by
    intro ha
    exact h w (behindSequence?_of_eq hne hds (by simp [ha]))
  -- the sequence would end within `b`, which cannot go on with a part of it
  rcases List.append_eq_append_iff.mp hsplit with ⟨w, hw, rfl⟩ | ⟨w, ha, -⟩
  · cases w with
    | nil => exact hwhole [] (by simpa using hw.symm)
    | cons d w =>
      have hd : goesOn d = true := hgoesOn d (by simp [hw])
      exact Bool.noConfusion (hd.symm.trans (hb d rfl))
  · exact hwhole w ha

theorem strip_append (hb : Lexeme.Stops goesOn b) (a : List Char) : strip (a ++ b) = strip a ++ strip b := by
  fun_induction strip a with
  | case1 => rfl
  | case2 c a rest h ih =>
    obtain ⟨ds, hne, hds, htext⟩ := exists_of_behindSequence? h
    have hsome : behindSequence? (c :: a ++ b) = some (rest ++ b) :=
      behindSequence?_of_eq hne hds (by simp [htext])
    rw [strip_of_some hsome, ih]
  | case3 c a h ih =>
    have hnone := behindSequence?_append hb h
    rw [List.cons_append] at hnone ⊢
    rw [strip_of_none hnone, ih, List.cons_append]

/-! Painted texts -/

theorem reopen_reset (o cs : List Char) :
    reopen o ('\x1b' :: '[' :: '0' :: 'm' :: cs) = (escape "0").toList ++ o ++ reopen o cs := rfl

theorem reopen_cons (o : List Char) (h : ∀ tail, c :: cs ≠ '\x1b' :: '[' :: '0' :: 'm' :: tail) :
    reopen o (c :: cs) = c :: reopen o cs := by
  rw [reopen]
  rintro tail rfl rfl
  exact h tail rfl

theorem reopen_append (hw : '\x1b' ∉ w) (o cs : List Char) : reopen o (w ++ cs) = w ++ reopen o cs := by
  induction w with
  | nil => rfl
  | cons c w ih =>
    obtain ⟨hc, hw⟩ := List.ne_and_not_mem_of_not_mem_cons hw
    rw [List.cons_append, reopen_cons o fun tail h => hc (List.head_eq_of_cons_eq h).symm, ih hw, List.cons_append]

theorem exists_of_reopen_eq (hw : '\x1b' ∉ w) (h : reopen o cs = w ++ rest) : ∃ rest', cs = w ++ rest' := by
  induction w generalizing cs with
  | nil => exact ⟨cs, rfl⟩
  | cons d w ih =>
    obtain ⟨hd, hw⟩ := List.ne_and_not_mem_of_not_mem_cons hw
    cases cs with
    | nil => cases h
    | cons c cs =>
      by_cases hreset : ∃ tail, c :: cs = '\x1b' :: '[' :: '0' :: 'm' :: tail
      · obtain ⟨tail, htail⟩ := hreset
        rw [htail, reopen_reset] at h
        exact absurd (List.head_eq_of_cons_eq h) hd
      · rw [reopen_cons o (not_exists.mp hreset)] at h
        obtain ⟨rest', rfl⟩ := ih hw (List.tail_eq_of_cons_eq h)
        exact ⟨rest', by rw [List.head_eq_of_cons_eq h]; rfl⟩

theorem notMem_parameters {ds : List Char} (hds : ∀ d ∈ ds, d.isDigit = true) : '\x1b' ∉ '[' :: (ds ++ ['m']) := by
  intro h
  simp only [List.mem_cons, List.mem_append, List.not_mem_nil, or_false] at h
  rcases h with h | h | h
  · exact absurd h (by decide)
  · exact absurd (hds _ h) (by decide)
  · exact absurd h (by decide)

theorem behindSequence?_escape {s : String} (hne : s.toList ≠ []) (hs : ∀ d ∈ s.toList, d.isDigit = true)
    (rest : List Char) : behindSequence? ((escape s).toList ++ rest) = some rest :=
  behindSequence?_of_eq hne hs (by simp [escape])

theorem behindSequence?_reset (rest : List Char) : behindSequence? ((escape "0").toList ++ rest) = some rest :=
  behindSequence?_escape (by decide) (by simp) rest

/-- The colour that is turned on again after a reset goes with the reset. -/
theorem strip_reopen (ho : ∀ rest, behindSequence? (o ++ rest) = some rest) (cs : List Char) :
    strip (reopen o cs) = strip cs := by
  fun_induction strip cs with
  | case1 => exact strip_nil
  | case2 c cs rest h ih =>
    obtain ⟨ds, hne, hds, htext⟩ := exists_of_behindSequence? h
    rw [htext]
    by_cases hreset : ds = ['0']
    · rw [hreset, List.cons_append, List.nil_append, reopen_reset, List.append_assoc,
        strip_of_some (behindSequence?_reset _), strip_of_some (ho _), ih]
    · have hkept : ∀ tail, '\x1b' :: '[' :: (ds ++ 'm' :: rest) ≠ '\x1b' :: '[' :: '0' :: 'm' :: tail := by
        intro tail heq
        have hm : 'm' ∉ ds := fun hm => absurd (hds _ hm) (by decide)
        have hdigits : ds ++ 'm' :: rest = ['0'] ++ 'm' :: tail := by simpa using heq
        exact hreset (eq_of_append_cons hm (by decide) hdigits).1
      have hsplit : '[' :: (ds ++ 'm' :: rest) = '[' :: (ds ++ ['m']) ++ rest := by simp
      have hsome : behindSequence? ('\x1b' :: ('[' :: (ds ++ ['m']) ++ reopen o rest)) = some (reopen o rest) :=
        behindSequence?_of_eq hne hds (by simp)
      rw [reopen_cons o hkept, hsplit, reopen_append (notMem_parameters hds), strip_of_some hsome, ih]
  | case3 c cs h ih =>
    have hkept : ∀ tail, c :: cs ≠ '\x1b' :: '[' :: '0' :: 'm' :: tail := by
      intro tail heq
      rw [heq] at h
      cases h.symm.trans (behindSequence?_reset tail)
    have hnone : behindSequence? (c :: reopen o cs) = none := by
      rw [Option.eq_none_iff_forall_ne_some] at h ⊢
      intro rest hsome
      obtain ⟨ds, hne, hds, htext⟩ := exists_of_behindSequence? hsome
      obtain ⟨rfl, hbehind⟩ := List.cons.inj htext
      have hsplit : reopen o cs = '[' :: (ds ++ ['m']) ++ rest := by simpa using hbehind
      obtain ⟨rest', rfl⟩ := exists_of_reopen_eq (notMem_parameters hds) hsplit
      exact h rest' (behindSequence?_of_eq hne hds (by simp))
    rw [reopen_cons o hkept, strip_of_none hnone, ih]

/-- One number turns a colour on. -/
def Color.isSingle (c : Color) : Bool := !c.code.isEmpty && c.code.toList.all Char.isDigit

theorem strip_paint {color : Color} (hcolor : color.isSingle = true) (s : String) (rest : List Char) :
    strip ((paint color s).toList ++ rest) = strip s.toList ++ strip rest := by
  have hopening : ∀ rest, behindSequence? ((escape color.code).toList ++ rest) = some rest := by
    simp only [Color.isSingle, Bool.and_eq_true, List.all_eq_true] at hcolor
    exact behindSequence?_escape (by simpa using hcolor.1) hcolor.2
  have hstops : Lexeme.Stops goesOn ((escape "0").toList ++ rest) := by
    intro c hc
    obtain rfl : '\x1b' = c := by simpa [escape] using hc
    decide
  have htext : (paint color s).toList ++ rest =
      (escape color.code).toList ++ (reopen (escape color.code).toList s.toList ++ ((escape "0").toList ++ rest)) := by
    simp [paint]
  rw [htext, strip_of_some (hopening _), strip_append hstops, strip_reopen hopening,
    strip_of_some (behindSequence?_reset rest)]

/-- A text without its escape sequences, as a text. -/
def bare (s : String) : String := String.ofList (strip s.toList)

end Text

/-- A routine whose hints have lost their escape sequences. -/
def Routine.bare (r : Routine) : Routine := { r with hints := r.hints.map Text.bare }

/-- The hints that are printed with the code have no escape sequence in them. -/
def Routine.HintsPlain (r : Routine) : Prop :=
  ∀ l hint, .label l ∈ r.code → r.hint? l = some hint → Text.Plain hint.toList

namespace Style

variable {st : Style} {hint? : Label → Option String} {i : Instr} {is : List Instr} {r : Routine}

theorem strip_paint (hst : st.colors = true) {color : Text.Color} (hcolor : color.isSingle = true) (s : String)
    (rest : List Char) :
    Text.strip ((st.paint color s).toList ++ rest) = Text.strip s.toList ++ Text.strip rest := by
  rw [paint, Text.paintIf, if_pos hst, Text.strip_paint hcolor]

theorem isSingle_color (i : Instr) : (color i).isSingle = true := by
  rw [color]
  split_ifs <;> decide

theorem escape_notMem_indent (ind : Indent) : '\x1b' ∉ ind.text.toList := notMem_indent (by decide) (by decide) ind

/-- The mnemonic alone has a colour. -/
theorem exists_instr (st : Style) (hint? : Label → Option String) (hi : i.isLabel = false) :
    ∃ (color : Text.Color) (tail : String), color.isSingle = true ∧
      st.instr hint? i = st.line 1 (st.paint color i.mnemonic ++ tail) ∧ i.text = i.mnemonic ++ tail := by
  by_cases he : i = .ecall
  · subst he
    exact ⟨.cyan, "", by decide, by rw [instr, String.append_empty]; rfl, by rw [String.append_empty]; rfl⟩
  · have hparts : st.instr hint? i = st.line 1 (st.paint (color i) i.mnemonic ++ " " ++ i.operands) ∧
        i.text = i.mnemonic ++ " " ++ i.operands := by
      cases i with
      | label => cases hi
      | ecall => exact absurd rfl he
      | _ => exact ⟨rfl, rfl⟩
    rw [String.append_assoc, String.append_assoc] at hparts
    exact ⟨color i, " " ++ i.operands, isSingle_color i, hparts⟩

theorem strip_instr_label (hst : st.colors = true) (hint? : Label → Option String) (l : Label) (rest : List Char) :
    Text.strip ((st.instr hint? (.label l)).toList ++ rest) =
      st.content (fun l => (hint? l).map Text.bare) (.label l) ++ '\n' :: Text.strip rest := by
  have hname (rest : List Char) : Text.strip ((st.paint .yellow (l.text ++ ":")).toList ++ rest) =
      l.text.toList ++ ':' :: Text.strip rest := by
    have hl : '\x1b' ∉ l.text.toList := Argument.notMem_text (by decide) (.target l)
    rw [strip_paint hst (by decide), Text.strip_of_notMem (by simp [hl])]
    simp
  have hremark (hint : String) (rest : List Char) :
      Text.strip ((st.paint .dimmed (st.indent.text ++ "# " ++ hint)).toList ++ rest) =
        st.indent.text.toList ++ '#' :: ' ' :: (Text.strip hint.toList ++ Text.strip rest) := by
    rw [strip_paint hst (by decide), String.toList_append,
      Text.strip_append_of_notMem (by simp [escape_notMem_indent])]
    simp
  have hend : Text.strip ('\n' :: rest) = '\n' :: Text.strip rest := Text.strip_cons (by decide) rest
  cases hhint : hint? l with
  | none => simp [instr, hhint, (toList_line st _).1, hname, hend]
  | some hint =>
    cases hcomments : st.comments with
    | false => simp [instr, hhint, hcomments, (toList_line st _).1, hname, hend]
    | true => simp [instr, hhint, hcomments, (toList_line st _).1, hname, hremark, hend, Text.bare]

theorem strip_instr (hst : st.colors = true) (hint? : Label → Option String) (i : Instr) (rest : List Char) :
    Text.strip ((st.instr hint? i).toList ++ rest) =
      st.content (fun l => (hint? l).map Text.bare) i ++ '\n' :: Text.strip rest := by
  cases hi : i.isLabel with
  | true =>
    obtain ⟨l, rfl⟩ := Instr.exists_label hi
    exact strip_instr_label hst hint? l rest
  | false =>
    obtain ⟨color, tail, hcolor, hinstr, htext⟩ := exists_instr st hint? hi
    have hescape := Instr.notMem_text (c := '\x1b') (by decide) (by decide) (by decide) hi
    rw [htext, String.toList_append, List.mem_append, not_or] at hescape
    have hline : (st.instr hint? i).toList ++ rest =
        st.indent.text.toList ++ ((st.paint color i.mnemonic).toList ++ (tail.toList ++ '\n' :: rest)) := by
      simp [hinstr, (toList_line st _).2]
    rw [hline, Text.strip_append_of_notMem (escape_notMem_indent _), strip_paint hst hcolor,
      Text.strip_of_notMem hescape.1, Text.strip_append_of_notMem hescape.2, Text.strip_cons (by decide),
      content_of_not_isLabel hi, htext]
    simp

theorem strip_code (hst : st.colors = true) (hint? : Label → Option String) (is : List Instr) (rest : List Char) :
    Text.strip ((st.code hint? is).toList ++ rest) =
      Text.unlines (is.map (st.content fun l => (hint? l).map Text.bare)) ++ Text.strip rest := by
  induction is with
  | nil => simp [code]
  | cons i is ih =>
    have hcons : (st.code hint? (i :: is)).toList = (st.instr hint? i).toList ++ (st.code hint? is).toList := by
      simp [code]
    rw [hcons, List.append_assoc, strip_instr hst, ih]
    simp

theorem hint?_bare (r : Routine) : r.bare.hint? = fun l => (r.hint? l).map Text.bare := by
  funext l
  simp [Routine.hint?, Routine.bare]

/-- Without its escape sequences, the coloured text of a routine is its plain text with hints that lost theirs. -/
theorem strip_routine (hst : st.colors = true) (hname : '\x1b' ∉ r.name.toList) :
    Text.strip (st.routine r).toList = Text.unlines (st.routineLines r.bare) := by
  have hindent := escape_notMem_indent st.indent
  have hcode := strip_code hst r.hint? r.code []
  rw [List.append_nil, Text.strip_nil, List.append_nil] at hcode
  have hbehind : Text.strip ((st.paint .brightBlue (r.name ++ ":")).toList ++ '\n' :: (st.code r.hint? r.code).toList) =
      r.name.toList ++ ':' :: '\n' :: Text.unlines (r.code.map (st.content r.bare.hint?)) := by
    rw [strip_paint hst (by decide), Text.strip_of_notMem (by simp [hname]), Text.strip_cons (by decide), hcode,
      hint?_bare]
    simp
  cases hdirectives : st.directives with
  | false => simpa [routine, routineLines, hdirectives, (toList_line st _).1, Routine.bare] using hbehind
  | true =>
    have hsections : '\x1b' ∉ (st.line 1 ".text" ++ st.line 1 (".globl " ++ r.name)).toList := by
      simp [(toList_line st _).2, hindent, hname]
    have htext : (st.routine r).toList = (st.line 1 ".text" ++ st.line 1 (".globl " ++ r.name)).toList ++
        ((st.paint .brightBlue (r.name ++ ":")).toList ++ '\n' :: (st.code r.hint? r.code).toList) := by
      simp [routine, hdirectives, (toList_line st _).1]
    rw [htext, Text.strip_append_of_notMem hsections, hbehind]
    simp [routineLines, hdirectives, (toList_line st _).2, Routine.bare]

theorem content_bare_eq_iff {l : Label} :
    st.content (fun l => (hint? l).map Text.bare) (.label l) = st.content hint? (.label l) ↔
      (st.comments = true → ∀ hint, hint? l = some hint → Text.Plain hint.toList) := by
  cases hhint : hint? l with
  | none => simp [hhint]
  | some hint =>
    cases hcomments : st.comments with
    | false => simp [hhint, hcomments]
    | true => simp [hhint, hcomments, Text.bare, Text.strip_eq_self_iff]

theorem length_content_bare_le (st : Style) (hint? : Label → Option String) (i : Instr) :
    (st.content (fun l => (hint? l).map Text.bare) i).length ≤ (st.content hint? i).length := by
  cases hi : i.isLabel with
  | false => rw [content_of_not_isLabel hi, content_of_not_isLabel hi]
  | true =>
    obtain ⟨l, rfl⟩ := Instr.exists_label hi
    cases hhint : hint? l with
    | none => simp [hhint]
    | some hint =>
      cases hcomments : st.comments with
      | false => simp [hhint, hcomments]
      | true =>
        have hle := Text.length_strip_le hint.toList
        simpa [hhint, hcomments, Text.bare] using hle

theorem length_unlines_content_bare_le (st : Style) (hint? : Label → Option String) (is : List Instr) :
    (Text.unlines (is.map (st.content fun l => (hint? l).map Text.bare))).length ≤
      (Text.unlines (is.map (st.content hint?))).length := by
  induction is with
  | nil => simp
  | cons i is ih =>
    have hi := length_content_bare_le st hint? i
    simp only [List.map_cons, Text.unlines_cons, List.length_append, List.length_cons]
    omega

/-- A text loses something if one of its lines does. -/
theorem unlines_content_bare_eq_iff : Text.unlines (is.map (st.content fun l => (hint? l).map Text.bare)) =
    Text.unlines (is.map (st.content hint?)) ↔
      ∀ i ∈ is, st.content (fun l => (hint? l).map Text.bare) i = st.content hint? i := by
  induction is with
  | nil => simp
  | cons i is ih =>
    rw [List.map_cons, List.map_cons, Text.unlines_cons, Text.unlines_cons, List.forall_mem_cons]
    constructor
    · intro h
      have hlen := congrArg List.length h
      simp only [List.length_append, List.length_cons] at hlen
      have hi := length_content_bare_le st hint? i
      have his := length_unlines_content_bare_le st hint? is
      obtain ⟨hhead, hbehind⟩ := List.append_inj h (by omega)
      exact ⟨hhead, ih.mp (List.tail_eq_of_cons_eq hbehind)⟩
    · rintro ⟨hhead, hbehind⟩
      rw [hhead, ih.mpr hbehind]

theorem unlines_routineLines_bare_eq_iff : Text.unlines (st.routineLines r.bare) = Text.unlines (st.routineLines r) ↔
    (st.comments = true → r.HintsPlain) := by
  have hcode : Text.unlines (st.routineLines r.bare) = Text.unlines (st.routineLines r) ↔
      Text.unlines (r.code.map (st.content r.bare.hint?)) = Text.unlines (r.code.map (st.content r.hint?)) := by
    simp [routineLines, Routine.bare]
  rw [hcode, hint?_bare, unlines_content_bare_eq_iff]
  constructor
  · intro h hcomments l hint hl
    exact content_bare_eq_iff.mp (h _ hl) hcomments hint
  · intro h i hi
    cases hlabel : i.isLabel with
    | false => rw [content_of_not_isLabel hlabel, content_of_not_isLabel hlabel]
    | true =>
      obtain ⟨l, rfl⟩ := Instr.exists_label hlabel
      exact content_bare_eq_iff.mpr fun hcomments hint => h hcomments l hint hi

theorem escape_notMem_condition (c : Condition) : '\x1b' ∉ c.name.toList := by
  cases c <;> decide

/-- Where a lowered comparison leaves its answer, as it is printed. -/
def place : Destination → String
  | .value rd => "result in " ++ rd.name
  | .branch yes no => "true -> " ++ yes.text ++ ", false -> " ++ no.text

theorem escape_notMem_place (d : Destination) : '\x1b' ∉ (place d).toList := by
  cases d with
  | value rd =>
    have hrd : '\x1b' ∉ rd.name.toList := Argument.notMem_text (by decide) (.int rd)
    simp [place, hrd]
  | branch yes no =>
    have hyes : '\x1b' ∉ yes.text.toList := Argument.notMem_text (by decide) (.target yes)
    have hno : '\x1b' ∉ no.text.toList := Argument.notMem_text (by decide) (.target no)
    simp [place, hyes, hno]

/-- A remark in a line of its own. -/
def comment (st : Style) (s : String) : String := if st.comments then st.line 0 (st.paint .dimmed ("# " ++ s)) else ""

theorem lowered_eq (st : Style) (l : Lowered) : st.lowered l =
    st.comment l.condition.name ++ st.code (fun _ => none) l.code ++ st.comment (place l.destination) := by
  rw [lowered]
  cases l.destination <;> rfl

theorem strip_comment {s : String} (hs : '\x1b' ∉ s.toList) (st : Style) (rest : List Char) :
    Text.strip ((comment { st with colors := true } s).toList ++ rest) =
      (comment { st with colors := false } s).toList ++ Text.strip rest := by
  cases hcomments : st.comments with
  | false => simp [comment]
  | true =>
    have hremark : Text.strip ("# " ++ s).toList = ("# " ++ s).toList := Text.strip_of_notMem (by simp [hs])
    have hdimmed : Text.Color.isSingle .dimmed = true := by decide
    have hpaint := Text.strip_paint hdimmed ("# " ++ s) ('\n' :: rest)
    rw [hremark, Text.strip_cons (by decide)] at hpaint
    simpa [comment, (toList_line _ _).1, paint, Text.paintIf] using hpaint

theorem strip_lowered (st : Style) (l : Lowered) :
    Text.strip (lowered { st with colors := true } l).toList = (lowered { st with colors := false } l).toList := by
  have htail := strip_comment (escape_notMem_place l.destination) st []
  rw [List.append_nil, Text.strip_nil, List.append_nil] at htail
  rw [lowered_eq, lowered_eq, String.toList_append, String.toList_append, List.append_assoc,
    strip_comment (escape_notMem_condition _), strip_code rfl, htail, String.toList_append, String.toList_append,
    toList_code rfl, List.append_assoc]
  rfl

/-- Where there is no escape character in the name, the coloured text of a routine becomes its plain text if and only if
no hint that is printed has an escape sequence of its own. The text of a lowered comparison always does. -/
theorem strip_colored (st : Style) (hname : '\x1b' ∉ r.name.toList) (l : Lowered) :
    (Text.strip (routine { st with colors := true } r).toList = (routine { st with colors := false } r).toList ↔
      (st.comments = true → r.HintsPlain)) ∧
    Text.strip (lowered { st with colors := true } l).toList = (lowered { st with colors := false } l).toList := by
  refine ⟨?_, strip_lowered st l⟩
  rw [strip_routine rfl hname, toList_routine rfl]
  exact unlines_routineLines_bare_eq_iff

/-- A sequence that is broken off in a hint stays broken off before the one that turns the colour off. -/
theorem strip_colored_brokenOff : ∃ r : Routine, '\x1b' ∉ r.name.toList ∧ r.hints = ["\x1b[1"] ∧
    routine { colors := true } r ≠ routine {} r ∧
    Text.strip (routine { colors := true } r).toList = (routine {} r).toList := by
  let r : Routine := { name := "[0m", code := [.label ⟨0⟩, .jump ⟨0⟩, .ecall], hints := ["\x1b[1"] }
  let l : Lowered := { code := [.ecall], destination := .value .a0, condition := .eq }
  have hname : '\x1b' ∉ r.name.toList := by decide
  have hplain : Text.Plain "\x1b[1".toList := by
    intro tail htail
    have hall : ∀ tail ∈ "\x1b[1".toList.tails, Text.behindSequence? tail = none := by decide
    exact hall tail ((List.mem_tails _ _).mpr htail)
  have hhints : r.HintsPlain := by
    intro l hint hl hh
    obtain rfl : l = ⟨0⟩ := by simpa [r] using hl
    obtain rfl : "\x1b[1" = hint := Option.some.inj hh
    exact hplain
  exact ⟨r, hname, rfl, by decide, (strip_colored {} hname l).1.mpr fun _ => hhints⟩

/-- A sequence in a hint is printed as it is, and is lost with the colours. -/
theorem strip_routine_ne : ¬ ∀ (st : Style) (r : Routine), '\x1b' ∉ r.name.toList →
    Text.strip (routine { st with colors := true } r).toList = (routine { st with colors := false } r).toList := by
  intro h
  let r : Routine := { name := "main", code := [.label ⟨0⟩], hints := ["\x1b[1m"] }
  have hname : '\x1b' ∉ r.name.toList := by decide
  have htext := h {} r hname
  rw [strip_routine rfl hname, toList_routine rfl] at htext
  have hhints : r.HintsPlain := unlines_routineLines_bare_eq_iff.mp htext rfl
  have hplain : Text.Plain "\x1b[1m".toList := hhints ⟨0⟩ "\x1b[1m" List.mem_cons_self rfl
  have hsome : Text.behindSequence? "\x1b[1m".toList = some [] := by decide
  cases (hplain _ (List.suffix_refl _)).symm.trans hsome

end Style
end Comparand
