import Comparand.Assembly
import Comparand.Proofs.Lexing
import Comparand.Proofs.Printing

/-! Assembly can be read back. An instruction is known by its mnemonic and its arguments, an argument by its text, and
the name and the code of a routine by the lines of its text, provided that every line feed ends a line. -/
namespace Comparand

/-- What stands between the commas of an instruction. -/
inductive Argument where
  | int (r : IntReg)
  | float (f : FloatReg)
  | number (n : Int)
  | place (base : IntReg) (offset : Int)
  | target (l : Label)

namespace Argument

def text : Argument → String
  | int r => r.name
  | float f => f.name
  | number n => toString n
  | place base offset => Instr.address base offset
  | target l => l.text

/-- The characters of mnemonics and arguments. -/
def isChar (c : Char) : Bool := c.isAlphanum || ['-', '(', ')', '.'].contains c

/-- The sorts of arguments, as far as a first character tells them apart. -/
inductive Initial where
  | dot | float | letter | numeral
deriving DecidableEq

def Initial.of (c : Char) : Initial :=
  if c = '.' then dot else if c = 'f' then float else if c.isAlpha then letter else numeral

/-- What shows the sort of an argument: how it begins, and whether it has a bracket. -/
def look (cs : List Char) : Option Initial × Bool := (cs.head?.map .of, cs.contains '(')

def sort : Argument → Option Initial × Bool
  | int _ => (some .letter, false)
  | float _ => (some .float, false)
  | number _ => (some .numeral, false)
  | place .. => (some .numeral, true)
  | target _ => (some .dot, false)

theorem int_spelling (r : IntReg) :
    (∀ c ∈ r.name.toList, isChar c = true) ∧ look r.name.toList = (some .letter, false) := by
  have hall : IntReg.names.toList.all fun s => s.toList.all isChar && look s.toList = (some .letter, false) := by
    decide
  have hname : r.name ∈ IntReg.names.toList := Vector.mem_toList_iff.mpr (Vector.getElem_mem r.index_lt)
  simpa using List.all_eq_true.mp hall r.name hname

theorem float_spelling (f : FloatReg) :
    (∀ c ∈ f.name.toList, isChar c = true) ∧ look f.name.toList = (some .float, false) := by
  have hall : FloatReg.names.toList.all fun s => s.toList.all isChar && look s.toList = (some .float, false) := by
    decide
  have hname : f.name ∈ FloatReg.names.toList := Vector.mem_toList_iff.mpr (Vector.getElem_mem f.index_lt)
  simpa using List.all_eq_true.mp hall f.name hname

theorem isChar_of_isDigit {c : Char} (h : c.isDigit = true) : isChar c = true := by
  simp [isChar, Char.isAlphanum, h]

theorem isChar_of_mem_number {n : Int} {c : Char} (h : c ∈ (toString n).toList) : isChar c = true := by
  rcases Text.isDigit_or_minus_of_mem_toString h with hc | rfl
  · exact isChar_of_isDigit hc
  · decide

theorem toList_place (base : IntReg) (offset : Int) :
    (place base offset).text.toList = (toString offset).toList ++ '(' :: (base.name.toList ++ [')']) := by
  simp [text, Instr.address]

theorem toList_target (l : Label) : (target l).text.toList = '.' :: 'L' :: (toString l.index).toList := by
  simp [text, Label.text]

theorem isChar_of_mem {a : Argument} {c : Char} (h : c ∈ a.text.toList) : isChar c = true := by
  cases a with
  | int r => exact (int_spelling r).1 c h
  | float f => exact (float_spelling f).1 c h
  | number n => exact isChar_of_mem_number h
  | place base offset =>
    rw [toList_place, List.mem_append, List.mem_cons, List.mem_append, List.mem_singleton] at h
    rcases h with h | rfl | h | rfl
    · exact isChar_of_mem_number h
    · decide
    · exact (int_spelling base).1 c h
    · decide
  | target l =>
    rw [toList_target, List.mem_cons, List.mem_cons] at h
    rcases h with rfl | rfl | h
    · decide
    · decide
    · exact isChar_of_isDigit (Text.isDigit_of_mem_toString h)

/-- A mark that no argument has in it. -/
theorem notMem_text {c : Char} (hc : isChar c = false) (a : Argument) : c ∉ a.text.toList :=
  fun h => Bool.noConfusion (hc.symm.trans (isChar_of_mem h))

theorem notMem_bracket_number (n : Int) : '(' ∉ (toString n).toList :=
  Text.notMem_toString_int (by decide) (by decide) n

theorem initial_of_isDigit {c : Char} (h : c.isDigit = true) : Initial.of c = .numeral := by
  have hdot : c ≠ '.' := fun he => absurd (he ▸ h) (by decide)
  have hfloat : c ≠ 'f' := fun he => absurd (he ▸ h) (by decide)
  have hletter : ¬ c.isAlpha = true := by
    intro ha
    have hstart : Lexeme.isWordStart c = true := by rw [Lexeme.isWordStart, ha, Bool.true_or]
    exact Bool.noConfusion (h.symm.trans (Lexeme.not_isDigit_of_isWordStart hstart))
  rw [Initial.of, if_neg hdot, if_neg hfloat, if_neg hletter]

theorem exists_numeral (n : Int) : ∃ c cs, (toString n).toList = c :: cs ∧ Initial.of c = .numeral := by
  obtain ⟨sign, k, hn, rfl | rfl⟩ := Text.exists_toString_int n
  · cases hdigits : (toString k).toList with
    | nil =>
      rw [Nat.toString_eq_ofList_toDigits, String.toList_ofList] at hdigits
      exact absurd hdigits Nat.toDigits_ne_nil
    | cons c cs =>
      have hc : c ∈ (toString k).toList := hdigits ▸ List.mem_cons_self
      exact ⟨c, cs, by rw [hn, hdigits, List.nil_append],
        initial_of_isDigit (Text.isDigit_of_mem_toString hc)⟩
  · exact ⟨'-', _, hn, by decide⟩

theorem look_text (a : Argument) : look a.text.toList = a.sort := by
  cases a with
  | int r => exact (int_spelling r).2
  | float f => exact (float_spelling f).2
  | number n =>
    obtain ⟨c, cs, hn, hc⟩ := exists_numeral n
    have hbracket := notMem_bracket_number n
    rw [hn] at hbracket
    rw [text, hn]
    simp [look, sort, hc, hbracket]
  | place base offset =>
    obtain ⟨c, cs, hn, hc⟩ := exists_numeral offset
    rw [toList_place, hn]
    simp [look, sort, hc]
  | target l =>
    have hbracket : (toString l.index).toList.contains '(' = false := by
      rw [List.contains_eq_mem, decide_eq_false_iff_not]
      exact fun h => absurd (Text.isDigit_of_mem_toString h) (by decide)
    rw [toList_target, look, List.contains_cons, List.contains_cons, hbracket]
    rfl

theorem ofText_int (r : IntReg) : IntReg.ofText r.name = .ok r := by
  have hall : ∀ i : Fin 32, IntReg.ofText IntReg.names[i] = .ok ⟨i⟩ := by decide
  exact hall r.index

theorem ofText_float (f : FloatReg) : FloatReg.ofText f.name = .ok f := by
  have hall : ∀ i : Fin 32, FloatReg.ofText FloatReg.names[i] = .ok ⟨i⟩ := by decide
  exact hall f.index

theorem name_inj_int {r s : IntReg} (h : r.name = s.name) : r = s := by
  have hread := ofText_int s
  rw [← h, ofText_int] at hread
  exact Except.ok.inj hread

theorem name_inj_float {f g : FloatReg} (h : f.name = g.name) : f = g := by
  have hread := ofText_float g
  rw [← h, ofText_float] at hread
  exact Except.ok.inj hread

theorem number_inj {n k : Int} (h : toString n = toString k) : n = k := by
  rwa [Int.toString_eq_repr, Int.toString_eq_repr, Int.repr_inj] at h

theorem text_injective : Function.Injective text := by
  intro a b h
  have hsort : a.sort = b.sort := by rw [← look_text, ← look_text, h]
  cases a <;> cases b <;>
    simp only [sort, Prod.mk.injEq, Option.some.injEq, reduceCtorEq, and_false, false_and] at hsort
  case int.int r s => rw [name_inj_int h]
  case float.float f g => rw [name_inj_float h]
  case number.number n k => rw [number_inj h]
  case place.place base offset base' offset' =>
    have htext := congrArg String.toList h
    rw [toList_place, toList_place] at htext
    obtain ⟨hoffset, hbase⟩ :=
      Text.eq_of_append_cons (notMem_bracket_number offset) (notMem_bracket_number offset') htext
    rw [number_inj (String.toList_inj.mp hoffset), name_inj_int (String.toList_inj.mp (List.append_cancel_right hbase))]
  case target.target l l' =>
    have htext := congrArg String.toList h
    rw [toList_target, toList_target, List.cons_inj_right, List.cons_inj_right] at htext
    have hindex : l.index = l'.index := Nat.repr_inj.mp (String.toList_inj.mp htext)
    exact congrArg target (congrArg Label.mk hindex)

end Argument

namespace Instr

variable {i j : Instr}

/-- The arguments of an instruction, as they are written. -/
def arguments : Instr → List Argument
  | li rd imm => [.int rd, .number imm.toInt]
  | addi rd rs imm | xori rd rs imm => [.int rd, .int rs, .number imm]
  | and rd rs₁ rs₂ | or rd rs₁ rs₂ => [.int rd, .int rs₁, .int rs₂]
  | ld r base offset | sd r base offset => [.int r, .place base offset]
  | fload _ f base offset | fstore _ f base offset => [.float f, .place base offset]
  | fmv _ fd rs => [.float fd, .int rs]
  | fcmp _ _ rd fs₁ fs₂ => [.int rd, .float fs₁, .float fs₂]
  | branch _ rs₁ rs₂ l => [.int rs₁, .int rs₂, .target l]
  | jump l => [.target l]
  | ecall | label _ => []

theorem operands_eq (i : Instr) : i.operands = commas (i.arguments.map Argument.text) := by
  cases i with
  | jump l => exact String.intercalate_singleton.symm
  | _ => rfl

/-- The instruction with a mnemonic and arguments. -/
def ofParts? : String → List Argument → Option Instr
  | "li", [.int rd, .number n] => some (.li rd (.ofInt n))
  | "addi", [.int rd, .int rs, .number n] => some (.addi rd rs n)
  | "xori", [.int rd, .int rs, .number n] => some (.xori rd rs n)
  | "and", [.int rd, .int rs₁, .int rs₂] => some (.and rd rs₁ rs₂)
  | "or", [.int rd, .int rs₁, .int rs₂] => some (.or rd rs₁ rs₂)
  | "ld", [.int rd, .place base offset] => some (.ld rd base offset)
  | "sd", [.int rs, .place base offset] => some (.sd rs base offset)
  | "flw", [.float fd, .place base offset] => some (.fload .single fd base offset)
  | "fld", [.float fd, .place base offset] => some (.fload .double fd base offset)
  | "fsw", [.float fs, .place base offset] => some (.fstore .single fs base offset)
  | "fsd", [.float fs, .place base offset] => some (.fstore .double fs base offset)
  | "fmv.w.x", [.float fd, .int rs] => some (.fmv .single fd rs)
  | "fmv.d.x", [.float fd, .int rs] => some (.fmv .double fd rs)
  | "feq.s", [.int rd, .float fs₁, .float fs₂] => some (.fcmp .feq .single rd fs₁ fs₂)
  | "feq.d", [.int rd, .float fs₁, .float fs₂] => some (.fcmp .feq .double rd fs₁ fs₂)
  | "flt.s", [.int rd, .float fs₁, .float fs₂] => some (.fcmp .flt .single rd fs₁ fs₂)
  | "flt.d", [.int rd, .float fs₁, .float fs₂] => some (.fcmp .flt .double rd fs₁ fs₂)
  | "fle.s", [.int rd, .float fs₁, .float fs₂] => some (.fcmp .fle .single rd fs₁ fs₂)
  | "fle.d", [.int rd, .float fs₁, .float fs₂] => some (.fcmp .fle .double rd fs₁ fs₂)
  | "beq", [.int rs₁, .int rs₂, .target l] => some (.branch .eq rs₁ rs₂ l)
  | "bne", [.int rs₁, .int rs₂, .target l] => some (.branch .ne rs₁ rs₂ l)
  | "blt", [.int rs₁, .int rs₂, .target l] => some (.branch .lt rs₁ rs₂ l)
  | "bge", [.int rs₁, .int rs₂, .target l] => some (.branch .ge rs₁ rs₂ l)
  | "j", [.target l] => some (.jump l)
  | "ecall", [] => some .ecall
  | _, _ => none

/-- An instruction is known by its mnemonic and its arguments. -/
theorem ofParts?_arguments (hi : i.isLabel = false) : ofParts? i.mnemonic i.arguments = some i := by
  cases i with
  | li rd imm => exact congrArg (fun n => some (Instr.li rd n)) (Int64.ofInt_toInt imm)
  | addi | xori | and | or | ld | sd | jump | ecall => rfl
  | fload w | fstore w | fmv w => cases w <;> rfl
  | fcmp test w => cases test <;> cases w <;> rfl
  | branch test => cases test <;> rfl
  | label => cases hi

theorem toList_commas (s t : String) (ss : List String) :
    (commas (s :: t :: ss)).toList = s.toList ++ ',' :: ' ' :: (commas (t :: ss)).toList := by
  rw [commas, String.intercalate_cons_cons, String.toList_append, String.toList_append, List.append_assoc]
  rfl

/-- Texts without a comma are known by what they are joined to. -/
theorem commas_inj {ss ts : List String} (hs : ∀ s ∈ ss, ',' ∉ s.toList) (ht : ∀ t ∈ ts, ',' ∉ t.toList)
    (hsne : ss ≠ []) (htne : ts ≠ []) (h : commas ss = commas ts) : ss = ts := by
  -- the comma of a longer list would be in the only text of a shorter one
  have hlonger {s t u : String} {us : List String} (hs : ',' ∉ s.toList) (h : commas [s] = commas (t :: u :: us)) :
      False := by
    have htext := congrArg String.toList h
    rw [toList_commas, commas, String.intercalate_singleton] at htext
    apply hs
    simp [htext]
  induction ss generalizing ts with
  | nil => exact absurd rfl hsne
  | cons s ss ih =>
    cases ts with
    | nil => exact absurd rfl htne
    | cons t ts =>
      obtain ⟨hshead, hss⟩ := List.forall_mem_cons.mp hs
      obtain ⟨hthead, hts⟩ := List.forall_mem_cons.mp ht
      cases ss with
      | nil =>
        cases ts with
        | nil => simpa [commas] using h
        | cons t' ts => exact (hlonger hshead h).elim
      | cons s' ss =>
        cases ts with
        | nil => exact (hlonger hthead h.symm).elim
        | cons t' ts =>
          have htext := congrArg String.toList h
          rw [toList_commas, toList_commas] at htext
          obtain ⟨hhead, htail⟩ := Text.eq_of_append_cons hshead hthead htext
          have hrest := String.toList_inj.mp (List.tail_eq_of_cons_eq htail)
          rw [String.toList_inj.mp hhead, ih hss hts (by simp) (by simp) hrest]

def mnemonics : List String :=
  ["li", "addi", "xori", "and", "or", "ld", "sd", "flw", "fld", "fsw", "fsd", "fmv.w.x", "fmv.d.x", "feq.s", "feq.d",
    "flt.s", "flt.d", "fle.s", "fle.d", "beq", "bne", "blt", "bge", "j", "ecall"]

theorem mnemonic_mem (hi : i.isLabel = false) : i.mnemonic ∈ mnemonics := by
  cases i with
  | li | addi | xori | and | or | ld | sd | jump | ecall => simp [mnemonics, mnemonic]
  | fload w | fstore w | fmv w => cases w <;> simp [mnemonics, mnemonic]
  | fcmp test w => cases test <;> cases w <;> simp [mnemonics, mnemonic, FloatTest.mnemonic, Width.suffix]
  | branch test => cases test <;> simp [mnemonics, mnemonic, BranchTest.mnemonic]
  | label => cases hi

/-- A mnemonic begins with a letter and has no blank in it. -/
theorem mnemonic_spelling (hi : i.isLabel = false) :
    i.mnemonic.toList.head?.any Char.isAlpha = true ∧ i.mnemonic.toList.all Argument.isChar = true := by
  have hall : ∀ s ∈ mnemonics, s.toList.head?.any Char.isAlpha = true ∧ s.toList.all Argument.isChar = true := by
    decide
  exact hall _ (mnemonic_mem hi)

theorem isChar_of_mem_mnemonic {c : Char} (hi : i.isLabel = false) (h : c ∈ i.mnemonic.toList) :
    Argument.isChar c = true :=
  List.all_eq_true.mp (mnemonic_spelling hi).2 c h

theorem arguments_ne_nil (hi : i.isLabel = false) (he : i ≠ .ecall) : i.arguments ≠ [] := by
  cases i with
  | ecall => exact absurd rfl he
  | label => cases hi
  | _ => exact List.cons_ne_nil _ _

theorem toList_text (hi : i.isLabel = false) (he : i ≠ .ecall) :
    i.text.toList = i.mnemonic.toList ++ ' ' :: (commas (i.arguments.map Argument.text)).toList := by
  have htext : i.text = i.mnemonic ++ " " ++ i.operands := by
    cases i with
    | ecall => exact absurd rfl he
    | label => cases hi
    | _ => rfl
  rw [htext, operands_eq, String.toList_append, String.toList_append, List.append_assoc]
  rfl

theorem exists_text (hi : i.isLabel = false) : ∃ tail, i.text.toList = i.mnemonic.toList ++ tail := by
  by_cases he : i = .ecall
  · exact ⟨[], by rw [he]; rfl⟩
  · exact ⟨_, toList_text hi he⟩

theorem exists_label (hi : i.isLabel = true) : ∃ l, i = .label l := by
  cases i with
  | label l => exact ⟨l, rfl⟩
  | _ => cases hi

theorem mem_text {c : Char} (hi : i.isLabel = false) (h : c ∈ i.text.toList) :
    Argument.isChar c = true ∨ c = ' ' ∨ c = ',' := by
  by_cases he : i = .ecall
  · subst he
    exact .inl (isChar_of_mem_mnemonic hi h)
  · rw [toList_text hi he, List.mem_append, List.mem_cons] at h
    rcases h with h | h | h
    · exact .inl (isChar_of_mem_mnemonic hi h)
    · exact .inr (.inl h)
    · rcases Text.mem_intercalate h with hc | ⟨s, hs, hc⟩
      · have hseparator : c = ',' ∨ c = ' ' := by simpa using hc
        exact .inr hseparator.symm
      · obtain ⟨a, -, rfl⟩ := List.mem_map.mp hs
        exact .inl (Argument.isChar_of_mem hc)

theorem notMem_text {c : Char} (hc : Argument.isChar c = false) (hblank : c ≠ ' ') (hcomma : c ≠ ',')
    (hi : i.isLabel = false) : c ∉ i.text.toList := by
  intro h
  rcases mem_text hi h with h | h | h
  · exact Bool.noConfusion (hc.symm.trans h)
  · exact hblank h
  · exact hcomma h

/-- An instruction is known by its text. -/
theorem text_inj (hi : i.isLabel = false) (hj : j.isLabel = false) (h : i.text = j.text) : i = j := by
  have hblank {k : Instr} (hk : k.isLabel = false) : ' ' ∉ k.mnemonic.toList :=
    fun hmem => absurd (isChar_of_mem_mnemonic hk hmem) (by decide)
  have hcomma (k : Instr) : ∀ s ∈ k.arguments.map Argument.text, ',' ∉ s.toList := by
    intro s hs
    obtain ⟨a, -, rfl⟩ := List.mem_map.mp hs
    exact Argument.notMem_text (by decide) a
  have htext := congrArg String.toList h
  by_cases hei : i = .ecall
  · by_cases hej : j = .ecall
    · rw [hei, hej]
    · -- what has arguments has a blank before them
      rw [toList_text hj hej, hei] at htext
      exact absurd (htext ▸ by simp : ' ' ∈ ecall.text.toList) (by decide)
  · by_cases hej : j = .ecall
    · rw [toList_text hi hei, hej] at htext
      exact absurd (htext ▸ by simp : ' ' ∈ ecall.text.toList) (by decide)
    · rw [toList_text hi hei, toList_text hj hej] at htext
      obtain ⟨hmnemonic, harguments⟩ := Text.eq_of_append_cons (hblank hi) (hblank hj) htext
      have hargs := commas_inj (hcomma i) (hcomma j) (mt List.map_eq_nil_iff.mp (arguments_ne_nil hi hei))
        (mt List.map_eq_nil_iff.mp (arguments_ne_nil hj hej)) (String.toList_inj.mp harguments)
      have hparts := ofParts?_arguments hi
      rw [String.toList_inj.mp hmnemonic, List.map_injective_iff.mpr Argument.text_injective hargs,
        ofParts?_arguments hj] at hparts
      exact (Option.some.inj hparts).symm

end Instr

/-- The hints that are printed with the code have no line feed in them. -/
def Routine.HintsInLine (r : Routine) : Prop :=
  ∀ l hint, .label l ∈ r.code → r.hint? l = some hint → '\n' ∉ hint.toList

namespace Style

variable {st : Style} {hint? hint?' : Label → Option String} {i j : Instr} {is js : List Instr} {r s : Routine}

/-- What stands behind a label. -/
@[simp] def remark (st : Style) : Option String → List Char
  | some hint => if st.comments then (st.indent.text ++ "# " ++ hint).toList else []
  | none => []

/-- What stands in the line of an instruction or label, if there are no colours. -/
@[simp] def content (st : Style) (hint? : Label → Option String) : Instr → List Char
  | .label l => l.text.toList ++ ':' :: st.remark (hint? l)
  | i => st.indent.text.toList ++ i.text.toList

/-- The lines of a routine, if there are no colours. -/
def routineLines (st : Style) (r : Routine) : List (List Char) :=
  (if st.directives then
    [(st.indent.text ++ ".text").toList, (st.indent.text ++ ".globl ").toList ++ r.name.toList] else []) ++
  (r.name.toList ++ [':']) :: r.code.map (st.content r.hint?)

theorem toList_line (st : Style) (s : String) : (st.line 0 s).toList = s.toList ++ ['\n'] ∧
    (st.line 1 s).toList = st.indent.text.toList ++ s.toList ++ ['\n'] := by
  simp [line]

theorem content_of_not_isLabel (hi : i.isLabel = false) :
    st.content hint? i = st.indent.text.toList ++ i.text.toList := by
  cases i with
  | label => cases hi
  | _ => rfl

theorem toList_instr (hst : st.colors = false) (hint? : Label → Option String) (i : Instr) :
    (st.instr hint? i).toList = st.content hint? i ++ ['\n'] := by
  have hpaint (c : Text.Color) (s : String) : st.paint c s = s := by simp [paint, Text.paintIf, hst]
  cases i with
  | label l =>
    cases hhint : hint? l with
    | none => simp [instr, hhint, hpaint, (toList_line st _).1]
    | some hint => cases hcomments : st.comments <;> simp [instr, hhint, hpaint, hcomments, (toList_line st _).1]
  | _ => simp [instr, hpaint, (toList_line st _).2, Instr.text]

theorem toList_code (hst : st.colors = false) (hint? : Label → Option String) (is : List Instr) :
    (st.code hint? is).toList = Text.unlines (is.map (st.content hint?)) := by
  rw [code, String.toList_join, Text.unlines, List.flatMap_map, List.flatMap_map]
  congr 1
  funext i
  exact toList_instr hst hint? i

theorem toList_routine (hst : st.colors = false) (r : Routine) :
    (st.routine r).toList = Text.unlines (st.routineLines r) := by
  have hname : st.paint .brightBlue (r.name ++ ":") = r.name ++ ":" := by simp [paint, Text.paintIf, hst]
  cases hdirectives : st.directives <;>
    simp [routine, routineLines, hdirectives, hname, toList_code hst, (toList_line st _).1, (toList_line st _).2]

theorem indent_spelling (ind : Indent) : ∀ c ∈ ind.text.toList, c = '\t' ∨ c = ' ' := by
  intro c hc
  cases ind with
  | tabs => exact .inl (List.mem_singleton.mp hc)
  | spaces n =>
    rw [Indent.text, String.toList_ofList] at hc
    exact .inr (List.eq_of_mem_replicate hc)

/-- Labels alone begin with a dot. -/
theorem head_content_ne (hi : i.isLabel = false) : (st.content hint? i).head? ≠ some '.' := by
  intro hdot
  rw [content_of_not_isLabel hi] at hdot
  cases hindent : st.indent.text.toList with
  | nil =>
    obtain ⟨c, hhead, hletter⟩ := (Option.any_eq_true _ _).mp (Instr.mnemonic_spelling hi).1
    obtain ⟨tail, htext⟩ := Instr.exists_text hi
    rw [hindent, htext, List.nil_append, List.head?_append, hhead, Option.some_or] at hdot
    rw [Option.some.inj hdot] at hletter
    exact absurd hletter (by decide)
  | cons c cs =>
    obtain rfl : c = '.' := by simpa [hindent] using hdot
    rcases indent_spelling st.indent '.' (hindent ▸ List.mem_cons_self) with h | h <;> exact absurd h (by decide)

theorem content_inj (h : st.content hint? i = st.content hint?' j) : i = j := by
  have hcolon (l : Label) : ':' ∉ l.text.toList := Argument.notMem_text (by decide) (.target l)
  have hdot (hint? : Label → Option String) (l : Label) : (st.content hint? (.label l)).head? = some '.' := by
    simp [Label.text]
  cases hi : i.isLabel with
  | true =>
    cases hj : j.isLabel with
    | true =>
      obtain ⟨l, rfl⟩ := Instr.exists_label hi
      obtain ⟨l', rfl⟩ := Instr.exists_label hj
      have htext := (Text.eq_of_append_cons (hcolon l) (hcolon l') h).1
      have hl : Argument.target l = .target l' := Argument.text_injective (String.toList_inj.mp htext)
      rw [Argument.target.inj hl]
    | false =>
      obtain ⟨l, rfl⟩ := Instr.exists_label hi
      exact absurd (h ▸ hdot hint? l) (head_content_ne hj)
  | false =>
    cases hj : j.isLabel with
    | true =>
      obtain ⟨l, rfl⟩ := Instr.exists_label hj
      exact absurd (h ▸ hdot hint?' l) (head_content_ne hi)
    | false =>
      rw [content_of_not_isLabel hi, content_of_not_isLabel hj] at h
      exact Instr.text_inj hi hj (String.toList_inj.mp (List.append_cancel_left h))

theorem map_content_inj (h : is.map (st.content hint?) = js.map (st.content hint?')) : is = js := by
  induction is generalizing js with
  | nil => exact (List.map_eq_nil_iff.mp h.symm).symm
  | cons i is ih =>
    cases js with
    | nil => simp at h
    | cons j js => rw [content_inj (List.head_eq_of_cons_eq h), ih (List.tail_eq_of_cons_eq h)]

theorem notMem_indent {c : Char} (htab : c ≠ '\t') (hblank : c ≠ ' ') (ind : Indent) : c ∉ ind.text.toList := by
  intro h
  rcases indent_spelling ind c h with h | h
  · exact htab h
  · exact hblank h

theorem notMem_content (h : ∀ l hint, i = .label l → st.comments = true → hint? l = some hint → '\n' ∉ hint.toList) :
    '\n' ∉ st.content hint? i := by
  intro hmem
  cases hi : i.isLabel with
  | true =>
    obtain ⟨l, rfl⟩ := Instr.exists_label hi
    rw [content, List.mem_append, List.mem_cons] at hmem
    rcases hmem with hmem | hmem | hmem
    · exact Argument.notMem_text (by decide) (.target l) hmem
    · exact absurd hmem (by decide)
    · cases hhint : hint? l with
      | none => simp [hhint] at hmem
      | some hint =>
        cases hcomments : st.comments with
        | false => simp [hhint, hcomments] at hmem
        | true =>
          have hindent := notMem_indent (c := '\n') (by decide) (by decide) st.indent
          have hline := h l hint rfl hcomments hhint
          simp [hhint, hcomments, hindent, hline] at hmem
  | false =>
    rw [content_of_not_isLabel hi, List.mem_append] at hmem
    rcases hmem with hmem | hmem
    · exact notMem_indent (by decide) (by decide) st.indent hmem
    · exact Instr.notMem_text (by decide) (by decide) (by decide) hi hmem

theorem notMem_routineLines (hname : '\n' ∉ r.name.toList) (hhints : st.comments = true → r.HintsInLine) :
    ∀ l ∈ st.routineLines r, '\n' ∉ l := by
  have hindent := notMem_indent (c := '\n') (by decide) (by decide) st.indent
  have hcode : ∀ l ∈ (r.name.toList ++ [':']) :: r.code.map (st.content r.hint?), '\n' ∉ l := by
    rw [List.forall_mem_cons, List.forall_mem_map]
    refine ⟨by simp [hname], fun i hi => notMem_content ?_⟩
    rintro l hint rfl hcomments hhint
    exact hhints hcomments l hint hi hhint
  intro l hl
  rw [routineLines, List.mem_append] at hl
  rcases hl with hl | hl
  · split at hl
    · simp only [List.mem_cons, List.not_mem_nil, or_false] at hl
      rcases hl with rfl | rfl <;> simp [hindent, hname]
    · cases hl
  · exact hcode l hl

/-- Where no hint has a line feed in it, or no hints are printed, the text of a routine that has an identifier for its
name tells the name and the code. -/
theorem routine_legible (hst : st.colors = false) {x y : Lexeme.Ident} (hr : r.name = x.name) (hs : s.name = y.name)
    (hhints : st.comments = true → r.HintsInLine ∧ s.HintsInLine) (h : st.routine r = st.routine s) :
    r.name = s.name ∧ r.code = s.code := by
  have hname {t : Routine} {z : Lexeme.Ident} (ht : t.name = z.name) : '\n' ∉ t.name.toList := ht ▸ z.notMem_name
  have htext := congrArg (Text.lines ∘ String.toList) h
  simp only [Function.comp_apply, toList_routine hst] at htext
  rw [Text.lines_unlines (notMem_routineLines (hname hr) fun hc => (hhints hc).1),
    Text.lines_unlines (notMem_routineLines (hname hs) fun hc => (hhints hc).2)] at htext
  -- both texts have the same directives, so what comes behind them is the same
  have hbehind : (r.name.toList ++ [':']) :: r.code.map (st.content r.hint?) =
      (s.name.toList ++ [':']) :: s.code.map (st.content s.hint?) := by
    refine (List.append_inj htext ?_).2
    split <;> rfl
  refine ⟨String.toList_inj.mp (List.append_cancel_right (List.head_eq_of_cons_eq hbehind)), ?_⟩
  exact map_content_inj (List.tail_eq_of_cons_eq hbehind)

/-- All is flush with the margin, a hint looks like a label, and the routines differ in the hint of a label that is in
neither. -/
theorem routine_legible_flush : ∃ (st : Style) (r s : Routine), st.indent = .spaces 0 ∧ r ≠ s ∧
    st.routine r = st.routine s ∧ r.name = s.name ∧ r.code = s.code := by
  let st : Style := { indent := .spaces 0 }
  let x : Lexeme.Ident := ⟨'f', ['0'], by decide, by decide, by decide⟩
  let r : Routine := { name := "f0", code := [.label ⟨0⟩, .li .a7 (-1), .sd .sp .sp (-8), .ecall], hints := [".L1:"] }
  let s : Routine := { r with hints := [".L1:", "\n"] }
  have hhints (t : Routine) (hcode : t.code = r.code) (hhint : t.hint? ⟨0⟩ = some ".L1:") : t.HintsInLine := by
    intro l hint hl hh
    obtain rfl : l = ⟨0⟩ := by simpa [hcode, r] using hl
    obtain rfl : ".L1:" = hint := Option.some.inj (hhint.symm.trans hh)
    decide
  have htext : st.routine r = st.routine s := by decide
  exact ⟨st, r, s, rfl, by decide, htext,
    routine_legible (x := x) (y := x) rfl rfl rfl (fun _ => ⟨hhints r rfl rfl, hhints s rfl rfl⟩) htext⟩

/-- A line feed in a hint is printed as it is, and what stands behind it is a line like any other. -/
theorem routine_illegible : ¬ ∀ (st : Style) (r s : Routine) (x y : Lexeme.Ident), st.colors = false →
    r.name = x.name → s.name = y.name → st.routine r = st.routine s → r.name = s.name ∧ r.code = s.code := by
  intro h
  let x : Lexeme.Ident := ⟨'m', ['a', 'i', 'n'], by decide, by decide, by decide⟩
  let r : Routine := { name := "main", code := [.label ⟨0⟩], hints := ["x\n\tecall"] }
  let s : Routine := { name := "main", code := [.label ⟨0⟩, .ecall], hints := ["x"] }
  have htext : ({} : Style).routine r = ({} : Style).routine s := by decide
  have hcode : r.code = s.code := (h {} r s x x rfl rfl rfl htext).2
  exact absurd hcode (by decide)

end Style
end Comparand
