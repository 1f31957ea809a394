import Comparand.Proofs.Acceptance
import Comparand.Proofs.Printing
import Comparand.Source.Outline

/-! The outline of a program and the kinds of its nodes are two accounts of one walk over its tree. -/
namespace Comparand

/-- A node of a tree: its kind, what is said of it besides, and the nodes below it. -/
inductive Node where
  | mk (kind : NodeKind) (details : List String) (below : List Node)

/-- What is met on a walk. -/
structure Visit where
  depth : Nat
  kind : NodeKind
  details : List String

/-- The line of an outline that a visit gives, without the line feed. -/
def Visit.line (v : Visit) : List Char :=
  List.replicate (2 * v.depth) ' ' ++ (String.intercalate " " (v.kind.name :: v.details)).toList

@[simp] theorem toList_outlineLine (depth : Nat) (kind : NodeKind) (details : List String) :
    (outlineLine depth kind details).toList = (Visit.mk depth kind details).line ++ ['\n'] := by
  simp [outlineLine, Visit.line]

namespace Node

mutual

/-- A node is met before the nodes below it, which are met from the first to the last. -/
def walk (depth : Nat) : Node → List Visit
  | .mk kind details below => ⟨depth, kind, details⟩ :: walkList (depth + 1) below

def walkList (depth : Nat) : List Node → List Visit
  | [] => []
  | n :: ns => n.walk depth ++ walkList depth ns

end

@[simp] theorem walk_mk (depth : Nat) (kind : NodeKind) (details : List String) (below : List Node) :
    (mk kind details below).walk depth = ⟨depth, kind, details⟩ :: walkList (depth + 1) below := by rw [walk]

@[simp] theorem walkList_nil (depth : Nat) : walkList depth [] = [] := by rw [walkList]

@[simp] theorem walkList_cons (depth : Nat) (n : Node) (ns : List Node) :
    walkList depth (n :: ns) = n.walk depth ++ walkList depth ns := by rw [walkList]

end Node

/-! The trees of programs -/

def Expr.node : Expr → Node
  | literal c => .mk .LITERAL [c.text] []
  | name x => .mk .NAME [x] []
  | deref x => .mk .IND [x] []
  | new ty => .mk .NEW [ty.name] []
  | compare op lhs rhs => .mk op.kind [] [lhs.node, rhs.node]
  | not e => .mk .NOT [] [e.node]
  | neg e => .mk .MINUS [] [e.node]
  | paren e => .mk .PAREN [] [e.node]

namespace Stmt

mutual

/-- A store has a node of its own for the place that it goes to, and each branch has one for its block. -/
def node : Stmt → Node
  | .define x e | .assign x e => .mk .AS [x] [e.node]
  | .store x e => .mk .AS [] [.mk .IND [x] [], e.node]
  | .var x ty none => .mk .DCL [x, ty.name] []
  | .var x ty (some e) => .mk .DCL [x, ty.name] [e.node]
  | .inc x => .mk .INC [x] []
  | .dec x => .mk .DEC [x] []
  | .cond test body none => .mk .IF [] [test.node, .mk .BLOCK [] (nodes body)]
  | .cond test body (some otherwise) =>
    .mk .IF [] [test.node, .mk .BLOCK [] (nodes body), .mk .BLOCK [] (nodes otherwise)]
  | .exit e => .mk .RISCVEXIT [] [e.node]

def nodes : List Stmt → List Node
  | [] => []
  | s :: ss => s.node :: nodes ss

end

end Stmt

def Program.node (p : Program) : Node := .mk .DCLFUNC [p.name] [.mk .BLOCK [] (Stmt.nodes p.body)]

/-! Both accounts follow the walk -/

theorem Expr.kinds_eq_walk (e : Expr) (depth : Nat) : e.kinds = (e.node.walk depth).map Visit.kind := by
  induction e generalizing depth with
  | compare op lhs rhs ihl ihr => simp [kinds, node, ihl (depth + 1), ihr (depth + 1)]
  | not e ih | neg e ih | paren e ih => simp [kinds, node, ih (depth + 1)]
  | _ => simp [kinds, kind, node]

theorem Expr.outline_eq_walk (e : Expr) (depth : Nat) :
    (e.outline depth).toList = Text.unlines ((e.node.walk depth).map Visit.line) := by
  induction e generalizing depth with
  | compare op lhs rhs ihl ihr => simp [outline, node, ihl, ihr]
  | not e ih | neg e ih | paren e ih => simp [outline, node, ih]
  | _ => simp [outline, node]

namespace Stmt

mutual

theorem kinds_eq_walk (s : Stmt) (depth : Nat) : s.kinds = (s.node.walk depth).map Visit.kind := by
  cases s with
  | var x ty init =>
    cases init with
    | none => simp [kinds, node]
    | some e => simp [kinds, node, e.kinds_eq_walk (depth + 1)]
  | cond test body otherwise =>
    have htest := test.kinds_eq_walk (depth + 1)
    have hbody := listKinds_eq_walk body (depth + 2)
    cases otherwise with
    | none => simp [kinds, node, htest, hbody]
    | some otherwise =>
      have hotherwise := listKinds_eq_walk otherwise (depth + 2)
      simp [kinds, node, htest, hbody, hotherwise]
  | inc x | dec x => simp [kinds, node]
  | define x e | assign x e | store x e | exit e => simp [kinds, node, e.kinds_eq_walk (depth + 1)]

theorem listKinds_eq_walk (ss : List Stmt) (depth : Nat) :
    listKinds ss = (Node.walkList depth (nodes ss)).map Visit.kind := by
  cases ss with
  | nil => rfl
  | cons s ss => simp [listKinds, nodes, kinds_eq_walk s depth, listKinds_eq_walk ss depth]

end

mutual

theorem outline_eq_walk (s : Stmt) (depth : Nat) :
    (s.outline depth).toList = Text.unlines ((s.node.walk depth).map Visit.line) := by
  cases s with
  | var x ty init =>
    cases init with
    | none => simp [outline, node]
    | some e => simp [outline, node, e.outline_eq_walk]
  | cond test body otherwise =>
    have hbody := listOutline_eq_walk body (depth + 2)
    cases otherwise with
    | none => simp [outline, node, test.outline_eq_walk, hbody]
    | some otherwise =>
      have hotherwise := listOutline_eq_walk otherwise (depth + 2)
      simp [outline, node, test.outline_eq_walk, hbody, hotherwise]
  | inc x | dec x => simp [outline, node]
  | define x e | assign x e | store x e | exit e => simp [outline, node, e.outline_eq_walk]

theorem listOutline_eq_walk (ss : List Stmt) (depth : Nat) :
    (listOutline depth ss).toList = Text.unlines ((Node.walkList depth (nodes ss)).map Visit.line) := by
  cases ss with
  | nil => rfl
  | cons s ss => simp [listOutline, nodes, outline_eq_walk s depth, listOutline_eq_walk ss depth]

end

end Stmt

/-! How the walk goes up and down -/

/-- A walk starts at a depth and never comes above it, and from one visit to the next it goes down one level at most. -/
structure Descends (depth : Nat) (vs : List Visit) : Prop where
  starts : ∀ v ∈ vs.head?, v.depth = depth
  deep : ∀ v ∈ vs, depth ≤ v.depth
  chain : vs.IsChain fun v w => w.depth ≤ v.depth + 1

namespace Descends

variable {depth : Nat} {vs ws : List Visit}

theorem nil : Descends depth [] := ⟨by simp, by simp, .nil⟩

theorem append (hv : Descends depth vs) (hw : Descends depth ws) : Descends depth (vs ++ ws) where
  starts := by
    cases vs with
    | nil => exact hw.starts
    | cons v vs => exact hv.starts
  deep := by
    intro v hmem
    rcases List.mem_append.mp hmem with hmem | hmem
    · exact hv.deep v hmem
    · exact hw.deep v hmem
  chain := by
    refine hv.chain.append hw.chain fun v hlast w hhead => ?_
    have hdeep := hv.deep v (List.mem_of_getLast? hlast)
    have hstart := hw.starts w hhead
    omega

theorem cons (h : Descends (depth + 1) vs) (kind : NodeKind) (details : List String) :
    Descends depth (⟨depth, kind, details⟩ :: vs) where
  starts := by simp
  deep := by
    intro v hmem
    rcases List.mem_cons.mp hmem with rfl | hmem
    · exact Nat.le_refl _
    · exact Nat.le_of_succ_le (h.deep v hmem)
  chain := List.isChain_cons.mpr ⟨fun w hhead => (h.starts w hhead).le, h.chain⟩

end Descends

namespace Node

mutual

theorem walk_descends (depth : Nat) (n : Node) : Descends depth (n.walk depth) := by
  cases n with
  | mk kind details below =>
    rw [walk_mk]
    exact (walkList_descends (depth + 1) below).cons kind details

theorem walkList_descends (depth : Nat) (ns : List Node) : Descends depth (walkList depth ns) := by
  cases ns with
  | nil => exact .nil
  | cons n ns =>
    rw [walkList_cons]
    exact (walk_descends depth n).append (walkList_descends depth ns)

end

/-- No line feed is in what is said of a node or of any below it. -/
def InLine (n : Node) : Prop := ∀ depth, ∀ v ∈ n.walk depth, ∀ s ∈ v.details, '\n' ∉ s.toList

theorem mem_walkList {depth : Nat} {v : Visit} {ns : List Node} :
    v ∈ walkList depth ns ↔ ∃ n ∈ ns, v ∈ n.walk depth := by
  induction ns with
  | nil => simp
  | cons n ns ih => simp [ih]

theorem InLine.mk {kind : NodeKind} {details : List String} {below : List Node}
    (hdetails : ∀ s ∈ details, '\n' ∉ s.toList) (hbelow : ∀ n ∈ below, n.InLine) : (mk kind details below).InLine := by
  intro depth v hv
  rw [walk_mk] at hv
  rcases List.mem_cons.mp hv with rfl | hv
  · exact hdetails
  · obtain ⟨n, hn, hv⟩ := mem_walkList.mp hv
    exact hbelow n hn _ v hv

end Node

/-! What programs that are read say of their nodes -/

namespace Decimal

theorem notMem_zeros (n : Nat) : '\n' ∉ (zeros n).toList := by
  intro h
  rw [zeros, String.toList_ofList] at h
  exact absurd (List.eq_of_mem_replicate h) (by decide)

namespace Layout

variable {l : Layout} {ds : List Char}

theorem notMem_place (hds : '\n' ∉ ds) (x : Int) : '\n' ∉ (l.place ds x).toList := by
  have htake (n : Nat) : '\n' ∉ ds.take n := fun h => hds (List.mem_of_mem_take h)
  have hdrop (n : Nat) : '\n' ∉ ds.drop n := fun h => hds (List.mem_of_mem_drop h)
  simp only [place]
  split_ifs <;> simp [notMem_zeros, hds, htake, hdrop]

theorem notMem_raised (hds : '\n' ∉ ds) (x : Int) : '\n' ∉ (l.raised ds x).toList := by
  have htake : '\n' ∉ ds.take 1 := fun h => hds (List.mem_of_mem_take h)
  have htail : '\n' ∉ ds.tail := fun h => hds (List.mem_of_mem_tail h)
  have hx : '\n' ∉ x.repr.toList := Text.notMem_toString_int (by decide) (by decide) x
  simp only [raised]
  split_ifs <;> simp [htake, htail, hx]

theorem notMem_write (l : Layout) (v : Binary64) : '\n' ∉ (l.write v).toList := by
  have hds (n : Nat) : '\n' ∉ Nat.toDigits 10 n := by
    intro h
    exact absurd (Nat.isDigit_of_mem_toDigits (by decide) (by decide) h) (by decide)
  have hzero : '\n' ∉ (l.place ['0'] 0).toList := notMem_place (by decide) 0
  simp only [write]
  split_ifs <;> simp [hzero, notMem_place, notMem_raised, hds]

end Layout

end Decimal

theorem Constant.notMem_text (c : Constant) : '\n' ∉ c.text.toList := by
  cases c with
  | int v => exact Text.notMem_toString_int (by decide) (by decide) _
  | float v =>
    have hwrite := Decimal.Layout.general.notMem_write v
    rw [text, Decimal.Layout.writeAny]
    split_ifs <;> simp [hwrite]

theorem Scalar.notMem_name (ty : Scalar) : '\n' ∉ ty.name.toList := by
  cases ty <;> decide

namespace Concrete

open Node

mutual

theorem Term.inLine (t : Term) : t.ast.node.InLine := by
  cases t with
  | new ty => exact .mk (by simp [ty.notMem_name]) (by simp)
  | deref x | name x => exact .mk (by simp [x.notMem_name]) (by simp)
  | float t => exact .mk (by simp [Constant.notMem_text]) (by simp)
  | int n => exact .mk (by simp [Constant.notMem_text]) (by simp)
  | nan | inf => exact .mk (by simp [Constant.notMem_text]) (by simp)
  | paren e => exact .mk (by simp) (by simp [e.inLine])
  | not t => exact .mk (by simp) (by simp [t.inLine])
  | neg t =>
    rw [Term.ast]
    split
    · exact .mk (by simp [Constant.notMem_text]) (by simp)
    · exact .mk (by simp) (by simp [t.inLine])

theorem Expr.inLine (e : Expr) : e.ast.node.InLine := by
  cases e with
  | term t => exact t.inLine
  | compare op lhs rhs => exact .mk (by simp) (by simp [lhs.inLine, rhs.inLine])

end

mutual

theorem Stmt.inLine (s : Stmt) : s.ast.node.InLine := by
  cases s with
  | define x e | assign x e => exact .mk (by simp [x.notMem_name]) (by simp [e.inLine])
  | var x ty init =>
    cases init with
    | none => exact .mk (by simp [x.notMem_name, ty.notMem_name]) (by simp)
    | some e => exact .mk (by simp [x.notMem_name, ty.notMem_name]) (by simp [e.inLine])
  | store x e =>
    have htarget : (mk .IND [x.name] []).InLine := .mk (by simp [x.notMem_name]) (by simp)
    exact .mk (by simp) (by simp [htarget, e.inLine])
  | inc x | dec x => exact .mk (by simp [x.notMem_name]) (by simp)
  | cond b => exact b.inLine
  | exit e => exact .mk (by simp) (by simp [e.inLine])

theorem Branch.inLine (b : Branch) : b.ast.node.InLine := by
  cases b with
  | mk test body otherwise =>
    have hbody : (mk .BLOCK [] (Comparand.Stmt.nodes body.ast)).InLine := .mk (by simp) body.inLine
    rw [Branch.ast]
    cases hotherwise : otherwise.ast with
    | none => exact .mk (by simp) (by simp [test.inLine, hbody])
    | some ss =>
      have hss : (mk .BLOCK [] (Comparand.Stmt.nodes ss)).InLine := .mk (by simp) (otherwise.inLine ss hotherwise)
      exact .mk (by simp) (by simp [test.inLine, hbody, hss])

theorem Alternative.inLine (a : Alternative) : ∀ ss ∈ a.ast, ∀ n ∈ Comparand.Stmt.nodes ss, n.InLine := by
  cases a with
  | none => simp [Alternative.ast]
  | block body => simpa [Alternative.ast] using body.inLine
  | chain b => simpa [Alternative.ast, Comparand.Stmt.nodes] using b.inLine

theorem Block.inLine (b : Block) : ∀ n ∈ Comparand.Stmt.nodes b.ast, n.InLine := by
  cases b with
  | nil => simp [Block.ast, Comparand.Stmt.nodes]
  | cons s semicolon rest =>
    rw [Block.ast, Comparand.Stmt.nodes, List.forall_mem_cons]
    exact ⟨s.inLine, rest.inLine⟩

end

end Concrete

/-! Lines -/

namespace Text

/-- The number of blanks that a line begins with. -/
def indentation (l : List Char) : Nat := (l.takeWhile (· == ' ')).length

/-- The first word of a line, behind its indentation. -/
def firstWord (l : List Char) : List Char := (l.dropWhile (· == ' ')).takeWhile (!·.isWhitespace)

end Text

namespace NodeKind

theorem name_spelling (k : NodeKind) : (!k.name.isEmpty && k.name.toList.all (!·.isWhitespace)) = true := by
  cases k <;> decide +kernel

theorem name_word (k : NodeKind) : ∀ c ∈ k.name.toList, (!c.isWhitespace) = true := by
  have hspelling := k.name_spelling
  rw [Bool.and_eq_true] at hspelling
  exact List.all_eq_true.mp hspelling.2

theorem stops_name (k : NodeKind) (tail : List Char) : Lexeme.Stops (· == ' ') (k.name.toList ++ tail) := by
  have hspelling := k.name_spelling
  cases hname : k.name.toList with
  | nil => simp [String.toList_eq_nil_iff.mp hname] at hspelling
  | cons d ds =>
    intro c hc
    obtain rfl : d = c := by simpa using hc
    have hword := k.name_word d (by simp [hname])
    rw [beq_eq_false_iff_ne]
    rintro rfl
    exact absurd hword (by decide)

end NodeKind

namespace Visit

variable {v : Visit}

theorem exists_line (v : Visit) : ∃ tail, v.line = List.replicate (2 * v.depth) ' ' ++ (v.kind.name.toList ++ tail) ∧
    Lexeme.Stops (!·.isWhitespace) tail := by
  cases hdetails : v.details with
  | nil => exact ⟨[], by simp [line, hdetails], by simp [Lexeme.Stops]⟩
  | cons s ss =>
    refine ⟨' ' :: (String.intercalate " " (s :: ss)).toList, ?_, by simp [Lexeme.Stops]⟩
    simp [line, hdetails, String.intercalate_cons_cons]

theorem blank_replicate (n : Nat) : ∀ c ∈ List.replicate n ' ', (c == ' ') = true := by
  intro c hc
  rw [List.eq_of_mem_replicate hc]
  rfl

theorem indentation_line (v : Visit) : Text.indentation v.line = 2 * v.depth := by
  obtain ⟨tail, hline, -⟩ := v.exists_line
  rw [hline, Text.indentation, (v.kind.stops_name tail).takeWhile_append (blank_replicate _), List.length_replicate]

theorem firstWord_line (v : Visit) : Text.firstWord v.line = v.kind.name.toList := by
  obtain ⟨tail, hline, htail⟩ := v.exists_line
  rw [hline, Text.firstWord, (v.kind.stops_name tail).dropWhile_append (blank_replicate _),
    htail.takeWhile_append v.kind.name_word]

theorem notMem_line (h : ∀ s ∈ v.details, '\n' ∉ s.toList) : '\n' ∉ v.line := by
  intro hmem
  rcases List.mem_append.mp hmem with hmem | hmem
  · exact absurd (List.eq_of_mem_replicate hmem) (by decide)
  · rcases Text.mem_intercalate hmem with hmem | ⟨s, hs, hmem⟩
    · exact absurd hmem (by decide)
    · rcases List.mem_cons.mp hs with rfl | hs
      · exact absurd (v.kind.name_word _ hmem) (by decide)
      · exact h s hs hmem

end Visit

namespace Program

variable {source : String} {p : Program}

theorem kinds_eq_walk (p : Program) : p.kinds = (p.node.walk 0).map Visit.kind := by
  simp [kinds, node, Stmt.listKinds_eq_walk p.body 2]

theorem outline_eq_walk (p : Program) : p.outline.toList = Text.unlines ((p.node.walk 0).map Visit.line) := by
  simp [outline, node, Stmt.listOutline_eq_walk p.body 2]

theorem inLine_of_parse (h : parse source = .ok p) : p.node.InLine := by
  have hfits : fits source = true := fits_of_parse fun e he => by rw [h] at he; cases he
  obtain ⟨q, ss, rest, -, -, -, -, hparse⟩ := parse_of_fits hfits
  rw [h] at hparse
  cases hbad : firstBad false ss with
  | some bad =>
    rw [hbad] at hparse
    cases hparse
  | none =>
    rw [hbad] at hparse
    cases hparse
    have hblock : (Node.mk .BLOCK [] (Stmt.nodes q.body.ast)).InLine := .mk (by simp) q.body.inLine
    exact .mk (by simp [Concrete.Program.ast, q.name.notMem_name]) (by simpa [Concrete.Program.ast] using hblock)

/-- The outline of a program that is read has a line for each of its nodes in pre-order. The line begins with two blanks
for each level that the node is below the top, and its first word is the name of the kind that the list of kinds has in
the same place. So it is indented by one level more than the line before, at most. -/
theorem outline_lines (h : parse source = .ok p) :
    Text.unlines (Text.lines p.outline.toList) = p.outline.toList ∧
    (Text.lines p.outline.toList).length = p.kinds.length ∧
    (Text.lines p.outline.toList).map Text.firstWord = p.kinds.map (·.name.toList) ∧
    (p.node.walk 0).map Visit.kind = p.kinds ∧
    (Text.lines p.outline.toList).map Text.indentation = (p.node.walk 0).map (2 * ·.depth) ∧
    ((Text.lines p.outline.toList).map Text.indentation).IsChain (fun a b => b ≤ a + 2) := by
  have hlines : Text.lines p.outline.toList = (p.node.walk 0).map Visit.line := by
    rw [outline_eq_walk]
    refine Text.lines_unlines (List.forall_mem_map.mpr fun v hv => ?_)
    exact Visit.notMem_line (inLine_of_parse h 0 v hv)
  have hindentation : (Text.lines p.outline.toList).map Text.indentation = (p.node.walk 0).map (2 * ·.depth) := by
    rw [hlines, List.map_map]
    exact List.map_congr_left fun v _ => v.indentation_line
  refine ⟨by rw [hlines, outline_eq_walk], by rw [hlines, kinds_eq_walk, List.length_map, List.length_map], ?_,
    p.kinds_eq_walk.symm, hindentation, ?_⟩
  · rw [hlines, kinds_eq_walk, List.map_map, List.map_map]
    exact List.map_congr_left fun v _ => v.firstWord_line
  · rw [hindentation, List.isChain_map]
    refine (p.node.walk_descends 0).chain.imp fun v w hstep => ?_
    omega

/-- A store, a declaration without a value and an `if` behind an `else`, deep down and back up again. -/
def nested : String :=
  "func f() \x7b\n\tvar x float64\n\tp := new(int)\n\t*p = -1.5e300\n\tif !(x < NaN) \x7b\n\t\tx++\n\t\x7d" ++
  " else if 0 == x \x7b\n\t\x7d\n\triscvexit(0)\n\x7d\n"

theorem outline_lines_nested : ∃ p, parse nested = .ok p ∧ p.kinds.length = 25 ∧
    (Text.lines p.outline.toList).length = 25 ∧
    (Text.lines p.outline.toList).map Text.firstWord = p.kinds.map (·.name.toList) ∧
    ((Text.lines p.outline.toList).map Text.indentation).IsChain (fun a b => b ≤ a + 2) := by
  have hparse : (parse nested).toOption.any (fun p => p.kinds.length = 25) = true := by decide +kernel
  obtain ⟨p, hparse, hlength⟩ := ok_of_any hparse
  have hkinds := of_decide_eq_true hlength
  obtain ⟨-, hcount, hwords, -, -, hchain⟩ := outline_lines hparse
  exact ⟨p, hparse, hkinds, hcount.trans hkinds, hwords, hchain⟩

end Program

end Comparand
