import MinRuby.Proofs.Data.Printed
import MinRuby.Proofs.Syntax.Definitions
import MinRuby.Proofs.Syntax.Numerals
import MinRuby.Proofs.Syntax.StringLiteral
import MinRuby.Proofs.Text.Lines
import MinRuby.Syntax.Outline

/-!
# Outlines tell trees apart

The outline of a program has one line for each node of its tree, in preorder. The depth of a line says where the branches
of a node end, and what a line shows behind its indentation is the tag and the names or the value of the node, so the tree
can be read back from the lines.

* `Node.preorder` — the nodes of a tree with their depths.
* `outlineLines_toData` — the lines of a tree.
* `eq_of_lines_eq` — trees with the same lines.
* `outline_preorder_and_injective` — the outline of a program.
-/

namespace MinRuby.Syntax

open MinRuby.Text (splitLines splitLines_flatMap quoted quoted_append_inj feed_not_mem_quoted)
open MinRuby.Numeric (eq_of_append_mark)

namespace Node

/-! ## Nodes in preorder -/

/-- The trees below the line of a tree. The body of a definition is one of them. -/
def branches : Node → List Node
  | funcDef _ _ body => [body]
  | n => n.children

theorem sizeOf_lt_of_mem_branches {c n : Node} (h : c ∈ n.branches) : sizeOf c < sizeOf n := by
  cases n with
  | funcDef f params body =>
    obtain rfl := List.mem_singleton.mp h
    simp only [funcDef.sizeOf_spec]
    omega
  | _ => exact sizeOf_lt_of_mem_children h

/-- What a tree has if its branches have it, every tree has. -/
@[elab_as_elim]
theorem branches_induction {motive : Node → Prop} (step : ∀ n : Node, (∀ c ∈ n.branches, motive c) → motive n) (n : Node) :
    motive n :=
  step n fun c _ => branches_induction step c
termination_by n
decreasing_by exact sizeOf_lt_of_mem_branches ‹_›

/-- The nodes of a tree at a depth, each before its branches, which are one level deeper. -/
def preorder (depth : Nat) (n : Node) : List (Nat × Node) :=
  (depth, n) :: n.branches.attach.flatMap fun c => c.1.preorder (depth + 1)
termination_by n
decreasing_by exact sizeOf_lt_of_mem_branches c.2

theorem preorder_eq (depth : Nat) (n : Node) :
    n.preorder depth = (depth, n) :: n.branches.flatMap fun c => c.preorder (depth + 1) := by
  rw [preorder, List.flatMap_subtype (g := fun c => c.preorder (depth + 1)) (fun _ _ => rfl), List.unattach_attach]

/-- What stands beside the tag in the line of a node: its value, or its names. -/
def beside : Node → List Data
  | lit value => [value]
  | varAssign x _ => [.str x]
  | varRef x => [.str x]
  | funcDef f params _ => [.str f, .list (params.map .str)]
  | funcCall f _ => [.str f]
  | _ => []

/-- The line of a node without its indentation. -/
def heading (n : Node) : String := " ".intercalate (n.tag.bareText :: n.beside.map Data.text)

/-- The lines of a tree at a depth. -/
def lines (depth : Nat) (n : Node) : List OutlineLine := (n.preorder depth).map fun p => ⟨p.1, p.2.heading⟩

theorem lines_eq (depth : Nat) (n : Node) :
    n.lines depth = ⟨depth, n.heading⟩ :: n.branches.flatMap (lines (depth + 1)) := by
  rw [lines, preorder_eq, List.map_cons, List.map_flatMap]
  rfl

theorem toDataAll_eq_map (ns : List Node) : toDataAll ns = ns.map toData := by
  induction ns with
  | nil => rfl
  | cons n rest ih => rw [toDataAll, ih, List.map_cons]

theorem Proper.toData_eq {n : Node} (h : n.Proper) : n.toData = .list (n.tag :: (n.beside ++ n.branches.map toData)) := by
  cases n with
  | stmts body | funcCall f args | aryNew items | hashNew items => simp only [toData, toDataAll_eq_map]; rfl
  | unknown tag => exact h.elim
  | scalar => exact h.elim
  | broken => exact h.elim
  | _ => rfl

theorem Proper.of_mem_branches {c n : Node} (h : n.Proper) (hc : c ∈ n.branches) : c.Proper := by
  cases n <;> simp only [branches, children, List.mem_cons, List.not_mem_nil, or_false] at hc <;>
    simp only [Proper, properAll_iff] at h <;> grind

theorem Legible.of_mem_branches {c n : Node} (h : n.Legible) (hc : c ∈ n.branches) : c.Legible := by
  cases n <;> simp only [branches, children, List.mem_cons, List.not_mem_nil, or_false] at hc <;>
    simp only [Legible, legibleAll_iff] at h <;> grind

/-- The tag is one of the vocabulary. -/
theorem Proper.tag_eq {n : Node} (h : n.Proper) : n.tag = .str n.tag.bareText ∧ n.tag.bareText ∈ tags := by
  have hsymbol (op : BinaryOp) : op.symbol ∈ tags := by cases op <;> decide
  cases n with
  | binary op left right => exact ⟨rfl, hsymbol op⟩
  | unknown tag => exact h.elim
  | scalar => exact h.elim
  | broken => exact h.elim
  | _ => simp [tag, tags, Data.bareText]

theorem Proper.of_mem_preorder {n : Node} (h : n.Proper) {depth : Nat} {p : Nat × Node} (hp : p ∈ n.preorder depth) :
    p.2.Proper := by
  induction n using branches_induction generalizing depth with
  | step n ih =>
    rw [preorder_eq] at hp
    rcases List.mem_cons.mp hp with rfl | hp
    · exact h
    · obtain ⟨c, hc, hp⟩ := List.mem_flatMap.mp hp
      exact ih c hc (h.of_mem_branches hc) hp

/-! ## What stands beside a tag -/

/-- What can stand beside a tag: nothing, one scalar, or a name with parameters. -/
inductive IsBeside : List Data → Prop where
  | nothing : IsBeside []
  | scalar {d : Data} (h : d.IsScalar) : IsBeside [d]
  | names (f : String) (params : List String) : IsBeside [.str f, .list (params.map .str)]

theorem Proper.isBeside {n : Node} (h : n.Proper) : IsBeside n.beside := by
  cases n with
  | lit value => exact .scalar h
  | varAssign x _ | varRef x | funcCall x _ => exact @IsBeside.scalar (.str x) trivial
  | funcDef f params _ => exact .names f params
  | _ => exact .nothing

/-- The texts of what stands beside a tag, with a blank behind each. -/
def besideText (ds : List Data) : List Char := ds.flatMap fun d => d.text.toList ++ [' ']

theorem besideText_scalar (d : Data) : besideText [d] = d.text.toList ++ [' '] := by simp [besideText]

theorem besideText_names (f : String) (params : List String) :
    besideText [.str f, .list (params.map .str)] = quoted f.toList ++ ' ' :: Data.namesText params ++ [' '] := by
  simp [besideText, Data.toList_text_str, Data.toList_text_names]

/-- No scalar has the text of a name with parameters. -/
theorem text_ne_names {d : Data} (h : d.IsScalar) (f : String) (params : List String) :
    d.text.toList ≠ quoted f.toList ++ ' ' :: Data.namesText params := by
  intro heq
  have hkind : d.scalarKind = .str := by rw [← Data.textKind_text h, heq, Data.textKind_quoted]
  cases d with
  | str s =>
    rw [Data.toList_text_str, ← List.append_nil (quoted s.toList)] at heq
    cases (quoted_append_inj heq).2
  | list _ | tuple _ | mapping _ => exact h.elim
  | _ => cases hkind

theorem besideText_injective {ds es : List Data} (hd : IsBeside ds) (he : IsBeside es) (h : besideText ds = besideText es) :
    ds = es := by
  cases hd with
  | nothing =>
    cases he with
    | nothing => rfl
    | scalar _ => simp [besideText] at h
    | names f params => simp [besideText] at h
  | @scalar d hd =>
    cases he with
    | nothing => simp [besideText] at h
    | scalar he =>
      rw [besideText_scalar, besideText_scalar] at h
      rw [Data.text_scalar_injective hd he (String.toList_inj.mp (List.append_cancel_right h))]
    | names f params =>
      rw [besideText_scalar, besideText_names] at h
      exact absurd (List.append_cancel_right h) (text_ne_names hd f params)
  | names f params =>
    cases he with
    | nothing => simp [besideText] at h
    | scalar he =>
      rw [besideText_scalar, besideText_names] at h
      exact absurd (List.append_cancel_right h).symm (text_ne_names he f params)
    | names g params' =>
      rw [besideText_names, besideText_names] at h
      obtain ⟨hname, hparams⟩ := quoted_append_inj (List.append_cancel_right h)
      rw [String.toList_inj.mp hname, Data.namesText_injective (List.cons.inj hparams).2]

theorem feed_not_mem_besideText {ds : List Data} (h : IsBeside ds) : '\n' ∉ besideText ds := by
  cases h with
  | nothing => exact List.not_mem_nil
  | scalar h => simp [besideText_scalar, Data.feed_not_mem_text_scalar h]
  | names f params => simp [besideText_names, feed_not_mem_quoted, Data.feed_not_mem_namesText]

/-! ## The heading -/

/-- Texts with a mark between them, once one more mark is put behind them. -/
theorem intercalate_append_mark {α : Type} (mark : α) (x : List α) (xs : List (List α)) :
    [mark].intercalate (x :: xs) ++ [mark] = x ++ mark :: xs.flatMap (· ++ [mark]) := by
  induction xs generalizing x with
  | nil => rw [List.intercalate_singleton, List.flatMap_nil]
  | cons y rest ih =>
    rw [List.intercalate_cons_cons, List.append_assoc, List.append_assoc, ih, List.flatMap_cons, List.append_assoc]
    rfl

theorem heading_append_blank (n : Node) :
    n.heading.toList ++ [' '] = n.tag.bareText.toList ++ ' ' :: besideText n.beside := by
  have htexts : (n.beside.map Data.text).map String.toList = n.beside.map fun d => d.text.toList := List.map_map
  rw [heading, String.toList_intercalate, List.map_cons, htexts]
  refine (intercalate_append_mark ' ' _ _).trans ?_
  rw [List.flatMap_map]
  rfl

theorem tag_chars : ∀ t ∈ tags, ' ' ∉ t.toList ∧ '\n' ∉ t.toList ∧ t.toList ≠ [] := by decide

theorem Proper.heading_injective {n m : Node} (hn : n.Proper) (hm : m.Proper) (h : n.heading = m.heading) :
    n.tag = m.tag ∧ n.beside = m.beside := by
  obtain ⟨hntag, hnmem⟩ := hn.tag_eq
  obtain ⟨hmtag, hmmem⟩ := hm.tag_eq
  have heq : n.tag.bareText.toList ++ ' ' :: besideText n.beside = m.tag.bareText.toList ++ ' ' :: besideText m.beside := by
    rw [← heading_append_blank, h, heading_append_blank]
  obtain ⟨htag, hbeside⟩ := eq_of_append_mark (tag_chars _ hnmem).1 (tag_chars _ hmmem).1 heq
  exact ⟨by rw [hntag, hmtag, String.toList_inj.mp htag], besideText_injective hn.isBeside hm.isBeside hbeside⟩

theorem Proper.feed_not_mem_heading {n : Node} (h : n.Proper) : '\n' ∉ n.heading.toList := by
  intro hmem
  have hall : '\n' ∈ n.heading.toList ++ [' '] := List.mem_append_left _ hmem
  rw [heading_append_blank] at hall
  rcases List.mem_append.mp hall with htag | hrest
  · exact (tag_chars _ h.tag_eq.2).2.1 htag
  · rcases List.mem_cons.mp hrest with hblank | hbeside
    · exact absurd hblank (by decide)
    · exact feed_not_mem_besideText h.isBeside hbeside

/-- A heading begins with no blank. -/
theorem Proper.head_heading {n : Node} (h : n.Proper) : n.heading.toList.head? ≠ some ' ' := by
  obtain ⟨hblank, -, hne⟩ := tag_chars _ h.tag_eq.2
  obtain ⟨c, cs, htag⟩ := List.exists_cons_of_ne_nil hne
  have heq := heading_append_blank n
  intro hhead
  obtain ⟨rest, hheading⟩ := List.head?_eq_some_iff.mp hhead
  rw [hheading, htag] at heq
  exact hblank (htag ▸ (List.cons.inj heq).1 ▸ List.mem_cons_self)

/-! ## The tree of the lines -/

theorem Proper.eq_of_parts {n m : Node} (hn : n.Proper) (hm : m.Proper) (hheading : n.heading = m.heading)
    (hbranches : n.branches = m.branches) : n = m := by
  obtain ⟨htag, hbeside⟩ := hn.heading_injective hm hheading
  rw [← ofData_toData hn, hn.toData_eq, htag, hbeside, hbranches, ← hm.toData_eq, ofData_toData hm]

/-- The lines are none of a tree at the depth or a deeper one: the first of them stands less deep. -/
def Above (depth : Nat) (ls : List OutlineLine) : Prop := ∀ l ∈ ls.head?, l.depth < depth

theorem above_branches {depth : Nat} {cs : List Node} {rest : List OutlineLine} (h : Above depth rest) :
    Above (depth + 1) (cs.flatMap (lines depth) ++ rest) := by
  cases cs with
  | nil => exact fun l hl => Int.lt_trans (h l hl) (Int.lt_succ _)
  | cons c cs =>
    rw [List.flatMap_cons, lines_eq]
    intro l hl
    obtain rfl := Option.some.inj hl
    exact Int.lt_succ _

/-- The tree is told by its lines at a depth, whatever less deep lines stand behind them. -/
def ToldByLines (depth : Nat) (n : Node) : Prop :=
  ∀ {m : Node} {rest rest' : List OutlineLine}, m.Proper → Above (depth + 1) rest → Above (depth + 1) rest' →
    n.lines depth ++ rest = m.lines depth ++ rest' → n = m ∧ rest = rest'

/-- The branches of a node are told by their lines if each of them is: their depth shows where they end. -/
theorem branches_of_lines {depth : Nat} : ∀ {cs ds : List Node}, (∀ c ∈ cs, c.ToldByLines depth) → (∀ d ∈ ds, d.Proper) →
    ∀ {rest rest' : List OutlineLine}, Above depth rest → Above depth rest' →
      cs.flatMap (lines depth) ++ rest = ds.flatMap (lines depth) ++ rest' → cs = ds ∧ rest = rest'
  | [], [], _, _, _, _, _, _, h => ⟨rfl, h⟩
  -- a branch that only one of the nodes has would begin deeper than what follows the other one may
  | [], d :: ds, _, _, rest, rest', hrest, _, h => by
    rw [List.flatMap_cons, lines_eq] at h
    have hhead : Above depth (⟨depth, d.heading⟩ :: _) := (show rest = _ from h) ▸ hrest
    exact absurd (hhead _ rfl) (Int.lt_irrefl _)
  | c :: cs, [], _, _, rest, rest', _, hrest', h => by
    rw [List.flatMap_cons, lines_eq] at h
    have hhead : Above depth (⟨depth, c.heading⟩ :: _) := (show rest' = _ from h.symm) ▸ hrest'
    exact absurd (hhead _ rfl) (Int.lt_irrefl _)
  | c :: cs, d :: ds, hcs, hds, rest, rest', hrest, hrest', h => by
    obtain ⟨hc, hothers⟩ := List.forall_mem_cons.mp hcs
    obtain ⟨hd, hothers'⟩ := List.forall_mem_cons.mp hds
    rw [List.flatMap_cons, List.flatMap_cons, List.append_assoc, List.append_assoc] at h
    obtain ⟨rfl, hlater⟩ := hc hd (above_branches hrest) (above_branches hrest') h
    obtain ⟨rfl, hrests⟩ := branches_of_lines hothers hothers' hrest hrest' hlater
    exact ⟨rfl, hrests⟩

theorem Proper.toldByLines {n : Node} (hn : n.Proper) (depth : Nat) : n.ToldByLines depth := by
  induction n using branches_induction generalizing depth with
  | step n ih =>
    intro m rest rest' hm hrest hrest' h
    rw [lines_eq, lines_eq] at h
    obtain ⟨hline, hlater⟩ := List.cons.inj h
    obtain ⟨hbranches, hrests⟩ := branches_of_lines (fun c hc => ih c hc (hn.of_mem_branches hc) (depth + 1))
      (fun d hd => hm.of_mem_branches hd) hrest hrest' hlater
    exact ⟨hn.eq_of_parts hm (OutlineLine.mk.inj hline).2 hbranches, hrests⟩

/-- Trees with the same lines are the same. -/
theorem eq_of_lines_eq {n m : Node} (hn : n.Proper) (hm : m.Proper) {depth : Nat} (h : n.lines depth = m.lines depth) :
    n = m := by
  have hend : Above (depth + 1) [] := fun _ hl => by cases hl
  exact (hn.toldByLines depth hm hend hend (congrArg (· ++ []) h)).1

/-! ## The lines as they are made -/

theorem headLine_eq (depth : Int) (tag : String) {ds : List Data} (h : ∀ d ∈ ds, HasText d) :
    headLine depth tag ds = .ok ⟨depth, " ".intercalate (tag :: ds.map Data.text)⟩ := by
  have hwritten : ds.mapM Data.written = .ok (ds.map Data.text) := by
    induction ds with
    | nil => rfl
    | cons d rest ih =>
      have hd : d.written = .ok d.text := if_neg (ne_true_of_eq_false (h d List.mem_cons_self))
      rw [List.mapM_cons, hd, ih fun e he => h e (List.mem_cons_of_mem _ he)]
      rfl
  rw [headLine, hwritten]
  rfl

theorem Legible.hasText_beside {n : Node} (h : n.Legible) : ∀ d ∈ n.beside, HasText d := by
  have hnames (params : List String) : HasText (.list (params.map .str)) := by
    show Data.anyLongNumeral _ = false
    induction params with
    | nil => rfl
    | cons x rest ih => exact ih
  cases n with
  | lit value => exact List.forall_mem_singleton.mpr h
  | varAssign _ _ | varRef _ | funcCall _ _ => exact List.forall_mem_singleton.mpr rfl
  | funcDef f params _ => exact List.forall_mem_cons.mpr ⟨rfl, List.forall_mem_singleton.mpr (hnames params)⟩
  | _ => exact List.forall_mem_nil _

theorem Proper.isText_toData {n : Node} (h : n.Proper) : isText n.toData = false := by
  rw [h.toData_eq]
  rfl

section

variable {depth : Nat} {cs : List Node} (hcs : ∀ c ∈ cs, outlineLines depth c.toData = .ok (c.lines depth))

include hcs

theorem linesAfter_branches : linesAfter depth 0 (cs.map toData) = .ok (cs.flatMap (lines depth)) := by
  induction cs with
  | nil => rfl
  | cons c rest ih =>
    obtain ⟨hc, hrest⟩ := List.forall_mem_cons.mp hcs
    rw [List.map_cons, linesAfter, hc, ih hrest]
    rfl

theorem innerLines_branches (hproper : ∀ c ∈ cs, c.Proper) {texts : List Data} (htexts : ∀ d ∈ texts, isText d = true) :
    innerLines depth (texts ++ cs.map toData) = .ok (cs.flatMap (lines depth)) := by
  induction texts with
  | nil =>
    induction cs with
    | nil => rfl
    | cons c rest ih =>
      obtain ⟨hc, hrest⟩ := List.forall_mem_cons.mp hcs
      obtain ⟨hcproper, hrestproper⟩ := List.forall_mem_cons.mp hproper
      have hinner : innerLines depth (rest.map toData) = .ok (rest.flatMap (lines depth)) := ih hrest hrestproper
      rw [List.nil_append, List.map_cons, innerLines, hcproper.isText_toData, hc, hinner]
      rfl
  | cons d rest ih =>
    obtain ⟨hd, hrest⟩ := List.forall_mem_cons.mp htexts
    rw [List.cons_append, innerLines, hd, ih hrest]
    rfl

end

/-- Neither a literal nor a definition: exactly the texts among the children stand beside the tag. -/
structure IsPlain (n : Node) : Prop where
  not_lit : n.tag.bareText ≠ "lit"
  not_definition : n.tag.bareText ≠ "func_def"
  texts : ∀ d ∈ n.beside, isText d = true

theorem Proper.plain_cases {n : Node} (h : n.Proper) :
    (∃ value, n = lit value) ∨ (∃ f params body, n = funcDef f params body) ∨ n.IsPlain := by
  have hsymbol (op : BinaryOp) : op.symbol ≠ "lit" ∧ op.symbol ≠ "func_def" := by cases op <;> decide
  cases n with
  | lit value => exact .inl ⟨value, rfl⟩
  | funcDef f params body => exact .inr (.inl ⟨f, params, body, rfl⟩)
  | binary op left right => exact .inr (.inr ⟨(hsymbol op).1, (hsymbol op).2, List.forall_mem_nil _⟩)
  | unknown tag => exact h.elim
  | scalar => exact h.elim
  | broken => exact h.elim
  | _ => exact .inr (.inr ⟨by simp [tag, Data.bareText], by simp [tag, Data.bareText], by simp [beside, isText]⟩)

theorem Proper.filter_isText {n : Node} (h : n.Proper) (hplain : n.IsPlain) :
    (n.beside ++ n.branches.map toData).filter isText = n.beside := by
  have hbranches : (n.branches.map toData).filter isText = [] := by
    rw [List.filter_eq_nil_iff]
    intro d hd
    obtain ⟨c, hc, rfl⟩ := List.mem_map.mp hd
    exact ne_true_of_eq_false (h.of_mem_branches hc).isText_toData
  rw [List.filter_append, List.filter_eq_self.mpr hplain.texts, hbranches, List.append_nil]

theorem outlineLines_of_tag {depth : Int} {tag : String} (hlit : tag ≠ "lit") (hdefinition : tag ≠ "func_def")
    (htag : tag ∈ tags)
    (children : List Data) : outlineLines depth (.list (.str tag :: children)) = do
      return (← headLine depth tag (children.filter isText)) :: (← innerLines (depth + 1) children) := by
  cases children <;> rw [outlineLines, if_neg hlit, if_neg hdefinition, if_pos htag]

theorem return_cons {line : Except Limit OutlineLine} {later : Except Limit (List OutlineLine)} {l : OutlineLine}
    {ls : List OutlineLine} (hline : line = .ok l) (hlater : later = .ok ls) :
    (do return (← line) :: (← later)) = Except.ok (l :: ls) := by
  rw [hline, hlater]
  rfl

/-- The lines of a tree are those of its nodes in preorder. -/
theorem outlineLines_toData (n : Node) (depth : Nat) (hproper : n.Proper) (hlegible : n.Legible) :
    outlineLines depth n.toData = .ok (n.lines depth) := by
  induction n using branches_induction generalizing depth with
  | step n ih =>
    have hbranches : ∀ c ∈ n.branches, outlineLines (depth + 1 : Nat) c.toData = .ok (c.lines (depth + 1)) := fun c hc =>
      ih c hc (depth + 1) (hproper.of_mem_branches hc) (hlegible.of_mem_branches hc)
    have hline : headLine depth n.tag.bareText n.beside = .ok ⟨depth, n.heading⟩ := headLine_eq _ _ hlegible.hasText_beside
    rw [lines_eq]
    rcases hproper.plain_cases with ⟨value, rfl⟩ | ⟨f, params, body, rfl⟩ | hplain
    · have hlater : (.ok [] : Except Limit (List OutlineLine)) = .ok ((lit value).branches.flatMap (lines (depth + 1))) := rfl
      exact return_cons hline hlater
    · exact return_cons hline (linesAfter_branches hbranches)
    · obtain ⟨htag, hmem⟩ := hproper.tag_eq
      rw [hproper.toData_eq, htag, outlineLines_of_tag hplain.not_lit hplain.not_definition hmem, hproper.filter_isText hplain]
      exact return_cons hline (innerLines_branches hbranches (fun c hc => hproper.of_mem_branches hc) hplain.texts)

/-! ## The text -/

/-- The line of a node as text: two blanks for each level of depth, then the tag and what stands beside it. -/
def lineAt (p : Nat × Node) : List Char := List.replicate (2 * p.1) ' ' ++ p.2.heading.toList

/-- The depth and the heading that the text of a line shows. -/
def readLine (line : List Char) : OutlineLine :=
  ⟨((line.takeWhile (· = ' ')).length / 2 : Nat), String.ofList (line.dropWhile (· = ' '))⟩

theorem readLine_lineAt {p : Nat × Node} (h : p.2.Proper) : readLine (lineAt p) = ⟨p.1, p.2.heading⟩ := by
  have hblanks : ∀ c ∈ List.replicate (2 * p.1) ' ', decide (c = ' ') = true := fun c hc =>
    decide_eq_true (List.eq_of_mem_replicate hc)
  have hheading : p.2.heading.toList.takeWhile (· = ' ') = [] ∧ p.2.heading.toList.dropWhile (· = ' ') = p.2.heading.toList := by
    have hhead := h.head_heading
    cases heq : p.2.heading.toList with
    | nil => exact ⟨rfl, rfl⟩
    | cons c rest =>
      have hc : c ≠ ' ' := fun hc => hhead (by rw [heq, hc]; rfl)
      exact ⟨List.takeWhile_cons_of_neg (by simpa using hc), List.dropWhile_cons_of_neg (by simpa using hc)⟩
  rw [readLine, lineAt, List.takeWhile_append_of_pos hblanks, List.dropWhile_append_of_pos hblanks, hheading.1, hheading.2,
    List.append_nil, List.length_replicate, Nat.mul_div_cancel_left _ (by decide), String.ofList_toList]

theorem map_readLine {n : Node} (h : n.Proper) (depth : Nat) :
    ((n.preorder depth).map lineAt).map readLine = n.lines depth := by
  rw [lines, List.map_map]
  exact List.map_congr_left fun p hp => readLine_lineAt (h.of_mem_preorder hp)

theorem nil_intercalate {α : Type} (xs : List (List α)) : [].intercalate xs = xs.flatten := by
  cases xs with
  | nil => rfl
  | cons x rest =>
    induction rest generalizing x with
    | nil => rw [List.intercalate_singleton, List.flatten_singleton]
    | cons y rest ih =>
      rw [List.intercalate_cons_cons, ih, List.append_nil]
      rfl

theorem toList_render (p : Nat × Node) : (OutlineLine.render ⟨p.1, p.2.heading⟩).toList = lineAt p ++ ['\n'] := by
  have hblanks : (List.replicate p.1 indentation).flatten = List.replicate (2 * p.1) ' ' := by
    rw [Nat.mul_comm, ← List.flatten_replicate_replicate]
    rfl
  rw [OutlineLine.render, String.toList_append, String.toList_append, String.toList_ofList, Int.toNat_natCast, hblanks]
  rfl

theorem Proper.feed_not_mem_lineAt {p : Nat × Node} (h : p.2.Proper) : '\n' ∉ lineAt p := by
  rw [lineAt, List.mem_append, not_or]
  exact ⟨fun hc => absurd (List.eq_of_mem_replicate hc) (by decide), h.feed_not_mem_heading⟩

/-- The outline of a tree, and its lines. -/
theorem outline_toData {n : Node} (hproper : n.Proper) (hlegible : n.Legible) (depth : Nat) :
    ∃ text, outline depth n.toData = .ok text ∧ splitLines text.toList = (n.preorder depth).map lineAt ++ [[]] := by
  have hchars : ("".intercalate ((n.lines depth).map OutlineLine.render)).toList =
      ((n.preorder depth).map lineAt).flatMap (· ++ ['\n']) := by
    rw [String.toList_intercalate, String.toList_empty, nil_intercalate, lines, List.map_map, List.map_map, List.flatMap_map]
    exact congrArg List.flatten (List.map_congr_left fun p _ => toList_render p)
  refine ⟨"".intercalate ((n.lines depth).map OutlineLine.render), ?_, ?_⟩
  · rw [outline, outlineLines_toData n depth hproper hlegible]
    rfl
  · rw [hchars]
    refine splitLines_flatMap fun l hl => ?_
    obtain ⟨p, hp, rfl⟩ := List.mem_map.mp hl
    exact (hproper.of_mem_preorder hp).feed_not_mem_lineAt

/-- Trees with the same outline are the same. -/
theorem eq_of_outline_eq {n m : Node} (hn : n.Proper) (hm : m.Proper) (hnlegible : n.Legible) (hmlegible : m.Legible)
    (depth : Nat) (h : outline depth n.toData = outline depth m.toData) : n = m := by
  obtain ⟨text, htext, hsplit⟩ := outline_toData hn hnlegible depth
  obtain ⟨text', htext', hsplit'⟩ := outline_toData hm hmlegible depth
  obtain rfl : text = text' := Except.ok.inj (htext.symm.trans (h.trans htext'))
  have hlines : (n.preorder depth).map lineAt = (m.preorder depth).map lineAt :=
    List.append_cancel_right (hsplit.symm.trans hsplit')
  exact eq_of_lines_eq hn hm (by rw [← map_readLine hn depth, hlines, map_readLine hm])

end Node

/-- The outline of a program has one line for each node of its tree, in preorder, each behind two blanks for each level of
depth, and a program with the same outline has the same tree. -/
theorem outline_preorder_and_injective {source filename : String} {known : List String} {counter next : Nat} {tree : Node}
    (h : parseProgram source filename known counter = .ok (tree, next)) :
    (∃ text, outline 0 tree.toData = .ok text ∧ splitLines text.toList = (tree.preorder 0).map Node.lineAt ++ [[]]) ∧
      ∀ {source' filename' : String} {known' : List String} {counter' next' : Nat} {tree' : Node},
        parseProgram source' filename' known' counter' = .ok (tree', next') →
          outline 0 tree.toData = outline 0 tree'.toData → tree = tree' := by
  have hproper : tree.Proper := proper_of_parseProgram h
  have hlegible : tree.Legible := legible_of_parseProgram h
  refine ⟨Node.outline_toData hproper hlegible 0, ?_⟩
  intro source' filename' known' counter' next' tree' h' heq
  exact Node.eq_of_outline_eq hproper (proper_of_parseProgram h') hlegible (legible_of_parseProgram h') 0 heq

/-- The literal `"1\n"` stays on one line, whose quotes and escape tell it from the number. -/
theorem outline_of_line_feed :
    let tree : Node := .stmts [.lit (.str "1\n")]
    parseProgram "\"1\\n\"" anonymous [] 1 = .ok (tree, 1) ∧
      (∃ text, outline 0 tree.toData = .ok text ∧ splitLines text.toList = ["stmts".toList, "  lit '1\\n'".toList, []]) ∧
      outline 0 tree.toData ≠ outline 0 (Node.stmts [.lit (.int 1)]).toData := by
  intro tree
  have hbody : IsBody '"' ['1', '\\', 'n'] := .plain (by decide) (by decide) (.escaped (by decide) .nil)
  have hparse : parseProgram "\"1\\n\"" anonymous [] 1 = .ok (tree, 1) := by
    have htree := hbody.parseProgram_eq (.inl rfl) (by decide) anonymous [] 1
    rwa [show unescape '"' (bodyRead 1 ['1', '\\', 'n']) = "1\n".toList by rfl, String.ofList_toList] at htree
  have hnumber : parseProgram "1" anonymous [] 1 = .ok (.stmts [.lit (.int 1)], 1) := rfl
  obtain ⟨⟨text, htext, hlines⟩, hinjective⟩ := outline_preorder_and_injective hparse
  refine ⟨hparse, ⟨text, htext, hlines.trans ?_⟩, fun heq => ?_⟩
  · have hbranches : tree.branches = [.lit (.str "1\n")] := rfl
    have hleaf : (Node.lit (.str "1\n")).preorder 1 = [(1, .lit (.str "1\n"))] := Node.preorder_eq 1 _
    rw [Node.preorder_eq, hbranches, List.flatMap_singleton, hleaf]
    decide +kernel
  · have := hinjective hnumber heq
    simp [tree] at this

end MinRuby.Syntax
