import MinRuby.Proofs.Syntax.Spelling
import MinRuby.Syntax.Program

/-!
# The vocabulary of parsed programs

`Data.IsTree` says of plain data that it is a tree of the core language: each node has one of the 24 tags
and the children that its tag takes. `Node.Proper` says the same of a tree. What the grammar reads is
reduced to a proper tree, and the resolution of names keeps it proper.

* `Node.isTree_toData` — a proper tree is a tree of the core language as data.
* `Node.ofData_toData` — and is read back from the data as it was.
* `Composes.desugar` — what holds of all that is made of parts holds of the tree of a term, by induction on the term.
* `proper_of_parseProgram` — the tree of a program is proper.
-/

namespace MinRuby

namespace Data

/-- The data is a scalar. -/
def IsScalar : Data → Prop
  | null | bool _ | int _ | float _ | str _ => True
  | list _ | tuple _ | mapping _ => False

/-- The data holds a part: it is the part itself, or a sequence with an item that holds it. -/
inductive Holds : Data → Data → Prop where
  | self (d : Data) : Holds d d
  | item {x part : Data} {items : List Data} (hx : x ∈ items) (h : Holds x part) : Holds (.list items) part

end Data

namespace Syntax

/-- A hidden temporary. -/
def IsTemporary (s : String) : Prop :=
  ∃ construct ∈ ["and", "or", "case"], ∃ n : Nat, s = "%" ++ construct ++ toString n

/-- A name that a tree may hold: one that a program can write, or a hidden temporary. -/
def IsName (s : String) : Prop := IsIdentifier s ∨ IsTemporary s

/-- A tree of the core language as data: one of the tags, and the children that it takes. -/
inductive IsTree : Data → Prop where
  | lit {value : Data} (h : value.IsScalar) : IsTree (.list [.str "lit", value])
  | binary (op : BinaryOp) {left right : Data} (hl : IsTree left) (hr : IsTree right) :
    IsTree (.list [.str op.symbol, left, right])
  | stmts {body : List Data} (h : ∀ d ∈ body, IsTree d) : IsTree (.list (.str "stmts" :: body))
  | varAssign {x : String} {value : Data} (hx : IsName x) (h : IsTree value) :
    IsTree (.list [.str "var_assign", .str x, value])
  | varRef {x : String} (hx : IsName x) : IsTree (.list [.str "var_ref", .str x])
  | choice {test yes no : Data} (ht : IsTree test) (hy : IsTree yes) (hn : IsTree no) :
    IsTree (.list [.str "if", test, yes, no])
  | loop {test body : Data} (ht : IsTree test) (hb : IsTree body) :
    IsTree (.list [.str "while", test, body])
  | loopAfter {test body : Data} (ht : IsTree test) (hb : IsTree body) :
    IsTree (.list [.str "while2", test, body])
  | funcDef {f : String} {params : List String} {body : Data} (hf : IsIdentifier f)
    (hp : ∀ x ∈ params, IsIdentifier x) (hb : IsTree body) :
    IsTree (.list [.str "func_def", .str f, .list (params.map .str), body])
  | funcCall {f : String} {args : List Data} (hf : IsName f) (h : ∀ d ∈ args, IsTree d) :
    IsTree (.list (.str "func_call" :: .str f :: args))
  | aryNew {items : List Data} (h : ∀ d ∈ items, IsTree d) : IsTree (.list (.str "ary_new" :: items))
  | aryRef {container position : Data} (hc : IsTree container) (hp : IsTree position) :
    IsTree (.list [.str "ary_ref", container, position])
  | aryAssign {container position value : Data} (hc : IsTree container) (hp : IsTree position)
    (hv : IsTree value) : IsTree (.list [.str "ary_assign", container, position, value])
  | hashNew {items : List Data} (even : items.length % 2 = 0) (h : ∀ d ∈ items, IsTree d) :
    IsTree (.list (.str "hash_new" :: items))

/-- The marks that the grammar puts into a tree that it has not finished. -/
def markers : List String := ["%begin", "%elsif", "%else", "%when", "%mod"]

theorem IsIdentifier.not_marker {s : String} (h : IsIdentifier s) : s ∉ markers := by
  obtain ⟨first, more, mark, hs, hfirst, -, -⟩ := h
  intro hm
  have hstart : s.toList.head? = some '%' := by
    revert hm
    simp only [markers, List.mem_cons, List.not_mem_nil, or_false]
    rintro (rfl | rfl | rfl | rfl | rfl) <;> rfl
  rw [hs] at hstart
  obtain rfl : first = '%' := by simpa using hstart
  exact absurd hfirst (by decide)

/-- The data is a sequence that a mark begins. -/
def IsMarked (d : Data) : Prop := ∃ tag ∈ markers, ∃ children, d = .list (.str tag :: children)

theorem not_isMarked {tag : String} {children : List Data} (h : tag ∉ markers) :
    ¬ IsMarked (.list (.str tag :: children)) := by
  rintro ⟨tag', htag', children', heq⟩
  obtain ⟨rfl, -⟩ : tag = tag' ∧ children = children' := by simpa using heq
  exact h htag'

/-- No part of the data is a sequence that a mark begins. -/
def Unmarked (d : Data) : Prop := ∀ part, d.Holds part → ¬ IsMarked part

theorem unmarked_scalar {d : Data} (h : d.IsScalar) : Unmarked d := by
  intro part hpart
  cases hpart with
  | self =>
    rintro ⟨tag, -, children, rfl⟩
    exact h
  | item hx => exact h.elim

theorem unmarked_list {items : List Data} (h : ¬ IsMarked (.list items)) (hi : ∀ d ∈ items, Unmarked d) :
    Unmarked (.list items) := by
  intro part hpart
  cases hpart with
  | self => exact h
  | item hx hpart => exact hi _ hx part hpart

theorem unmarked_node {tag : String} {children : List Data} (h : tag ∉ markers)
    (hc : ∀ d ∈ children, Unmarked d) : Unmarked (.list (.str tag :: children)) :=
  unmarked_list (not_isMarked h) (List.forall_mem_cons.mpr ⟨unmarked_scalar (d := .str tag) trivial, hc⟩)

theorem unmarked_params {params : List String} (h : ∀ x ∈ params, IsIdentifier x) :
    Unmarked (.list (params.map .str)) := by
  refine unmarked_list ?_ ?_
  · rintro ⟨tag, htag, children, heq⟩
    cases params with
    | nil => cases heq
    | cons x rest =>
      obtain ⟨rfl, -⟩ : x = tag ∧ rest.map .str = children := by simpa using heq
      exact (h x List.mem_cons_self).not_marker htag
  · intro d hd
    obtain ⟨x, -, rfl⟩ := List.mem_map.mp hd
    exact unmarked_scalar trivial

/-- No mark is left anywhere in a tree. -/
theorem IsTree.unmarked {tree : Data} (h : IsTree tree) : Unmarked tree := by
  have str (s : String) : Unmarked (.str s) := unmarked_scalar trivial
  induction h with
  | lit h => exact unmarked_node (by decide) (by simpa using unmarked_scalar h)
  | binary op _ _ hl hr =>
    exact unmarked_node (by cases op <;> decide) (by simpa using ⟨hl, hr⟩)
  | stmts _ ih => exact unmarked_node (by decide) ih
  | varAssign _ _ ih => exact unmarked_node (by decide) (by simpa using ⟨str _, ih⟩)
  | varRef _ => exact unmarked_node (by decide) (by simpa using str _)
  | choice _ _ _ ht hy hn => exact unmarked_node (by decide) (by simpa using ⟨ht, hy, hn⟩)
  | loop _ _ ht hb => exact unmarked_node (by decide) (by simpa using ⟨ht, hb⟩)
  | loopAfter _ _ ht hb => exact unmarked_node (by decide) (by simpa using ⟨ht, hb⟩)
  | funcDef _ hp _ hb =>
    refine unmarked_node (by decide) (List.forall_mem_cons.mpr ⟨str _, ?_⟩)
    exact List.forall_mem_cons.mpr ⟨unmarked_params hp, List.forall_mem_singleton.mpr hb⟩
  | funcCall _ _ ih => exact unmarked_node (by decide) (List.forall_mem_cons.mpr ⟨str _, ih⟩)
  | aryNew _ ih => exact unmarked_node (by decide) ih
  | aryRef _ _ hc hp => exact unmarked_node (by decide) (by simpa using ⟨hc, hp⟩)
  | aryAssign _ _ _ hc hp hv => exact unmarked_node (by decide) (by simpa using ⟨hc, hp, hv⟩)
  | hashNew _ _ ih => exact unmarked_node (by decide) ih

namespace Node

mutual

/-- Every node of the tree belongs to the core language and has the children it needs. -/
def Proper : Node → Prop
  | lit value => value.IsScalar
  | binary _ left right => left.Proper ∧ right.Proper
  | stmts body => ProperAll body
  | varAssign x value => IsName x ∧ value.Proper
  | varRef x => IsName x
  | choice test yes no => test.Proper ∧ yes.Proper ∧ no.Proper
  | loop test body => test.Proper ∧ body.Proper
  | loopAfter test body => test.Proper ∧ body.Proper
  | funcDef f params body => IsIdentifier f ∧ (∀ x ∈ params, IsIdentifier x) ∧ body.Proper
  | funcCall f args => IsName f ∧ ProperAll args
  | aryNew items => ProperAll items
  | aryRef container position => container.Proper ∧ position.Proper
  | aryAssign container position value => container.Proper ∧ position.Proper ∧ value.Proper
  | hashNew items => items.length % 2 = 0 ∧ ProperAll items
  | unknown _ => False
  | scalar => False
  | broken => False
termination_by structural n => n

/-- Every tree of the sequence is proper. -/
def ProperAll : List Node → Prop
  | [] => True
  | n :: rest => n.Proper ∧ ProperAll rest
termination_by structural l => l

end

theorem properAll_iff {ns : List Node} : ProperAll ns ↔ ∀ n ∈ ns, n.Proper := by
  induction ns with
  | nil => simp [ProperAll]
  | cons n rest ih => simp [ProperAll, ih]

theorem length_toDataAll (ns : List Node) : (toDataAll ns).length = ns.length := by
  induction ns with
  | nil => rfl
  | cons n rest ih => simp [toDataAll, ih]

/-! ## Proper trees as data -/

mutual

theorem isTree_toData : ∀ {n : Node}, n.Proper → IsTree n.toData
  | lit _, h => .lit h
  | binary op _ _, h => .binary op (isTree_toData h.1) (isTree_toData h.2)
  | stmts _, h => .stmts (isTree_toDataAll h)
  | varAssign _ _, h => .varAssign h.1 (isTree_toData h.2)
  | varRef _, h => .varRef h
  | choice _ _ _, h => .choice (isTree_toData h.1) (isTree_toData h.2.1) (isTree_toData h.2.2)
  | loop _ _, h => .loop (isTree_toData h.1) (isTree_toData h.2)
  | loopAfter _ _, h => .loopAfter (isTree_toData h.1) (isTree_toData h.2)
  | funcDef _ _ _, h => .funcDef h.1 h.2.1 (isTree_toData h.2.2)
  | funcCall _ _, h => .funcCall h.1 (isTree_toDataAll h.2)
  | aryNew _, h => .aryNew (isTree_toDataAll h)
  | aryRef _ _, h => .aryRef (isTree_toData h.1) (isTree_toData h.2)
  | aryAssign _ _ _, h => .aryAssign (isTree_toData h.1) (isTree_toData h.2.1) (isTree_toData h.2.2)
  | hashNew items, h => .hashNew (by rw [length_toDataAll]; exact h.1) (isTree_toDataAll h.2)

theorem isTree_toDataAll : ∀ {ns : List Node}, ProperAll ns → ∀ d ∈ toDataAll ns, IsTree d
  | [], _, d, hd => by cases hd
  | n :: rest, h, d, hd => by
    rcases List.mem_cons.mp hd with rfl | hd
    · exact isTree_toData h.1
    · exact isTree_toDataAll h.2 d hd

end

theorem ofTagged_symbol (op : BinaryOp) (raw : List Data) (left right : Node) :
    ofTagged (.str op.symbol) raw [left, right] = binary op left right := by
  cases op <;> rfl

theorem map_bareText_str (params : List String) : (params.map Data.str).map Data.bareText = params := by
  induction params with
  | nil => rfl
  | cons x rest ih => simp [ih, Data.bareText]

mutual

/-- A proper tree is read back from its data: no child is missing, and none is left over. -/
theorem ofData_toData : ∀ {n : Node}, n.Proper → ofData n.toData = n
  | lit _, _ => rfl
  | binary op left right, h => by
    have hl := ofData_toData h.1
    have hr := ofData_toData h.2
    simp only [toData, ofData, ofItems, ofDataAll, hl, hr, ofTagged_symbol]
  | stmts body, h => by
    have hb : ofDataAll (toDataAll body) = body := ofDataAll_toDataAll h
    simp only [toData, ofData, ofItems, hb, ofTagged]
  | varAssign x value, h => by
    have hv := ofData_toData h.2
    simp only [toData, ofData, ofItems, ofDataAll, hv]
    rfl
  | varRef x, _ => rfl
  | choice test yes no, h => by
    have ht := ofData_toData h.1
    have hy := ofData_toData h.2.1
    have hn := ofData_toData h.2.2
    simp only [toData, ofData, ofItems, ofDataAll, ht, hy, hn]
    rfl
  | loop test body, h => by
    have ht := ofData_toData h.1
    have hb := ofData_toData h.2
    simp only [toData, ofData, ofItems, ofDataAll, ht, hb]
    rfl
  | loopAfter test body, h => by
    have ht := ofData_toData h.1
    have hb := ofData_toData h.2
    simp only [toData, ofData, ofItems, ofDataAll, ht, hb]
    rfl
  | funcDef f params body, h => by
    have hb := ofData_toData h.2.2
    simp only [toData, ofData, ofItems, ofDataAll, hb, ofTagged, paramNames?, map_bareText_str]
    rfl
  | funcCall f args, h => by
    have ha := ofDataAll_toDataAll h.2
    simp only [toData, ofData, ofItems, ofDataAll, ha, ofTagged, Data.bareText, List.drop_succ_cons,
      List.drop_zero]
  | aryNew items, h => by
    have hi : ofDataAll (toDataAll items) = items := ofDataAll_toDataAll h
    simp only [toData, ofData, ofItems, hi, ofTagged]
  | aryRef container position, h => by
    have hc := ofData_toData h.1
    have hp := ofData_toData h.2
    simp only [toData, ofData, ofItems, ofDataAll, hc, hp]
    rfl
  | aryAssign container position value, h => by
    have hc := ofData_toData h.1
    have hp := ofData_toData h.2.1
    have hv := ofData_toData h.2.2
    simp only [toData, ofData, ofItems, ofDataAll, hc, hp, hv]
    rfl
  | hashNew items, h => by
    have hi := ofDataAll_toDataAll h.2
    simp only [toData, ofData, ofItems, hi, ofTagged]

theorem ofDataAll_toDataAll : ∀ {ns : List Node}, ProperAll ns → ofDataAll (toDataAll ns) = ns
  | [], _ => rfl
  | n :: rest, h => by
    rw [toDataAll, ofDataAll, ofData_toData h.1, ofDataAll_toDataAll h.2]

end

/-! ## Reduction -/

theorem proper_matchesAny {temporary : String} {values : List Node} (ht : IsName temporary)
    (hv : ∀ n ∈ values, n.Proper) : (matchesAny temporary values).Proper := by
  fun_induction matchesAny temporary values with
  | case1 => exact trivial
  | case2 value => exact ⟨ht, hv value List.mem_cons_self⟩
  | case3 value rest _ ih =>
    exact ⟨⟨ht, hv value List.mem_cons_self⟩, trivial, ih fun n hn => hv n (List.mem_cons_of_mem value hn)⟩

end Node

/-- Whatever the state is, the step gives a value that satisfies `P`. -/
def Gives {σ α : Type} (step : StateM σ α) (P : α → Prop) : Prop := ∀ s, P (step.run s).1

namespace Gives

variable {σ α β : Type} {P : α → Prop} {Q : β → Prop}

theorem pure {a : α} (h : P a) : Gives (Pure.pure a : StateM σ α) P := fun _ => h

theorem bind {step : StateM σ α} {f : α → StateM σ β} (h : Gives step P) (hf : ∀ a, P a → Gives (f a) Q) :
    Gives (step >>= f) Q := fun s => hf _ (h s) _

end Gives

theorem gives_freshName {construct : String} (h : construct ∈ ["and", "or", "case"]) :
    Gives (freshName construct) IsName := fun n => Or.inr ⟨construct, h, n, rfl⟩

theorem Literal.isScalar_toData (value : Literal) : value.toData.IsScalar := by
  cases value <;> exact trivial

/-- Whatever the reduction makes of trees that satisfy `P` satisfies `P` again. The clauses of a `case` whose subject is
kept in `x` satisfy `Q x`. -/
structure Composes (P : Node → Prop) (Q : String → Node → Prop) : Prop where
  lit (value : Literal) : P (.lit value.toData)
  varRef {x : String} : IsIdentifier x → P (.varRef x)
  funcCall {f : String} {args : List Node} : IsIdentifier f → (∀ n ∈ args, P n) → P (.funcCall f args)
  aryNew {items : List Node} : (∀ n ∈ items, P n) → P (.aryNew items)
  hashNew {items : List Node} : items.length % 2 = 0 → (∀ n ∈ items, P n) → P (.hashNew items)
  aryRef {container position : Node} : P container → P position → P (.aryRef container position)
  binary {op : BinaryOp} {left right : Node} : P left → P right → P (.binary op left right)
  bothOf {x : String} {left right : Node} : IsName x → P left → P right → P (.bothOf x left right)
  eitherOf {x : String} {left right : Node} : IsName x → P left → P right → P (.eitherOf x left right)
  choice {test yes no : Node} : P test → P yes → P no → P (.choice test yes no)
  varAssign {x : String} {value : Node} : IsIdentifier x → P value → P (.varAssign x value)
  aryAssign {container position value : Node} : P container → P position → P value → P (.aryAssign container position value)
  loop {test body : Node} : P test → P body → P (.loop test body)
  loopAfter {test body : Node} : P test → P body → P (.loopAfter test body)
  stmts {body : List Node} : (∀ n ∈ body, P n) → P (.stmts body)
  funcDef {f : String} {params : List String} {body : Node} :
    IsIdentifier f → (∀ x ∈ params, IsIdentifier x) → P body → P (.funcDef f params body)
  caseOf {x : String} {subject clauses : Node} :
    IsName x → P subject → Q x clauses → P (.stmts [.varAssign x subject, clauses])
  otherwise {x : String} {body : Node} : P body → Q x body
  clause {x : String} {values : List Node} {body rest : Node} :
    IsName x → (∀ n ∈ values, P n) → P body → Q x rest → Q x (.choice (.matchesAny x values) body rest)

namespace Composes

variable {P : Node → Prop} {Q : String → Node → Prop}

theorem nothing (hP : Composes P Q) : P .nothing := hP.stmts (List.forall_mem_nil P)

theorem negate (hP : Composes P Q) {n : Node} (hn : P n) : P n.negate :=
  hP.choice hn (hP.lit (.bool false)) (hP.lit (.bool true))

theorem negative (hP : Composes P Q) {n : Node} (hn : P n) : P n.negative := by
  unfold Node.negative
  split
  · next k => exact hP.lit (.int (-k))
  · next x => exact hP.lit (.float (-x))
  · exact hP.binary (hP.lit (.int 0)) hn

theorem apply (hP : Composes P Q) {modifier : Modifier} {runsFirst : Bool} {statement test : Node} (hs : P statement)
    (ht : P test) :
    P (modifier.apply runsFirst statement test) := by
  cases modifier with
  | whenTrue => exact hP.choice ht hs hP.nothing
  | unlessTrue => exact hP.choice ht hP.nothing hs
  | whileTrue =>
    cases runsFirst with
    | false => exact hP.loop ht hs
    | true => exact hP.loopAfter ht hs

mutual

theorem desugar (hP : Composes P Q) : ∀ {t : Term}, (∀ x ∈ t.words, IsIdentifier x) → t.Paired → Gives t.desugar P
  | .lit value, _, _ => .pure (hP.lit value)
  | .name x, hw, _ => .pure (hP.varRef (hw x (by simp [Term.words])))
  | .call f args, hw, hp => by
    simp only [Term.words, List.forall_mem_cons] at hw
    exact (hP.desugarAll hw.2 hp).bind fun ns hns => .pure (hP.funcCall hw.1 hns.2)
  | .array items, hw, hp => (hP.desugarAll hw hp).bind fun ns hns => .pure (hP.aryNew hns.2)
  | .hash items, hw, hp => (hP.desugarAll hw hp.2).bind fun ns hns => .pure (hP.hashNew (by rw [hns.1]; exact hp.1) hns.2)
  | .index container position, hw, hp => by
    simp only [Term.words, List.forall_mem_append] at hw
    exact (hP.desugar hw.1 hp.1).bind fun c hc => (hP.desugar hw.2 hp.2).bind fun p hp => .pure (hP.aryRef hc hp)
  | .negation operand, hw, hp => (hP.desugar (t := operand) hw hp).bind fun n hn => .pure (hP.negate hn)
  | .minus operand, hw, hp => (hP.desugar (t := operand) hw hp).bind fun n hn => .pure (hP.negative hn)
  | .binary op left right, hw, hp => by
    simp only [Term.words, List.forall_mem_append] at hw
    refine (hP.desugar hw.1 hp.1).bind fun l hl => (hP.desugar hw.2 hp.2).bind fun r hr => ?_
    cases op with
    | core op => exact .pure (hP.binary hl hr)
    | notEqual => exact .pure (hP.negate (hP.binary hl hr))
    | both => exact (gives_freshName (by simp)).bind fun x hx => .pure (hP.bothOf hx hl hr)
    | either => exact (gives_freshName (by simp)).bind fun x hx => .pure (hP.eitherOf hx hl hr)
  | .choice test yes no, hw, hp => by
    simp only [Term.words, List.forall_mem_append] at hw
    exact (hP.desugar hw.1.1 hp.1).bind fun t ht => (hP.desugar hw.1.2 hp.2.1).bind fun y hy =>
      (hP.desugar hw.2 hp.2.2).bind fun n hn => .pure (hP.choice ht hy hn)
  | .choiceUnless test no yes, hw, hp => by
    simp only [Term.words, List.forall_mem_append] at hw
    exact (hP.desugar hw.1.1 hp.1).bind fun t ht => (hP.desugar hw.1.2 hp.2.1).bind fun n hn =>
      (hP.desugar hw.2 hp.2.2).bind fun y hy => .pure (hP.choice ht hy hn)
  | .assignName x value, hw, hp => by
    simp only [Term.words, List.forall_mem_cons] at hw
    exact (hP.desugar hw.2 hp).bind fun v hv => .pure (hP.varAssign hw.1 hv)
  | .assignIndex container position value, hw, hp => by
    simp only [Term.words, List.forall_mem_append] at hw
    exact (hP.desugar hw.1.1 hp.1).bind fun c hc => (hP.desugar hw.1.2 hp.2.1).bind fun p hp' =>
      (hP.desugar hw.2 hp.2.2).bind fun v hv => .pure (hP.aryAssign hc hp' hv)
  | .updateName x op value, hw, hp => by
    simp only [Term.words, List.forall_mem_cons] at hw
    exact (hP.desugar hw.2 hp).bind fun v hv => .pure (hP.varAssign hw.1 (hP.binary (hP.varRef hw.1) hv))
  | .updateIndex container position op value, hw, hp => by
    simp only [Term.words, List.forall_mem_append] at hw
    exact (hP.desugar hw.1.1 hp.1).bind fun c hc => (hP.desugar hw.1.2 hp.2.1).bind fun p hp' =>
      (hP.desugar hw.2 hp.2.2).bind fun v hv => .pure (hP.aryAssign hc hp' (hP.binary (hP.aryRef hc hp') hv))
  | .loop test body, hw, hp => by
    simp only [Term.words, List.forall_mem_append] at hw
    exact (hP.desugar hw.1 hp.1).bind fun t ht => (hP.desugar hw.2 hp.2).bind fun b hb => .pure (hP.loop ht hb)
  | .caseOf subject clauses, hw, hp => by
    simp only [Term.words, List.forall_mem_append] at hw
    exact (hP.desugar hw.1 hp.1).bind fun s hs => (gives_freshName (by simp)).bind fun x hx =>
      (hP.desugarClauses hx hw.2 hp.2).bind fun c hc => .pure (hP.caseOf hx hs hc)
  | .definition f params body, hw, hp => by
    simp only [Term.words, List.cons_append, List.forall_mem_cons, List.forall_mem_append] at hw
    exact (hP.desugar hw.2.2 hp).bind fun b hb => .pure (hP.funcDef hw.1 hw.2.1 hb)
  | .beginEnd body, hw, hp => hP.desugar (t := body) hw hp
  | .block statements, hw, hp => (hP.desugarAll hw hp).bind fun ns hns => .pure (hP.stmts hns.2)
  | .modified statement modifier test, hw, hp => by
    simp only [Term.words, List.forall_mem_append] at hw
    exact (hP.desugar hw.1 hp.1).bind fun s hs => (hP.desugar hw.2 hp.2).bind fun t ht => .pure (hP.apply hs ht)

theorem desugarAll (hP : Composes P Q) : ∀ {ts : List Term}, (∀ x ∈ wordsAll ts, IsIdentifier x) → PairedAll ts →
    Gives (Syntax.desugarAll ts) fun ns => ns.length = ts.length ∧ ∀ n ∈ ns, P n
  | [], _, _ => .pure ⟨rfl, by simp⟩
  | t :: rest, hw, hp => by
    simp only [wordsAll, List.forall_mem_append] at hw
    exact (hP.desugar hw.1 hp.1).bind fun n hn => (hP.desugarAll hw.2 hp.2).bind fun ns hns =>
      .pure ⟨by simp [hns.1], by simpa using ⟨hn, hns.2⟩⟩

theorem desugarClauses (hP : Composes P Q) {temporary : String} (hx : IsName temporary) : ∀ {c : Clauses},
    (∀ x ∈ c.words, IsIdentifier x) → c.Paired → Gives (c.desugar temporary) (Q temporary)
  | .otherwise body, hw, hp => fun n => hP.otherwise (hP.desugar (t := body) hw hp n)
  | .clause values body rest, hw, hp => by
    simp only [Clauses.words, List.forall_mem_append] at hw
    exact (hP.desugarAll hw.1.1 hp.1).bind fun vs hvs => (hP.desugar hw.1.2 hp.2.1).bind fun b hb =>
      (hP.desugarClauses hx hw.2 hp.2.2).bind fun r hr => .pure (hP.clause hx hvs.2 hb hr)

end

end Composes

open Node (properAll_iff) in
theorem composes_proper : Composes Node.Proper fun _ => Node.Proper where
  lit value := value.isScalar_toData
  varRef hx := .inl hx
  funcCall hf ha := ⟨.inl hf, properAll_iff.mpr ha⟩
  aryNew hi := properAll_iff.mpr hi
  hashNew heven hi := ⟨heven, properAll_iff.mpr hi⟩
  aryRef hc hp := ⟨hc, hp⟩
  binary hl hr := ⟨hl, hr⟩
  bothOf hx hl hr := ⟨⟨hx, hl⟩, ⟨hx, hr, hx⟩, trivial⟩
  eitherOf hx hl hr := ⟨⟨hx, hl⟩, ⟨hx, hx, hr⟩, trivial⟩
  choice ht hy hn := ⟨ht, hy, hn⟩
  varAssign hx hv := ⟨.inl hx, hv⟩
  aryAssign hc hp hv := ⟨hc, hp, hv⟩
  loop ht hb := ⟨ht, hb⟩
  loopAfter ht hb := ⟨ht, hb⟩
  stmts hb := properAll_iff.mpr hb
  funcDef hf hp hb := ⟨hf, hp, hb⟩
  caseOf hx hs hc := ⟨⟨hx, hs⟩, hc, trivial⟩
  otherwise hb := hb
  clause hx hv hb hr := ⟨Node.proper_matchesAny hx hv, hb, hr⟩

/-! ## Resolution -/

namespace Node

mutual

theorem gives_resolve : ∀ {n : Node}, n.Proper → Gives n.resolve Proper
  | lit _, h => .pure h
  | binary _ _ _, h => (gives_resolve h.1).bind fun _ hl => (gives_resolve h.2).bind fun _ hr => .pure ⟨hl, hr⟩
  | stmts _, h => (gives_resolveAll h).bind fun _ hb => .pure hb.2
  | varAssign _ _, h => (gives_resolve h.2).bind fun _ hv => fun _ => ⟨h.1, hv⟩
  | varRef x, h => fun known => by
    change ((if x ∈ known then varRef x else funcCall x []) : Node).Proper
    split
    · exact h
    · exact ⟨h, trivial⟩
  | choice _ _ _, h => (gives_resolve h.1).bind fun _ ht => (gives_resolve h.2.1).bind fun _ hy =>
    (gives_resolve h.2.2).bind fun _ hn => .pure ⟨ht, hy, hn⟩
  | loop _ _, h => (gives_resolve h.1).bind fun _ ht => (gives_resolve h.2).bind fun _ hb => .pure ⟨ht, hb⟩
  | loopAfter _ _, h => (gives_resolve h.2).bind fun _ hb => (gives_resolve h.1).bind fun _ ht => .pure ⟨ht, hb⟩
  | funcDef _ params _, h => .pure ⟨h.1, h.2.1, gives_resolve h.2.2 params⟩
  | funcCall _ _, h => (gives_resolveAll h.2).bind fun _ ha => .pure ⟨h.1, ha.2⟩
  | aryNew _, h => (gives_resolveAll h).bind fun _ hi => .pure hi.2
  | aryRef _ _, h => (gives_resolve h.1).bind fun _ hc => (gives_resolve h.2).bind fun _ hp => .pure ⟨hc, hp⟩
  | aryAssign _ _ _, h => (gives_resolve h.1).bind fun _ hc => (gives_resolve h.2.1).bind fun _ hp =>
    (gives_resolve h.2.2).bind fun _ hv => .pure ⟨hc, hp, hv⟩
  | hashNew _, h => (gives_resolveAll h.2).bind fun _ hi => .pure ⟨by rw [hi.1]; exact h.1, hi.2⟩

theorem gives_resolveAll : ∀ {ns : List Node}, ProperAll ns →
    Gives (resolveAll ns) fun ms => ms.length = ns.length ∧ ProperAll ms
  | [], _ => .pure ⟨rfl, trivial⟩
  | _ :: _, h => (gives_resolve h.1).bind fun _ hm => (gives_resolveAll h.2).bind fun _ hms =>
    .pure ⟨by simp [hms.1], hm, hms.2⟩

end

end Node

/-! ## Programs -/

/-- What has been read as a whole text spells the names of its term. -/
theorem sound_of_readWhole {p : Phrase} {source prepared : List Char} {filename : String} {t : Term}
    (h : readWhole p source prepared filename = .ok t) :
    Spelled t.words (Text.expandTabs prepared) ∧ t.Paired := by
  unfold readWhole at h
  simp only at h
  split at h
  · cases h
  · cases h
  · next t' next hread =>
    split at h
    · obtain rfl : t' = t := by simpa using h
      obtain ⟨w, hw, hspell, hpaired⟩ := spells_phrase _ p _ _ _ hread
      refine ⟨?_, hpaired⟩
      have hw' : Text.expandTabs prepared = w ++ next.rest := hw
      rw [hw']
      simpa using (hspell [] (.nil [])).append (.nil next.rest)
    · cases h

/-- What holds of all that is made of parts holds of what a program is reduced to. -/
theorem Composes.of_readProgram {P : Node → Prop} {Q : String → Node → Prop} (hP : Composes P Q) {source filename : String}
    {t : Term} (h : readProgram source filename = .ok t) (counter : Nat) : P (t.desugar.run counter).1 := by
  obtain ⟨hspelled, hpaired⟩ := sound_of_readWhole h
  exact hP.desugar hspelled.isIdentifier hpaired counter

theorem parseProgram_eq_ok {source filename : String} {known : List String} {counter next : Nat}
    {tree : Node} (h : parseProgram source filename known counter = .ok (tree, next)) :
    ∃ t, readProgram source filename = .ok t ∧ tree = ((t.desugar.run counter).1.resolve.run known).1 := by
  unfold parseProgram at h
  cases hread : readProgram source filename with
  | error e =>
    rw [hread] at h
    cases h
  | ok t =>
    rw [hread] at h
    refine ⟨t, rfl, ?_⟩
    have heq := Except.ok.inj h
    exact (congrArg Prod.fst heq).symm

theorem parseProgram_of_readProgram {source filename : String} {known : List String} {counter : Nat}
    {t : Term} (h : readProgram source filename = .ok t) :
    parseProgram source filename known counter =
      .ok (((t.desugar.run counter).1.resolve.run known).1, (t.desugar.run counter).2) := by
  unfold parseProgram
  rw [h]
  rfl

/-- A program that parses has a proper tree. -/
theorem proper_of_parseProgram {source filename : String} {known : List String} {counter next : Nat}
    {tree : Node} (h : parseProgram source filename known counter = .ok (tree, next)) : tree.Proper := by
  obtain ⟨t, hread, rfl⟩ := parseProgram_eq_ok h
  exact Node.gives_resolve (composes_proper.of_readProgram hread counter) known

end Syntax

end MinRuby
