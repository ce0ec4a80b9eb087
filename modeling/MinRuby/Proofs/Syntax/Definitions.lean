import MinRuby.Proofs.Syntax.Parts
import MinRuby.Value.Store

/-!
# The definitions of a tree

Where a definition stands in a tree decides when it is made. Those outside all bodies are made while the tree is
evaluated; those in the body of another one only when that body is run.

* `Node.definitions` — the definitions outside the bodies of others.
* `Node.Within` — those, and the ones in their bodies, however deep.
-/

namespace MinRuby.Syntax.Node

mutual

/-- The definitions that stand in the tree, those in the body of another one left out. -/
def definitions : Node → List Procedure
  | funcDef name params body => [⟨name, params, body⟩]
  | varAssign _ value => value.definitions
  | binary _ left right => left.definitions ++ right.definitions
  | stmts body => definitionsAll body
  | choice test yes no => test.definitions ++ yes.definitions ++ no.definitions
  | loop test body => test.definitions ++ body.definitions
  | loopAfter test body => body.definitions ++ test.definitions
  | funcCall _ args => definitionsAll args
  | aryNew items => definitionsAll items
  | aryRef container position => container.definitions ++ position.definitions
  | aryAssign container position value => container.definitions ++ position.definitions ++ value.definitions
  | hashNew items => definitionsAll items
  | lit _ | varRef _ | unknown _ | scalar | broken => []
termination_by structural n => n

/-- The definitions of the trees of a sequence. -/
def definitionsAll : List Node → List Procedure
  | [] => []
  | n :: rest => n.definitions ++ definitionsAll rest
termination_by structural l => l

end

/-- The definition stands in the tree, in the body of another one or not. -/
inductive Within (n : Node) : Procedure → Prop where
  | outer {p : Procedure} (h : p ∈ n.definitions) : Within n p
  | inner {p q : Procedure} (hq : Within n q) (h : p ∈ q.body.definitions) : Within n p

/-- The trees that the evaluation of a tree may evaluate. The body of a definition is none of them. -/
def children : Node → List Node
  | varAssign _ value => [value]
  | binary _ left right => [left, right]
  | stmts body => body
  | choice test yes no => [test, yes, no]
  | loop test body => [test, body]
  | loopAfter test body => [test, body]
  | funcCall _ args => args
  | aryNew items => items
  | aryRef container position => [container, position]
  | aryAssign container position value => [container, position, value]
  | hashNew items => items
  | lit _ | varRef _ | funcDef _ _ _ | unknown _ | scalar | broken => []

theorem mem_assignedAll {x : String} {ns : List Node} : x ∈ assignedAll ns ↔ ∃ n ∈ ns, x ∈ n.assigned := by
  induction ns with
  | nil => simp [assignedAll]
  | cons n ns ih => simp [assignedAll, ih, or_comm]

theorem mem_definitionsAll {p : Procedure} {ns : List Node} : p ∈ definitionsAll ns ↔ ∃ n ∈ ns, p ∈ n.definitions := by
  induction ns with
  | nil => simp [definitionsAll]
  | cons n ns ih => simp [definitionsAll, ih]

/-- A tree assigns what its children assign. -/
theorem assigned_of_mem_children {c n : Node} (h : c ∈ n.children) {x : String} (hx : x ∈ c.assigned) : x ∈ n.assigned := by
  cases n <;> simp only [children, List.mem_cons, List.not_mem_nil, or_false] at h <;>
    simp only [assigned, List.mem_append, List.mem_cons, mem_assignedAll] <;> grind

/-- The definitions of a child are definitions of the tree. -/
theorem definitions_of_mem_children {c n : Node} (h : c ∈ n.children) {p : Procedure} (hp : p ∈ c.definitions) :
    p ∈ n.definitions := by
  cases n <;> simp only [children, List.mem_cons, List.not_mem_nil, or_false] at h <;>
    simp only [definitions, List.mem_append, mem_definitionsAll] <;> grind

theorem mem_assigned_cases {n : Node} {x : String} (h : x ∈ n.assigned) :
    (∃ value, n = varAssign x value) ∨ ∃ c ∈ n.children, x ∈ c.assigned := by
  cases n <;> simp only [assigned, List.mem_append, List.mem_cons, mem_assignedAll, List.not_mem_nil] at h <;>
    simp only [children, List.mem_cons, List.not_mem_nil, or_false, varAssign.injEq, exists_and_left, exists_eq'] <;> grind

theorem mem_definitions_cases {n : Node} {p : Procedure} (h : p ∈ n.definitions) :
    n = funcDef p.name p.params p.body ∨ ∃ c ∈ n.children, p ∈ c.definitions := by
  cases n <;> simp only [definitions, List.mem_append, List.mem_cons, mem_definitionsAll, List.not_mem_nil, or_false] at h <;>
    simp only [children, List.mem_cons, List.not_mem_nil, or_false] <;> grind

theorem sizeOf_lt_of_mem_children {c n : Node} (h : c ∈ n.children) : sizeOf c < sizeOf n := by
  have hlist {ns : List Node} (hc : c ∈ ns) : sizeOf c < sizeOf ns := List.sizeOf_lt_of_mem hc
  cases n <;> simp only [children, List.mem_cons, List.not_mem_nil, or_false] at h <;> grind

/-- What a tree has if its children have it, every tree has. -/
@[elab_as_elim]
theorem children_induction {motive : Node → Prop} (step : ∀ n : Node, (∀ c ∈ n.children, motive c) → motive n) (n : Node) :
    motive n :=
  step n fun c _ => children_induction step c
termination_by n
decreasing_by exact sizeOf_lt_of_mem_children ‹_›

end MinRuby.Syntax.Node
