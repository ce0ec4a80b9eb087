import MinRuby.Proofs.Syntax.Assignment

/-!
# Functions have names that are written

A name that is not known as a variable is the call of a function. A temporary is assigned before it is read, so it is known
wherever it stands: it is never taken for a function. All functions and parameters of a program have names that it has
written itself.

* `Node.Written` — the functions and the parameters of a tree.
* `written_resolve` — resolution of a tree that assigns its temporaries before it reads them.
* `written_of_parseProgram` — programs.
-/

namespace MinRuby.Syntax

namespace Node

mutual

/-- Every function that the tree calls or defines, and every parameter, has a name that a program can write. -/
def Written : Node → Prop
  | funcCall f args => IsIdentifier f ∧ WrittenAll args
  | funcDef f params body => IsIdentifier f ∧ (∀ x ∈ params, IsIdentifier x) ∧ body.Written
  | varAssign _ value => value.Written
  | binary _ left right => left.Written ∧ right.Written
  | stmts body => WrittenAll body
  | choice test yes no => test.Written ∧ yes.Written ∧ no.Written
  | loop test body => test.Written ∧ body.Written
  | loopAfter test body => test.Written ∧ body.Written
  | aryNew items => WrittenAll items
  | aryRef container position => container.Written ∧ position.Written
  | aryAssign container position value => container.Written ∧ position.Written ∧ value.Written
  | hashNew items => WrittenAll items
  | lit _ | varRef _ | unknown _ | scalar | broken => True
termination_by structural n => n

/-- The same of the trees of a sequence. -/
def WrittenAll : List Node → Prop
  | [] => True
  | n :: rest => n.Written ∧ WrittenAll rest
termination_by structural l => l

end

theorem writtenAll_iff {ns : List Node} : WrittenAll ns ↔ ∀ n ∈ ns, n.Written := by
  induction ns with
  | nil => simp [WrittenAll]
  | cons n ns ih => simp [WrittenAll, ih]

theorem Written.of_mem_children {c n : Node} (h : n.Written) (hc : c ∈ n.children) : c.Written := by
  cases n <;> simp only [children, List.mem_cons, List.not_mem_nil, or_false] at hc <;>
    simp only [Written, writtenAll_iff] at h <;> grind

/-- The definitions of the tree have such names, too. -/
theorem Written.of_mem_definitions {n : Node} (h : n.Written) {p : Procedure} (hp : p ∈ n.definitions) :
    (∀ x ∈ p.params, IsIdentifier x) ∧ p.body.Written := by
  induction n using children_induction with
  | step n ih =>
    rcases mem_definitions_cases hp with rfl | ⟨c, hc, hpc⟩
    · exact h.2
    · exact ih c hc (h.of_mem_children hc) hpc

theorem Within.written {n : Node} {p : Procedure} (hp : n.Within p) (h : n.Written) :
    (∀ x ∈ p.params, IsIdentifier x) ∧ p.body.Written := by
  induction hp with
  | outer hd => exact h.of_mem_definitions hd
  | inner _ hd ih => exact ih.2.of_mem_definitions hd

/-! ## Resolution -/

/-- What has been assigned for sure is known. -/
theorem known_behind {n : Node} {known names : List String} (h : names ⊆ known) :
    sure n.assignments ++ names ⊆ (n.resolve.run known).2 := by
  intro x hx
  rw [adds_resolve n known]
  rcases List.mem_append.mp hx with hsure | hnames
  · exact List.mem_append_left _ ((mem_assigned_iff n).mpr (List.mem_map_of_mem (mem_sure.mp hsure)))
  · exact List.mem_append_right _ (h hnames)

mutual

/-- If what no program can write is assigned before it is read, resolution takes none of it for a function. -/
theorem written_resolve : ∀ (n : Node) {known names : List String}, names ⊆ known → n.Covered Unwritten names → n.Written →
    (n.resolve.run known).1.Written
  | lit _, _, _, _, _, _ | unknown _, _, _, _, _, _ | scalar, _, _, _, _, _ | broken, _, _, _, _, _ => trivial
  | varRef x, known, _, hknown, hcovered, _ => by
    show Written (if x ∈ known then varRef x else funcCall x [])
    split
    · exact trivial
    · next hx => exact ⟨not_not.mp fun hunwritten => hx (hknown (hcovered hunwritten)), trivial⟩
  | varAssign _ value, known, _, hknown, hcovered, h =>
    show (value.resolve.run known).1.Written from written_resolve value hknown hcovered h
  | funcDef _ params body, _, _, _, hcovered, h =>
    ⟨h.1, h.2.1, written_resolve body (List.Subset.refl params) hcovered h.2.2⟩
  | binary _ left right, _, _, hknown, hcovered, h =>
    ⟨written_resolve left hknown hcovered.1 h.1, written_resolve right (known_behind hknown) hcovered.2 h.2⟩
  | choice test yes no, known, _, hknown, hcovered, h => by
    have htest := known_behind (n := test) hknown
    have hyes := List.Subset.trans htest (retains_resolve yes (test.resolve.run known).2)
    exact ⟨written_resolve test hknown hcovered.1 h.1, written_resolve yes htest hcovered.2.1 h.2.1,
      written_resolve no hyes hcovered.2.2 h.2.2⟩
  | loop test body, _, _, hknown, hcovered, h =>
    ⟨written_resolve test hknown hcovered.1 h.1, written_resolve body (known_behind hknown) hcovered.2 h.2⟩
  | loopAfter test body, _, _, hknown, hcovered, h =>
    ⟨written_resolve test (known_behind hknown) hcovered.2 h.1, written_resolve body hknown hcovered.1 h.2⟩
  | funcCall _ args, _, _, hknown, hcovered, h => ⟨h.1, written_resolveAll args hknown hcovered h.2⟩
  | stmts body, _, _, hknown, hcovered, h => written_resolveAll body hknown hcovered h
  | aryNew items, _, _, hknown, hcovered, h => written_resolveAll items hknown hcovered h
  | hashNew items, _, _, hknown, hcovered, h => written_resolveAll items hknown hcovered h
  | aryRef container position, _, _, hknown, hcovered, h =>
    ⟨written_resolve container hknown hcovered.1 h.1, written_resolve position (known_behind hknown) hcovered.2 h.2⟩
  | aryAssign container position value, _, _, hknown, hcovered, h => by
    have hcontainer := known_behind (n := container) hknown
    have hposition := known_behind (n := position) hcontainer
    exact ⟨written_resolve container hknown hcovered.1 h.1, written_resolve position hcontainer hcovered.2.1 h.2.1,
      written_resolve value hposition hcovered.2.2 h.2.2⟩

theorem written_resolveAll : ∀ (ns : List Node) {known names : List String}, names ⊆ known → CoveredAll Unwritten names ns →
    WrittenAll ns → WrittenAll ((resolveAll ns).run known).1
  | [], _, _, _, _, _ => trivial
  | n :: rest, _, _, hknown, hcovered, h =>
    ⟨written_resolve n hknown hcovered.1 h.1, written_resolveAll rest (known_behind hknown) hcovered.2 h.2⟩

end

/-! ## Terms -/

theorem written_matchesAny {x : String} {values : List Node} (h : ∀ n ∈ values, n.Written) : (matchesAny x values).Written := by
  fun_induction matchesAny x values with
  | case1 => exact trivial
  | case2 value => exact ⟨trivial, h value List.mem_cons_self⟩
  | case3 value rest _ ih =>
    exact ⟨⟨trivial, h value List.mem_cons_self⟩, trivial, ih fun n hn => h n (List.mem_cons_of_mem _ hn)⟩

end Node

open Node (writtenAll_iff)

theorem composes_written : Composes Node.Written fun _ => Node.Written where
  lit _ := trivial
  varRef _ := trivial
  funcCall hf ha := ⟨hf, writtenAll_iff.mpr ha⟩
  aryNew hi := writtenAll_iff.mpr hi
  hashNew _ hi := writtenAll_iff.mpr hi
  aryRef hc hp := ⟨hc, hp⟩
  binary hl hr := ⟨hl, hr⟩
  bothOf _ hl hr := ⟨hl, ⟨trivial, hr, trivial⟩, trivial⟩
  eitherOf _ hl hr := ⟨hl, ⟨trivial, trivial, hr⟩, trivial⟩
  choice ht hy hn := ⟨ht, hy, hn⟩
  varAssign _ hv := hv
  aryAssign hc hp hv := ⟨hc, hp, hv⟩
  loop ht hb := ⟨ht, hb⟩
  loopAfter ht hb := ⟨ht, hb⟩
  stmts hb := writtenAll_iff.mpr hb
  funcDef hf hp hb := ⟨hf, hp, hb⟩
  caseOf _ hs hc := ⟨hs, hc, trivial⟩
  otherwise hb := hb
  clause _ hv hb hr := ⟨Node.written_matchesAny hv, hb, hr⟩

/-- In the tree of a program all functions and parameters have names that the program has written. -/
theorem written_of_parseProgram {source filename : String} {known : List String} {counter next : Nat} {tree : Node}
    (h : parseProgram source filename known counter = .ok (tree, next)) : tree.Written := by
  obtain ⟨t, hread, rfl⟩ := parseProgram_eq_ok h
  have hsupplied := composes_supplied.of_readProgram hread counter
  have hwritten := composes_written.of_readProgram hread counter
  exact Node.written_resolve _ (List.Subset.refl known) (hsupplied known) hwritten

end MinRuby.Syntax
