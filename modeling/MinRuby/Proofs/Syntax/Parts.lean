import MinRuby.Proofs.Syntax.Renumbering
import MinRuby.Proofs.Syntax.Statements

/-!
# Programs in parts

A program can be parsed in two parts, each of them a program: the statements of the whole are those of the first part
and those of the second one, parsed with the names known that the first part assigns. Only temporaries are numbered on.

* `adds_resolve` — the names that are known behind a tree are those that it assigns.
* `statements_of_parts` — the statements of the whole, up to the numbers of temporaries.
-/

namespace MinRuby.Syntax

namespace Node

mutual

/-- The names that the tree assigns outside of definitions, the last one first. -/
def assigned : Node → List String
  | varAssign x value => x :: value.assigned
  | binary _ left right => right.assigned ++ left.assigned
  | stmts body => assignedAll body
  | choice test yes no => no.assigned ++ yes.assigned ++ test.assigned
  | loop test body => body.assigned ++ test.assigned
  | loopAfter test body => test.assigned ++ body.assigned
  | funcCall _ args => assignedAll args
  | aryNew items => assignedAll items
  | aryRef container position => position.assigned ++ container.assigned
  | aryAssign container position value => value.assigned ++ position.assigned ++ container.assigned
  | hashNew items => assignedAll items
  | lit _ | varRef _ | funcDef _ _ _ | unknown _ | scalar | broken => []
termination_by structural n => n

/-- The names that the trees of a sequence assign. -/
def assignedAll : List Node → List String
  | [] => []
  | n :: rest => assignedAll rest ++ n.assigned
termination_by structural l => l

end

mutual

/-- Resolution makes the names known that the tree assigns. -/
theorem adds_resolve : ∀ n : Node, Adds n.resolve n.assigned
  | lit _ => .pure _
  | binary _ left right => (adds_resolve left).bind fun _ => (adds_resolve right).bind fun _ => .pure _
  | stmts body => (adds_resolveAll body).bind fun _ => .pure _
  | varAssign x value => (adds_resolve value).bind fun _ => (Adds.add x).bind fun _ => .pure _
  | varRef _ => .get fun _ => .pure _
  | choice test yes no => (adds_resolve test).bind fun _ => (adds_resolve yes).bind fun _ =>
    (adds_resolve no).bind fun _ => .pure _
  | loop test body => (adds_resolve test).bind fun _ => (adds_resolve body).bind fun _ => .pure _
  | loopAfter test body => (adds_resolve body).bind fun _ => (adds_resolve test).bind fun _ => .pure _
  | funcDef _ _ _ => .pure _
  | funcCall _ args => (adds_resolveAll args).bind fun _ => .pure _
  | aryNew items => (adds_resolveAll items).bind fun _ => .pure _
  | aryRef container position => (adds_resolve container).bind fun _ => (adds_resolve position).bind fun _ => .pure _
  | aryAssign container position value => (adds_resolve container).bind fun _ => (adds_resolve position).bind fun _ =>
    (adds_resolve value).bind fun _ => .pure _
  | hashNew items => (adds_resolveAll items).bind fun _ => .pure _
  | unknown _ => .pure _
  | scalar => .pure _
  | broken => .pure _

theorem adds_resolveAll : ∀ ns : List Node, Adds (resolveAll ns) (assignedAll ns)
  | [] => .pure _
  | n :: rest => (adds_resolve n).bind fun _ => (adds_resolveAll rest).bind fun _ => .pure _

end

mutual

/-- The resolved tree assigns the same names. -/
theorem gives_assigned : ∀ n : Node, Gives n.resolve fun m => m.assigned = n.assigned
  | lit _ => .pure rfl
  | binary _ left right => (gives_assigned left).bind fun _ hl => (gives_assigned right).bind fun _ hr =>
    .pure (by rw [assigned, assigned, hl, hr])
  | stmts body => (gives_assignedAll body).bind fun _ h => .pure (by rw [assigned, assigned, h])
  | varAssign x value => (gives_assigned value).bind fun _ h => fun _ => congrArg (x :: ·) h
  | varRef x => fun known => by
    change ((if x ∈ known then varRef x else funcCall x []) : Node).assigned = []
    split <;> rfl
  | choice test yes no => (gives_assigned test).bind fun _ ht => (gives_assigned yes).bind fun _ hy =>
    (gives_assigned no).bind fun _ hn => .pure (by rw [assigned, assigned, ht, hy, hn])
  | loop test body => (gives_assigned test).bind fun _ ht => (gives_assigned body).bind fun _ hb =>
    .pure (by rw [assigned, assigned, ht, hb])
  | loopAfter test body => (gives_assigned body).bind fun _ hb => (gives_assigned test).bind fun _ ht =>
    .pure (by rw [assigned, assigned, ht, hb])
  | funcDef _ _ _ => .pure rfl
  | funcCall _ args => (gives_assignedAll args).bind fun _ h => .pure (by rw [assigned, assigned, h])
  | aryNew items => (gives_assignedAll items).bind fun _ h => .pure (by rw [assigned, assigned, h])
  | aryRef container position => (gives_assigned container).bind fun _ hc => (gives_assigned position).bind fun _ hp =>
    .pure (by rw [assigned, assigned, hc, hp])
  | aryAssign container position value => (gives_assigned container).bind fun _ hc => (gives_assigned position).bind fun _ hp =>
    (gives_assigned value).bind fun _ hv => .pure (by rw [assigned, assigned, hc, hp, hv])
  | hashNew items => (gives_assignedAll items).bind fun _ h => .pure (by rw [assigned, assigned, h])
  | unknown _ => .pure rfl
  | scalar => .pure rfl
  | broken => .pure rfl

theorem gives_assignedAll : ∀ ns : List Node, Gives (resolveAll ns) fun ms => assignedAll ms = assignedAll ns
  | [] => .pure rfl
  | n :: rest => (gives_assigned n).bind fun _ h => (gives_assignedAll rest).bind fun _ hs =>
    .pure (by rw [assignedAll, assignedAll, h, hs])

end

theorem resolveAll_append (ns ns' : List Node) (known : List String) : (resolveAll (ns ++ ns')).run known =
    (let first := (resolveAll ns).run known
    let second := (resolveAll ns').run first.2
    (first.1 ++ second.1, second.2)) := by
  induction ns generalizing known with
  | nil => rfl
  | cons n ns ih =>
    have hrest := ih (n.resolve.run known).2
    show ((n.resolve.run known).1 :: ((resolveAll (ns ++ ns')).run (n.resolve.run known).2).1,
      ((resolveAll (ns ++ ns')).run (n.resolve.run known).2).2) = _
    rw [hrest]
    rfl

end Node

theorem desugarAll_append (ts ts' : List Term) (n : Nat) : (desugarAll (ts ++ ts')).run n =
    (let first := (desugarAll ts).run n
    let second := (desugarAll ts').run first.2
    (first.1 ++ second.1, second.2)) := by
  induction ts generalizing n with
  | nil => rfl
  | cons t ts ih =>
    have hrest := ih (t.desugar.run n).2
    show ((t.desugar.run n).1 :: ((desugarAll (ts ++ ts')).run (t.desugar.run n).2).1,
      ((desugarAll (ts ++ ts')).run (t.desugar.run n).2).2) = _
    rw [hrest]
    rfl

/-! ## Programs -/

/-- The statements of a block, their names resolved, and the names and the number behind them. -/
def compile (ts : List Term) (known : List String) (n : Nat) : List Node × List String × Nat :=
  let trees := (desugarAll ts).run n
  let resolved := (Node.resolveAll trees.1).run known
  (resolved.1, resolved.2, trees.2)

theorem compile_eq_nil_iff {ts : List Term} {known : List String} {n : Nat} : (compile ts known n).1 = [] ↔ ts = [] := by
  cases ts with
  | nil => exact ⟨fun _ => rfl, fun _ => rfl⟩
  | cons t ts => exact ⟨nofun, nofun⟩

theorem compile_append (ts ts' : List Term) (known : List String) (n : Nat) : compile (ts ++ ts') known n =
    (let first := compile ts known n
    let second := compile ts' first.2.1 first.2.2
    (first.1 ++ second.1, second.2)) := by
  unfold compile
  simp only [desugarAll_append, Node.resolveAll_append]

/-- What is known behind the statements is what was known before them, and what they assign. -/
theorem known_compile (ts : List Term) (known : List String) (n : Nat) :
    (compile ts known n).2.1 = Node.assignedAll (compile ts known n).1 ++ known := by
  let trees := ((desugarAll ts).run n).1
  show ((Node.resolveAll trees).run known).2 = Node.assignedAll ((Node.resolveAll trees).run known).1 ++ known
  rw [Node.gives_assignedAll trees known, Node.adds_resolveAll trees known]

/-- A program parses to the statements of its block. -/
theorem parseProgram_eq_ok_iff {source filename : String} {known : List String} {n n' : Nat} {tree : Node} :
    parseProgram source filename known n = .ok (tree, n') ↔
      ∃ ts, readProgram source filename = .ok (.block ts) ∧ tree = .stmts (compile ts known n).1 ∧
        n' = (compile ts known n).2.2 := by
  constructor
  · intro h
    obtain ⟨t, hread, -⟩ := parseProgram_eq_ok h
    obtain ⟨ts, -, rfl, -⟩ := readProgram_eq_ok_iff.mp hread
    rw [parseProgram_of_readProgram hread] at h
    obtain ⟨rfl, rfl⟩ := Prod.mk.inj (Except.ok.inj h)
    exact ⟨ts, hread, rfl, rfl⟩
  · rintro ⟨ts, hread, rfl, rfl⟩
    exact parseProgram_of_readProgram hread

/-- With another number and other temporaries known, only the names of the temporaries differ that are drawn. -/
theorem compile_rename {ts : List Term} (h : ∀ x ∈ wordsAll ts, IsIdentifier x) {known known' : List String}
    (hknown : Follows known known') {ρ : String → String} {n n' : Nat} (hρ : Carries ρ n n' ((compile ts known n).2.2 - n)) :
    (compile ts known' n').1 = (compile ts known n).1.map (Node.rename ρ) ∧
      Follows (compile ts known n).2.1 (compile ts known' n').2.1 ∧
        ∃ i, (compile ts known n).2.2 = n + i ∧ (compile ts known' n').2.2 = n' + i := by
  obtain ⟨i, -, hi, hi', halike⟩ := renames_desugarAll hρ h 0
  have hlimit : (compile ts known n).2.2 = n + i := hi
  obtain ⟨htrees, hfollows, -⟩ := (halike (by omega)).resolveAll known known' hknown nofun
  exact ⟨htrees.trans (Node.renameAll_eq_map _ _), hfollows, i, hi, hi'⟩

theorem compile_renumber {ts : List Term} (h : ∀ x ∈ wordsAll ts, IsIdentifier x) {known known' : List String}
    (hknown : Follows known known') (n n' : Nat) :
    (compile ts known' n').1 = (compile ts known n).1.map (Node.rename (renumber n n')) ∧
      Follows (compile ts known n).2.1 (compile ts known' n').2.1 ∧
        ∃ i, (compile ts known n).2.2 = n + i ∧ (compile ts known' n').2.2 = n' + i :=
  compile_rename h hknown (carries_renumber n n' _)

/-- Statements that draw no numbers are the same from every number on. -/
theorem compile_of_count_eq {ts : List Term} (h : ∀ x ∈ wordsAll ts, IsIdentifier x) {known : List String} {n : Nat}
    (hcount : (compile ts known n).2.2 = n) (n' : Nat) :
    (compile ts known n').1 = (compile ts known n).1 ∧ (compile ts known n').2.2 = n' := by
  have hid : Carries id n n' ((compile ts known n).2.2 - n) :=
    ⟨fun _ _ => rfl, fun _ _ j hj => absurd hj (by rw [hcount, Nat.sub_self]; exact Nat.not_lt_zero j)⟩
  obtain ⟨htrees, -, i, hi, hi'⟩ := compile_rename h (.refl known) hid
  rw [← Node.renameAll_eq_map, Node.renameAll_id] at htrees
  obtain rfl : i = 0 := by omega
  exact ⟨htrees, hi'⟩

/-- Temporaries from the number behind the statements on are none of theirs. -/
theorem map_rename_compile {ts : List Term} (h : ∀ x ∈ wordsAll ts, IsIdentifier x) (known : List String) (n next : Nat) :
    (compile ts known n).1.map (Node.rename (renumber (compile ts known n).2.2 next)) = (compile ts known n).1 := by
  have hbelow : Carries (renumber (compile ts known n).2.2 next) n n ((compile ts known n).2.2 - n) :=
    ⟨(carries_renumber _ next 0).identifier, fun _ hc j hj => renumber_temporary_of_lt hc (by omega) next⟩
  exact (compile_rename h (.refl known) hbelow).1.symm

/-- Numbered from the same number on, the trees are the same. -/
theorem map_rename_renumber_self (n : Nat) (ns : List Node) : ns.map (Node.rename (renumber n n)) = ns := by
  have hid : renumber n n = id := funext (renumber_self n)
  rw [hid, ← Node.renameAll_eq_map, Node.renameAll_id]

/-- The names of a program that parses are identifiers. -/
theorem isIdentifier_of_readProgram {source filename : String} {ts : List Term}
    (h : readProgram source filename = .ok (.block ts)) :
    ∀ x ∈ wordsAll ts, IsIdentifier x := (sound_of_readWhole h).1.isIdentifier

end MinRuby.Syntax
