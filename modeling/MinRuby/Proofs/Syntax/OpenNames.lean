import MinRuby.Proofs.Syntax.Parts

/-!
# Names that a program takes from outside

The names that a tree reads before it assigns them itself are where resolution looks at what was known before. Nothing else
in the resolved tree depends on it: known before or not, all other names become the same.

* `Node.openReads` — the names that a tree reads before it assigns them.
* `parts_resolve` — a tree resolved with less and with more known, by induction on the tree.
* `compile_sameUpToTemporaries_iff` — when the statements of a program do not depend on the names that are known.
-/

namespace MinRuby.Syntax

namespace Node

mutual

/-- The names that the tree reads outside of definitions where they are neither known nor assigned by it before. -/
def openReads : Node → List String → List String
  | varRef x, known => if x ∈ known then [] else [x]
  | varAssign _ value, known => value.openReads known
  | binary _ left right, known => left.openReads known ++ right.openReads (left.assigned ++ known)
  | stmts body, known => openReadsAll body known
  | choice test yes no, known =>
    test.openReads known ++ yes.openReads (test.assigned ++ known) ++ no.openReads (yes.assigned ++ (test.assigned ++ known))
  | loop test body, known => test.openReads known ++ body.openReads (test.assigned ++ known)
  | loopAfter test body, known => body.openReads known ++ test.openReads (body.assigned ++ known)
  | funcCall _ args, known => openReadsAll args known
  | aryNew items, known => openReadsAll items known
  | aryRef container position, known => container.openReads known ++ position.openReads (container.assigned ++ known)
  | aryAssign container position value, known =>
    container.openReads known ++ position.openReads (container.assigned ++ known) ++
      value.openReads (position.assigned ++ (container.assigned ++ known))
  | hashNew items, known => openReadsAll items known
  | lit _, _ | funcDef _ _ _, _ | unknown _, _ | scalar, _ | broken, _ => []
termination_by structural n => n

/-- The names that the trees of a sequence read before they assign them. -/
def openReadsAll : List Node → List String → List String
  | [], _ => []
  | n :: rest, known => n.openReads known ++ openReadsAll rest (n.assigned ++ known)
termination_by structural l => l

end

/-! ## Resolution with further names known -/

section

variable {more known known' : List String} {α β γ δ : Type}

/-- Besides what is known, the names in `more` are known too. -/
def Widens (more known known' : List String) : Prop := ∀ x, x ∈ known' ↔ x ∈ known ∨ x ∈ more

theorem Widens.append (h : Widens more known known') (names : List String) : Widens more (names ++ known) (names ++ known') := by
  intro x
  rw [List.mem_append, List.mem_append, h x, or_assoc]

/-- The second thing, for which more was known, is the first one if none of the names in `more` was read from outside; and
if one was, it is not even the first one under other names of variables. -/
structure Parts (more reads : List String) (rename : (String → String) → α → α) (a a' : α) : Prop where
  same : (∀ x ∈ reads, x ∉ more) → a' = a
  shut : ∀ ρ, a = rename ρ a' → ∀ x ∈ reads, x ∉ more

namespace Parts

variable {ra : (String → String) → α → α} {rb : (String → String) → β → β} {rc : (String → String) → γ → γ}
  {rd : (String → String) → δ → δ} {reads reads₂ reads₃ : List String} {a a' : α} {b b' : β} {c c' : γ}

theorem refl (a : α) : Parts more [] ra a a := ⟨fun _ => rfl, fun _ _ _ hx => absurd hx List.not_mem_nil⟩

theorem one (ha : Parts more reads ra a a') (f : α → δ) (hf : ∀ ρ, f a = rd ρ (f a') → a = ra ρ a') :
    Parts more reads rd (f a) (f a') where
  same h := by rw [ha.same h]
  shut ρ h := ha.shut ρ (hf ρ h)

theorem two (ha : Parts more reads ra a a') (hb : Parts more reads₂ rb b b') (f : α → β → δ)
    (hf : ∀ ρ, f a b = rd ρ (f a' b') → a = ra ρ a' ∧ b = rb ρ b') :
    Parts more (reads ++ reads₂) rd (f a b) (f a' b') where
  same h := by
    obtain ⟨h, h₂⟩ := List.forall_mem_append.mp h
    rw [ha.same h, hb.same h₂]
  shut ρ h := by
    obtain ⟨h, h₂⟩ := hf ρ h
    exact List.forall_mem_append.mpr ⟨ha.shut ρ h, hb.shut ρ h₂⟩

theorem three (ha : Parts more reads ra a a') (hb : Parts more reads₂ rb b b') (hc : Parts more reads₃ rc c c')
    (f : α → β → γ → δ) (hf : ∀ ρ, f a b c = rd ρ (f a' b' c') → a = ra ρ a' ∧ b = rb ρ b' ∧ c = rc ρ c') :
    Parts more (reads ++ reads₂ ++ reads₃) rd (f a b c) (f a' b' c') where
  same h := by
    obtain ⟨h, h₃⟩ := List.forall_mem_append.mp h
    obtain ⟨h, h₂⟩ := List.forall_mem_append.mp h
    rw [ha.same h, hb.same h₂, hc.same h₃]
  shut ρ h := by
    obtain ⟨h, h₂, h₃⟩ := hf ρ h
    exact List.forall_mem_append.mpr ⟨List.forall_mem_append.mpr ⟨ha.shut ρ h, hb.shut ρ h₂⟩, hc.shut ρ h₃⟩

end Parts

end

/-- The resolved tree. -/
def resolveIn (known : List String) (n : Node) : Node := (n.resolve.run known).1

/-- The resolved trees of a sequence. -/
def resolveAllIn (known : List String) (ns : List Node) : List Node := ((resolveAll ns).run known).1

section

variable (known : List String) (t y n c p v : Node)

theorem resolveIn_binary (op : BinaryOp) :
    (binary op t y).resolveIn known = binary op (t.resolveIn known) (y.resolveIn (t.assigned ++ known)) := by
  rw [← adds_resolve t known]
  rfl

theorem resolveIn_choice : (choice t y n).resolveIn known =
    choice (t.resolveIn known) (y.resolveIn (t.assigned ++ known)) (n.resolveIn (y.assigned ++ (t.assigned ++ known))) := by
  rw [← adds_resolve t known, ← adds_resolve y]
  rfl

theorem resolveIn_loop : (loop t y).resolveIn known = loop (t.resolveIn known) (y.resolveIn (t.assigned ++ known)) := by
  rw [← adds_resolve t known]
  rfl

theorem resolveIn_loopAfter :
    (loopAfter t y).resolveIn known = loopAfter (t.resolveIn (y.assigned ++ known)) (y.resolveIn known) := by
  rw [← adds_resolve y known]
  rfl

theorem resolveIn_aryRef : (aryRef c p).resolveIn known = aryRef (c.resolveIn known) (p.resolveIn (c.assigned ++ known)) := by
  rw [← adds_resolve c known]
  rfl

theorem resolveIn_aryAssign : (aryAssign c p v).resolveIn known =
    aryAssign (c.resolveIn known) (p.resolveIn (c.assigned ++ known)) (v.resolveIn (p.assigned ++ (c.assigned ++ known))) := by
  rw [← adds_resolve c known, ← adds_resolve p]
  rfl

theorem resolveAllIn_cons (ns : List Node) :
    resolveAllIn known (n :: ns) = n.resolveIn known :: resolveAllIn (n.assigned ++ known) ns := by
  rw [← adds_resolve n known]
  rfl

end

section

variable {more : List String}

theorem parts_varRef {known known' : List String} (h : Widens more known known') (x : String) :
    Parts more ((varRef x).openReads known) rename ((varRef x).resolveIn known) ((varRef x).resolveIn known') := by
  have hresolve (known : List String) : (varRef x).resolveIn known = if x ∈ known then varRef x else funcCall x [] := rfl
  rw [hresolve, hresolve, openReads]
  by_cases hx : x ∈ known
  · rw [if_pos hx, if_pos hx, if_pos ((h x).mpr (.inl hx))]
    exact .refl _
  · rw [if_neg hx, if_neg hx]
    by_cases hmore : x ∈ more
    · rw [if_pos ((h x).mpr (.inr hmore))]
      refine ⟨fun hreads => absurd hmore (hreads x List.mem_cons_self), fun ρ heq => ?_⟩
      cases heq
    · rw [if_neg fun hx' => ((h x).mp hx').elim hx hmore]
      exact ⟨fun _ => rfl, fun _ _ => List.forall_mem_singleton.mpr hmore⟩

mutual

/-- The trees that are resolved with less and with more known. -/
theorem parts_resolve : ∀ (n : Node) {known known' : List String}, Widens more known known' →
    Parts more (n.openReads known) rename (n.resolveIn known) (n.resolveIn known')
  | lit _, _, _, _ => .refl _
  | funcDef _ _ _, _, _, _ => .refl _
  | unknown _, _, _, _ => .refl _
  | scalar, _, _, _ => .refl _
  | broken, _, _, _ => .refl _
  | varRef x, _, _, h => parts_varRef h x
  | varAssign x value, known, known', h => (parts_resolve value h).one (varAssign x) fun ρ h => by simp_all [rename]
  | binary op left right, known, known', h => by
    rw [resolveIn_binary, resolveIn_binary, openReads]
    exact (parts_resolve left h).two (parts_resolve right (h.append left.assigned)) (binary op) (by simp [rename])
  | stmts body, _, _, h => (parts_resolveAll body h).one stmts (by simp [rename])
  | choice test yes no, known, known', h => by
    rw [resolveIn_choice, resolveIn_choice, openReads]
    have ht := h.append test.assigned
    exact (parts_resolve test h).three (parts_resolve yes ht) (parts_resolve no (ht.append yes.assigned)) choice
      (by simp [rename])
  | loop test body, known, known', h => by
    rw [resolveIn_loop, resolveIn_loop, openReads]
    exact (parts_resolve test h).two (parts_resolve body (h.append test.assigned)) loop (by simp [rename])
  | loopAfter test body, known, known', h => by
    rw [resolveIn_loopAfter, resolveIn_loopAfter, openReads]
    exact (parts_resolve body h).two (parts_resolve test (h.append body.assigned)) (fun b t => loopAfter t b)
      (by simp +contextual [rename])
  | funcCall f args, _, _, h => (parts_resolveAll args h).one (funcCall f) (by simp [rename])
  | aryNew items, _, _, h => (parts_resolveAll items h).one aryNew (by simp [rename])
  | aryRef container position, known, known', h => by
    rw [resolveIn_aryRef, resolveIn_aryRef, openReads]
    exact (parts_resolve container h).two (parts_resolve position (h.append container.assigned)) aryRef (by simp [rename])
  | aryAssign container position value, known, known', h => by
    rw [resolveIn_aryAssign, resolveIn_aryAssign, openReads]
    have hc := h.append container.assigned
    exact (parts_resolve container h).three (parts_resolve position hc) (parts_resolve value (hc.append position.assigned))
      aryAssign (by simp [rename])
  | hashNew items, _, _, h => (parts_resolveAll items h).one hashNew (by simp [rename])

theorem parts_resolveAll : ∀ (ns : List Node) {known known' : List String}, Widens more known known' →
    Parts more (openReadsAll ns known) renameAll (resolveAllIn known ns) (resolveAllIn known' ns)
  | [], _, _, _ => .refl _
  | n :: ns, known, known', h => by
    rw [resolveAllIn_cons, resolveAllIn_cons, openReadsAll]
    exact (parts_resolve n h).two (parts_resolveAll ns (h.append n.assigned)) List.cons (by simp [renameAll])

end

end

/-! ## Other names twice -/

mutual

theorem rename_rename (ρ σ : String → String) : ∀ n : Node, (n.rename ρ).rename σ = n.rename (σ ∘ ρ)
  | lit _ => rfl
  | binary _ left right => by simp only [rename, rename_rename ρ σ left, rename_rename ρ σ right]
  | stmts body => by simp only [rename, renameAll_renameAll ρ σ body]
  | varAssign _ value => by simp only [rename, rename_rename ρ σ value, Function.comp_apply]
  | varRef _ => rfl
  | choice test yes no => by simp only [rename, rename_rename ρ σ test, rename_rename ρ σ yes, rename_rename ρ σ no]
  | loop test body => by simp only [rename, rename_rename ρ σ test, rename_rename ρ σ body]
  | loopAfter test body => by simp only [rename, rename_rename ρ σ test, rename_rename ρ σ body]
  | funcDef _ params body => by simp only [rename, rename_rename ρ σ body, List.map_map]
  | funcCall _ args => by simp only [rename, renameAll_renameAll ρ σ args]
  | aryNew items => by simp only [rename, renameAll_renameAll ρ σ items]
  | aryRef container position => by simp only [rename, rename_rename ρ σ container, rename_rename ρ σ position]
  | aryAssign container position value => by
    simp only [rename, rename_rename ρ σ container, rename_rename ρ σ position, rename_rename ρ σ value]
  | hashNew items => by simp only [rename, renameAll_renameAll ρ σ items]
  | unknown _ => rfl
  | scalar => rfl
  | broken => rfl

theorem renameAll_renameAll (ρ σ : String → String) : ∀ ns : List Node, renameAll σ (renameAll ρ ns) = renameAll (σ ∘ ρ) ns
  | [] => rfl
  | n :: rest => by simp only [renameAll, rename_rename ρ σ n, renameAll_renameAll ρ σ rest]

end

end Node

/-! ## Programs -/

/-- The second tree is the first one with other names for temporaries. -/
def Node.RenamesTemporaries (n n' : Node) : Prop := ∃ ρ : String → String, (∀ x, IsIdentifier x → ρ x = x) ∧ n' = n.rename ρ

/-- The trees differ in nothing but the names of temporaries. -/
structure Node.SameUpToTemporaries (n n' : Node) : Prop where
  there : n.RenamesTemporaries n'
  back : n'.RenamesTemporaries n

/-- The names that the statements of a program read, outside of definitions, before they assign them. -/
def openNames (ts : List Term) : List String := Node.openReadsAll ((desugarAll ts).run 1).1 []

theorem Node.RenamesTemporaries.trans {n n' n'' : Node} (h : n.RenamesTemporaries n') (h' : n'.RenamesTemporaries n'') :
    n.RenamesTemporaries n'' := by
  obtain ⟨ρ, hρ, rfl⟩ := h
  obtain ⟨σ, hσ, rfl⟩ := h'
  refine ⟨σ ∘ ρ, fun x hx => ?_, Node.rename_rename ρ σ n⟩
  rw [Function.comp_apply, hρ x hx, hσ x hx]

/-- The temporaries of a program counted from another number on. -/
theorem renamesTemporaries_compile {ts : List Term} (h : ∀ x ∈ wordsAll ts, IsIdentifier x) (known : List String) (n n' : Nat) :
    (Node.stmts (compile ts known n).1).RenamesTemporaries (.stmts (compile ts known n').1) := by
  refine ⟨renumber n n', fun x hx => renumber_of_not_isTemporary (fun ht => not_isIdentifier_of_isTemporary ht hx) n n', ?_⟩
  rw [Node.rename, Node.renameAll_eq_map, (compile_renumber h (.refl known) n n').1]

/-- Statements compiled with names known and without are the same, up to other names for temporaries, exactly if none of
the known names is open in them. -/
theorem compile_sameUpToTemporaries_iff {ts : List Term} (h : ∀ x ∈ wordsAll ts, IsIdentifier x) (known : List String)
    (n n' : Nat) : (Node.stmts (compile ts [] n).1).SameUpToTemporaries (.stmts (compile ts known n').1) ↔
      ∀ x ∈ openNames ts, x ∉ known := by
  -- numbered from one, the statements differ in nothing but what was known
  have hparts : Node.Parts known (openNames ts) Node.renameAll (compile ts [] 1).1 (compile ts known 1).1 :=
    Node.parts_resolveAll _ fun x => by simp
  have hnumber (known : List String) (n n' : Nat) :
      (compile ts known n').1 = Node.renameAll (renumber n n') (compile ts known n).1 := by
    rw [Node.renameAll_eq_map]
    exact (compile_renumber h (.refl known) n n').1
  constructor
  · rintro ⟨-, ρ, -, heq⟩
    rw [Node.rename] at heq
    refine hparts.shut (renumber n 1 ∘ ρ ∘ renumber 1 n') ?_
    rw [hnumber [] n 1, Node.stmts.inj heq, hnumber known 1 n', Node.renameAll_renameAll, Node.renameAll_renameAll]
    rfl
  · intro hopen
    have hsame : Node.stmts (compile ts [] 1).1 = .stmts (compile ts known 1).1 :=
      congrArg Node.stmts (hparts.same hopen).symm
    refine ⟨(renamesTemporaries_compile h [] n 1).trans ?_, (renamesTemporaries_compile h known n' 1).trans ?_⟩
    · rw [hsame]
      exact renamesTemporaries_compile h known 1 n'
    · rw [← hsame]
      exact renamesTemporaries_compile h [] 1 n

end MinRuby.Syntax
