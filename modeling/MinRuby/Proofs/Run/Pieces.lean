import MinRuby.Proofs.Run.Depth
import MinRuby.Proofs.Run.Renaming

/-!
# Runs in pieces

A program that is run in two pieces, the second one on the machine that the first one leaves, does what the whole
program does: the statements of the whole are those of the pieces, the names that are known between them are the
variables that the first piece has set, and evaluation goes through the statements one after the other. What is left of
the cut are the numbers of temporaries. The whole program numbers those of its second piece before the first one runs.

* `assigned_of_mem_keys` — the variables of a frame are assigned in the program that ran in it.
* `evaluateIn_append` — statements run one after the other.
* `run_in_pieces` — the two ways of running a program.
-/

namespace MinRuby

open Syntax (IsIdentifier JoinsNext Node Scoped compile renumber)

/-! ## The variables of a run -/

/-- The resolving step gives what satisfies `P` and does not make `x` known. -/
def Shuns (x : String) {α : Type} (step : Scoped α) (P : α → Prop) : Prop :=
  ∀ known, x ∉ known → P (step.run known).1 ∧ x ∉ (step.run known).2

namespace Shuns

variable {x : String} {α β : Type} {P : α → Prop} {Q : β → Prop}

theorem pure {a : α} (h : P a) : Shuns x (Pure.pure a) P := fun _ hx => ⟨h, hx⟩

theorem bind {step : Scoped α} {f : α → Scoped β} (h : Shuns x step P) (hf : ∀ a, P a → Shuns x (f a) Q) :
    Shuns x (step >>= f) Q := fun known hx => hf _ (h known hx).1 _ (h known hx).2

end Shuns

namespace Syntax.Node

variable {x : String}

mutual

/-- A name that is neither known nor assigned is not mentioned in the resolved tree. -/
theorem shuns_resolve : ∀ {n : Node}, x ∉ n.assigned → Shuns x n.resolve (Avoids [x])
  | lit _, _ => .pure trivial
  | binary _ left right, h => by
    simp only [assigned, List.mem_append, not_or] at h
    exact (shuns_resolve h.2).bind fun _ hl => (shuns_resolve h.1).bind fun _ hr => .pure ⟨hl, hr⟩
  | stmts body, h => (shuns_resolveAll (l := body) h).bind fun _ hb => .pure hb
  | varAssign y value, h => by
    simp only [assigned, List.mem_cons, not_or] at h
    refine (shuns_resolve h.2).bind fun v hv known hx => ⟨⟨?_, hv⟩, ?_⟩
    · simpa using Ne.symm h.1
    · exact fun hmem => (List.mem_cons.mp hmem).elim h.1 hx
  | varRef y, _ => fun known hx => by
    show Avoids [x] (if y ∈ known then varRef y else funcCall y []) ∧ x ∉ known
    refine ⟨?_, hx⟩
    split
    · next hy =>
      show y ∉ [x]
      rintro hyx
      exact hx (List.mem_singleton.mp hyx ▸ hy)
    · trivial
  | choice test yes no, h => by
    simp only [assigned, List.mem_append, not_or] at h
    exact (shuns_resolve h.2).bind fun _ ht => (shuns_resolve h.1.2).bind fun _ hy => (shuns_resolve h.1.1).bind fun _ hn =>
      .pure ⟨ht, hy, hn⟩
  | loop test body, h => by
    simp only [assigned, List.mem_append, not_or] at h
    exact (shuns_resolve h.2).bind fun _ ht => (shuns_resolve h.1).bind fun _ hb => .pure ⟨ht, hb⟩
  | loopAfter test body, h => by
    simp only [assigned, List.mem_append, not_or] at h
    exact (shuns_resolve h.2).bind fun _ hb => (shuns_resolve h.1).bind fun _ ht => .pure ⟨ht, hb⟩
  | funcDef _ _ _, _ => .pure trivial
  | funcCall _ args, h => (shuns_resolveAll (l := args) h).bind fun _ ha => .pure ha
  | aryNew items, h => (shuns_resolveAll (l := items) h).bind fun _ hi => .pure hi
  | aryRef container position, h => by
    simp only [assigned, List.mem_append, not_or] at h
    exact (shuns_resolve h.2).bind fun _ hc => (shuns_resolve h.1).bind fun _ hp => .pure ⟨hc, hp⟩
  | aryAssign container position value, h => by
    simp only [assigned, List.mem_append, not_or] at h
    exact (shuns_resolve h.2).bind fun _ hc => (shuns_resolve h.1.2).bind fun _ hp => (shuns_resolve h.1.1).bind fun _ hv =>
      .pure ⟨hc, hp, hv⟩
  | hashNew items, h => (shuns_resolveAll (l := items) h).bind fun _ hi => .pure hi
  | unknown _, _ => .pure trivial
  | scalar, _ => .pure trivial
  | broken, _ => .pure trivial

theorem shuns_resolveAll : ∀ {l : List Node}, x ∉ assignedAll l → Shuns x (resolveAll l) (AvoidsAll [x])
  | [], _ => .pure trivial
  | n :: rest, h => by
    simp only [assignedAll, List.mem_append, not_or] at h
    exact (shuns_resolve h.2).bind fun _ hn => (shuns_resolveAll h.1).bind fun _ hr => .pure ⟨hn, hr⟩

end

end Syntax.Node

/-- The variables of the frame that a program has run in are names that it assigns. -/
theorem assigned_of_mem_keys {ts : List Syntax.Term} {n : Nat} {budget : Budget} {m m' : Machine} {v : Value}
    (hframe : m.frame = .empty) (hrun : evaluateIn budget (.stmts (compile ts [] n).1) m = .ok v m') {x : String}
    (hx : x ∈ m'.frame.keys) : x ∈ Node.assignedAll (compile ts [] n).1 := by
  by_contra hassigned
  have hshuns : x ∉ Node.assignedAll ((Syntax.desugarAll ts).run n).1 := by
    rwa [← Node.gives_assignedAll _ []]
  have havoids : (Node.stmts (compile ts [] n).1).Avoids [x] := (Node.shuns_resolveAll hshuns [] List.not_mem_nil).1
  -- a variable that is not mentioned stays as it was, and there was none
  have hstart : Keeping [x] [] m m := .refl ⟨rfl, by rw [hframe]; rfl⟩
  have hbelow : Side.left.Below budget.depth budget.depth := Nat.le_refl budget.depth
  have hkeeps := evaluate_inStep budget.rounds hbelow [] havoids m m hstart
  rw [evaluateIn] at hrun
  rw [hrun] at hkeeps
  obtain ⟨-, hend⟩ : v = v ∧ Keeping [x] [] m' m' := hkeeps.resolve_right nofun
  obtain ⟨e, he, rfl⟩ := List.mem_map.mp hx
  have hmem : e ∈ concealed [e.1] m'.frame := List.mem_filter.mpr ⟨he, by simp⟩
  rw [hend.frames.concealed_eq] at hmem
  exact List.not_mem_nil hmem

/-! ## One after the other -/

/-- A tree leaves the tracing of a run as it is, and gives no number back. -/
theorem machine_of_evaluateIn {budget : Budget} {node : Node} {m m' : Machine} {v : Value}
    (h : evaluateIn budget node m = .ok v m') :
    m'.debug = m.debug ∧ m.nextTemporary ≤ m'.nextTemporary := by
  have hmoves := moves_evaluate (d := 0) Function.injective_id budget.rounds budget.depth node m
  have hafter : after (evaluateIn budget node) m = m' := by rw [after, h]
  exact ⟨hafter ▸ hmoves.traced, hafter ▸ hmoves.grows⟩

/-- Statements are evaluated one after the other; the value is that of the last one. -/
theorem evaluateIn_stmts {budget : Budget} {d : Nat} (hdepth : budget.depth = d + 1) (ns : List Node) {m : Machine}
    (hdebug : m.debug = false) :
    evaluateIn budget (.stmts ns) m = ns.foldlM (fun _ n => evaluate budget.rounds d n) .nil m := by
  have hoff : ¬ m.debug = true := by rw [hdebug]; exact Bool.false_ne_true
  rw [evaluateIn, hdepth, evaluate, traceNode_eq_trace (show (Node.stmts ns).tag = .str "stmts" from rfl),
    run_trace_bind, if_neg hoff]

/-- Two blocks of statements in a row, the second one not empty. -/
theorem evaluateIn_append (budget : Budget) (ts : List Node) {us : List Node} (hsome : us ≠ []) {m : Machine}
    (hdebug : m.debug = false) :
    evaluateIn budget (.stmts (ts ++ us)) m = (do
      let _ ← evaluateIn budget (.stmts ts)
      evaluateIn budget (.stmts us)) m := by
  obtain ⟨u, rest, rfl⟩ := List.exists_cons_of_ne_nil hsome
  show _ = EStateM.bind (evaluateIn budget (.stmts ts)) (fun _ => evaluateIn budget (.stmts (u :: rest))) m
  cases hdepth : budget.depth with
  | zero =>
    have hstop (node : Node) : evaluateIn budget node = throw (.limit .depth) := by rw [evaluateIn, hdepth, evaluate]
    rw [EStateM.bind, hstop, hstop]
    rfl
  | succ d =>
    have hfirst := evaluateIn_stmts hdepth ts hdebug
    rw [evaluateIn_stmts hdepth _ hdebug, List.foldlM_append, EStateM.bind, hfirst]
    show EStateM.bind (ts.foldlM (fun _ n => evaluate budget.rounds d n) .nil) _ m = _
    rw [EStateM.bind]
    cases hrun : ts.foldlM (fun _ n => evaluate budget.rounds d n) Value.nil m with
    | error e m' => rfl
    | ok v m' =>
      have hdebug' : m'.debug = false := (machine_of_evaluateIn (hfirst.trans hrun)).1.trans hdebug
      exact (evaluateIn_stmts hdepth (u :: rest) hdebug').symm

/-- A program that is not traced is parsed with the variables of the frame known, and its statements are evaluated. -/
theorem runSource_of_readProgram {budget : Budget} {source filename : String} {ts : List Syntax.Term}
    (h : Syntax.readProgram source filename = .ok (.block ts)) {m : Machine} (hdebug : m.debug = false) :
    runSource budget source filename m = evaluateIn budget (.stmts (compile ts m.frame.keys m.nextTemporary).1)
      { m with nextTemporary := (compile ts m.frame.keys m.nextTemporary).2.2 } := by
  show EStateM.bind (Eval.parseProgram source filename m.frame.keys) (evaluateIn budget) m = _
  rw [EStateM.bind, parseProgram_of_untraced h hdebug]

/-! ## In pieces -/

/-- On a machine that keeps its names, renamed statements do what the statements do. -/
theorem evaluateIn_map_rename {ρ : String → String} (hρ : Function.Injective ρ) (budget : Budget) (ns : List Node) {m : Machine}
    (hm : m.moved ρ 0 = m) :
    evaluateIn budget (.stmts (ns.map (Node.rename ρ))) m = moveResult ρ (Machine.moved ρ 0)
      (evaluateIn budget (.stmts ns) m) := by
  have hmoves := (moves_evaluate (d := 0) hρ budget.rounds budget.depth (.stmts ns) m).same (.inl rfl)
  rwa [hm, Node.rename, Node.renameAll_eq_map] at hmoves

/-- Statements that keep their names lead from such a machine to another one. -/
theorem moved_of_evaluateIn {ρ : String → String} (hρ : Function.Injective ρ) {budget : Budget} {ns : List Node}
    (hns : ns.map (Node.rename ρ) = ns) {m m' : Machine} (hm : m.moved ρ 0 = m) {v : Value}
    (h : evaluateIn budget (.stmts ns) m = .ok v m') : m'.moved ρ 0 = m' := by
  have hmoved := evaluateIn_map_rename hρ budget ns hm
  rw [hns, h] at hmoved
  exact (EStateM.Result.ok.inj hmoved).2.symm

/-- A run that draws no numbers is the same from every number on. -/
theorem evaluateIn_numbered {budget : Budget} {node : Node} {m m' : Machine} {v : Value}
    (h : evaluateIn budget node m = .ok v m')
    (hcount : m'.nextTemporary = m.nextTemporary) (d : Nat) :
    evaluateIn budget node { m with nextTemporary := m.nextTemporary + d } = .ok v
      { m' with nextTemporary := m'.nextTemporary + d } := by
  have hafter : after (evaluateIn budget node) m = m' := by rw [after, h]
  have hmoves := (moves_evaluate (d := d) Function.injective_id budget.rounds budget.depth node m).same
    (.inr (hafter.symm ▸ hcount))
  rw [Node.rename_id, ← evaluateIn, h, moved_id] at hmoves
  rw [hmoves, moveResult, moved_id]

section

variable {budget : Budget} {first second filename : String} {toLoad : List String} {files : Files}
  {terms terms' : List Syntax.Term}

/-- The second piece, compiled as a part of the whole program. -/
def behind (terms terms' : List Syntax.Term) (k : Nat) : List Node × List String × Nat :=
  compile terms' (compile terms [] k).2.1 (compile terms [] k).2.2

variable (budget toLoad files) in
/-- The whole program: the statements of both pieces in a row, all their temporaries numbered beforehand. -/
theorem runSource_whole (hread : Syntax.readProgram first filename = .ok (.block terms))
    (hread' : Syntax.readProgram second filename = .ok (.block terms')) (hjoins : ¬ JoinsNext first.toList) (hsome : terms' ≠ [])
    (k : Nat) : runSource budget (first ++ "\n" ++ second) filename { toLoad, files, nextTemporary := k } =
      (do
        let _ ← evaluateIn budget (.stmts (compile terms [] k).1)
        evaluateIn budget (.stmts (behind terms terms' k).1))
        { toLoad, files, nextTemporary := (behind terms terms' k).2.2 } := by
  rw [runSource_of_readProgram (Syntax.readProgram_append hread hread' hjoins) rfl]
  show evaluateIn budget (.stmts (compile (terms ++ terms') [] k).1)
    { toLoad, files, nextTemporary := (compile (terms ++ terms') [] k).2.2 } = _
  simp only [Syntax.compile_append]
  exact evaluateIn_append budget _ (hsome ∘ Syntax.compile_eq_nil_iff.mp) rfl

/-- Behind the first piece the frame holds the names that the whole program knows there. -/
theorem follows_keys {k : Nat} {m : Machine} {v : Value}
    (hrun : evaluateIn budget (.stmts (compile terms [] k).1)
      { toLoad, files, nextTemporary := (compile terms [] k).2.2 } = .ok v m)
    (hbound : ∀ x ∈ Node.assignedAll (compile terms [] k).1, IsIdentifier x → x ∈ m.frame.keys) :
    Syntax.Follows (compile terms [] k).2.1 m.frame.keys := by
  intro x hx
  rw [Syntax.known_compile, List.append_nil]
  exact ⟨fun hmem => hbound x hmem hx, assigned_of_mem_keys rfl hrun⟩

/-- The second piece on the machine that the first one leaves: the statements that it is in the whole program, with
other numbers for its temporaries. -/
theorem runSource_second (hread' : Syntax.readProgram second filename = .ok (.block terms')) {k : Nat} {m : Machine} {v : Value}
    (hrun : evaluateIn budget (.stmts (compile terms [] k).1)
      { toLoad, files, nextTemporary := (compile terms [] k).2.2 } = .ok v m)
    (hbound : ∀ x ∈ Node.assignedAll (compile terms [] k).1, IsIdentifier x → x ∈ m.frame.keys) :
    ∃ j, (behind terms terms' k).2.2 = (compile terms [] k).2.2 + j ∧
      (∀ known l, (compile terms' known l).2.2 = l + j) ∧
      runSource budget second filename m =
        evaluateIn budget (.stmts ((behind terms terms' k).1.map
          (Node.rename (renumber (compile terms [] k).2.2 m.nextTemporary))))
          { m with nextTemporary := m.nextTemporary + j } := by
  have hwords' := Syntax.isIdentifier_of_readProgram hread'
  obtain ⟨htrees, -, j, hj, hj'⟩ := Syntax.compile_renumber hwords' (follows_keys hrun hbound) (compile terms [] k).2.2
    m.nextTemporary
  refine ⟨j, hj, fun known l => ?_, ?_⟩
  · obtain ⟨-, -, i, hi, hi'⟩ := Syntax.compile_renumber hwords' (.refl known) (compile terms [] k).2.2 l
    have hij : i = j := Nat.add_left_cancel (hi.symm.trans hj)
    rw [hi', hij]
  · rw [runSource_of_readProgram hread' (machine_of_evaluateIn hrun).1, htrees, hj']
    rfl

end

/-- Whether the value is the given truth value. -/
def Value.isBool (b : Bool) : Value → Bool
  | .bool b' => b == b'
  | _ => false

theorem Value.eq_of_isBool {b : Bool} {v : Value} (h : v.isBool b = true) : v = .bool b := by
  unfold isBool at h
  split at h
  · rw [eq_of_beq h]
  · cases h

end MinRuby
