import MinRuby.Proofs.Run.Binding
import MinRuby.Proofs.Syntax.FunctionNames
import MinRuby.Proofs.Syntax.Variables

/-!
# Hidden names are unobservable

A program whose temporaries have other names does what the program does. It ends in the same value or the same failure, has
written the same, and leaves the same functions, containers and variables; only in the bodies of its functions the names are
the others. What a run stores comes from the tree that is run, so the names that the machine knows at the end are names of
that tree.

* `within_of_procedure?`, `mem_vars_of_frame` — where the names of a machine come from.
* `hidden_names_unobservable` — a program under other hidden names.
-/

namespace MinRuby

open Syntax (Node IsHidden)

variable {ρ r : String → String}

/-! ## Names of a machine -/

theorem renameFrame_congr {f : Frame} (h : ∀ x ∈ f.keys, ρ x = r x) : renameFrame ρ f = renameFrame r f :=
  congrArg OrderedTable.mk (List.map_congr_left fun e he => by rw [h e.1 (List.mem_map_of_mem he)])

section

variable {tree : Node} {toLoad : List String} {files : Files} {k : Nat} {debug : Bool} {m : Machine}

/-- On a machine that has run nothing else, every function comes from the tree. -/
theorem within_of_procedure?
    (h : Confined (· ∈ tree.assigned) (· ∈ tree.definitions) { toLoad, files, nextTemporary := k, debug } m) {a : Address}
    {p : Procedure} (hp : m.store.procedure? a = some p) : tree.Within p := by
  -- a function that is defined in the body of another one is behind it in the store
  induction a using Nat.strong_induction_on generalizing p with
  | _ a ih =>
    rcases h.source a p ⟨Nat.zero_le a, hp⟩ with hd | ⟨q, ⟨f, b, -, hq⟩ | ⟨b, hb, -, hq⟩, hd⟩
    · exact .outer hd
    · cases hq
    · exact .inner (ih b hb hq) hd

/-- Every variable of its frame is a variable of the tree. -/
theorem mem_vars_of_frame
    (h : Confined (· ∈ tree.assigned) (· ∈ tree.definitions) { toLoad, files, nextTemporary := k, debug } m) {x : String}
    (hx : x ∈ m.frame.keys) : x ∈ tree.vars := by
  obtain ⟨v, hv⟩ := OrderedTable.mem_keys_iff.mp hx
  refine Node.vars_of_mem_assigned (h.assigned x ?_)
  rw [hv]
  exact Option.some_ne_none v

end

/-! ## Programs -/

/-- The second machine is the first one with other names for hidden variables. -/
structure Relabelled (r : String → String) (m m' : Machine) : Prop where
  output : m'.output = m.output
  functions : m'.functions = m.functions
  /-- The containers are the same, and so are the functions but for the names in their bodies. -/
  store : m'.store = { m.store with procedures := m.store.procedures.map fun p => { p with body := p.body.rename r } }
  frame : m'.frame = renameFrame r m.frame
  locals : ∀ x, ¬ IsHidden x → m'.frame.find? x = m.frame.find? x
  toLoad : m'.toLoad = m.toLoad
  nextTemporary : m'.nextTemporary = m.nextTemporary

/-- A machine under other names, if they are others only for what is hidden. -/
theorem relabelled_moved {tree : Node} (hwritten : tree.Written) (hρ : Function.Injective ρ)
    (hvars : ∀ x ∈ tree.vars, ρ x = r x) (hkeeps : ∀ x, ¬ IsHidden x → ρ x = x) {m : Machine}
    (hprocedures : ∀ p ∈ m.store.procedures, tree.Within p) (hframe : ∀ x ∈ m.frame.keys, x ∈ tree.vars) :
    Relabelled r m (m.moved ρ 0) where
  output := rfl
  functions := rfl
  store := by
    refine congrArg (fun procedures => { m.store with procedures }) (Array.map_congr_left fun p hp => ?_)
    have hwithin := hprocedures p hp
    have hparams : p.params.map ρ = p.params := (List.map_congr_left fun x hx =>
      hkeeps x (Syntax.not_isHidden_of_isIdentifier ((hwithin.written hwritten).1 x hx))).trans (List.map_id _)
    have hbody : p.body.rename ρ = p.body.rename r :=
      Node.rename_congr fun x hx => hvars x (hwithin.vars (List.mem_append_right _ hx))
    rw [Procedure.rename, hparams, hbody]
  frame := renameFrame_congr fun x hx => hvars x (hframe x hx)
  locals x hx := by
    have hfind := find?_renameFrame hρ m.frame x
    rwa [hkeeps x hx] at hfind
  toLoad := rfl
  nextTemporary := rfl

/-- No function and no parameter of a program has a hidden name; and with other hidden names for its variables the program
ends, on a machine that has run nothing, in the same value or failure, has written the same, and leaves the same variables,
containers and functions, but for the names in the bodies of these. -/
theorem hidden_names_unobservable {source filename : String} {known : List String} {counter next : Nat} {tree : Node}
    (hparse : Syntax.parseProgram source filename known counter = .ok (tree, next)) {r : String → String} (hr : tree.Relabels r)
    (budget : Budget) (toLoad : List String) (files : Files) (k : Nat) (debug : Bool) :
    tree.Written ∧ Matched (Relabelled r) (evaluateIn budget tree { toLoad, files, nextTemporary := k, debug })
      (evaluateIn budget (tree.rename r) { toLoad, files, nextTemporary := k, debug }) := by
  have hwritten := Syntax.written_of_parseProgram hparse
  obtain ⟨ρ, hρ, hvars, hkeeps⟩ := hr.exists_injective
  let start : Machine := { toLoad, files, nextTemporary := k, debug }
  have hrenamed : evaluateIn budget (tree.rename r) start =
      moveResult ρ (Machine.moved ρ 0) (evaluateIn budget tree start) := by
    have hmoves := (moves_evaluate (d := 0) hρ budget.rounds budget.depth tree start).same (.inl rfl)
    rwa [moved_fresh, Node.rename_congr hvars] at hmoves
  have hconfined : Confined (· ∈ tree.assigned) (· ∈ tree.definitions) start (after (evaluateIn budget tree) start) :=
    (confined_evaluate budget.rounds budget.depth tree start).after
  have hrelabelled := relabelled_moved (r := r) hwritten hρ hvars hkeeps (fun p hp =>
    let ⟨a, ha⟩ := Array.mem_iff_getElem?.mp hp
    within_of_procedure? hconfined ha) fun x => mem_vars_of_frame hconfined
  refine ⟨hwritten, ?_⟩
  rw [hrenamed]
  cases hend : evaluateIn budget tree start with
  | ok v m =>
    rw [after, hend] at hrelabelled
    exact ⟨rfl, hrelabelled⟩
  | error e m =>
    rw [after, hend] at hrelabelled
    refine ⟨(Failure.rename_eq_self fun x hx => hkeeps x (Syntax.not_isHidden_of_isIdentifier ?_)).symm, hrelabelled⟩
    -- a variable that the failure names is one that the program has written
    have hreached : Reached start := .between (.start toLoad files debug) .empty toLoad files [] k debug
    exact isIdentifier_of_unbound hparse hreached (hx ▸ hend)

/-- A function with a `case` and a call of it behind `&&`, each with a temporary, both of them under longer names. -/
theorem case_relabelled :
    let source := "def f(a)\n  case a\n  when 1 then 2\n  end\nend\nx = 1 && f(1)\np(x)"
    let r (x : String) : String := if IsHidden x then "%t" ++ x else x
    ∃ tree next, Syntax.parseProgram source Syntax.anonymous [] 1 = .ok (tree, next) ∧
      "%case1" ∈ tree.vars ∧ "%and2" ∈ tree.vars ∧ tree.Relabels r ∧ tree.Written ∧
      ∀ budget, Matched (Relabelled r) (evaluateIn budget tree {}) (evaluateIn budget (tree.rename r) {}) := by
  intro source r
  have hchecks : (match Syntax.parseProgram source Syntax.anonymous [] 1 with
    | .ok (t, _) => decide ("%case1" ∈ t.vars) && decide ("%and2" ∈ t.vars)
    | .error _ => false) = true := by decide +kernel
  have hhidden (x : String) : IsHidden ("%t" ++ x) := by simp [IsHidden]
  have hrelabels (n : Node) : n.Relabels r := by
    have hnew {x : String} (hx : IsHidden x) : r x = "%t" ++ x := if_pos hx
    refine ⟨fun x _ hx => if_neg hx, fun x _ hx => hnew hx ▸ hhidden x, fun x _ y _ hx hy heq => ?_⟩
    rw [hnew hx, hnew hy] at heq
    exact (String.append_right_inj "%t").mp heq
  split at hchecks
  · next tree next hparse =>
    obtain ⟨hcase, hand⟩ := Bool.and_eq_true_iff.mp hchecks
    have hmatched (budget : Budget) := hidden_names_unobservable hparse (hrelabels tree) budget [] {} 1 false
    refine ⟨tree, next, hparse, of_decide_eq_true hcase, of_decide_eq_true hand, hrelabels tree, (hmatched ⟨0, 0⟩).1, ?_⟩
    exact fun budget => (hmatched budget).2
  · cases hchecks

end MinRuby
