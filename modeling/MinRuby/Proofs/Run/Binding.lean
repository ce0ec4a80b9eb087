import MinRuby.Proofs.Run.Effects
import MinRuby.Proofs.Run.Lockstep
import MinRuby.Proofs.Syntax.Assignment

/-!
# What is read is bound

A tree that assigns every name before it reads it finds all its variables bound, and leaves behind those that it assigns for
sure. `Brings P names names' step` says that the step leads from a frame with the one variables to a frame with the others,
and that no variable of `P` is found missing; the bodies of functions start from their parameters.

* `Brings.bind`, `Brings.inFrame`, `Brings.whileTrue` — the rules.
* `brings_evaluate` — the step lemma, by induction on the depth.
* `variables_found_bound` — programs whose first assignments cannot be passed over, and the temporaries of all programs.
-/

namespace MinRuby

open Syntax (Node sure)

namespace OrderedTable

variable {κ α : Type} [BEq κ] [LawfulBEq κ]

theorem mem_keys_insert {t : OrderedTable κ α} {k k' : κ} {v : α} : k' ∈ (t.insert k v).keys ↔ k' = k ∨ k' ∈ t.keys := by
  rw [keys_insert]
  split
  · next h => exact ⟨.inr, fun h' => h'.elim (fun heq => heq ▸ h) id⟩
  · rw [List.mem_append, List.mem_singleton, or_comm]

theorem mem_keys_ofList {entries : List (κ × α)} {k : κ} : k ∈ (ofList entries).keys ↔ k ∈ entries.map (·.1) := by
  have hfold (t : OrderedTable κ α) : k ∈ (entries.foldl (fun t e => t.insert e.1 e.2) t).keys ↔
      k ∈ entries.map (·.1) ∨ k ∈ t.keys := by
    induction entries generalizing t with
    | nil => simp
    | cons e rest ih => rw [List.foldl_cons, ih, mem_keys_insert, List.map_cons, List.mem_cons, or_assoc, or_left_comm]
  exact (hfold empty).trans (or_iff_left List.not_mem_nil)

end OrderedTable

/-! ## Steps -/

/-- The bodies of all procedures in the store read only what they or their parameters have assigned. -/
def Store.Covered (P : String → Prop) (s : Store) : Prop := ∀ p ∈ s.procedures, p.body.Proper ∧ p.body.Covered P p.params

/-- The variables are bound, and the bodies of all procedures find theirs bound. -/
structure Ready (P : String → Prop) (names : List String) (m : Machine) : Prop where
  bound : ∀ x ∈ names, x ∈ m.frame.keys
  covered : m.store.Covered P

theorem Ready.of_sameNames {P : String → Prop} {names : List String} {m m' : Machine} (hm : Ready P names m)
    (h : SameNames m m') : Ready P names m' :=
  ⟨fun x hx => h.frame_eq ▸ hm.bound x hx, fun p hp => hm.covered p (h.procedures_eq ▸ hp)⟩

/-- The failure is not that of a variable of `P` that is not bound. -/
def Binds (P : String → Prop) (e : Failure) : Prop := ∀ x, P x → e ≠ .runtime (.unboundVariable x)

theorem Nameless.binds {P : String → Prop} {e : Failure} (h : Nameless e) : Binds P e := fun x _ => h.ne_unboundVariable x

/-- The step leads from the one variables to the others, or fails for another reason than an unbound variable. -/
def Brings (P : String → Prop) (names names' : List String) {α : Type} (step : Eval α) : Prop :=
  ∀ m, Ready P names m → match step m with
    | .ok _ m' => Ready P names' m'
    | .error e m' => m'.store.Covered P ∧ Binds P e

namespace Brings

variable {P : String → Prop} {names names' names'' : List String} {α β : Type}

theorem pure (a : α) : Brings P names names (Pure.pure a : Eval α) := fun _ h => h

theorem throw {e : Failure} (h : Binds P e) : Brings P names names' (MonadExcept.throw e : Eval α) :=
  fun _ hm => ⟨hm.covered, h⟩

theorem fail {e : RuntimeError} (h : Nameless (.runtime e)) : Brings P names names' (Eval.fail e : Eval α) := throw h.binds

theorem fail_bind {e : RuntimeError} (h : Nameless (.runtime e)) (f : α → Eval β) :
    Brings P names names' (Eval.fail e >>= f) := fun _ hm => ⟨hm.covered, h.binds⟩

theorem bind {x : Eval α} {f : α → Eval β} (hx : Brings P names names' x) (hf : ∀ a, Brings P names' names'' (f a)) :
    Brings P names names'' (x >>= f) := by
  intro m hm
  have h := hx m hm
  change match EStateM.bind x f m with
    | .ok _ m' => Ready P names'' m'
    | .error e m' => m'.store.Covered P ∧ Binds P e
  unfold EStateM.bind
  cases hr : x m with
  | ok a m' =>
    rw [hr] at h
    exact hf a m' h
  | error e m' =>
    rw [hr] at h
    exact h

theorem get {f : Machine → Eval α} (h : ∀ m, Ready P names m → Brings P names names' (f m)) :
    Brings P names names' (MonadState.get >>= f) := fun m hm => h m hm m hm

theorem modify {f : Machine → Machine} (h : ∀ m, Ready P names m → Ready P names' (f m)) :
    Brings P names names' (modify f : Eval PUnit) := h

/-- More variables may be bound before, and fewer count afterwards. -/
theorem mono {step : Eval α} {given kept : List String} (h : Brings P names names' step) (hgiven : names ⊆ given)
    (hkept : kept ⊆ names') : Brings P given kept step := by
  intro m hm
  have hstep := h m ⟨fun x hx => hm.bound x (hgiven hx), hm.covered⟩
  cases hr : step m with
  | ok a m' =>
    rw [hr] at hstep
    exact ⟨fun x hx => hstep.bound x (hkept hx), hstep.covered⟩
  | error e m' =>
    rw [hr] at hstep
    exact hstep

/-- A step that touches no name. -/
theorem of_sameNames {step : Eval α} (h : ∀ m, Keeps (SameNames m) Nameless step) : Brings P names names step := by
  intro m hm
  have hstep := h m m (.refl m)
  cases hr : step m with
  | ok a m' =>
    rw [hr] at hstep
    exact hm.of_sameNames hstep
  | error e m' =>
    rw [hr] at hstep
    exact ⟨(hm.of_sameNames hstep.1).covered, hstep.2.binds⟩

/-- A step in a frame of its own. -/
theorem inFrame {frame : Frame} {step : Eval α} {given : List String} (hframe : ∀ x ∈ given, x ∈ frame.keys)
    (h : Brings P given names' step) : Brings P names names (Eval.inFrame frame step) := by
  intro m hm
  have hstep := h { m with frame } ⟨hframe, hm.covered⟩
  unfold Eval.inFrame
  simp only
  cases hr : step { m with frame } with
  | ok a m' =>
    rw [hr] at hstep
    exact ⟨hm.bound, hstep.covered⟩
  | error e m' =>
    rw [hr] at hstep
    exact hstep

/-- A loop leaves what its test leaves; its body needs only keep what the test starts from. -/
theorem whileTrue {test : Eval Bool} {body : Eval Unit} (ht : Brings P names names' test) (hb : Brings P names' names body)
    (rounds : Nat) : Brings P names names' (Eval.whileTrue test body rounds) := by
  induction rounds with
  | zero => exact throw fun _ _ => nofun
  | succ rounds ih =>
    refine ht.bind fun b => ?_
    cases b with
    | false => exact pure ()
    | true => exact hb.bind fun _ => ih

section

variable {step : Node → Eval Value}

/-- Whatever is bound before the step, a tree whose names are assigned leaves the names that it assigns for sure. -/
abbrev OfTree (P : String → Prop) (step : Node → Eval Value) : Prop :=
  ∀ (n : Node) (names : List String), n.Proper → n.Covered P names → Brings P names (sure n.assignments ++ names) (step n)

theorem sure_append_subset {as bs : List (String × Bool)} : sure (as ++ bs) ++ names ⊆ sure bs ++ (sure as ++ names) := by
  intro x hx
  simp only [Syntax.sure_append, List.mem_append] at hx ⊢
  tauto

theorem mapM (hstep : OfTree P step) : ∀ {ns : List Node} {names : List String}, (∀ n ∈ ns, n.Proper) →
    Node.CoveredAll P names ns → Brings P names (sure (Node.assignmentsAll ns) ++ names) (ns.mapM step)
  | [], _, _, _ => pure []
  | n :: ns, names, hproper, hcovered => by
    rw [List.mapM_cons]
    have hfirst := hstep n names (hproper n List.mem_cons_self) hcovered.1
    have hrest := mapM hstep (fun n hn => hproper n (List.mem_cons_of_mem _ hn)) hcovered.2
    refine hfirst.bind fun v => hrest.bind fun vs => ?_
    exact (pure (v :: vs)).mono (List.Subset.refl _) sure_append_subset

theorem foldlM (hstep : OfTree P step) : ∀ {ns : List Node} {names : List String} (v : Value), (∀ n ∈ ns, n.Proper) →
    Node.CoveredAll P names ns → Brings P names (sure (Node.assignmentsAll ns) ++ names) (ns.foldlM (fun _ n => step n) v)
  | [], _, v, _, _ => pure v
  | n :: ns, names, _, hproper, hcovered => by
    rw [List.foldlM_cons]
    have hfirst := hstep n names (hproper n List.mem_cons_self) hcovered.1
    refine hfirst.bind fun v => ?_
    have hrest := foldlM hstep v (fun n hn => hproper n (List.mem_cons_of_mem _ hn)) hcovered.2
    exact hrest.mono (List.Subset.refl _) sure_append_subset

theorem fillHash (hstep : OfTree P step) (depth : Nat) (table : Value) : ∀ {ns : List Node} {names : List String},
    ns.length % 2 = 0 → (∀ n ∈ ns, n.Proper) → Node.CoveredAll P names ns →
      Brings P names (sure (Node.assignmentsAll ns) ++ names) (Eval.fillHash depth table step ns)
  | [], _, _, _, _ => pure ()
  | [_], _, heven, _, _ => by cases heven
  | key :: value :: ns, names, heven, hproper, hcovered => by
    have hkey := hstep key names (hproper key (by simp)) hcovered.1
    have hvalue := hstep value _ (hproper value (by simp)) hcovered.2.1
    have hrest_even : ns.length % 2 = 0 := by
      simp only [List.length_cons] at heven
      omega
    have hrest := fillHash hstep depth table hrest_even (fun n hn => hproper n (by simp [hn])) hcovered.2.2
    refine hkey.bind fun k => hvalue.bind fun v => ?_
    have hassign {names : List String} : Brings P names names (Eval.onStore (table.assign depth k v)) :=
      of_sameNames fun _ => keeps_assign_sameNames depth table k v
    refine hassign.bind fun _ => hrest.mono (List.Subset.refl _) fun x hx => ?_
    simp only [Node.assignmentsAll, Syntax.sure_append, List.mem_append] at hx ⊢
    tauto

end

end Brings

/-! ## Trees -/

section

variable {P : String → Prop} {names : List String}

theorem brings_define {name : String} {params : List String} {body : Node} (hproper : body.Proper)
    (hcovered : body.Covered P params) : Brings P names names (Eval.define name params body) := by
  refine fun m hm => ⟨hm.bound, fun p hp => ?_⟩
  rcases Array.mem_push.mp hp with hold | rfl
  · exact hm.covered p hold
  · exact ⟨hproper, hcovered⟩

/-- A call finds the parameters of the function bound. -/
theorem brings_call {depth : Nat} {eval : Node → Eval Value} (heval : Brings.OfTree P eval) (name : String)
    (args : List Value) : Brings P names names (Eval.call depth eval name args) := by
  refine Brings.get fun m _ => ?_
  split
  · exact .fail fun _ => rfl
  · exact .of_sameNames fun _ => keeps_callBuiltin_sameNames _ _ _
  · refine Brings.get fun m hm => ?_
    split
    · exact .fail fun _ => rfl
    · next q hq =>
      obtain ⟨hproper, hcovered⟩ := hm.covered q (Array.mem_of_getElem? hq)
      have enter (hlength : args.length = q.params.length) : Brings P names names (do
          Eval.trace s!"Entering frame for {name}"
          Eval.inFrame (.ofList (q.params.zip args)) (eval q.body)) := by
        refine (Brings.of_sameNames fun _ => keeps_trace_sameNames _).bind fun _ => ?_
        refine Brings.inFrame (fun x hx => OrderedTable.mem_keys_ofList.mpr ?_) (heval q.body q.params hproper hcovered)
        rwa [List.map_fst_zip (Nat.le_of_eq hlength.symm)]
      split
      · exact .fail_bind (fun _ => rfl) _
      · next hlength => exact enter (not_not.mp hlength)

theorem brings_insert (x : String) (v : Value) :
    Brings P names (x :: names) (modify fun m => { m with frame := m.frame.insert x v } : Eval PUnit) :=
  Brings.modify fun _ hm => ⟨fun y hy => OrderedTable.mem_keys_insert.mpr ((List.mem_cons.mp hy).imp_right (hm.bound y)),
    hm.covered⟩

theorem brings_variable {x : String} (h : P x → x ∈ names) :
    Brings P names names (do
      match (← get).frame.find? x with
      | some v => return v
      | none => Eval.fail (.unboundVariable x)) := by
  refine Brings.get fun m hm => ?_
  split
  · exact Brings.pure _
  · next hfind =>
    refine Brings.throw fun y hy => ?_
    rintro ⟨⟩
    obtain ⟨v, hv⟩ := OrderedTable.mem_keys_iff.mp (hm.bound x (h hy))
    rw [hfind] at hv
    cases hv

/-- A tree that assigns what it reads leaves the variables that it assigns for sure, and misses none. -/
theorem brings_evaluate (rounds depth : Nat) : Brings.OfTree P (evaluate rounds depth) := by
  induction depth with
  | zero => exact fun _ _ _ _ => Brings.throw fun _ _ => nofun
  | succ depth ih =>
    intro node names hproper hcovered
    unfold evaluate
    refine (Brings.of_sameNames fun _ => keeps_traceNode_sameNames node).bind fun _ => ?_
    cases node with
    | lit value => exact .of_sameNames fun _ => keeps_ofData_sameNames depth value
    | binary op left right =>
      have happly (x y : Value) : Brings P (sure right.assignments ++ (sure left.assignments ++ names)) _
          (Eval.onStore (Value.apply depth op x y)) :=
        .of_sameNames fun _ => keeps_apply_sameNames depth op x y
      exact (ih left names hproper.1 hcovered.1).bind fun x => (ih right _ hproper.2 hcovered.2).bind fun y =>
        (happly x y).mono (List.Subset.refl _) Brings.sure_append_subset
    | stmts body => exact Brings.foldlM ih _ (Node.properAll_iff.mp hproper) hcovered
    | varAssign name value =>
      refine (ih value names hproper.2 hcovered).bind fun v => ?_
      exact ((brings_insert name v).bind fun _ => Brings.pure v).mono (List.Subset.refl _) Brings.sure_append_subset
    | varRef name => exact brings_variable hcovered
    | choice test yes no =>
      rw [Node.assignments, Syntax.sure_append_skippable]
      refine (ih test names hproper.1 hcovered.1).bind fun v => ?_
      split
      · exact (ih yes _ hproper.2.1 hcovered.2.1).mono (List.Subset.refl _) (List.subset_append_right _ _)
      · exact (ih no _ hproper.2.2 hcovered.2.2).mono (List.Subset.refl _) (List.subset_append_right _ _)
    | loop test body =>
      rw [Node.assignments, Syntax.sure_append_skippable]
      have htest := (ih test names hproper.1 hcovered.1).bind fun v => Brings.pure v.truthy
      have hbody := (ih body _ hproper.2 hcovered.2).bind fun _ => Brings.pure ()
      have hagain := hbody.mono (List.Subset.refl _)
        (List.Subset.trans (List.subset_append_right _ _) (List.subset_append_right _ _))
      exact (Brings.whileTrue htest hagain rounds).bind fun _ => Brings.pure _
    | loopAfter test body =>
      have hbody := ih body names hproper.2 hcovered.1
      have htest := (ih test _ hproper.1 hcovered.2).bind fun v => Brings.pure v.truthy
      have hagain : Brings P (sure test.assignments ++ (sure body.assignments ++ names)) (sure body.assignments ++ names)
          (do let _ ← evaluate rounds depth body) :=
        (hbody.bind fun _ => Brings.pure ()).mono
          (List.Subset.trans (List.subset_append_right _ _) (List.subset_append_right _ _)) (List.Subset.refl _)
      have hloop := (Brings.whileTrue htest hagain rounds).bind fun _ => Brings.pure Value.nil
      exact hbody.bind fun _ => hloop.mono (List.Subset.refl _) Brings.sure_append_subset
    | funcDef name params body => exact brings_define hproper.2.2 hcovered
    | funcCall name args =>
      exact (Brings.mapM ih (Node.properAll_iff.mp hproper.2) hcovered).bind fun vs => brings_call ih name vs
    | aryNew items =>
      exact (Brings.mapM ih (Node.properAll_iff.mp hproper) hcovered).bind fun vs =>
        .of_sameNames fun _ => keeps_newArray_sameNames _
    | aryRef container position =>
      refine (ih container names hproper.1 hcovered.1).bind fun c => (ih position _ hproper.2 hcovered.2).bind fun p => ?_
      refine Brings.mono (.of_sameNames fun _ => Keeps.get fun m _ => Keeps.lift ?_) (List.Subset.refl _)
        Brings.sure_append_subset
      exact fun e he ρ => Value.failsOnly_fetch_anonymous ρ m.store depth c p e he
    | aryAssign container position value =>
      refine (ih container names hproper.1 hcovered.1).bind fun c => (ih position _ hproper.2.1 hcovered.2.1).bind fun p =>
        (ih value _ hproper.2.2 hcovered.2.2).bind fun v => ?_
      have hassign {names : List String} : Brings P names names (Eval.onStore (c.assign depth p v)) :=
        .of_sameNames fun _ => keeps_assign_sameNames depth c p v
      refine (hassign.bind fun _ => Brings.pure v).mono (List.Subset.refl _) fun x hx => ?_
      simp only [Node.assignments, Syntax.sure_append, List.mem_append] at hx ⊢
      tauto
    | hashNew items =>
      refine Brings.bind (.of_sameNames fun _ => keeps_newHash_sameNames) fun table => ?_
      exact (Brings.fillHash ih depth table hproper.1 (Node.properAll_iff.mp hproper.2) hcovered).bind fun _ =>
        Brings.pure table
    | unknown tag => exact hproper.elim
    | scalar => exact hproper.elim
    | broken => exact hproper.elim

end

/-! ## Programs -/

section

open Syntax (IsIdentifier IsTemporary)

variable {source filename : String} {tree : Node} {next : Nat}

theorem Brings.covered_after {P : String → Prop} {names names' : List String} {α : Type} {step : Eval α}
    (h : Brings P names names' step) {m : Machine} (hm : Ready P names m) : (after step m).store.Covered P := by
  have hstep := h m hm
  unfold after
  cases hr : step m with
  | ok a m' =>
    rw [hr] at hstep
    exact hstep.covered
  | error e m' =>
    rw [hr] at hstep
    exact hstep.1

theorem Brings.binds {P : String → Prop} {names names' : List String} {α : Type} {step : Eval α}
    (h : Brings P names names' step) {m m' : Machine} (hm : Ready P names m) {e : Failure} (hr : step m = .error e m') :
    Binds P e := by
  have hstep := h m hm
  rw [hr] at hstep
  exact hstep.2

theorem runSource_of_parse_error {e : Failure} {m : Machine}
    (h : Syntax.parseProgram source filename m.frame.keys (if m.debug then 1 else m.nextTemporary) = .error e)
    (budget : Budget) : runSource budget source filename m = .error e m := by
  show EStateM.bind (Eval.parseProgram source filename m.frame.keys) (evaluateIn budget) m = _
  have hparse : Eval.parseProgram source filename m.frame.keys m = .error e m := by
    show (liftM (Syntax.parseProgram source filename m.frame.keys _) >>= _ : Eval Node) m = _
    rw [h]
    rfl
  rw [EStateM.bind, hparse]

/-- A program that parses is evaluated on a machine with the same names. -/
theorem runSource_of_parse {m : Machine}
    (h : Syntax.parseProgram source filename m.frame.keys (if m.debug then 1 else m.nextTemporary) = .ok (tree, next)) :
    ∃ m', SameNames m m' ∧ ∀ budget, runSource budget source filename m = evaluateIn budget tree m' := by
  have hkept := keeps_parseProgram_sameNames source filename m.frame.keys m (.refl m)
  have hvalue : ∃ m', Eval.parseProgram source filename m.frame.keys m = .ok tree m' := by
    show ∃ m', (liftM (Syntax.parseProgram source filename m.frame.keys _) >>= _ : Eval Node) m = .ok tree m'
    rw [h]
    show ∃ m', (if m.debug = true then (do Eval.trace (parsedNote tree filename); return tree) else _ : Eval Node) m =
      .ok tree m'
    by_cases hdebug : m.debug = true
    · rw [if_pos hdebug, run_trace_bind]
      exact ⟨_, rfl⟩
    · rw [if_neg hdebug]
      exact ⟨_, rfl⟩
  obtain ⟨m', hparse⟩ := hvalue
  rw [hparse] at hkept
  refine ⟨m', hkept, fun budget => ?_⟩
  show EStateM.bind (Eval.parseProgram source filename m.frame.keys) (evaluateIn budget) m = _
  rw [EStateM.bind, hparse]

/-- On every machine that parsed programs lead to, the bodies of all functions assign what they keep in temporaries. -/
theorem Reached.covered {m : Machine} (h : Reached m) : m.store.Covered Node.Unwritten := by
  have evaluated {tree : Node} {known : List String} {counter next : Nat} {source filename : String}
      (htree : Syntax.parseProgram source filename known counter = .ok (tree, next)) (budget : Budget) {m : Machine}
      (hm : m.store.Covered Node.Unwritten) : (after (evaluateIn budget tree) m).store.Covered Node.Unwritten :=
    (brings_evaluate _ _ tree [] (Syntax.proper_of_parseProgram htree) (Syntax.supplied_of_parseProgram htree [])).covered_after
      ⟨fun _ hx => absurd hx List.not_mem_nil, hm⟩
  induction h with
  | start toLoad files debug => exact fun p hp => absurd hp (Array.not_mem_empty p)
  | @run m _ budget source filename ih =>
    cases hparse : Syntax.parseProgram source filename m.frame.keys (if m.debug then 1 else m.nextTemporary) with
    | error e =>
      rw [after, runSource_of_parse_error hparse]
      exact ih
    | ok r =>
      obtain ⟨m', hsame, hrun⟩ := runSource_of_parse hparse
      have hcovered := evaluated hparse budget fun p hp => ih p (hsame.procedures_eq ▸ hp)
      rwa [after, ← hrun budget] at hcovered
  | evaluated _ htree budget ih => exact evaluated htree budget ih
  | between _ _ _ _ _ _ _ ih => exact ih

/-- A variable that a program finds unbound is one that it has written. -/
theorem isIdentifier_of_unbound {known : List String} {counter : Nat}
    (hparse : Syntax.parseProgram source filename known counter = .ok (tree, next)) {m m' : Machine} (hm : Reached m)
    {budget : Budget} {x : String} (hrun : evaluateIn budget tree m = .error (.runtime (.unboundVariable x)) m') :
      IsIdentifier x := by
  by_contra hx
  have hbrings := brings_evaluate budget.rounds budget.depth tree [] (Syntax.proper_of_parseProgram hparse)
    (Syntax.supplied_of_parseProgram hparse [])
  have hready : Ready Node.Unwritten [] m := ⟨fun _ hx => absurd hx List.not_mem_nil, hm.covered⟩
  exact hbrings.binds hready hrun x hx rfl

/-- A run of a program in which no first assignment can be passed over never finds a variable unbound; and no run of any
program finds a temporary unbound. -/
theorem variables_found_bound (source filename : String) :
    (∀ toLoad files debug k tree next,
      Syntax.parseProgram source filename [] (if debug then 1 else k) = .ok (tree, next) →
      tree.FirstSure IsIdentifier [] → (∀ p, tree.Within p → p.body.FirstSure IsIdentifier p.params) →
      ∀ budget e m', runSource budget source filename { toLoad, files, debug, nextTemporary := k } = .error e m' →
        ∀ x, e ≠ .runtime (.unboundVariable x)) ∧
    ∀ known counter tree next, Syntax.parseProgram source filename known counter = .ok (tree, next) →
      ∀ m, Reached m → ∀ budget e m', evaluateIn budget tree m = .error e m' →
        ∀ x, IsTemporary x → e ≠ .runtime (.unboundVariable x) := by
  constructor
  · intro toLoad files debug k tree next hparse htop hdefs budget e m' hrun x
    have hbrings := brings_evaluate (P := fun _ => True) budget.rounds budget.depth tree []
      (Syntax.proper_of_parseProgram hparse) (Syntax.covered_of_firstSure hparse htop hdefs)
    obtain ⟨m, hsame, hevaluate⟩ := runSource_of_parse (m := { toLoad, files, debug, nextTemporary := k }) hparse
    have hready : Ready (fun _ => True) [] m :=
      Ready.of_sameNames ⟨fun _ hx => absurd hx List.not_mem_nil, fun p hp => absurd hp (Array.not_mem_empty p)⟩ hsame
    exact hbrings.binds hready ((hevaluate budget).symm.trans hrun) x trivial
  · intro known counter tree next hparse m hm budget e m' hrun x hx
    rintro rfl
    exact Syntax.not_isIdentifier_of_isTemporary hx (isIdentifier_of_unbound hparse hm hrun)

/-- A function with a temporary, which a loop that tests behind its body calls for a variable that its test reads; run once
in a fresh session, and once more on the machine that it leaves. -/
theorem loop_variable_found_bound :
    let source := "def f(a)\n  b = a && 1\n  b\nend\nbegin\n  x = f(2)\nend while x < 1"
    (∀ budget e m', runSource budget source Syntax.anonymous {} = .error e m' → ∀ x, e ≠ .runtime (.unboundVariable x)) ∧
      ∃ tree next, Syntax.parseProgram source Syntax.anonymous [] 1 = .ok (tree, next) ∧
        ∀ budget e m', evaluateIn budget tree (after (runSource budget source Syntax.anonymous) {}) = .error e m' →
          ∀ x, IsTemporary x → e ≠ .runtime (.unboundVariable x) := by
  intro source
  let isSure (n : Node) : Bool := n.assignments.all fun a => n.assignments.lookup a.1 != some true
  have hchecks : (match Syntax.parseProgram source Syntax.anonymous [] 1 with
    | .ok (t, _) => isSure t && t.definitions.all fun p => isSure p.body && p.body.definitions.isEmpty
    | .error _ => false) = true := by decide +kernel
  have hsure {P : String → Prop} {params : List String} {n : Node} (h : isSure n = true) : n.FirstSure P params :=
    .of_all fun a ha => bne_iff_ne.mp (List.all_eq_true.mp h a ha)
  split at hchecks
  · next tree next hparse =>
    obtain ⟨htop, hdefs⟩ := Bool.and_eq_true_iff.mp hchecks
    have hwithin (p : Procedure) (hp : tree.Within p) : p ∈ tree.definitions := by
      induction hp with
      | outer h => exact h
      | inner _ h hq =>
        have hnone := (Bool.and_eq_true_iff.mp (List.all_eq_true.mp hdefs _ hq)).2
        rw [List.isEmpty_iff.mp hnone] at h
        exact absurd h List.not_mem_nil
    have hbound := variables_found_bound source Syntax.anonymous
    refine ⟨hbound.1 [] {} false 1 tree next hparse (hsure htop) fun p hp => ?_, tree, next, hparse, fun budget => ?_⟩
    · exact hsure (Bool.and_eq_true_iff.mp (List.all_eq_true.mp hdefs p (hwithin p hp))).1
    · exact hbound.2 [] 1 tree next hparse _ (.run (.start [] {} false) budget source Syntax.anonymous) budget
  · cases hchecks

end

end MinRuby
