import MinRuby.Proofs.Run.Builtins
import MinRuby.Proofs.Syntax.Definitions

/-!
# What a run can change

An evaluation changes nothing but what its tree names. Of the frame it changes the variables that the tree assigns outside
of definitions; of the table of functions the names of the definitions that stand in the tree, in the body of a function
that was in the table before, or in the body of one that was defined meanwhile. Nothing disappears, however the evaluation
ends.

* `Confined` — what may lie between two machines.
* `confined_call` — a call leaves the frame alone.
* `confined_evaluate` — the step lemma, by induction on the depth.
-/

namespace MinRuby

open Syntax (Node)

namespace OrderedTable

variable {κ α : Type} [BEq κ] [LawfulBEq κ]

theorem mem_keys_iff {t : OrderedTable κ α} {k : κ} : k ∈ t.keys ↔ ∃ v, t.find? k = some v := by
  obtain ⟨entries⟩ := t
  simp only [keys, find?]
  induction entries with
  | nil => simp
  | cons e rest ih =>
    obtain ⟨k', v'⟩ := e
    simp only [List.map_cons, List.mem_cons, List.lookup_cons]
    by_cases h : k = k'
    · simp [h]
    · have h' : (k == k') = false := beq_eq_false_iff_ne.mpr h
      simp only [h, false_or, h', ih]

end OrderedTable

namespace Store

variable {s : Store} {a : Address} {p q : Procedure}

theorem lt_size_of_procedure? (h : s.procedure? a = some p) : a < s.procedures.size := (Array.getElem?_eq_some_iff.mp h).1

theorem procedure?_newProcedure_self : (s.newProcedure p).2.procedure? s.procedures.size = some p := Array.getElem?_push_size

theorem procedure?_newProcedure (h : s.procedure? a = some q) : (s.newProcedure p).2.procedure? a = some q := by
  have hlt := lt_size_of_procedure? h
  show (s.procedures.push p)[a]? = some q
  rw [Array.getElem?_push_lt hlt, ← h]
  exact (Array.getElem?_eq_getElem hlt).symm

/-- What is behind the old procedures is the new one. -/
theorem eq_of_procedure?_newProcedure (h : (s.newProcedure p).2.procedure? a = some q) (ha : s.procedures.size ≤ a) :
    a = s.procedures.size ∧ q = p := by
  have hlt : a < (s.procedures.push p).size := lt_size_of_procedure? (s := (s.newProcedure p).2) h
  rw [Array.size_push] at hlt
  obtain rfl : a = s.procedures.size := Nat.le_antisymm (Nat.le_of_lt_succ hlt) ha
  exact ⟨rfl, Option.some.inj (h.symm.trans procedure?_newProcedure_self)⟩

end Store

/-! ## Between two machines -/

namespace Machine

/-- The definition is what a name in the table of functions stands for. -/
def InTable (m : Machine) (p : Procedure) : Prop :=
  ∃ f a, m.functions.find? f = some (.procedure a) ∧ m.store.procedure? a = some p

/-- The definition has been made between the two machines, the one at the given address. -/
def Since (m m' : Machine) (a : Address) (p : Procedure) : Prop :=
  m.store.procedures.size ≤ a ∧ m'.store.procedure? a = some p

end Machine

/-- Between the machines the variables in `A` were assigned and the definitions in `D` made, those in the bodies of functions
apart. -/
structure Confined (A : String → Prop) (D : Procedure → Prop) (m m' : Machine) : Prop where
  bound : ∀ x ∈ m.frame.keys, x ∈ m'.frame.keys
  assigned : ∀ x, m'.frame.find? x ≠ m.frame.find? x → A x
  size_le : m.store.procedures.size ≤ m'.store.procedures.size
  kept : ∀ a p, m.store.procedure? a = some p → m'.store.procedure? a = some p
  /-- A name stands for what it stood for, or for a definition of that name made since. -/
  functions : ∀ f, m'.functions.find? f = m.functions.find? f ∨
    ∃ a p, m'.functions.find? f = some (.procedure a) ∧ m.Since m' a p ∧ p.name = f
  /-- A definition that was made is in the table, if no later one of its name is. -/
  entered : ∀ a p, m.Since m' a p → ∃ b ≥ a, m'.functions.find? p.name = some (.procedure b)
  /-- It comes from `D`, or from the body of a function that was there or was made before it. -/
  source : ∀ a p, m.Since m' a p → D p ∨ ∃ q, (m.InTable q ∨ ∃ b < a, m.Since m' b q) ∧ p ∈ q.body.definitions

namespace Confined

variable {A A' : String → Prop} {D D' : Procedure → Prop} {m m' m'' : Machine}

theorem mono (h : Confined A' D' m m') (hA : ∀ x, A' x → A x) (hD : ∀ p, D' p → D p) : Confined A D m m' :=
  { h with
    assigned := fun x hx => hA x (h.assigned x hx)
    source := fun a p hp => (h.source a p hp).imp_left (hD p) }

/-- Machines with the same names. -/
theorem of_sameNames (h : SameNames m m') : Confined A D m m' := by
  have hprocedure (a : Address) : m'.store.procedure? a = m.store.procedure? a := congrArg (·[a]?) h.procedures_eq
  have hnone (a : Address) (p : Procedure) (hp : m.Since m' a p) : False := by
    have hlt := Store.lt_size_of_procedure? ((hprocedure a).symm.trans hp.2)
    exact absurd hp.1 (Nat.not_le.mpr hlt)
  exact
    { bound := fun x hx => h.frame_eq ▸ hx
      assigned := fun x hx => absurd (by rw [h.frame_eq]) hx
      size_le := Nat.le_of_eq (congrArg Array.size h.procedures_eq).symm
      kept := fun a p hp => (hprocedure a).trans hp
      functions := fun f => .inl (by rw [h.functions_eq])
      entered := fun a p hp => (hnone a p hp).elim
      source := fun a p hp => (hnone a p hp).elim }

theorem refl (m : Machine) : Confined A D m m := of_sameNames (.refl m)

/-- A definition made up to the first machine is older than those made from there on. -/
theorem inTable (h : Confined A D m m') {q : Procedure} (hq : m'.InTable q) :
    m.InTable q ∨ ∃ b < m'.store.procedures.size, m.Since m' b q := by
  obtain ⟨f, b, hf, hb⟩ := hq
  have hlt := Store.lt_size_of_procedure? hb
  by_cases hold : b < m.store.procedures.size
  · have hbefore : m.store.procedure? b = some q := by
      obtain ⟨q', hq'⟩ : ∃ q', m.store.procedure? b = some q' := ⟨_, Array.getElem?_eq_getElem hold⟩
      rw [hq', ← h.kept b q' hq', hb]
    rcases h.functions f with heq | ⟨a, p, ha, hp, -⟩
    · exact .inl ⟨f, b, heq.symm.trans hf, hbefore⟩
    · obtain rfl : a = b := Callee.procedure.inj (Option.some.inj (ha.symm.trans hf))
      exact absurd hp.1 (Nat.not_le.mpr hold)
  · exact .inr ⟨b, hlt, Nat.le_of_not_lt hold, hb⟩

theorem trans (h : Confined A D m m') (h' : Confined A D m' m'') : Confined A D m m'' := by
  have since {a : Address} {p : Procedure} (hp : m.Since m' a p) : m.Since m'' a p := ⟨hp.1, h'.kept a p hp.2⟩
  have split {a : Address} {p : Procedure} (hp : m.Since m'' a p) : m.Since m' a p ∨ m'.Since m'' a p := by
    by_cases hlt : a < m'.store.procedures.size
    · obtain ⟨q, hq⟩ : ∃ q, m'.store.procedure? a = some q := ⟨_, Array.getElem?_eq_getElem hlt⟩
      have heq : q = p := Option.some.inj ((h'.kept a q hq).symm.trans hp.2)
      exact .inl ⟨hp.1, heq ▸ hq⟩
    · exact .inr ⟨Nat.le_of_not_lt hlt, hp.2⟩
  refine
    { bound := fun x hx => h'.bound x (h.bound x hx)
      assigned := fun x hx => ?_
      size_le := h.size_le.trans h'.size_le
      kept := fun a p hp => h'.kept a p (h.kept a p hp)
      functions := fun f => ?_
      entered := fun a p hp => ?_
      source := fun a p hp => ?_ }
  · by_cases hfirst : m'.frame.find? x = m.frame.find? x
    · exact h'.assigned x (hfirst ▸ hx)
    · exact h.assigned x hfirst
  · rcases h'.functions f with heq | ⟨a, p, ha, hp, hname⟩
    · rcases h.functions f with heq' | ⟨a, p, ha, hp, hname⟩
      · exact .inl (heq.trans heq')
      · exact .inr ⟨a, p, heq.trans ha, since hp, hname⟩
    · exact .inr ⟨a, p, ha, ⟨h.size_le.trans hp.1, hp.2⟩, hname⟩
  · rcases split hp with hfirst | hsecond
    · obtain ⟨b, hab, hb⟩ := h.entered a p hfirst
      rcases h'.functions p.name with heq | ⟨c, q, hc, hq, -⟩
      · exact ⟨b, hab, heq.trans hb⟩
      · -- the name was defined once more
        have hlt := Store.lt_size_of_procedure? hfirst.2
        exact ⟨c, Nat.le_trans (Nat.le_of_lt hlt) hq.1, hc⟩
    · exact h'.entered a p hsecond
  · rcases split hp with hfirst | hsecond
    · refine (h.source a p hfirst).imp_right ?_
      rintro ⟨q, hq, hmem⟩
      exact ⟨q, hq.imp_right fun ⟨b, hlt, hb⟩ => ⟨b, hlt, since hb⟩, hmem⟩
    · refine (h'.source a p hsecond).imp_right ?_
      rintro ⟨q, hq | ⟨b, hlt, hb⟩, hmem⟩
      · refine ⟨q, (h.inTable hq).imp_right ?_, hmem⟩
        rintro ⟨b, hlt, hb⟩
        exact ⟨b, Nat.lt_of_lt_of_le hlt hsecond.1, since hb⟩
      · exact ⟨q, .inr ⟨b, hlt, h.size_le.trans hb.1, hb.2⟩, hmem⟩

/-- An assignment. -/
theorem insert (m : Machine) {x : String} (v : Value) (hx : A x) : Confined A D m { m with frame := m.frame.insert x v } :=
  { refl (A := A) (D := D) m with
    bound := fun y hy => by
      show y ∈ (m.frame.insert x v).keys
      rw [OrderedTable.keys_insert]
      split
      · exact hy
      · exact List.mem_append_left _ hy
    assigned := fun y hy => by
      by_cases heq : y = x
      · exact heq ▸ hx
      · exact absurd (OrderedTable.find?_insert_of_ne _ _ heq) hy }

/-- A definition. -/
theorem define (m : Machine) {p : Procedure} (hp : D p) : Confined A D m
    { m with
      store := (m.store.newProcedure p).2
      functions := m.functions.insert p.name (.procedure m.store.procedures.size) } := by
  have hself : (m.functions.insert p.name (.procedure m.store.procedures.size)).find? p.name =
      some (.procedure m.store.procedures.size) :=
    OrderedTable.find?_insert_self _ _ _
  refine
    { bound := fun x hx => hx
      assigned := fun x hx => absurd rfl hx
      size_le := Nat.le_trans (Nat.le_succ _) (Nat.le_of_eq (Array.size_push p).symm)
      kept := fun a q hq => Store.procedure?_newProcedure hq
      functions := fun f => ?_
      entered := fun a q hq => ?_
      source := fun a q hq => ?_ }
  · by_cases hname : f = p.name
    · exact .inr ⟨_, p, hname ▸ hself, ⟨Nat.le_refl _, Store.procedure?_newProcedure_self⟩, hname.symm⟩
    · exact .inl (OrderedTable.find?_insert_of_ne _ _ hname)
  · obtain ⟨rfl, rfl⟩ := Store.eq_of_procedure?_newProcedure hq.2 hq.1
    exact ⟨_, Nat.le_refl _, hself⟩
  · obtain ⟨rfl, rfl⟩ := Store.eq_of_procedure?_newProcedure hq.2 hq.1
    exact .inl hp

/-- What is done in the frame of a call, whose body stands in the table, does not show in the caller's frame. -/
theorem ofCall {q : Procedure} (hq : m.InTable q) {frame : Frame}
    (h : Confined A' (· ∈ q.body.definitions) { m with frame } m') : Confined A D m { m' with frame := m.frame } :=
  { h with
    bound := fun x hx => hx
    assigned := fun x hx => absurd rfl hx
    source := fun a p hp => .inr <| by
      rcases h.source a p hp with hmem | hother
      · exact ⟨q, .inl hq, hmem⟩
      · exact hother }

end Confined

/-! ## Steps -/

section

variable {α : Type} {A : String → Prop} {D : Procedure → Prop} {m₀ : Machine}

/-- Any failure. -/
abbrev AnyFailure (_ : Failure) : Prop := True

theorem keeps_confined {step : Eval α} (h : ∀ m, Upheld (Confined A D m) AnyFailure (step m)) :
    Keeps (Confined A D m₀) AnyFailure step :=
  Keeps.of_reaches (R := Confined A D) Confined.trans h

/-- A step that touches no name. -/
theorem keeps_confined_of_sameNames {step : Eval α} (h : ∀ m, Keeps (SameNames m) Nameless step) :
    Keeps (Confined A D m₀) AnyFailure step :=
  keeps_confined fun m => (h m m (.refl m)).imp (fun _ hm' => .of_sameNames hm') fun _ _ => trivial

theorem keeps_define_confined {name : String} {params : List String} {body : Node} (h : D ⟨name, params, body⟩) :
    Keeps (Confined A D m₀) AnyFailure (Eval.define name params body) :=
  fun m hm => hm.trans (.define m h)

theorem keeps_fillHash_confined {depth : Nat} {table : Value} {eval : Node → Eval Value} :
    ∀ {items : List Node}, (∀ n ∈ items, Keeps (Confined A D m₀) AnyFailure (eval n)) →
      Keeps (Confined A D m₀) AnyFailure (Eval.fillHash depth table eval items)
  | [], _ => Keeps.pure ()
  | [_], _ => Keeps.pure ()
  | key :: value :: rest, heval => by
    have hkey := heval key (by simp)
    have hvalue := heval value (by simp)
    refine hkey.bind fun k => hvalue.bind fun v => ?_
    have hassign : Keeps (Confined A D m₀) AnyFailure (Eval.onStore (table.assign depth k v)) :=
      keeps_confined_of_sameNames fun _ => keeps_assign_sameNames depth table k v
    exact hassign.bind fun _ => keeps_fillHash_confined fun n hn => heval n (by simp [hn])

/-- The body of a function runs in a frame of its own and makes its definitions. -/
theorem confined_inFrame {q : Procedure} {m : Machine} (hq : m.InTable q) {frame : Frame} {step : Eval α}
    (h : Upheld (Confined (· ∈ q.body.assigned) (· ∈ q.body.definitions) { m with frame }) AnyFailure (step { m with frame })) :
    Upheld (Confined A D m) AnyFailure (Eval.inFrame frame step m) := by
  unfold Eval.inFrame
  simp only
  cases hr : step { m with frame } with
  | ok v m' =>
    rw [hr] at h
    exact .ofCall hq h
  | error e m' =>
    rw [hr] at h
    exact ⟨.ofCall hq h.1, trivial⟩

/-- A call assigns no variable of the caller, and makes the definitions in bodies of functions only. -/
theorem confined_call {depth : Nat} {eval : Node → Eval Value}
    (heval : ∀ n m, Upheld (Confined (· ∈ n.assigned) (· ∈ n.definitions) m) AnyFailure (eval n m)) (name : String)
    (args : List Value) (m : Machine) : Upheld (Confined A D m) AnyFailure (Eval.call depth eval name args m) := by
  unfold Eval.call
  refine Upheld.get ?_
  rcases hf : m.functions.find? name with _ | b | a
  · exact ⟨.refl m, trivial⟩
  · exact keeps_confined_of_sameNames (fun _ => keeps_callBuiltin_sameNames _ _ _) m (.refl m)
  · refine Upheld.get ?_
    rcases hq : m.store.procedure? a with _ | q
    · exact ⟨.refl m, trivial⟩
    · have enter : Upheld (Confined A D m) AnyFailure ((do
          Eval.trace s!"Entering frame for {name}"
          Eval.inFrame (.ofList (q.params.zip args)) (eval q.body)) m) := by
        have htrace : Upheld (SameNames m) Nameless (Eval.trace s!"Entering frame for {name}" m) :=
          keeps_trace_sameNames _ m (.refl m)
        refine Upheld.bind (htrace.imp (fun _ h => h) fun _ _ => trivial) (fun _ h => .of_sameNames h) fun _ m' h => ?_
        have hin : m'.InTable q := ⟨name, a, by rw [h.functions_eq, hf], (congrArg (·[a]?) h.procedures_eq).trans hq⟩
        exact (confined_inFrame hin (heval q.body _)).imp (fun _ h' => (Confined.of_sameNames h).trans h') fun _ h => h
      show Upheld _ _ ((if args.length ≠ q.params.length then _ else _ : Eval Value) m)
      split
      · exact ⟨.refl m, trivial⟩
      · exact enter

/-- The effects of a tree are confined to what it names. -/
theorem confined_evaluate (rounds depth : Nat) (node : Node) (m : Machine) :
    Upheld (Confined (· ∈ node.assigned) (· ∈ node.definitions) m) AnyFailure (evaluate rounds depth node m) := by
  induction depth generalizing node m with
  | zero => exact ⟨.refl m, trivial⟩
  | succ depth ih =>
    have child {c : Node} (hc : c ∈ node.children) :
        Keeps (Confined (· ∈ node.assigned) (· ∈ node.definitions) m) AnyFailure (evaluate rounds depth c) :=
      keeps_confined fun m => (ih c m).imp (fun _ h => h.mono (fun _ => Node.assigned_of_mem_children hc)
        fun _ => Node.definitions_of_mem_children hc) fun _ h => h
    suffices h : Keeps (Confined (· ∈ node.assigned) (· ∈ node.definitions) m) AnyFailure
        (evaluate rounds (depth + 1) node) from h m (.refl m)
    unfold evaluate
    refine (keeps_confined_of_sameNames fun _ => keeps_traceNode_sameNames node).bind fun _ => ?_
    cases node with
    | lit value => exact keeps_confined_of_sameNames fun _ => keeps_ofData_sameNames depth value
    | binary op left right =>
      exact (child (by simp [Node.children])).bind fun x => (child (by simp [Node.children])).bind fun y =>
        keeps_confined_of_sameNames fun _ => keeps_apply_sameNames depth op x y
    | stmts body => exact Keeps.foldlM body _ fun _ n hn => child hn
    | varAssign name value =>
      refine Keeps.bind (child (by simp [Node.children])) fun v =>
        Keeps.bind (Keeps.modify fun m hm => ?_) fun _ => Keeps.pure v
      exact hm.trans (.insert m v List.mem_cons_self)
    | varRef name =>
      refine Keeps.get fun m _ => ?_
      split
      · exact Keeps.pure _
      · exact Keeps.throw trivial
    | choice test yes no =>
      refine (child (by simp [Node.children])).bind fun v => ?_
      split
      · exact child (by simp [Node.children])
      · exact child (by simp [Node.children])
    | loop test body =>
      have htest := child (c := test) (by simp [Node.children])
      have hbody := child (c := body) (by simp [Node.children])
      exact (Keeps.whileTrue (htest.bind fun _ => Keeps.pure _) (hbody.bind fun _ => Keeps.pure _) trivial rounds).bind
        fun _ => Keeps.pure _
    | loopAfter test body =>
      have htest := child (c := test) (by simp [Node.children])
      have hbody := child (c := body) (by simp [Node.children])
      exact hbody.bind fun _ => (Keeps.whileTrue (htest.bind fun _ => Keeps.pure _) (hbody.bind fun _ => Keeps.pure _) trivial
        rounds).bind fun _ => Keeps.pure _
    | funcDef name params body => exact keeps_define_confined List.mem_cons_self
    | funcCall name args =>
      exact (Keeps.mapM args fun n hn => child hn).bind fun vs => keeps_confined fun m => confined_call ih name vs m
    | aryNew items =>
      exact (Keeps.mapM items fun n hn => child hn).bind fun vs =>
        keeps_confined_of_sameNames fun _ => keeps_newArray_sameNames _
    | aryRef container position =>
      exact (child (by simp [Node.children])).bind fun c => (child (by simp [Node.children])).bind fun p =>
        Keeps.get fun m _ => Keeps.lift fun _ _ => trivial
    | aryAssign container position value =>
      refine (child (by simp [Node.children])).bind fun c => (child (by simp [Node.children])).bind fun p =>
        (child (by simp [Node.children])).bind fun v => ?_
      exact (keeps_confined_of_sameNames fun _ => keeps_assign_sameNames depth c p v).bind
        fun _ => Keeps.pure v
    | hashNew items =>
      refine Keeps.bind (keeps_confined_of_sameNames fun _ => keeps_newHash_sameNames)
        fun table => ?_
      exact (keeps_fillHash_confined fun n hn => child hn).bind fun _ => Keeps.pure table
    | unknown tag => exact (Keeps.liftLimit fun _ _ => trivial).bind fun _ => Keeps.throw trivial
    | scalar => exact Keeps.throw trivial
    | broken => exact Keeps.throw trivial

end

/-- However an evaluation ends, no variable and no function has disappeared. A variable that is new or changed is one that
the tree assigns outside of definitions; a call changes no variable of its caller. What was defined stays as it was. A function
that is new or changed is one whose definition stands in the tree, or in the body of a function that was in the table or was
defined meanwhile; and what was defined meanwhile has entered the table, where only a later definition of its name can have
taken its place. -/
theorem evaluate_touches_named_only (rounds depth : Nat) (tree : Node) (m : Machine) :
    let m' := after (evaluate rounds depth tree) m
    (∀ x ∈ m.frame.keys, x ∈ m'.frame.keys) ∧
    (∀ x, m'.frame.find? x ≠ m.frame.find? x → x ∈ tree.assigned) ∧
    (∀ name args x, (after (Eval.call depth (evaluate rounds depth) name args) m).frame.find? x = m.frame.find? x) ∧
    (∀ f ∈ m.functions.keys, f ∈ m'.functions.keys) ∧
    (∀ a p, m.store.procedure? a = some p → m'.store.procedure? a = some p) ∧
    (∀ f, m'.functions.find? f ≠ m.functions.find? f → ∃ a p, m'.functions.find? f = some (.procedure a) ∧
      m.Since m' a p ∧ p.name = f ∧
        (p ∈ tree.definitions ∨ ∃ q, (m.InTable q ∨ ∃ b < a, m.Since m' b q) ∧ p ∈ q.body.definitions)) ∧
    ∀ a p, m.Since m' a p → ∃ b ≥ a, m'.functions.find? p.name = some (.procedure b) := by
  intro m'
  have hconfined : Confined (· ∈ tree.assigned) (· ∈ tree.definitions) m m' := (confined_evaluate rounds depth tree m).after
  refine ⟨hconfined.bound, hconfined.assigned, fun name args x => ?_, fun f hf => ?_, hconfined.kept, fun f hf => ?_,
    hconfined.entered⟩
  · have hcall : Confined (fun _ => False) (fun _ => False) m (after (Eval.call depth (evaluate rounds depth) name args) m) :=
      (confined_call (confined_evaluate rounds depth) name args m).after
    exact not_not.mp (hcall.assigned x)
  · rcases hconfined.functions f with heq | ⟨a, p, ha, -⟩
    · obtain ⟨callee, hcallee⟩ := OrderedTable.mem_keys_iff.mp hf
      exact OrderedTable.mem_keys_iff.mpr ⟨callee, heq.trans hcallee⟩
    · exact OrderedTable.mem_keys_iff.mpr ⟨_, ha⟩
  · obtain ⟨a, p, ha, hp, hname⟩ := (hconfined.functions f).resolve_left hf
    exact ⟨a, p, ha, hp, hname, hconfined.source a p hp⟩

end MinRuby
