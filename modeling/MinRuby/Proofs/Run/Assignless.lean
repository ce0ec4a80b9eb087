import MinRuby.Proofs.Run.Allocation
import MinRuby.Proofs.Run.Effects

/-!
# Runs without assignments to elements

A tree in which no assignment to an element stands, run with functions whose bodies have none, only allocates: every step of
the run, and so the run as a whole, keeps what obeys the laws of allocation.

* `Node.assignsElement` — whether a tree has an assignment to an element.
* `runAllocates_callBuiltin` — builtins, by induction on the depth.
* `allocates_evaluate` — the step lemma, by induction on the depth.
-/

namespace MinRuby

open Syntax (Node)

/-! ## Trees without assignments to elements -/

namespace Syntax.Node

mutual

/-- Whether an assignment to an element stands anywhere in the tree, in the body of a definition or outside. -/
def assignsElement : Node → Bool
  | aryAssign _ _ _ => true
  | varAssign _ value => value.assignsElement
  | binary _ left right => left.assignsElement || right.assignsElement
  | stmts body => assignsElementAny body
  | choice test yes no => test.assignsElement || yes.assignsElement || no.assignsElement
  | loop test body => test.assignsElement || body.assignsElement
  | loopAfter test body => test.assignsElement || body.assignsElement
  | funcDef _ _ body => body.assignsElement
  | funcCall _ args => assignsElementAny args
  | aryNew items => assignsElementAny items
  | aryRef container position => container.assignsElement || position.assignsElement
  | hashNew items => assignsElementAny items
  | lit _ | varRef _ | unknown _ | scalar | broken => false
termination_by structural n => n

/-- Whether an assignment to an element stands in one of the trees. -/
def assignsElementAny : List Node → Bool
  | [] => false
  | n :: rest => n.assignsElement || assignsElementAny rest
termination_by structural l => l

end

theorem assignsElementAny_eq_false_iff {ns : List Node} : assignsElementAny ns = false ↔ ∀ n ∈ ns, n.assignsElement = false := by
  induction ns with
  | nil => simp [assignsElementAny]
  | cons n ns ih => simp [assignsElementAny, ih]

/-- The children of a tree without assignments to elements have none. -/
theorem assignsElement_of_mem_children {c n : Node} (hc : c ∈ n.children) (h : n.assignsElement = false) :
    c.assignsElement = false := by
  cases n <;> simp only [children, List.mem_cons, List.not_mem_nil, or_false] at hc <;>
    simp only [assignsElement, Bool.or_eq_false_iff, assignsElementAny_eq_false_iff] at h <;> grind

end Syntax.Node

namespace Machine

/-- No body of a function in the table assigns to an element. -/
def Assignless (m : Machine) : Prop := ∀ p, m.InTable p → p.body.assignsElement = false

/-- Machines with the same names have the same table. -/
theorem Assignless.of_sameNames {m m' : Machine} (hm : m.Assignless) (h : SameNames m m') : m'.Assignless := by
  rintro p ⟨f, a, hf, ha⟩
  exact hm p ⟨f, a, by rw [← h.functions_eq, hf], (congrArg (·[a]?) h.procedures_eq).symm.trans ha⟩

/-- After a definition the table holds what it held, and the new definition. -/
theorem Assignless.define {m : Machine} {p : Procedure} (hm : m.Assignless) (hp : p.body.assignsElement = false) :
    Assignless
      { m with
        store := (m.store.newProcedure p).2
        functions := m.functions.insert p.name (.procedure m.store.procedures.size) } := by
  intro q hq
  have hdefine := Confined.define (A := fun _ => False) (D := fun _ => True) m (p := p) trivial
  rcases hdefine.inTable hq with hold | ⟨b, -, hsize, hb⟩
  · exact hm q hold
  · obtain ⟨-, rfl⟩ := Store.eq_of_procedure?_newProcedure hb hsize
    exact hp

end Machine

/-! ## Steps of the machine -/

namespace OrderedTable

variable {κ α : Type} [BEq κ] [LawfulBEq κ]

/-- What is found after an insertion was inserted or there before. -/
theorem find?_insert_cases {t : OrderedTable κ α} {k k' : κ} {v v' : α} (h : (t.insert k v).find? k' = some v') :
    v' = v ∨ t.find? k' = some v' := by
  by_cases hk : k' = k
  · subst hk
    rw [find?_insert_self] at h
    exact .inl (Option.some.inj h).symm
  · rw [find?_insert_of_ne _ _ hk] at h
    exact .inr h

theorem exists_mem_of_find?_ofList {entries : List (κ × α)} {k : κ} {v : α} (h : (ofList entries).find? k = some v) :
    ∃ e ∈ entries, e.2 = v := by
  have hfold : ∀ (entries : List (κ × α)) (t : OrderedTable κ α),
      (entries.foldl (fun t e => t.insert e.1 e.2) t).find? k = some v → t.find? k = some v ∨ ∃ e ∈ entries, e.2 = v := by
    intro entries
    induction entries with
    | nil => exact fun t h => .inl h
    | cons e entries ih =>
      intro t h
      rcases ih _ h with h | ⟨e', he', hv⟩
      · rcases find?_insert_cases h with rfl | h
        · exact .inr ⟨e, List.mem_cons_self, rfl⟩
        · exact .inl h
      · exact .inr ⟨e', List.mem_cons_of_mem _ he', hv⟩
  rcases hfold entries empty h with h | h
  · cases h
  · exact h

end OrderedTable

section

variable {α : Type} {I : List Address → Store → Prop} {V : List Address → Store → Value → Prop} {O : List Address}
  {ins : List Value}

/-- The property of the store, with values in the frame that have theirs, and functions that only allocate. -/
structure OnMachine (I : List Address → Store → Prop) (V : List Address → Store → Value → Prop) (O : List Address)
    (m : Machine) : Prop where
  store : I O m.store
  frame : ∀ x v, m.frame.find? x = some v → V O m.store v
  assignless : m.Assignless

/-- The machine with a hash that it is about to fill. -/
theorem OnMachine.newHash {m : Machine} (hm : OnMachine I V O m) (laws : KeptByAllocation I V) :
    OnMachine I V (m.store.hashes.size :: O) { m with store := (m.store.newHash .empty).2 } :=
  ⟨(laws.newHash hm.store).1, fun x v hv => (laws.newHash hm.store).2 v (hm.frame x v hv), hm.assignless⟩

/-- The property of a value in the store of a machine. -/
abbrev InStoreOf (V : List Address → Store → Value → Prop) (O : List Address) (m : Machine) (v : Value) : Prop := V O m.store v

/-- The judgement for steps of the machine. -/
abbrev RunAllocates (I : List Address → Store → Prop) (V : List Address → Store → Value → Prop) (O : List Address)
    (ins : List Value) (out : α → List Value) (step : Eval α) : Prop :=
  Allocates (OnMachine I V) (InStoreOf V) O ins out step

namespace KeptByAllocation

/-- A step on the store that changes arrays and hashes only. -/
theorem allocates_onStore {out : α → List Value} {step : StoreM α} (hp : ∀ s : Store, Keeps s.Changes Impersonal step)
    (h : Allocates I V O ins out step) : RunAllocates I V O ins out (Eval.onStore step) := by
  intro m hm hins
  have hstep := h m.store hm.store hins
  have hchanges := hp m.store m.store .refl
  have hnames {s : Store} (hs : s.procedures = m.store.procedures) : Machine.Assignless { m with store := s } :=
    hm.assignless.of_sameNames ⟨rfl, rfl, hs, rfl, List.suffix_rfl⟩
  unfold Eval.onStore
  simp only
  cases hr : step m.store with
  | ok a s =>
    rw [hr] at hstep hchanges
    obtain ⟨hs, hkept, hout⟩ := hstep
    exact ⟨⟨hs, fun x v hv => hkept v (hm.frame x v hv), hnames (Store.Changes.procedures_eq hchanges)⟩, hkept, hout⟩
  | error e s =>
    rw [hr] at hstep hchanges
    exact ⟨⟨hstep.1, fun x v hv => hstep.2 v (hm.frame x v hv), hnames (Store.Changes.procedures_eq hchanges.1)⟩, hstep.2⟩

end KeptByAllocation

namespace RunAllocates

/-- The machine that a step leaves, whether it succeeds or fails. -/
theorem onMachine_after {out : α → List Value} {step : Eval α} {m : Machine} (h : RunAllocates I V O ins out step)
    (hm : OnMachine I V O m) (hins : ∀ v ∈ ins, V O m.store v) : OnMachine I V O (after step m) := by
  have hstep := h m hm hins
  unfold after
  cases hr : step m with
  | ok a m' =>
    rw [hr] at hstep
    exact hstep.1
  | error e m' =>
    rw [hr] at hstep
    exact hstep.1

/-- A change of the machine that leaves its store alone. -/
theorem changing {f : Machine → Machine} (h : ∀ m, OnMachine I V O m → OnMachine I V O (f m))
    (hstore : ∀ m, (f m).store = m.store) : RunAllocates I V O ins noValue (modify f : Eval PUnit) := by
  intro m hm _
  refine ⟨h m hm, fun v hv => ?_, fun _ hv => absurd hv List.not_mem_nil⟩
  show V O (f m).store v
  rw [hstore m]
  exact hv

theorem emit (text : String) : RunAllocates I V O ins noValue (Eval.emit text) :=
  changing (fun _ hm => ⟨hm.store, hm.frame, hm.assignless⟩) fun _ => rfl

theorem trace (line : String) : RunAllocates I V O ins noValue (Eval.trace line) := by
  refine .get fun m => ?_
  split
  · exact changing (fun _ hm => ⟨hm.store, hm.frame, hm.assignless⟩) fun _ => rfl
  · exact .pure (List.nil_subset _)

theorem reading (read : Store → Except Limit α) : RunAllocates I V O ins noValue (Eval.reading read) :=
  .get fun m => .liftLimit (read m.store)

theorem traceNode (node : Node) : RunAllocates I V O ins noValue (Eval.traceNode node) := by
  unfold Eval.traceNode
  split
  · exact .pure (List.nil_subset _)
  · exact .pure (List.nil_subset _)
  · have refused : RunAllocates I V O ins noValue (throw (.limit .numeral) : Eval PUnit) := .throw
    refine .get fun m => ?_
    simp only
    split
    · split
      · exact refused.bind fun _ => trace _
      · exact trace _
    · exact .pure (List.nil_subset _)

theorem parseProgram (source filename : String) (known : List String) :
    RunAllocates I V O ins noValue (Eval.parseProgram source filename known) := by
  refine .get fun m => (Allocates.lift _).bind fun r => ?_
  simp only
  split
  · exact (trace _).bind fun _ => .pure (List.nil_subset _)
  · have counted : RunAllocates I V O ins noValue (modify fun m => { m with nextTemporary := r.2 } : Eval PUnit) :=
      changing (fun _ hm => ⟨hm.store, hm.frame, hm.assignless⟩) fun _ => rfl
    exact (counted.weaken (List.subset_append_right _ _)).bind fun _ => .pure (List.nil_subset _)

end RunAllocates

/-! ### Builtins -/

namespace KeptByAllocation

open Builtin

theorem runAllocates_scalar (laws : KeptByAllocation I V) {v : Value} (hv : v.IsScalar) :
    RunAllocates I V O ins itself (Pure.pure v : Eval Value) :=
  .having (fun _ => laws.scalar hv) (.pure (List.cons_subset.mpr ⟨List.mem_cons_self, List.nil_subset _⟩))

theorem runAllocates_newArray (laws : KeptByAllocation I V) {items : Array Value} (h : items.toList ⊆ ins) :
    RunAllocates I V O ins itself (Eval.onStore (modifyGet (·.newArray items))) :=
  allocates_onStore (fun _ => keeps_newArray_changes items) (laws.allocates_newArray h)

theorem runAllocates_ofData (laws : KeptByAllocation I V) (depth : Nat) (value : Data) :
    RunAllocates I V O ins itself (Eval.onStore (Value.ofData depth value)) :=
  allocates_onStore (fun _ => Value.keeps_ofData_changes depth value)
    ((laws.allocates_ofData O depth value).weaken (List.nil_subset _))

theorem runAllocates_runP (laws : KeptByAllocation I V) (depth : Nat) {args : List Value} (h : args ⊆ ins) :
    RunAllocates I V O ins itself (runP depth args) := by
  refine (Allocates.forM args fun v _ => ?_).bind fun _ => ?_
  · exact (RunAllocates.reading _).bind fun _ => RunAllocates.emit _
  · split
    · exact laws.runAllocates_scalar trivial
    · exact .pure h
    · exact laws.runAllocates_newArray h

theorem runAllocates_runPrint (laws : KeptByAllocation I V) (depth : Nat) (args : List Value) :
    RunAllocates I V O ins itself (runPrint depth args) :=
  (RunAllocates.reading _).bind fun _ => (RunAllocates.emit _).bind fun _ => laws.runAllocates_scalar trivial

theorem runAllocates_runPuts (laws : KeptByAllocation I V) (depth : Nat) (args : List Value) :
    RunAllocates I V O ins itself (runPuts depth args) := by
  have lines : RunAllocates I V O ins itself (do
      args.forM fun v => do
        (← Eval.reading (v.displayLines · depth)).forM fun line => Eval.emit (asLine line)
      return Value.nil) := by
    refine (Allocates.forM args fun v _ => ?_).bind fun _ => laws.runAllocates_scalar trivial
    exact (RunAllocates.reading _).bind fun _ => .forM _ fun _ _ => RunAllocates.emit _
  unfold runPuts
  split
  · exact (RunAllocates.emit _).bind fun _ => lines
  · exact lines

theorem runAllocates_runRequire (laws : KeptByAllocation I V) (name : Value) :
    RunAllocates I V O ins itself (runRequire name) := by
  unfold runRequire
  split
  · split
    · exact laws.runAllocates_scalar trivial
    · exact .throw
  · exact .throw

theorem runAllocates_runLoad (laws : KeptByAllocation I V) : RunAllocates I V O ins itself runLoad := by
  refine .get fun m => ?_
  split
  · exact .throw
  · next path rest _ =>
    have taken : RunAllocates I V O ins noValue (modify fun m => { m with toLoad := rest } : Eval PUnit) :=
      RunAllocates.changing (fun _ hm => ⟨hm.store, hm.frame, hm.assignless⟩) fun _ => rfl
    refine taken.bind fun _ => .get fun m => ?_
    split
    · exact laws.runAllocates_scalar trivial
    · exact .throw

theorem runAllocates_runParse (laws : KeptByAllocation I V) (depth : Nat) (source : Value) :
    RunAllocates I V O ins itself (runParse depth source) := by
  unfold runParse
  split
  · exact (RunAllocates.parseProgram _ _ _).bind fun _ => laws.runAllocates_ofData depth _
  · exact .throw

/-- A call by name has the elements of the array of its arguments. -/
theorem runAllocates_runCall (laws : KeptByAllocation I V) {call : String → List Value → Eval Value}
    (hcall : ∀ name args, RunAllocates I V O args itself (call name args)) (name : Value) {args : Value} (h : args ∈ ins) :
    RunAllocates I V O ins itself (runCall call name args) := by
  unfold runCall
  split
  · intro m hm hins
    refine Allocated.get (hcall _ _ m hm fun v hv => ?_)
    exact laws.part hm.store (hins _ h) (Array.mem_toList_iff.mp hv)
  · exact .throw
  · exact .throw

theorem runAllocates_run (laws : KeptByAllocation I V) {call : String → List Value → Eval Value}
    (hcall : ∀ name args, RunAllocates I V O args itself (call name args)) (b : Builtin) (depth : Nat) (args : List Value) :
    RunAllocates I V O args itself (b.run depth call args) := by
  unfold run
  split
  · exact laws.runAllocates_runP depth (fun _ h => h)
  · exact laws.runAllocates_runPrint depth _
  · exact laws.runAllocates_runPuts depth _
  · exact laws.runAllocates_runRequire _
  · exact laws.runAllocates_runLoad
  · exact laws.runAllocates_runParse depth _
  · exact laws.runAllocates_runCall hcall _ (List.mem_cons_of_mem _ List.mem_cons_self)
  · exact .throw

theorem runAllocates_callBuiltin (laws : KeptByAllocation I V) (depth : Nat) (name : String) (args : List Value) :
    RunAllocates I V O args itself (callBuiltin depth name args) := by
  induction depth generalizing name args with
  | zero => exact .throw
  | succ depth ih =>
    unfold callBuiltin
    split
    · exact .throw
    · next b _ =>
      have rest : RunAllocates I V O args itself (do
          Eval.trace s!"Calling builtin {name} with {args.length} arguments"
          b.run depth (callBuiltin depth) args) :=
        (RunAllocates.trace _).bind fun _ => laws.runAllocates_run ih b depth args
      have refused {e : RuntimeError} : RunAllocates I V O args noValue (Eval.fail e : Eval PUnit) := .throw
      split
      · split
        · exact refused.bind fun _ => rest
        · exact rest
      · exact rest

/-! ### Evaluation -/

theorem runAllocates_define (laws : KeptByAllocation I V) (name : String) (params : List String) {body : Node}
    (hbody : body.assignsElement = false) : RunAllocates I V O ins itself (Eval.define name params body) := by
  intro m hm _
  obtain ⟨hstore, hkept⟩ := laws.newProcedure (p := ⟨name, params, body⟩) hm.store
  refine ⟨⟨hstore, fun x v hv => hkept v (hm.frame x v hv), hm.assignless.define hbody⟩, hkept, ?_⟩
  exact List.forall_mem_singleton.mpr (laws.scalar trivial)

/-- The hash is filled before anyone else has it. -/
theorem runAllocates_fillHash (laws : KeptByAllocation I V) {a : Address} (ha : a ∈ O) {depth : Nat}
    {eval : Node → Eval Value} : ∀ {items : List Node}, (∀ n ∈ items, RunAllocates I V O [] itself (eval n)) →
      RunAllocates I V O [] noValue (Eval.fillHash depth (.hash a) eval items)
  | [], _ => .pure (List.nil_subset _)
  | [_], _ => .pure (List.nil_subset _)
  | key :: value :: rest, heval => by
    refine (heval key (by simp)).bind fun k => ((heval value (by simp)).weaken (List.nil_subset _)).bind fun v => ?_
    have hassign : RunAllocates I V O [v, k] noValue (Eval.onStore ((Value.hash a).assign depth k v)) :=
      allocates_onStore (fun _ => Value.keeps_assign_changes depth _ k v) (laws.allocates_assign ha depth (by simp) (by simp))
    exact hassign.bind fun _ =>
      (laws.runAllocates_fillHash ha fun n hn => heval n (by simp [hn])).weaken (List.nil_subset _)

theorem runAllocates_newHash (laws : KeptByAllocation I V) {fill : Value → Eval Unit}
    (h : ∀ a, RunAllocates I V (a :: O) ins noValue (fill (.hash a))) :
    RunAllocates I V O ins itself (do
      let table ← Eval.onStore (modifyGet (·.newHash .empty))
      fill table
      return table) := by
  refine .building (fun m hm => ?_) (fun a m hm => ?_) h
  · exact ⟨m.store.hashes.size, { m with store := (m.store.newHash .empty).2 }, rfl, hm.newHash laws,
      (laws.newHash hm.store).2⟩
  · obtain ⟨hstore, hnew, hkept⟩ := laws.filled hm.store
    exact ⟨⟨hstore, fun x v hv => hkept v (hm.frame x v hv), hm.assignless⟩, hnew, hkept⟩

/-- A step in a frame whose variables have values at hand. -/
theorem runAllocates_inFrame {α : Type} {out : α → List Value} {step : Eval α} {frame : Frame}
    (hframe : ∀ x v, frame.find? x = some v → v ∈ ins) (h : RunAllocates I V O [] out step) :
    RunAllocates I V O ins out (Eval.inFrame frame step) := by
  intro m hm hins
  have hstep := h { m with frame } ⟨hm.store, fun x v hv => hins v (hframe x v hv), hm.assignless⟩
    fun _ hv => absurd hv List.not_mem_nil
  unfold Eval.inFrame
  simp only
  cases hr : step { m with frame } with
  | ok a m' =>
    rw [hr] at hstep
    obtain ⟨hm', hkept, hout⟩ := hstep
    exact ⟨⟨hm'.store, fun x v hv => hkept v (hm.frame x v hv), hm'.assignless⟩, hkept, hout⟩
  | error e m' =>
    rw [hr] at hstep
    exact ⟨⟨hstep.1.store, fun x v hv => hstep.2 v (hm.frame x v hv), hstep.1.assignless⟩, hstep.2⟩

/-- The frame of a call holds the arguments. -/
theorem mem_of_find?_zip {params : List String} {args : List Value} {x : String} {v : Value}
    (h : (OrderedTable.ofList (params.zip args)).find? x = some v) : v ∈ args := by
  obtain ⟨e, he, rfl⟩ := OrderedTable.exists_mem_of_find?_ofList h
  exact (List.of_mem_zip he).2

theorem runAllocates_call (laws : KeptByAllocation I V) {depth : Nat} {eval : Node → Eval Value}
    (heval : ∀ n, n.assignsElement = false → RunAllocates I V O [] itself (eval n)) (name : String) {args : List Value}
    (h : args ⊆ ins) : RunAllocates I V O ins itself (Eval.call depth eval name args) := by
  unfold Eval.call
  intro m hm hins
  refine Allocated.get ?_
  rcases hf : m.functions.find? name with _ | b | a
  · exact Allocates.throw m hm hins
  · exact ((laws.runAllocates_callBuiltin depth b.name args).weaken h) m hm hins
  · refine Allocated.get ?_
    rcases hq : m.store.procedure? a with _ | q
    · exact Allocates.throw m hm hins
    · have hbody : q.body.assignsElement = false := hm.assignless q ⟨name, a, hf, hq⟩
      have enter : RunAllocates I V O ins itself (do
          Eval.trace s!"Entering frame for {name}"
          Eval.inFrame (.ofList (q.params.zip args)) (eval q.body)) :=
        (RunAllocates.trace _).bind fun _ =>
          runAllocates_inFrame (fun _ _ hv => h (mem_of_find?_zip hv)) (heval q.body hbody)
      show Allocated _ _ O itself m ((if args.length ≠ q.params.length then _ else _ : Eval Value) m)
      split
      · exact Allocates.throw m hm hins
      · exact enter m hm hins

theorem runAllocates_varRef (name : String) : RunAllocates I V O ins itself (do
    match (← get).frame.find? name with
    | some v => return v
    | none => Eval.fail (.unboundVariable name) : Eval Value) := by
  intro m hm hins
  refine Allocated.get ?_
  cases hv : m.frame.find? name with
  | some v => exact ⟨hm, fun _ hw => hw, List.forall_mem_singleton.mpr (hm.frame name v hv)⟩
  | none => exact Allocates.throw m hm hins

theorem runAllocates_assign {name : String} {v : Value} (h : v ∈ ins) :
    RunAllocates I V O ins noValue (modify fun m => { m with frame := m.frame.insert name v } : Eval PUnit) := by
  intro m hm hins
  refine ⟨⟨hm.store, fun x w hw => ?_, hm.assignless⟩, fun _ hw => hw, fun _ hw => absurd hw List.not_mem_nil⟩
  rcases OrderedTable.find?_insert_cases hw with rfl | hw
  · exact hins w h
  · exact hm.frame x w hw

theorem runAllocates_fetch (laws : KeptByAllocation I V) (depth : Nat) {container : Value} (index : Value)
    (h : container ∈ ins) : RunAllocates I V O ins itself (do container.fetch (← get).store depth index : Eval Value) := by
  intro m hm hins
  refine Allocated.get ?_
  cases hr : container.fetch m.store depth index with
  | ok v => exact ⟨hm, fun _ hw => hw, List.forall_mem_singleton.mpr (laws.part hm.store (hins _ h) (Value.isIn_of_fetch hr))⟩
  | error e => exact Allocates.throw m hm hins

/-- A loop makes no value. -/
theorem runAllocates_whileTrue {test : Eval Bool} {body : Eval Unit} (ht : RunAllocates I V O ins noValue test)
    (hb : RunAllocates I V O ins noValue body) (rounds : Nat) :
    RunAllocates I V O ins noValue (Eval.whileTrue test body rounds) := by
  induction rounds with
  | zero => exact .throw
  | succ rounds ih =>
    refine ht.bind fun b => ?_
    cases b with
    | false => exact .pure (List.nil_subset _)
    | true => exact hb.bind fun _ => ih

/-- A tree without assignments to elements only allocates. -/
theorem allocates_evaluate (laws : KeptByAllocation I V) (rounds depth : Nat) {node : Node}
    (hnode : node.assignsElement = false) (O : List Address) :
    RunAllocates I V O [] itself (evaluate rounds depth node) := by
  induction depth generalizing node O with
  | zero => exact .throw
  | succ depth ih =>
    have child {c : Node} (hc : c ∈ node.children) (O : List Address) (ins : List Value) :
        RunAllocates I V O ins itself (evaluate rounds depth c) :=
      (ih (Node.assignsElement_of_mem_children hc hnode) O).weaken (List.nil_subset _)
    -- a test is looked at, and its value is forgotten
    have test {c : Node} (hc : c ∈ node.children) (ins : List Value) :
        RunAllocates I V O ins noValue (do return (← evaluate rounds depth c).truthy) :=
      (child hc O ins).bind fun _ => .pure (List.nil_subset _)
    have round {c : Node} (hc : c ∈ node.children) (ins : List Value) :
        RunAllocates I V O ins noValue (do let _ ← evaluate rounds depth c) :=
      (child hc O ins).bind fun _ => .pure (List.nil_subset _)
    unfold evaluate
    refine (RunAllocates.traceNode node).bind fun _ => ?_
    cases node with
    | lit value => exact laws.runAllocates_ofData depth value
    | binary op left right =>
      refine (child (by simp [Node.children]) O _).bind fun x => (child (by simp [Node.children]) O _).bind fun y => ?_
      exact allocates_onStore (fun _ => Value.keeps_apply_changes depth op x y)
        (laws.allocates_apply depth op (by simp) (by simp))
    | stmts body =>
      refine .having (v := .nil) (fun _ => laws.scalar trivial) (Allocates.foldlM body List.mem_cons_self fun _ n hn => ?_)
      exact child hn O _
    | varAssign name value =>
      refine Allocates.bind (child (by simp [Node.children]) O _) fun v => ?_
      exact (runAllocates_assign List.mem_cons_self).bind fun _ => .pure (by simp)
    | varRef name => exact runAllocates_varRef name
    | choice test yes no =>
      refine (child (by simp [Node.children]) O _).bind fun v => ?_
      split
      · exact child (by simp [Node.children]) O _
      · exact child (by simp [Node.children]) O _
    | loop t b =>
      exact (runAllocates_whileTrue (test (c := t) (by simp [Node.children]) _) (round (c := b) (by simp [Node.children]) _)
        rounds).bind fun _ => laws.runAllocates_scalar trivial
    | loopAfter t b =>
      refine (child (c := b) (by simp [Node.children]) O _).bind fun _ => ?_
      exact (runAllocates_whileTrue (test (c := t) (by simp [Node.children]) _) (round (c := b) (by simp [Node.children]) _)
        rounds).bind fun _ => laws.runAllocates_scalar trivial
    | funcDef name params body => exact laws.runAllocates_define name params hnode
    | funcCall name args =>
      refine (Allocates.mapM args fun n hn => child hn O _).bind fun vs => ?_
      exact laws.runAllocates_call (fun _ hn => ih hn O) name (List.subset_append_left _ _)
    | aryNew items =>
      refine (Allocates.mapM items fun n hn => child hn O _).bind fun vs => ?_
      exact laws.runAllocates_newArray (List.subset_append_left _ _)
    | aryRef container position =>
      refine (child (by simp [Node.children]) O _).bind fun c => (child (by simp [Node.children]) O _).bind fun p => ?_
      exact laws.runAllocates_fetch depth p (by simp)
    | aryAssign container position value => cases hnode
    | hashNew items =>
      exact laws.runAllocates_newHash fun a => (laws.runAllocates_fillHash List.mem_cons_self fun n hn => child hn _ _).weaken
        (List.nil_subset _)
    | unknown tag => exact (Allocates.liftLimit _).bind fun _ => .throw
    | scalar => exact .throw
    | broken => exact .throw

end KeptByAllocation

end

end MinRuby
