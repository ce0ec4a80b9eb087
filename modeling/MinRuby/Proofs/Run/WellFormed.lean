import MinRuby.Proofs.Run.Upkeep
import MinRuby.Proofs.Syntax.Vocabulary
import Mathlib.Logic.Relation

/-!
# Runs of parsed programs

A machine is `Proper` if the bodies of all its procedures are proper trees. Evaluation of a proper tree
keeps the machine proper, and never fails because of the tree's shape; so no sequence of parsed programs,
each run on the machine that the ones before it have left, ever meets an unknown tag or a missing child.

A run changes the store one array, hash or definition at a time. So it keeps every property of stores that no
such change breaks, and the bodies' being proper is one of them.

* `Store.Change` — one change of the arrays and hashes of a store.
* `KeptByBuiltins.keeps_callBuiltin` — the builtins, by induction on the depth.
* `KeptByRuns.keeps_evaluate` — the step lemma, by induction on the depth.
* `KeptByRuns.of_reached`, `Reached.proper` — every machine that parsed programs lead to.
-/

namespace MinRuby

/-- The failure of a tree that is none: its tag is unknown, or a child is missing or no node. -/
def Failure.OfTree : Failure → Prop
  | .runtime (.unknownTag _ _) | .limit .missingChild | .limit .scalarTree => True
  | _ => False

/-- Every failure but those of a tree that is none. -/
abbrev Ordinary (e : Failure) : Prop := ¬ e.OfTree

/-- The failures of a run of proper trees: all errors of the program but an unknown tag, the errors of texts that
are parsed, and the bounds on depth, rounds, numerals and repetition counts. -/
def Failure.IsRegular : Failure → Prop
  | .runtime (.unknownTag _ _) => False
  | .runtime _ => True
  | .parse e => ∃ source filename known counter, Syntax.parseProgram source filename known counter = .error (.parse e)
  | .limit .depth | .limit .rounds | .limit .numeral | .limit .count => True
  | .limit .compoundKey | .limit .scalarTree | .limit .missingChild => False

/-- A regular failure. -/
abbrev Regular (e : Failure) : Prop := e.IsRegular

/-- The regular failures that name no variable: those of builtins and of steps on the store. -/
def Failure.IsImpersonal : Failure → Prop
  | .runtime (.unboundVariable _) => False
  | e => e.IsRegular

/-- A regular failure that names no variable. -/
abbrev Impersonal (e : Failure) : Prop := e.IsImpersonal

/-- A regular limit. -/
abbrev RegularLimit (l : Limit) : Prop := Regular (.limit l)

theorem Failure.IsRegular.ordinary {e : Failure} (h : e.IsRegular) : Ordinary e := by
  cases e with
  | runtime e => cases e <;> first | exact id | exact h.elim
  | parse e => exact id
  | limit l => cases l <;> first | exact id | exact h.elim

theorem Failure.IsImpersonal.regular {e : Failure} (h : e.IsImpersonal) : Regular e := by
  unfold IsImpersonal at h
  split at h
  · exact h.elim
  · exact h

theorem Failure.IsImpersonal.ne_unboundVariable {e : Failure} (h : e.IsImpersonal) (x : String) :
    e ≠ .runtime (.unboundVariable x) := by
  rintro rfl
  exact h

section

variable {σ α : Type} {J : σ → Prop}

theorem failsOnly_limit {x : Except Limit α} (h : FailsOnly RegularLimit x) :
    FailsOnly Impersonal (liftM x : Except Failure α) :=
  h.mapError fun _ hl => hl

theorem failsOnly_blame {e : RuntimeError} (h : Impersonal (.runtime e)) :
    FailsOnly Impersonal (blame e : Except Failure α) :=
  .error h

theorem keeps_limit {x : Except Limit α} (h : FailsOnly RegularLimit x) :
    Keeps J Impersonal (liftM x : EStateM Failure σ α) :=
  Keeps.liftLimit h

theorem keeps_blame {e : RuntimeError} (h : Impersonal (.runtime e)) :
    Keeps J Impersonal (liftM (blame e : Except Failure α) : EStateM Failure σ α) :=
  Keeps.lift (failsOnly_blame h)

end

/-! ## Values -/

theorem failsOnly_decimal (n : Int) : FailsOnly RegularLimit (decimal n) := by
  unfold decimal
  split
  · exact .error trivial
  · exact .ok _

namespace Value

theorem failsOnly_inspect (s : Store) (depth : Nat) (v : Value) : FailsOnly RegularLimit (v.inspect s depth) := by
  induction depth generalizing v with
  | zero =>
    cases v with
    | int n => exact failsOnly_decimal n
    | array a => exact .error trivial
    | hash a => exact .error trivial
    | _ => exact .ok _
  | succ depth ih =>
    cases v with
    | int n => exact failsOnly_decimal n
    | array a => exact (FailsOnly.mapM _ fun v _ => ih v).bind fun _ => .ok _
    | hash a =>
      exact (FailsOnly.mapM _ fun e _ => (ih e.key).bind fun _ => (ih e.value).bind fun _ => .ok _).bind
        fun _ => .ok _
    | _ => exact .ok _

theorem failsOnly_display (s : Store) (depth : Nat) (v : Value) : FailsOnly RegularLimit (v.display s depth) := by
  cases v with
  | nil => exact .ok _
  | str t => exact .ok _
  | _ => exact failsOnly_inspect s depth _

theorem failsOnly_displayLines (s : Store) (depth : Nat) (v : Value) :
    FailsOnly RegularLimit (v.displayLines s depth) := by
  induction depth generalizing v with
  | zero =>
    cases v with
    | array a => exact .error trivial
    | _ => exact (failsOnly_display s 0 _).bind fun _ => .ok _
  | succ depth ih =>
    cases v with
    | array a => exact (FailsOnly.mapM _ fun v _ => ih v).bind fun _ => .ok _
    | _ => exact (failsOnly_display s _ _).bind fun _ => .ok _

/-- A comparison fails only if it goes too deep. -/
theorem failsOnly_equal (s : Store) (depth : Nat) (x y : Value) : FailsOnly (· = .depth) (x.equal s depth y) := by
  induction depth generalizing x y with
  | zero => cases x <;> cases y <;> first | exact .ok _ | exact .error rfl
  | succ depth ih =>
    cases x <;> cases y <;> try exact .ok _
    · unfold equal
      simp only
      split
      · exact FailsOnly.allM _ fun p _ => ih p.1 p.2
      · exact .ok _
    · unfold equal
      simp only
      split
      · refine FailsOnly.allM _ fun e _ => ?_
        split
        · exact ih _ _
        · exact .ok _
      · exact .ok _

theorem failsOnly_fingerprint (s : Store) (depth : Nat) (v : Value) :
    FailsOnly Impersonal (v.fingerprint s depth) := by
  induction depth generalizing v with
  | zero => cases v <;> first | exact .ok _ | exact .error trivial
  | succ depth ih =>
    cases v with
    | array a => exact (FailsOnly.mapM _ fun v _ => ih v).bind fun _ => .ok _
    | hash a => exact (FailsOnly.mapM _ fun e _ => (ih e.2.value).bind fun _ => .ok _).bind fun _ => .ok _
    | procedure a => exact .error trivial
    | _ => exact .ok _

theorem failsOnly_fetch (s : Store) (depth : Nat) (container index : Value) :
    FailsOnly Impersonal (container.fetch s depth index) := by
  cases container with
  | array a =>
    cases index with
    | int i =>
      unfold fetch
      simp only
      split
      · exact .ok _
      · exact (failsOnly_limit (failsOnly_decimal i)).bind fun _ => failsOnly_blame trivial
    | _ => exact .error trivial
  | hash a =>
    refine FailsOnly.bind ((failsOnly_fingerprint s depth index).bind fun _ => .ok _) fun v? => ?_
    cases v? with
    | some v => exact .ok _
    | none => exact (failsOnly_limit (failsOnly_inspect s depth index)).bind fun _ => failsOnly_blame trivial
  | _ => exact .error trivial

end Value

/-! ## Stores -/

/-- One change of the arrays and hashes of a store. -/
inductive Store.Change : Store → Store → Prop where
  | newArray (s : Store) (items : Array Value) : Change s (s.newArray items).2
  | newHash (s : Store) : Change s (s.newHash .empty).2
  | updateArray (s : Store) (a : Address) (f : Array Value → Array Value) : Change s (s.updateArray a f)
  | store (s : Store) (a : Address) (k : Key) (e : Entry) : Change s (s.updateHash a (·.insert k e))

/-- Changes of arrays and hashes, one after the other. -/
abbrev Store.Changes : Store → Store → Prop := Relation.ReflTransGen Store.Change

theorem Store.Changes.procedures_eq {s s' : Store} (h : s.Changes s') : s'.procedures = s.procedures := by
  induction h with
  | refl => rfl
  | tail _ hlast ih => cases hlast <;> exact ih

section

variable {s₀ : Store}

theorem keeps_newArray_changes (items : Array Value) :
    Keeps s₀.Changes Impersonal (modifyGet (·.newArray items) : StoreM Value) :=
  Keeps.modifyGet fun s hs => hs.tail (.newArray s items)

theorem keeps_newHash_changes : Keeps s₀.Changes Impersonal (modifyGet (·.newHash .empty) : StoreM Value) :=
  Keeps.modifyGet fun s hs => hs.tail (.newHash s)

namespace Value

theorem keeps_assign_changes (depth : Nat) (container index v : Value) :
    Keeps s₀.Changes Impersonal (assign depth container index v) := by
  cases container with
  | array a =>
    cases index with
    | int i =>
      unfold assign
      simp only
      split
      · -- the bound on numerals must not be unfolded
        have hd := failsOnly_decimal i
        generalize decimal i = d at hd ⊢
        exact Keeps.bind (keeps_limit hd) fun _ => keeps_blame trivial
      · exact Keeps.modify fun s hs => hs.tail (.updateArray s a _)
    | _ => exact keeps_blame trivial
  | hash a =>
    exact Keeps.get fun s _ => (Keeps.lift (failsOnly_fingerprint s depth index)).bind fun k =>
      Keeps.modify fun s hs => hs.tail (.store s a k _)
  | _ => exact keeps_blame trivial

mutual

theorem keeps_ofData_changes (depth : Nat) : ∀ d : Data, Keeps s₀.Changes Impersonal (ofData depth d)
  | .null | .bool _ | .int _ | .float _ | .str _ => Keeps.pure _
  | .list items => (keeps_ofDataAll_changes depth items).bind fun _ => keeps_newArray_changes _
  | .tuple items => (keeps_ofDataAll_changes depth items).bind fun _ => keeps_newArray_changes _
  | .mapping entries => keeps_newHash_changes.bind fun table =>
    (keeps_assignEntries_changes depth table entries).bind fun _ => Keeps.pure table

theorem keeps_ofDataAll_changes (depth : Nat) : ∀ ds : List Data, Keeps s₀.Changes Impersonal (ofDataAll depth ds)
  | [] => Keeps.pure []
  | d :: rest => (keeps_ofData_changes depth d).bind fun v => (keeps_ofDataAll_changes depth rest).bind fun vs =>
    Keeps.pure (v :: vs)

theorem keeps_assignEntries_changes (depth : Nat) (table : Value) :
    ∀ es : List (Data × Data), Keeps s₀.Changes Impersonal (assignEntries depth table es)
  | [] => Keeps.pure ()
  | (k, v) :: rest => (keeps_ofData_changes depth k).bind fun key => (keeps_ofData_changes depth v).bind fun value =>
    (keeps_assign_changes depth table key value).bind fun _ => keeps_assignEntries_changes depth table rest

end

theorem failsOnly_repeated {α : Type} (items : List α) (count : Int) :
    FailsOnly Impersonal (repeated items count) := by
  unfold repeated
  split
  · exact .error trivial
  · split
    · exact .error trivial
    · split <;> exact .ok _

theorem keeps_onOthers_changes (op : Syntax.BinaryOp) (x y : Value) : Keeps s₀.Changes Impersonal (onOthers op x y) := by
  unfold onOthers
  split
  · exact Keeps.pure _
  · exact Keeps.modifyGet fun s hs => hs.tail (.newArray s _)
  · exact (Keeps.lift (failsOnly_repeated _ _)).bind fun _ => Keeps.pure _
  · exact Keeps.get fun s _ => (Keeps.lift (failsOnly_repeated _ _)).bind fun _ => keeps_newArray_changes _
  · exact Keeps.pure _
  · exact Keeps.pure _
  · exact Keeps.pure _
  · exact Keeps.pure _
  · exact keeps_blame trivial

theorem keeps_apply_changes (depth : Nat) (op : Syntax.BinaryOp) (x y : Value) :
    Keeps s₀.Changes Impersonal (apply depth op x y) := by
  unfold apply
  split
  · have hequal (s : Store) : FailsOnly RegularLimit (x.equal s depth y) := by
      intro l hl
      obtain rfl := failsOnly_equal s depth x y l hl
      exact trivial
    exact Keeps.get fun s _ => (keeps_limit (hequal s)).bind fun _ => Keeps.pure _
  · split
    · next a b _ _ =>
      refine Keeps.liftRuntime ?_
      cases onNumbers op a b with
      | ok v => exact .ok v
      | error e => cases e <;> exact .error trivial
    · exact keeps_onOthers_changes op x y

end Value

end

/-- The bodies of all procedures in the store are proper trees. -/
def Store.Proper (s : Store) : Prop := ∀ p ∈ s.procedures, p.body.Proper

/-- The bodies of all procedures of the machine are proper trees. -/
def Machine.Proper (m : Machine) : Prop := m.store.Proper

/-! ## Builtins -/

/-- The steps that builtins are made of keep the property, and fail only as `E` says. -/
structure KeptByBuiltins (I : Machine → Prop) (E : Failure → Prop) : Prop where
  fails : ∀ e, Impersonal e → E e
  emit : ∀ text, Keeps I E (Eval.emit text)
  trace : ∀ line, Keeps I E (Eval.trace line)
  toLoad : ∀ m toLoad, I m → I { m with toLoad }
  newArray : ∀ items, Keeps I E (Eval.onStore (modifyGet (·.newArray items)))
  parse : ∀ depth text, Keeps I E (Builtin.runParse depth (.str text))

namespace KeptByBuiltins

variable {α : Type} {I : Machine → Prop} {E : Failure → Prop}

theorem keeps_fail (laws : KeptByBuiltins I E) {e : RuntimeError} (h : Impersonal (.runtime e)) :
    Keeps I E (Eval.fail e : Eval α) :=
  Keeps.throw (laws.fails _ h)

theorem keeps_reading (laws : KeptByBuiltins I E) {read : Store → Except Limit α} (h : ∀ s, FailsOnly RegularLimit (read s)) :
    Keeps I E (Eval.reading read) :=
  Keeps.reading fun s l hl => laws.fails _ (h s l hl)

theorem keeps_runP (laws : KeptByBuiltins I E) (depth : Nat) (args : List Value) : Keeps I E (Builtin.runP depth args) := by
  refine (Keeps.forM args fun v _ => ?_).bind fun _ => ?_
  · exact (laws.keeps_reading fun s => Value.failsOnly_inspect s depth v).bind fun _ => laws.emit _
  · split
    · exact Keeps.pure _
    · exact Keeps.pure _
    · exact laws.newArray _

theorem keeps_runPrint (laws : KeptByBuiltins I E) (depth : Nat) (args : List Value) : Keeps I E (Builtin.runPrint depth args) :=
  (laws.keeps_reading fun s => FailsOnly.mapM args fun v _ => Value.failsOnly_display s depth v).bind fun _ =>
    (laws.emit _).bind fun _ => Keeps.pure _

theorem keeps_runPuts (laws : KeptByBuiltins I E) (depth : Nat) (args : List Value) :
    Keeps I E (Builtin.runPuts depth args) := by
  have lines : Keeps I E (do
      args.forM fun v => do
        (← Eval.reading (v.displayLines · depth)).forM fun line => Eval.emit (Builtin.asLine line)
      return Value.nil) := by
    refine (Keeps.forM args fun v _ => ?_).bind fun _ => Keeps.pure _
    exact (laws.keeps_reading fun s => Value.failsOnly_displayLines s depth v).bind fun _ =>
      Keeps.forM _ fun _ _ => laws.emit _
  unfold Builtin.runPuts
  split
  · exact (laws.emit _).bind fun _ => lines
  · exact lines

theorem keeps_runRequire (laws : KeptByBuiltins I E) (name : Value) : Keeps I E (Builtin.runRequire name) := by
  unfold Builtin.runRequire
  split
  · split
    · exact Keeps.pure _
    · exact laws.keeps_fail trivial
  · exact laws.keeps_fail trivial

theorem keeps_runLoad (laws : KeptByBuiltins I E) : Keeps I E Builtin.runLoad := by
  refine Keeps.get fun m _ => ?_
  split
  · exact laws.keeps_fail trivial
  · refine Keeps.bind (Keeps.modify fun m hm => laws.toLoad m _ hm) fun _ => Keeps.get fun m _ => ?_
    split
    · exact Keeps.pure _
    · exact laws.keeps_fail trivial

theorem keeps_runParse (laws : KeptByBuiltins I E) (depth : Nat) (source : Value) :
    Keeps I E (Builtin.runParse depth source) := by
  cases source with
  | str text => exact laws.parse depth text
  | _ => exact laws.keeps_fail trivial

theorem keeps_runCall (laws : KeptByBuiltins I E) {call : String → List Value → Eval Value}
    (hcall : ∀ name args, Keeps I E (call name args)) (name args : Value) : Keeps I E (Builtin.runCall call name args) := by
  unfold Builtin.runCall
  split
  · exact Keeps.get fun m _ => hcall _ _
  · exact laws.keeps_fail trivial
  · exact laws.keeps_fail trivial

theorem keeps_run (laws : KeptByBuiltins I E) {call : String → List Value → Eval Value}
    (hcall : ∀ name args, Keeps I E (call name args)) (b : Builtin) (depth : Nat) (args : List Value) :
    Keeps I E (b.run depth call args) := by
  unfold Builtin.run
  split
  · exact laws.keeps_runP depth _
  · exact laws.keeps_runPrint depth _
  · exact laws.keeps_runPuts depth _
  · exact laws.keeps_runRequire _
  · exact laws.keeps_runLoad
  · exact laws.keeps_runParse depth _
  · exact laws.keeps_runCall hcall _ _
  · exact laws.keeps_fail trivial

theorem keeps_callBuiltin (laws : KeptByBuiltins I E) (depth : Nat) (name : String) (args : List Value) :
    Keeps I E (callBuiltin depth name args) := by
  induction depth generalizing name args with
  | zero => exact Keeps.throw (laws.fails _ trivial)
  | succ depth ih =>
    unfold callBuiltin
    split
    · exact laws.keeps_fail trivial
    · next b _ =>
      have rest : Keeps I E (do
          Eval.trace s!"Calling builtin {name} with {args.length} arguments"
          b.run depth (callBuiltin depth) args) :=
        (laws.trace _).bind fun _ => laws.keeps_run ih b depth args
      split
      · split
        · exact Keeps.bind (laws.keeps_fail trivial) fun _ => rest
        · exact rest
      · exact rest

end KeptByBuiltins

/-! ## Parsing -/

theorem failsOnly_readWhole (p : Syntax.Phrase) (source prepared : List Char) (filename : String) :
    FailsOnly (fun e => (∃ error, e = .parse error) ∨ e = .limit .depth ∨ e = .limit .numeral)
      (Syntax.readWhole p source prepared filename) := by
  unfold Syntax.readWhole
  simp only
  split
  · next reason _ => cases reason with
    | numeral => exact .error (.inr (.inr rfl))
    | depth => exact .error (.inr (.inl rfl))
  · exact .error (.inl ⟨_, rfl⟩)
  · split
    · exact .ok _
    · exact .error (.inl ⟨_, rfl⟩)

theorem failsOnly_parseProgram (source filename : String) (known : List String) (counter : Nat) :
    FailsOnly Impersonal (Syntax.parseProgram source filename known counter) := by
  intro e he
  have hread : FailsOnly (fun e => (∃ error, e = .parse error) ∨ e = .limit .depth ∨ e = .limit .numeral)
      (Syntax.parseProgram source filename known counter) :=
    (failsOnly_readWhole _ _ _ _).bind fun _ => .ok _
  rcases hread e he with ⟨error, rfl⟩ | rfl | rfl
  · exact ⟨source, filename, known, counter, he⟩
  · exact trivial
  · exact trivial

/-! ## Trees -/

/-- A property of stores with proper bodies that neither a change of arrays and hashes nor a definition breaks. -/
structure KeptByRuns (J : Store → Prop) : Prop where
  proper : ∀ {s : Store}, J s → s.Proper
  changed : ∀ {s s' : Store}, J s → s.Change s' → J s'
  defined : ∀ {s : Store} {p : Procedure}, J s → p.body.Proper → J (s.newProcedure p).2

/-- The property of the store of a machine. -/
abbrev OfStore (J : Store → Prop) (m : Machine) : Prop := J m.store

section

variable {α : Type} {J : Store → Prop} {E : Failure → Prop}

theorem keeps_emit_ofStore (text : String) : Keeps (OfStore J) E (Eval.emit text) := Keeps.emit (fun _ _ hm => hm) text

theorem keeps_trace_ofStore (line : String) : Keeps (OfStore J) E (Eval.trace line) := Keeps.trace (fun _ _ hm => hm) line

/-- Parsing fails in a regular way, and what follows may take the tree to be proper. -/
theorem keeps_parseProgram_bind {source filename : String} {known : List String} {f : Syntax.Node → Eval α}
    (hE : ∀ e, Impersonal e → E e) (hf : ∀ tree, tree.Proper → Keeps (OfStore J) E (f tree)) :
    Keeps (OfStore J) E (Eval.parseProgram source filename known >>= f) := by
  unfold Eval.parseProgram
  simp only [bind_assoc]
  refine Keeps.get fun m _ => ?_
  cases h : Syntax.parseProgram source filename known (if m.debug then 1 else m.nextTemporary) with
  | error e => exact fun m hm => ⟨hm, hE e (failsOnly_parseProgram _ _ _ _ e h)⟩
  | ok r =>
    obtain ⟨tree, next⟩ := r
    have htree : tree.Proper := Syntax.proper_of_parseProgram h
    split
    · show Keeps _ _ ((Eval.trace (parsedNote tree filename) >>= fun _ => pure tree) >>= f)
      rw [bind_assoc]
      exact (keeps_trace_ofStore _).bind fun _ => hf tree htree
    · exact fun m hm => hf tree htree { m with nextTemporary := next } hm

theorem keeps_traceNode_ofStore {node : Syntax.Node} : Keeps (OfStore J) Regular (Eval.traceNode node) := by
  unfold Eval.traceNode
  split
  · exact Keeps.pure _
  · exact Keeps.pure _
  · refine Keeps.get fun m _ => ?_
    simp only
    split
    · split
      · exact (Keeps.throw trivial).bind fun _ => keeps_trace_ofStore _
      · exact keeps_trace_ofStore _
    · exact Keeps.pure _

end

namespace KeptByRuns

variable {α : Type} {J : Store → Prop}

theorem of_changes (laws : KeptByRuns J) {s s' : Store} (h : s.Changes s') (hs : J s) : J s' := by
  induction h with
  | refl => exact hs
  | tail _ hlast ih => exact laws.changed ih hlast

theorem keeps_onStore (laws : KeptByRuns J) {step : StoreM α} (h : ∀ s : Store, Keeps s.Changes Impersonal step) :
    Keeps (OfStore J) Impersonal (Eval.onStore step) :=
  Keeps.onStore fun s hs => (h s s .refl).imp (fun _ hs' => laws.of_changes hs' hs) fun _ he => he

theorem builtins (laws : KeptByRuns J) : KeptByBuiltins (OfStore J) Impersonal where
  fails _ he := he
  emit := keeps_emit_ofStore
  trace := keeps_trace_ofStore
  toLoad _ _ hm := hm
  newArray items := laws.keeps_onStore fun _ => keeps_newArray_changes items
  parse depth _ := keeps_parseProgram_bind (fun _ he => he) fun _ _ =>
    laws.keeps_onStore fun _ => Value.keeps_ofData_changes depth _

theorem keeps_define (laws : KeptByRuns J) {name : String} {params : List String} {body : Syntax.Node} (h : body.Proper) :
    Keeps (OfStore J) Regular (Eval.define name params body) :=
  fun _ hm => laws.defined hm h

theorem keeps_fillHash (laws : KeptByRuns J) {depth : Nat} {table : Value} {eval : Syntax.Node → Eval Value}
    {items : List Syntax.Node} (h : ∀ n ∈ items, Keeps (OfStore J) Regular (eval n)) :
    Keeps (OfStore J) Regular (Eval.fillHash depth table eval items) := by
  fun_induction Eval.fillHash depth table eval items with
  | case1 key value rest ih =>
    refine (h key (by simp)).bind fun k => (h value (by simp)).bind fun v => ?_
    have hassign := (laws.keeps_onStore fun _ => Value.keeps_assign_changes depth table k v).mono fun _ he => he.regular
    exact hassign.bind fun _ => ih fun n hn => h n (by simp [hn])
  | case2 => exact Keeps.pure _

theorem keeps_call (laws : KeptByRuns J) {depth : Nat} {eval : Syntax.Node → Eval Value}
    (heval : ∀ n : Syntax.Node, n.Proper → Keeps (OfStore J) Regular (eval n)) (name : String)
    (args : List Value) : Keeps (OfStore J) Regular (Eval.call depth eval name args) := by
  refine Keeps.get fun m _ => ?_
  split
  · exact Keeps.throw trivial
  · exact (laws.builtins.keeps_callBuiltin _ _ _).mono fun _ he => he.regular
  · refine Keeps.get fun m hm => ?_
    split
    · exact Keeps.throw trivial
    · next p hp =>
      have hbody : p.body.Proper := laws.proper hm p (Array.mem_of_getElem? hp)
      have enter : Keeps (OfStore J) Regular (do
          Eval.trace s!"Entering frame for {name}"
          Eval.inFrame (.ofList (p.params.zip args)) (eval p.body)) :=
        (keeps_trace_ofStore _).bind fun _ => Keeps.inFrame (fun _ _ hm => hm) (heval p.body hbody)
      split
      · exact (Keeps.throw trivial).bind fun _ => enter
      · exact enter

/-- Evaluation of a proper tree keeps the property and fails in regular ways only. -/
theorem keeps_evaluate (laws : KeptByRuns J) (rounds depth : Nat) {node : Syntax.Node} (h : node.Proper) :
    Keeps (OfStore J) Regular (evaluate rounds depth node) := by
  have onStore {β : Type} {step : StoreM β} (hstep : ∀ s : Store, Keeps s.Changes Impersonal step) :
      Keeps (OfStore J) Regular (Eval.onStore step) :=
    (laws.keeps_onStore hstep).mono fun _ he => he.regular
  induction depth generalizing node with
  | zero => exact Keeps.throw trivial
  | succ depth ih =>
    unfold evaluate
    refine keeps_traceNode_ofStore.bind fun _ => ?_
    cases node with
    | lit value => exact onStore fun _ => Value.keeps_ofData_changes depth value
    | binary op left right =>
      exact (ih h.1).bind fun x => (ih h.2).bind fun y => onStore fun _ => Value.keeps_apply_changes depth op x y
    | stmts body => exact Keeps.foldlM body _ fun _ n hn => ih (Syntax.Node.properAll_iff.mp h n hn)
    | varAssign name value =>
      exact Keeps.bind (ih h.2) fun v => Keeps.bind (Keeps.modify fun m hm => hm) fun _ => Keeps.pure v
    | varRef name =>
      refine Keeps.get fun m _ => ?_
      split
      · exact Keeps.pure _
      · exact Keeps.throw trivial
    | choice test yes no =>
      refine (ih h.1).bind fun v => ?_
      split
      · exact ih h.2.1
      · exact ih h.2.2
    | loop test body =>
      exact (Keeps.whileTrue ((ih h.1).bind fun _ => Keeps.pure _) ((ih h.2).bind fun _ => Keeps.pure _) trivial
        rounds).bind fun _ => Keeps.pure _
    | loopAfter test body =>
      exact (ih h.2).bind fun _ => (Keeps.whileTrue ((ih h.1).bind fun _ => Keeps.pure _)
        ((ih h.2).bind fun _ => Keeps.pure _) trivial rounds).bind fun _ => Keeps.pure _
    | funcDef name params body => exact laws.keeps_define h.2.2
    | funcCall name args =>
      exact (Keeps.mapM args fun n hn => ih (Syntax.Node.properAll_iff.mp h.2 n hn)).bind fun vs =>
        laws.keeps_call (fun n hn => ih hn) name vs
    | aryNew items =>
      exact (Keeps.mapM items fun n hn => ih (Syntax.Node.properAll_iff.mp h n hn)).bind fun vs =>
        onStore fun _ => keeps_newArray_changes _
    | aryRef container position =>
      exact (ih h.1).bind fun c => (ih h.2).bind fun p => Keeps.get fun m _ =>
        (Keeps.lift (Value.failsOnly_fetch m.store depth c p)).mono fun _ he => he.regular
    | aryAssign container position value =>
      exact (ih h.1).bind fun c => (ih h.2.1).bind fun p => (ih h.2.2).bind fun v =>
        (onStore fun _ => Value.keeps_assign_changes depth c p v).bind fun _ => Keeps.pure v
    | hashNew items =>
      exact (onStore fun _ => keeps_newHash_changes).bind fun table =>
        (laws.keeps_fillHash fun n hn => ih (Syntax.Node.properAll_iff.mp h.2 n hn)).bind fun _ => Keeps.pure table
    | unknown tag => exact h.elim
    | scalar => exact h.elim
    | broken => exact h.elim

theorem keeps_runSource (laws : KeptByRuns J) (budget : Budget) (source filename : String) :
    Keeps (OfStore J) Regular (runSource budget source filename) :=
  Keeps.get fun _ _ => keeps_parseProgram_bind (fun _ he => he.regular) fun _ htree => laws.keeps_evaluate _ _ htree

end KeptByRuns

/-! ## Proper machines -/

theorem Store.proper_empty : Store.Proper {} := fun p hp => absurd hp (Array.not_mem_empty p)

theorem keptByRuns_proper : KeptByRuns Store.Proper where
  proper hs := hs
  changed hs h := by
    cases h <;> exact hs
  defined hs hp q hq := by
    rcases Array.mem_push.mp hq with hq | rfl
    · exact hs q hq
    · exact hp

theorem keeps_emit (text : String) : Keeps Machine.Proper Regular (Eval.emit text) := keeps_emit_ofStore text

theorem keeps_trace (line : String) : Keeps Machine.Proper Regular (Eval.trace line) := keeps_trace_ofStore line

theorem keeps_callBuiltin (depth : Nat) (name : String) (args : List Value) :
    Keeps Machine.Proper Regular (callBuiltin depth name args) :=
  (keptByRuns_proper.builtins.keeps_callBuiltin depth name args).mono fun _ he => he.regular

/-- Evaluation of a proper tree keeps the machine proper and never fails because of the tree's shape. -/
theorem keeps_evaluate (rounds depth : Nat) {node : Syntax.Node} (h : node.Proper) :
    Keeps Machine.Proper Ordinary (evaluate rounds depth node) :=
  (keptByRuns_proper.keeps_evaluate rounds depth h).mono fun _ he => he.ordinary

theorem keeps_runSource (budget : Budget) (source filename : String) :
    Keeps Machine.Proper Regular (runSource budget source filename) :=
  keptByRuns_proper.keeps_runSource budget source filename

/-! ## Sequences of runs -/

/-- The machine that a step ends in, whether it succeeds or fails. -/
def after {α : Type} (step : Eval α) (m : Machine) : Machine :=
  match step m with
  | .ok _ m => m
  | .error _ m => m

/-- The machines that parsed programs lead to. Between two runs all may change but the store and the
functions. -/
inductive Reached : Machine → Prop where
  | start (toLoad : List String) (files : Files) (debug : Bool) : Reached { toLoad, files, debug }
  | run {m : Machine} (h : Reached m) (budget : Budget) (source filename : String) :
    Reached (after (runSource budget source filename) m)
  | evaluated {m : Machine} (h : Reached m) {source filename : String} {known : List String}
    {counter next : Nat} {tree : Syntax.Node}
    (htree : Syntax.parseProgram source filename known counter = .ok (tree, next)) (budget : Budget) :
    Reached (after (evaluateIn budget tree) m)
  | between {m : Machine} (h : Reached m) (frame : Frame) (toLoad : List String) (files : Files)
    (output : List Output) (nextTemporary : Nat) (debug : Bool) :
    Reached { m with frame, toLoad, files, output, nextTemporary, debug }

theorem Upheld.after {α : Type} {I : Machine → Prop} {E : Failure → Prop} {step : Eval α} {m : Machine}
    (h : Upheld I E (step m)) : I (MinRuby.after step m) := by
  unfold MinRuby.after
  cases hr : step m with
  | ok a m' =>
    rw [hr] at h
    exact h
  | error e m' =>
    rw [hr] at h
    exact h.1

/-- A property that holds of the empty store holds of the store of every machine that parsed programs lead to. -/
theorem KeptByRuns.of_reached {J : Store → Prop} (laws : KeptByRuns J) (hempty : J {}) {m : Machine} (h : Reached m) :
    J m.store := by
  induction h with
  | start toLoad files debug => exact hempty
  | @run m _ budget source filename ih => exact (laws.keeps_runSource budget source filename m ih).after
  | @evaluated m _ _ _ _ _ _ _ htree budget ih =>
    exact (laws.keeps_evaluate budget.rounds budget.depth (Syntax.proper_of_parseProgram htree) m ih).after
  | between _ _ _ _ _ _ _ ih => exact ih

/-- Every machine that parsed programs lead to is proper. -/
theorem Reached.proper {m : Machine} (h : Reached m) : m.Proper :=
  keptByRuns_proper.of_reached Store.proper_empty h

/-- A program that parses is a tree of the core language with no mark left in it, which is read back from
its data; and from no machine that parsed programs lead to does its run meet a tree that is none. -/
theorem parsed_program_in_vocabulary {source filename : String} {known : List String} {counter next : Nat}
    {tree : Syntax.Node}
    (h : Syntax.parseProgram source filename known counter = .ok (tree, next)) :
    Syntax.IsTree tree.toData ∧ Syntax.Unmarked tree.toData ∧ Syntax.Node.ofData tree.toData = tree ∧
      ∀ m, Reached m → ∀ budget e m', evaluateIn budget tree m = .error e m' → ¬ e.OfTree := by
  have hproper : tree.Proper := Syntax.proper_of_parseProgram h
  have htree : Syntax.IsTree tree.toData := Syntax.Node.isTree_toData hproper
  refine ⟨htree, htree.unmarked, Syntax.Node.ofData_toData hproper, ?_⟩
  intro m hm budget e m' hrun
  have hkept := keeps_evaluate budget.rounds budget.depth hproper m hm.proper
  change Upheld _ _ (evaluateIn budget tree m) at hkept
  rw [hrun] at hkept
  exact hkept.2

/-- A program that redefines a builtin parses, and runs so after another program in a fresh session. -/
theorem redefinition_in_vocabulary :
    ∃ tree next, Syntax.parseProgram "def p(x)\n  x if y\nend\np(1)" Syntax.anonymous [] 1 = .ok (tree, next) ∧
      Syntax.IsTree tree.toData ∧ Syntax.Unmarked tree.toData ∧
      ∀ budget e m', evaluateIn budget tree (after (runSource budget "def y() 1 end" Syntax.anonymous) {}) =
        .error e m' → ¬ e.OfTree := by
  have hok : (Syntax.parseProgram "def p(x)\n  x if y\nend\np(1)" Syntax.anonymous [] 1).isOk = true := by
    decide +kernel
  cases hparse : Syntax.parseProgram "def p(x)\n  x if y\nend\np(1)" Syntax.anonymous [] 1 with
  | error e =>
    rw [hparse] at hok
    cases hok
  | ok r =>
    obtain ⟨tree, next⟩ := r
    have h := parsed_program_in_vocabulary hparse
    refine ⟨tree, next, rfl, h.1, h.2.1, fun budget => ?_⟩
    have hreached : Reached (after (runSource budget "def y() 1 end" Syntax.anonymous) {}) :=
      .run (.start [] {} false) budget _ _
    exact h.2.2.2 _ hreached budget

end MinRuby
