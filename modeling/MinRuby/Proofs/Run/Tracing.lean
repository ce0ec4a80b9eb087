import MinRuby.Proofs.Run.Binding
import MinRuby.Proofs.Run.Pieces

/-!
# Tracing changes nothing

A traced run does what the run does that is not traced, but for the trace that it writes. The one step that looks further is
`minruby_parse`: in a traced run each program numbers its temporaries from one, and a program that parses another one sees
the numbers. `Mutes n x` says of a step that from the machine that is not traced it does what it does from the traced one, if
the trace shows no such call. One rule for each way to put steps together carries it from the parts of a step to the step.

* `Mutes.bind`, `Mutes.inFrame`, `Mutes.onStore` — the rules.
* `mutes_evaluate` — the step lemma, by induction on the depth.
* `tracing_changes_nothing` — programs, whose temporaries differ in their numbers.
-/

namespace MinRuby

open Syntax (Node)

variable {n : Nat}

/-- The line that a traced run writes when `minruby_parse` is called. -/
def parseCall : Output := .traced "Calling builtin minruby_parse with 1 arguments\n"

/-- The machine that is not traced and has only printed; the next temporary has the number `n`. -/
def Machine.muted (n : Nat) (m : Machine) : Machine :=
  { m with output := m.output.filter Output.isPrinted, debug := false, nextTemporary := n }

/-- The outcome with another state. -/
def onState {σ α : Type} (f : σ → σ) : EStateM.Result Failure σ α → EStateM.Result Failure σ α
  | .ok a s => .ok a (f s)
  | .error e s => .error e (f s)

/-- From the traced machine the step writes on; and from the one that is not traced it does the same, if the trace shows no
call of `minruby_parse`. -/
structure MutesFrom (n : Nat) {α : Type} (x : Eval α) (m : Machine) : Prop where
  written : m.output <:+ (after x m).output
  traced : (after x m).debug = m.debug
  same : m.debug = true → parseCall ∉ (after x m).output → x (m.muted n) = onState (Machine.muted n) (x m)

/-- The same from every machine. -/
def Mutes (n : Nat) {α : Type} (x : Eval α) : Prop := ∀ m, MutesFrom n x m

namespace Mutes

variable {α β : Type}

theorem pure (a : α) : Mutes n (Pure.pure a) := fun _ => ⟨List.suffix_rfl, rfl, fun _ _ => rfl⟩

theorem throw (e : Failure) : Mutes n (MonadExcept.throw e : Eval α) := fun _ => ⟨List.suffix_rfl, rfl, fun _ _ => rfl⟩

theorem bind {x : Eval α} {f : α → Eval β} (h : Mutes n x) (hf : ∀ a, Mutes n (f a)) : Mutes n (x >>= f) := by
  intro m
  obtain ⟨hwritten, htraced, hsame⟩ := h m
  have hrun (m : Machine) : (x >>= f) m = EStateM.bind x f m := rfl
  cases hx : x m with
  | ok a m' =>
    have hmid : after x m = m' := by rw [after, hx]
    have hend : after (x >>= f) m = after (f a) m' := by rw [after_bind, hx]
    obtain ⟨hwritten', htraced', hsame'⟩ := hf a m'
    rw [hmid] at hwritten htraced hsame
    refine ⟨hend ▸ hwritten.trans hwritten', hend ▸ htraced'.trans htraced, fun hdebug hcalls => ?_⟩
    -- what the trace does not show at the end it does not show in between
    rw [hend] at hcalls
    have hfirst := hsame hdebug fun hmem => hcalls (hwritten'.mem hmem)
    rw [hrun, hrun, EStateM.bind, EStateM.bind, hfirst, hx]
    exact hsame' (htraced.trans hdebug) hcalls
  | error e m' =>
    have hmid : after x m = m' := by rw [after, hx]
    have hend : after (x >>= f) m = m' := by rw [after_bind, hx]
    rw [hmid] at hwritten htraced hsame
    refine ⟨hend ▸ hwritten, hend ▸ htraced, fun hdebug hcalls => ?_⟩
    rw [hrun, hrun, EStateM.bind, EStateM.bind, hsame hdebug (hend ▸ hcalls), hx]
    rfl

/-- What is read is the same on the machine that is not traced. -/
theorem get {f : Machine → Eval α} (hsame : ∀ m, f (m.muted n) = f m) (h : ∀ m, Mutes n (f m)) :
    Mutes n (MonadState.get >>= f) := by
  intro m
  refine ⟨(h m m).written, (h m m).traced, fun hdebug hcalls => ?_⟩
  show f (m.muted n) (m.muted n) = _
  rw [hsame]
  exact (h m m).same hdebug hcalls

theorem modify {f : Machine → Machine} (hwritten : ∀ m, m.output <:+ (f m).output) (hdebug : ∀ m, (f m).debug = m.debug)
    (h : ∀ m, f (m.muted n) = (f m).muted n) : Mutes n (modify f : Eval PUnit) :=
  fun m => ⟨hwritten m, hdebug m, fun _ _ => congrArg (EStateM.Result.ok ()) (h m)⟩

theorem mapM {γ : Type} {f : γ → Eval α} (l : List γ) (h : ∀ c ∈ l, Mutes n (f c)) : Mutes n (l.mapM f) := by
  induction l with
  | nil => exact .pure []
  | cons c l ih =>
    rw [List.mapM_cons]
    exact (h c List.mem_cons_self).bind fun b =>
      (ih fun c hc => h c (List.mem_cons_of_mem _ hc)).bind fun bs => .pure (b :: bs)

theorem forM {γ : Type} {f : γ → Eval PUnit} (l : List γ) (h : ∀ c ∈ l, Mutes n (f c)) : Mutes n (l.forM f) := by
  induction l with
  | nil => exact .pure ()
  | cons c l ih =>
    exact (h c List.mem_cons_self).bind fun _ => ih fun c hc => h c (List.mem_cons_of_mem _ hc)

theorem foldlM {γ : Type} {f : α → γ → Eval α} (l : List γ) (a : α) (h : ∀ a, ∀ c ∈ l, Mutes n (f a c)) :
    Mutes n (l.foldlM f a) := by
  induction l generalizing a with
  | nil => exact .pure a
  | cons c l ih =>
    rw [List.foldlM_cons]
    exact (h a c List.mem_cons_self).bind fun a' => ih a' fun a c hc => h a c (List.mem_cons_of_mem _ hc)

theorem lift (x : Except Failure α) : Mutes n (liftM x : Eval α) := by
  cases x with
  | ok a => exact pure a
  | error e => exact throw e

theorem liftLimit (x : Except Limit α) : Mutes n (liftM x : Eval α) := by
  cases x with
  | ok a => exact pure a
  | error e => exact throw _

theorem fail (e : RuntimeError) : Mutes n (Eval.fail e : Eval α) := throw _

theorem fail_bind (e : RuntimeError) (f : α → Eval β) : Mutes n (Eval.fail e >>= f) :=
  fun _ => ⟨List.suffix_rfl, rfl, fun _ _ => rfl⟩

theorem onStore (step : StoreM α) : Mutes n (Eval.onStore step) := by
  intro m
  have hafter : (after (Eval.onStore step) m).output = m.output ∧ (after (Eval.onStore step) m).debug = m.debug := by
    unfold after Eval.onStore
    simp only
    cases step m.store <;> exact ⟨rfl, rfl⟩
  refine ⟨hafter.1 ▸ List.suffix_rfl, hafter.2, fun _ _ => ?_⟩
  unfold Eval.onStore
  simp only [show (m.muted n).store = m.store from rfl]
  cases step m.store <;> rfl

theorem reading (read : Store → Except Limit α) : Mutes n (Eval.reading read) :=
  get (fun _ => rfl) fun m => liftLimit (read m.store)

/-- A step in a frame of its own. -/
theorem inFrame {x : Eval α} (h : Mutes n x) (f : Frame) : Mutes n (Eval.inFrame f x) := by
  intro m
  obtain ⟨hwritten, htraced, hsame⟩ := h { m with frame := f }
  have hrun (m : Machine) :
      Eval.inFrame f x m = onState (fun m' => { m' with frame := m.frame }) (x { m with frame := f }) := by
    unfold Eval.inFrame
    cases x { m with frame := f } <;> rfl
  have hafter : after (Eval.inFrame f x) m = { after x { m with frame := f } with frame := m.frame } := by
    rw [after, hrun]
    unfold after
    cases x { m with frame := f } <;> rfl
  refine ⟨by rw [hafter]; exact hwritten, by rw [hafter]; exact htraced, fun hdebug hcalls => ?_⟩
  rw [hafter] at hcalls
  have hmuted : x { m.muted n with frame := f } = onState (Machine.muted n) (x { m with frame := f }) := hsame hdebug hcalls
  rw [hrun, hrun, hmuted]
  cases x { m with frame := f } <;> rfl

theorem emit (text : String) : Mutes n (Eval.emit text) :=
  .modify (f := fun m => { m with output := .printed text :: m.output }) (fun _ => List.suffix_cons _ _) (fun _ => rfl)
    fun _ => rfl

theorem whileTrue {test : Eval Bool} {body : Eval Unit} (ht : Mutes n test) (hb : Mutes n body) (rounds : Nat) :
    Mutes n (Eval.whileTrue test body rounds) := by
  induction rounds with
  | zero => exact throw _
  | succ rounds ih =>
    refine ht.bind fun b => ?_
    cases b with
    | false => exact pure ()
    | true => exact hb.bind fun _ => ih

/-- A step that the trace shows to call `minruby_parse`. -/
theorem of_parseCall {x : Eval α} (h : ∀ m, Keeps (SameNames m) Nameless x)
    (hcall : ∀ m, m.debug = true → parseCall ∈ (after x m).output) : Mutes n x := by
  intro m
  have hkept : SameNames m (after x m) := (h m m (.refl m)).after
  exact ⟨hkept.written, hkept.debug_eq, fun hdebug hcalls => absurd (hcall m hdebug) hcalls⟩

end Mutes

/-- What is traced is left out on the machine that is not traced. -/
theorem mutes_trace (line : String) : Mutes n (Eval.trace line) := by
  intro m
  have hrun (m : Machine) : Eval.trace line m = (if m.debug = true then
    (modify fun m => { m with output := .traced (line ++ "\n") :: m.output } : Eval PUnit) else pure ()) m := rfl
  by_cases hdebug : m.debug = true
  · have hline : Eval.trace line m = .ok () { m with output := .traced (line ++ "\n") :: m.output } := by
      rw [hrun, if_pos hdebug]
      rfl
    have hafter : after (Eval.trace line) m = { m with output := .traced (line ++ "\n") :: m.output } := by rw [after, hline]
    refine ⟨by rw [hafter]; exact List.suffix_cons _ _, by rw [hafter], fun _ _ => ?_⟩
    rw [hline]
    rfl
  · have hafter : after (Eval.trace line) m = m := by
      rw [after, hrun, if_neg hdebug]
      rfl
    exact ⟨hafter.symm ▸ List.suffix_rfl, by rw [hafter], fun h => absurd h hdebug⟩

/-! ## Builtins -/

namespace Builtin

theorem mutes_runP (depth : Nat) (args : List Value) : Mutes n (runP depth args) := by
  refine (Mutes.forM args fun v _ => (Mutes.reading _).bind fun _ => .emit _).bind fun _ => ?_
  split
  · exact .pure _
  · exact .pure _
  · exact .onStore _

theorem mutes_runPrint (depth : Nat) (args : List Value) : Mutes n (runPrint depth args) :=
  (Mutes.reading _).bind fun _ => (Mutes.emit _).bind fun _ => .pure _

theorem mutes_runPuts (depth : Nat) (args : List Value) : Mutes n (runPuts depth args) := by
  have lines : Mutes n (do
      args.forM fun v => do
        (← Eval.reading (v.displayLines · depth)).forM fun line => Eval.emit (asLine line)
      return Value.nil) := by
    refine (Mutes.forM args fun v _ => ?_).bind fun _ => .pure _
    exact (Mutes.reading _).bind fun _ => .forM _ fun _ _ => .emit _
  unfold runPuts
  split
  · exact (Mutes.emit _).bind fun _ => lines
  · exact lines

theorem mutes_runRequire (name : Value) : Mutes n (runRequire name) := by
  unfold runRequire
  split
  · split
    · exact .pure _
    · exact .fail _
  · exact .fail _

theorem mutes_runLoad : Mutes n runLoad := by
  refine .get (fun _ => rfl) fun m => ?_
  split
  · exact .fail _
  · next path rest _ =>
    have htake := Mutes.modify (n := n) (f := fun m => { m with toLoad := rest }) (fun _ => List.suffix_rfl) (fun _ => rfl)
      fun _ => rfl
    refine htake.bind fun _ => .get (fun _ => rfl) fun m => ?_
    split
    · exact .pure _
    · exact .fail _

theorem mutes_runCall {call : String → List Value → Eval Value} (hcall : ∀ name args, Mutes n (call name args))
    (name args : Value) : Mutes n (runCall call name args) := by
  unfold runCall
  split
  · exact .get (fun _ => rfl) fun m => hcall _ _
  · exact .fail _
  · exact .fail _

theorem mutes_run {call : String → List Value → Eval Value} (hcall : ∀ name args, Mutes n (call name args)) {b : Builtin}
    (hb : b ≠ .parse) (depth : Nat) (args : List Value) : Mutes n (b.run depth call args) := by
  unfold run
  split
  · exact mutes_runP depth _
  · exact mutes_runPrint depth _
  · exact mutes_runPuts depth _
  · exact mutes_runRequire _
  · exact mutes_runLoad
  · exact absurd rfl hb
  · exact mutes_runCall hcall _ _
  · exact .fail _

theorem name_of_ofName? {name : String} {b : Builtin} (h : ofName? name = some b) : b.name = name := by
  have hfound := List.find?_some (show all.find? (·.name == name) = some b from h)
  exact eq_of_beq hfound

end Builtin

/-- A call of `minruby_parse` shows in the trace. -/
theorem mutes_parseCall (depth : Nat) {args : List Value} (hlength : args.length = 1) : Mutes n (do
    Eval.trace s!"Calling builtin {Builtin.parse.name} with {args.length} arguments"
    Builtin.parse.run depth (callBuiltin depth) args) := by
  have hrun (m : Machine) : Keeps (SameNames m) Nameless (Builtin.parse.run depth (callBuiltin depth) args) :=
    keptByBuiltins_sameNames.keeps_run (keeps_callBuiltin_sameNames depth) .parse depth args
  refine .of_parseCall (fun m => (keeps_trace_sameNames _).bind fun _ => hrun m) fun m hdebug => ?_
  rw [after, run_trace_bind, if_pos hdebug]
  refine (((hrun _) _ (.refl _)).after).written.mem ?_
  rw [hlength]
  exact List.mem_cons_self

theorem mutes_callBuiltin (depth : Nat) (name : String) (args : List Value) : Mutes n (callBuiltin depth name args) := by
  induction depth generalizing name args with
  | zero => exact .throw _
  | succ depth ih =>
    unfold callBuiltin
    split
    · exact .fail _
    · next b hb =>
      by_cases hparse : b = .parse
      · subst hparse
        obtain rfl := Builtin.name_of_ofName? hb
        show Mutes n (if args.length ≠ 1 then _ else _)
        split
        · exact .fail_bind _ _
        · next hlength => exact mutes_parseCall depth (not_not.mp hlength)
      · have rest := (mutes_trace (n := n) s!"Calling builtin {name} with {args.length} arguments").bind
          fun _ => Builtin.mutes_run ih hparse depth args
        split
        · split
          · exact (Mutes.fail _).bind fun _ => rest
          · exact rest
        · exact rest

/-! ## Trees -/

theorem mutes_fillHash {depth : Nat} {table : Value} {eval : Node → Eval Value} :
    ∀ {items : List Node}, (∀ c ∈ items, Mutes n (eval c)) → Mutes n (Eval.fillHash depth table eval items)
  | [], _ => .pure ()
  | [_], _ => .pure ()
  | key :: value :: rest, heval => by
    have hkey := heval key (by simp)
    have hvalue := heval value (by simp)
    refine hkey.bind fun k => hvalue.bind fun v => ?_
    exact (Mutes.onStore _).bind fun _ => mutes_fillHash fun c hc => heval c (by simp [hc])

theorem mutes_define (name : String) (params : List String) (body : Node) : Mutes n (Eval.define name params body) := by
  refine (Mutes.onStore _).bind fun a => Mutes.bind ?_ fun _ => .pure _
  exact Mutes.modify (f := fun m => { m with functions := m.functions.insert name (.procedure a) }) (fun _ => List.suffix_rfl)
    (fun _ => rfl) fun _ => rfl

theorem mutes_call {depth : Nat} {eval : Node → Eval Value} (heval : ∀ body, Mutes n (eval body)) (name : String)
    (args : List Value) : Mutes n (Eval.call depth eval name args) := by
  refine .get (fun _ => rfl) fun m => ?_
  split
  · exact .fail _
  · exact mutes_callBuiltin _ _ _
  · refine .get (fun _ => rfl) fun m => ?_
    split
    · exact .fail _
    · next q _ =>
      have enter := (mutes_trace (n := n) s!"Entering frame for {name}").bind fun _ =>
        (heval q.body).inFrame (.ofList (q.params.zip args))
      split
      · exact (Mutes.fail _).bind fun _ => enter
      · exact enter

/-- A tag that can be written leaves its text in the trace. -/
theorem mutes_traceNode {node : Node} (h : node.tag.hasLongNumeral = false) : Mutes n (Eval.traceNode node) := by
  have htrace : Eval.traceNode node = pure () ∨ Eval.traceNode node = Eval.trace ("Evaluating: " ++ node.tag.bareText) := by
    unfold Eval.traceNode
    split
    · exact .inl rfl
    · exact .inl rfl
    · refine .inr ?_
      funext m
      show (if m.debug = true then (if node.tag.hasLongNumeral = true then _ else Eval.trace _) else pure () : Eval Unit) m = _
      rw [h, if_neg Bool.false_ne_true]
      by_cases hdebug : m.debug = true
      · rw [if_pos hdebug]
      · show _ = (if m.debug = true then (_ : Eval Unit) else pure ()) m
        rw [if_neg hdebug, if_neg hdebug]
  rcases htrace with htrace | htrace
  · exact htrace ▸ .pure ()
  · exact htrace ▸ mutes_trace _

/-- A tag that cannot be written fails in one way, whether the trace or the message of its failure is to name it. -/
theorem evaluate_unknown_of_long (rounds depth : Nat) {tag : Data} (h : tag.hasLongNumeral = true) :
    evaluate rounds (depth + 1) (.unknown tag) = throw (.limit .numeral) := by
  have hwritten : tag.written = .error .numeral := if_pos h
  have htrace (m : Machine) : Eval.traceNode (.unknown tag) m =
      (if m.debug = true then throw (.limit .numeral) else pure () : Eval Unit) m := by
    show (if m.debug = true then (if tag.hasLongNumeral = true then (do throw (.limit .numeral); _) else _)
      else pure () : Eval Unit) m = _
    rw [if_pos h]
    by_cases hdebug : m.debug = true
    · rw [if_pos hdebug, if_pos hdebug]
      rfl
    · rw [if_neg hdebug, if_neg hdebug]
  funext m
  show EStateM.bind (Eval.traceNode (.unknown tag)) (fun _ => do
    let shown ← (tag.written : Except Limit String)
    Eval.fail (.unknownTag shown tag.bareText)) m = _
  rw [hwritten, EStateM.bind, htrace]
  by_cases hdebug : m.debug = true
  · rw [if_pos hdebug]
    rfl
  · rw [if_neg hdebug]
    rfl

/-- A traced tree does what the tree does that is not traced. -/
theorem mutes_evaluate (rounds depth : Nat) (node : Node) : Mutes n (evaluate rounds depth node) := by
  induction depth generalizing node with
  | zero => exact .throw _
  | succ depth ih =>
    have test (t : Node) : Mutes n (do return (← evaluate rounds depth t).truthy) := (ih t).bind fun _ => .pure _
    have body (b : Node) : Mutes n (do let _ ← evaluate rounds depth b) := (ih b).bind fun _ => .pure _
    have trace {node : Node} (h : node.tag.hasLongNumeral = false) : Mutes n (Eval.traceNode node) := mutes_traceNode h
    unfold evaluate
    cases node with
    | lit value => exact (trace rfl).bind fun _ => .onStore _
    | binary op left right => exact (trace rfl).bind fun _ => (ih left).bind fun x => (ih right).bind fun y => .onStore _
    | stmts ns => exact (trace rfl).bind fun _ => .foldlM ns _ fun _ c _ => ih c
    | varAssign x value =>
      refine (trace rfl).bind fun _ => (ih value).bind fun v => Mutes.bind ?_ fun _ => .pure v
      exact Mutes.modify (f := fun m => { m with frame := m.frame.insert x v }) (fun _ => List.suffix_rfl) (fun _ => rfl)
        fun _ => rfl
    | varRef x =>
      refine (trace rfl).bind fun _ => .get (fun _ => rfl) fun m => ?_
      split
      · exact .pure _
      · exact .fail _
    | choice t yes no =>
      refine (trace rfl).bind fun _ => (ih t).bind fun v => ?_
      split
      · exact ih yes
      · exact ih no
    | loop t b => exact (trace rfl).bind fun _ => (Mutes.whileTrue (test t) (body b) rounds).bind fun _ => .pure _
    | loopAfter t b =>
      exact (trace rfl).bind fun _ => (ih b).bind fun _ => (Mutes.whileTrue (test t) (body b) rounds).bind fun _ => .pure _
    | funcDef name params b => exact (trace rfl).bind fun _ => mutes_define name params b
    | funcCall name args =>
      exact (trace rfl).bind fun _ => (Mutes.mapM args fun c _ => ih c).bind fun vs => mutes_call ih name vs
    | aryNew items => exact (trace rfl).bind fun _ => (Mutes.mapM items fun c _ => ih c).bind fun vs => .onStore _
    | aryRef container position =>
      exact (trace rfl).bind fun _ => (ih container).bind fun c => (ih position).bind fun p =>
        .get (fun _ => rfl) fun m => .lift _
    | aryAssign container position value =>
      exact (trace rfl).bind fun _ => (ih container).bind fun c => (ih position).bind fun p => (ih value).bind fun v =>
        (Mutes.onStore _).bind fun _ => .pure v
    | hashNew items =>
      exact (trace rfl).bind fun _ => (Mutes.onStore _).bind fun table =>
        (mutes_fillHash fun c _ => ih c).bind fun _ => .pure table
    | unknown tag =>
      cases hlong : tag.hasLongNumeral with
      | false =>
        have htrace : Mutes n (Eval.traceNode (.unknown tag)) := mutes_traceNode hlong
        exact htrace.bind fun _ => (Mutes.liftLimit _).bind fun _ => .fail _
      | true =>
        have hfails := evaluate_unknown_of_long rounds depth hlong
        unfold evaluate at hfails
        exact hfails ▸ .throw _
    | scalar => exact (Mutes.pure ()).bind fun _ => .throw _
    | broken => exact (Mutes.pure ()).bind fun _ => .throw _

/-! ## Programs -/

/-- The second machine is what the first one is without its trace, the variables with other names. -/
structure Untraced (ρ : String → String) (m m' : Machine) : Prop where
  output : m'.output = m.output.filter Output.isPrinted
  functions : m'.functions = m.functions
  store : m'.store = m.store.rename ρ
  frame : m'.frame = renameFrame ρ m.frame
  toLoad : m'.toLoad = m.toLoad

/-- A run that never calls `minruby_parse` ends in the same value or failure whether it is traced or not, has printed the same
and leaves the same variables, functions and containers, up to the numbers of temporaries: the trace is all that it writes
besides. -/
theorem tracing_changes_nothing (budget : Budget) (source filename : String) (toLoad : List String) (files : Files) (j k : Nat)
    (hcalls : parseCall ∉
      (after (runSource budget source filename) { toLoad, files, nextTemporary := j, debug := true }).output) :
    Matched (Untraced (Syntax.renumber 1 (k + 1)))
      (runSource budget source filename { toLoad, files, nextTemporary := j, debug := true })
      (runSource budget source filename { toLoad, files, nextTemporary := k + 1 }) := by
  have hrun (m : Machine) : runSource budget source filename m =
    EStateM.bind (Eval.parseProgram source filename m.frame.keys) (evaluateIn budget) m := rfl
  cases hread : Syntax.readProgram source filename with
  | error e =>
    have hparse (m : Machine) : runSource budget source filename m = .error e m := by
      rw [hrun, EStateM.bind, parseProgram_of_error hread]
    rw [hparse, hparse]
    refine ⟨rfl, ⟨rfl, rfl, ?_, rfl, rfl⟩⟩
    exact congrArg Machine.store (moved_fresh (Syntax.renumber 1 (k + 1)) toLoad files (k + 1) false).symm
  | ok t =>
    obtain ⟨ts, -, rfl, -⟩ := Syntax.readProgram_eq_ok_iff.mp hread
    have hwords := Syntax.isIdentifier_of_readProgram hread
    let first := Syntax.compile ts [] 1
    let next := Syntax.compile ts [] (k + 1)
    let start : Machine :=
      { toLoad, files, nextTemporary := j, debug := true, output := [.traced (parsedNote (.stmts first.1) filename ++ "\n")] }
    have htraced : runSource budget source filename { toLoad, files, nextTemporary := j, debug := true } =
        evaluateIn budget (.stmts first.1) start := by
      rw [hrun, EStateM.bind, parseProgram_of_traced hread rfl, run_trace_bind]
      rfl
    have huntraced : runSource budget source filename { toLoad, files, nextTemporary := k + 1 } =
        evaluateIn budget (.stmts next.1) { toLoad, files, nextTemporary := next.2.2 } := runSource_of_readProgram hread rfl
    have htrees : next.1 = first.1.map (Node.rename (Syntax.renumber 1 (k + 1))) :=
      (Syntax.compile_renumber hwords (.refl []) 1 (k + 1)).1
    rw [after, htraced] at hcalls
    have hmuted : evaluateIn budget (.stmts first.1) { toLoad, files, nextTemporary := next.2.2 } =
        onState (Machine.muted next.2.2) (evaluateIn budget (.stmts first.1) start) :=
      (mutes_evaluate budget.rounds budget.depth (.stmts first.1) start).same rfl hcalls
    have hrenamed := evaluateIn_map_rename (Syntax.renumber_injective (Nat.le_add_left 1 k)) budget first.1
      (moved_fresh _ toLoad files next.2.2 false)
    rw [htraced, huntraced, htrees, hrenamed, hmuted]
    have hreached : Reached start := .between (.start toLoad files true) .empty toLoad files start.output j true
    have hparse : Syntax.parseProgram source filename [] 1 = .ok (.stmts first.1, first.2.2) :=
      Syntax.parseProgram_of_readProgram hread
    cases hend : evaluateIn budget (.stmts first.1) start with
    | ok v m => exact ⟨rfl, rfl, rfl, rfl, rfl, rfl⟩
    | error e m =>
      refine ⟨(Failure.rename_eq_self fun x hx => ?_).symm, rfl, rfl, rfl, rfl, rfl⟩
      -- a name in the failure is one that the program has written
      have hidentifier := isIdentifier_of_unbound hparse hreached (hx ▸ hend)
      exact Syntax.renumber_of_not_isTemporary (fun h => Syntax.not_isIdentifier_of_isTemporary h hidentifier) 1 (k + 1)

/-- A function with two temporaries, which are numbered from one in the traced run and from five in the other one. -/
theorem function_traced_alike :
    let source := "def f(a)\n  a && 2 || 3\nend\np(f(1))"
    parseCall ∉ (after (runSource ⟨20, 0⟩ source Syntax.anonymous) { debug := true }).output ∧
      Matched (Untraced (Syntax.renumber 1 5)) (runSource ⟨20, 0⟩ source Syntax.anonymous { debug := true })
        (runSource ⟨20, 0⟩ source Syntax.anonymous { nextTemporary := 5 }) := by
  intro source
  have hcalls : parseCall ∉ (after (runSource ⟨20, 0⟩ source Syntax.anonymous) { debug := true }).output := by decide +kernel
  exact ⟨hcalls, tracing_changes_nothing ⟨20, 0⟩ source Syntax.anonymous [] {} 1 4 hcalls⟩

end MinRuby
