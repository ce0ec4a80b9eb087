import MinRuby.Proofs.Run.Renaming

/-!
# The course of a run

What a run does, one deed after the other. A deed loads a program file, or it changes something else in the machine. The
`Course` of a step lists its deeds from every machine, and holds the proof that they lead from there to the machine that the
step ends in, also if it fails. Its type names the step, so it is the course of that step and of no other one.

* `Course.bind`, `Course.inFrame`, `Course.whileTrue` — one rule for each way to put steps together.
* `Course.callBuiltin`, `Course.evaluate`, `Course.runSource` — builtins, trees and programs.
-/

namespace MinRuby

open Syntax (Node)

/-! ## Deeds -/

/-- What is done at one point of a run. -/
inductive Deed where
  /-- The builtin that loads a program file is run on the machine. -/
  | load (m : Machine)
  /-- Something else takes the first machine to the second one. -/
  | other (m m' : Machine)

namespace Deed

/-- The machine on which a deed is done. -/
def before : Deed → Machine
  | load m => m
  | other m _ => m

/-- The machine that a deed leaves. -/
def after : Deed → Machine
  | load m => MinRuby.after Builtin.runLoad m
  | other _ m' => m'

end Deed

/-- The deeds lead from the first machine to the second one: each is done on the machine that the one before it has left, and
none but a load touches the paths that are left to load. -/
inductive Leads : Machine → List Deed → Machine → Prop where
  | nil (m : Machine) : Leads m [] m
  | load {m m' : Machine} {deeds : List Deed} (h : Leads (after Builtin.runLoad m) deeds m') :
    Leads m (.load m :: deeds) m'
  | other {m m₁ m' : Machine} {deeds : List Deed} (htoLoad : m₁.toLoad = m.toLoad) (h : Leads m₁ deeds m') :
    Leads m (.other m m₁ :: deeds) m'

theorem Leads.append {m m₁ m' : Machine} {deeds deeds' : List Deed} (h : Leads m deeds m₁) (h' : Leads m₁ deeds' m') :
    Leads m (deeds ++ deeds') m' := by
  induction h with
  | nil => exact h'
  | load _ ih => exact .load (ih h')
  | other htoLoad _ ih => exact .other htoLoad (ih h')

/-- The deeds of a step from every machine, which lead to where the step ends. -/
structure Course {α : Type} (step : Eval α) where
  deeds : Machine → List Deed
  leads : ∀ m, Leads m (deeds m) (after step m)

namespace Course

/-! ## Steps put together -/

section

variable {α β : Type}

/-- A step that changes nothing does nothing. -/
def idle {x : Eval α} (h : ∀ m, after x m = m) : Course x where
  deeds _ := []
  leads m := by
    rw [h]
    exact .nil m

/-- A step that is one deed and loads no file. -/
def deed {x : Eval α} (h : ∀ m, (after x m).toLoad = m.toLoad) : Course x where
  deeds m := [.other m (after x m)]
  leads m := .other (h m) (.nil _)

/-- A course of a step is one of any other step that is the same. -/
def congr {x y : Eval α} (cx : Course x) (h : y = x) : Course y where
  deeds := cx.deeds
  leads := h ▸ cx.leads

def pure (a : α) : Course (Pure.pure a) := idle fun _ => rfl

def throw (e : Failure) : Course (MonadExcept.throw e : Eval α) := idle fun _ => rfl

def fail (e : RuntimeError) : Course (Eval.fail e : Eval α) := throw _

def lift (x : Except Failure α) : Course (liftM x : Eval α) :=
  idle fun m => by cases x <;> rfl

def liftLimit (x : Except Limit α) : Course (liftM x : Eval α) :=
  idle fun m => by cases x <;> rfl

/-- The deeds of the first step, and if it succeeds those of the second one from the machine that the first one has left. -/
def bind {x : Eval α} {f : α → Eval β} (cx : Course x) (cf : ∀ a, Course (f a)) : Course (x >>= f) where
  deeds m :=
    cx.deeds m ++
      match x m with
      | .ok a m' => (cf a).deeds m'
      | .error _ _ => []
  leads m := by
    have hx := cx.leads m
    rw [after_bind]
    cases hr : x m with
    | ok a m' =>
      rw [after, hr] at hx
      exact hx.append ((cf a).leads m')
    | error e m' =>
      rw [after, hr] at hx
      rw [List.append_nil]
      exact hx

def get {f : Machine → Eval α} (cf : ∀ m, Course (f m)) : Course (MonadState.get >>= f) where
  deeds m := (cf m).deeds m
  leads m := (cf m).leads m

def ite {c : Prop} [Decidable c] {x y : Eval α} (cx : Course x) (cy : Course y) : Course (if c then x else y) where
  deeds m := if c then cx.deeds m else cy.deeds m
  leads m := by
    split
    · exact cx.leads m
    · exact cy.leads m

def forM {f : β → Eval PUnit} (cf : ∀ b, Course (f b)) : (l : List β) → Course (l.forM f)
  | [] => pure _
  | b :: l => (cf b).bind fun _ => forM cf l

def foldlM {f : α → β → Eval α} (cf : ∀ a b, Course (f a b)) : (a : α) → (l : List β) → Course (l.foldlM f a)
  | a, [] => pure a
  | a, b :: l => (cf a b).bind fun a' => foldlM cf a' l

/-- The values of the items read so far are kept the latest first. -/
def mapMLoop {f : β → Eval α} (cf : ∀ b, Course (f b)) : (l : List β) → (found : List α) → Course (List.mapM.loop f l found)
  | [], _ => pure _
  | b :: l, found => (cf b).bind fun a => mapMLoop cf l (a :: found)

def mapM {f : β → Eval α} (cf : ∀ b, Course (f b)) (l : List β) : Course (l.mapM f) := mapMLoop cf l []

/-! ## Steps of the machine -/

def onStore (step : StoreM α) : Course (Eval.onStore step) :=
  deed fun m => by
    unfold after Eval.onStore
    simp only
    cases step m.store <;> rfl

def reading (read : Store → Except Limit α) : Course (Eval.reading read) := get fun m => liftLimit (read m.store)

def emit (text : String) : Course (Eval.emit text) := deed fun _ => rfl

def trace (line : String) : Course (Eval.trace line) := get fun _ => ite (deed fun _ => rfl) (pure _)

/-- The frame is set before the step and set back after it. -/
def inFrame (frame : Frame) {x : Eval α} (cx : Course x) : Course (Eval.inFrame frame x) where
  deeds m :=
    let m₁ := { m with frame }
    let m₂ := MinRuby.after x m₁
    .other m m₁ :: (cx.deeds m₁ ++ [.other m₂ { m₂ with frame := m.frame }])
  leads m := by
    have hleft : after (Eval.inFrame frame x) m = { after x { m with frame } with frame := m.frame } := by
      unfold after Eval.inFrame
      cases x { m with frame } <;> rfl
    rw [hleft]
    exact .other rfl ((cx.leads _).append (.other rfl (.nil _)))

def whileTrue {test : Eval Bool} {body : Eval Unit} (ct : Course test) (cb : Course body) :
    (rounds : Nat) → Course (Eval.whileTrue test body rounds)
  | 0 => throw _
  | rounds + 1 => ct.bind fun _ => ite (cb.bind fun _ => whileTrue ct cb rounds) (pure _)

end

/-! ## Builtins -/

section

variable (depth : Nat)

def parseProgram (source filename : String) (known : List String) : Course (Eval.parseProgram source filename known) :=
  get fun _ => (lift _).bind fun (_, _) =>
    ite ((trace _).bind fun _ => pure _) (Course.bind (deed fun _ => rfl) fun _ => pure _)

def runP (args : List Value) : Course (Builtin.runP depth args) :=
  (forM (fun _ => (reading _).bind fun _ => emit _) args).bind fun _ =>
    match args with
    | [] => pure _
    | [_] => pure _
    | _ :: _ :: _ => onStore _

def runPrint (args : List Value) : Course (Builtin.runPrint depth args) :=
  (reading _).bind fun _ => (emit _).bind fun _ => pure _

def runPuts (args : List Value) : Course (Builtin.runPuts depth args) :=
  let lines (v : Value) := (reading (v.displayLines · depth)).bind fun ls => forM (fun l => emit (Builtin.asLine l)) ls
  ite ((emit _).bind fun _ => (forM lines args).bind fun _ => pure _) ((forM lines args).bind fun _ => pure _)

def runRequire (name : Value) : Course (Builtin.runRequire name) :=
  match name with
  | .str _ => ite (pure _) (fail _)
  | .nil | .bool _ | .int _ | .float _ | .array _ | .hash _ | .procedure _ => fail _

/-- Loading a file is one deed. -/
def runLoad : Course Builtin.runLoad where
  deeds m := [.load m]
  leads _ := .load (.nil _)

def runParse (source : Value) : Course (Builtin.runParse depth source) :=
  match source with
  | .str _ => (parseProgram _ _ _).bind fun _ => onStore _
  | .nil | .bool _ | .int _ | .float _ | .array _ | .hash _ | .procedure _ => fail _

def runCall {call : String → List Value → Eval Value} (ccall : ∀ name args, Course (call name args)) (name args : Value) :
    Course (Builtin.runCall call name args) :=
  match name, args with
  | .str _, .array _ => get fun _ => ccall _ _
  | .str _, .nil | .str _, .bool _ | .str _, .int _ | .str _, .float _ | .str _, .str _ | .str _, .hash _
  | .str _, .procedure _ => fail _
  | .nil, _ | .bool _, _ | .int _, _ | .float _, _ | .array _, _ | .hash _, _ | .procedure _, _ => fail _

def runBuiltin {call : String → List Value → Eval Value} (ccall : ∀ name args, Course (call name args)) (b : Builtin)
    (args : List Value) : Course (b.run depth call args) :=
  match b, args with
  | .p, args => runP depth args
  | .print, args => runPrint depth args
  | .puts, args => runPuts depth args
  | .require, name :: _ => runRequire name
  | .load, _ => runLoad
  | .parse, source :: _ => runParse depth source
  | .call, name :: args :: _ => runCall ccall name args
  | .require, [] | .parse, [] | .call, [] | .call, [_] => fail _

end

theorem callBuiltin_of_unknown {depth : Nat} {name : String} (h : Builtin.ofName? name = none) (args : List Value) :
    MinRuby.callBuiltin (depth + 1) name args = Eval.fail (.unknownBuiltin name) := by
  rw [MinRuby.callBuiltin, h]

/-- A builtin is run if it gets as many arguments as it takes. -/
theorem callBuiltin_of_ofName? {depth : Nat} {name : String} {b : Builtin} (h : Builtin.ofName? name = some b)
    (args : List Value) :
    MinRuby.callBuiltin (depth + 1) name args =
      if ∀ arity ∈ b.arity?, args.length = arity then do
        Eval.trace s!"Calling builtin {name} with {args.length} arguments"
        b.run depth (MinRuby.callBuiltin depth) args
      else Eval.fail (.wrongBuiltinArguments name args.length (b.arity?.getD 0)) := by
  rw [MinRuby.callBuiltin, h]
  simp only
  cases b.arity? with
  | none => simp
  | some arity =>
    by_cases harity : args.length = arity
    · simp [harity]
    · simp only [ne_eq, harity, not_false_eq_true, if_true, Option.mem_some_iff, forall_eq', if_false, Option.getD_some]
      rfl

def callBuiltin : (depth : Nat) → (name : String) → (args : List Value) → Course (MinRuby.callBuiltin depth name args)
  | 0, _, _ => throw _
  | depth + 1, name, args =>
    match h : Builtin.ofName? name with
    | none => (fail _).congr (callBuiltin_of_unknown h args)
    | some b =>
      (ite ((trace _).bind fun _ => runBuiltin depth (callBuiltin depth) b args) (fail _)).congr
        (callBuiltin_of_ofName? h args)

/-! ## Trees -/

def traceNode (node : Node) : Course (Eval.traceNode node) :=
  match node with
  | .scalar | .broken => pure _
  | .lit .. | .binary .. | .stmts .. | .varAssign .. | .varRef .. | .choice .. | .loop .. | .loopAfter .. | .funcDef ..
  | .funcCall .. | .aryNew .. | .aryRef .. | .aryAssign .. | .hashNew .. | .unknown .. =>
    get fun _ => ite (ite ((throw _).bind fun _ => trace _) (trace _)) (pure _)

def define (name : String) (params : List String) (body : Node) : Course (Eval.define name params body) :=
  (onStore _).bind fun _ => Course.bind (deed fun _ => rfl) fun _ => pure _

section

variable {eval : Node → Eval Value} (ceval : ∀ node, Course (eval node)) (depth : Nat)

def fillHash (table : Value) : (items : List Node) → Course (Eval.fillHash depth table eval items)
  | key :: value :: rest =>
    (ceval key).bind fun _ => (ceval value).bind fun _ => (onStore _).bind fun _ => fillHash table rest
  | [] | [_] => pure _

def call (name : String) (args : List Value) : Course (Eval.call depth eval name args) :=
  get fun m =>
    match m.functions.find? name with
    | none => fail _
    | some (.builtin b) => callBuiltin depth b.name args
    | some (.procedure a) => get fun m =>
      match m.store.procedure? a with
      | none => fail _
      | some procedure =>
        let body := (trace s!"Entering frame for {name}").bind fun _ =>
          inFrame (.ofList (procedure.params.zip args)) (ceval procedure.body)
        ite ((fail _).bind fun _ => body) body

end

def evaluate (rounds : Nat) : (depth : Nat) → (node : Node) → Course (MinRuby.evaluate rounds depth node)
  | 0, _ => throw _
  | depth + 1, node =>
    let truth (test : Node) : Course (do return (← MinRuby.evaluate rounds depth test).truthy : Eval Bool) :=
      (evaluate rounds depth test).bind fun _ => pure _
    let round (body : Node) : Course (do let _ ← MinRuby.evaluate rounds depth body : Eval Unit) :=
      (evaluate rounds depth body).bind fun _ => pure _
    (traceNode node).bind fun _ =>
      match node with
      | .lit _ => onStore _
      | .binary _ left right =>
        (evaluate rounds depth left).bind fun _ => (evaluate rounds depth right).bind fun _ => onStore _
      | .stmts body => foldlM (fun _ n => evaluate rounds depth n) _ body
      | .varAssign _ value =>
        (evaluate rounds depth value).bind fun _ => Course.bind (deed fun _ => rfl) fun _ => pure _
      | .varRef name => get fun m =>
        match m.frame.find? name with
        | some _ => pure _
        | none => fail _
      | .choice test yes no =>
        (evaluate rounds depth test).bind fun _ => ite (evaluate rounds depth yes) (evaluate rounds depth no)
      | .loop test body => (whileTrue (truth test) (round body) rounds).bind fun _ => pure _
      | .loopAfter test body =>
        (evaluate rounds depth body).bind fun _ => (whileTrue (truth test) (round body) rounds).bind fun _ => pure _
      | .funcDef name params body => define name params body
      | .funcCall name args =>
        (mapM (fun n => evaluate rounds depth n) args).bind fun vs => call (fun n => evaluate rounds depth n) depth name vs
      | .aryNew items => (mapM (fun n => evaluate rounds depth n) items).bind fun _ => onStore _
      | .aryRef container position =>
        (evaluate rounds depth container).bind fun _ => (evaluate rounds depth position).bind fun _ => get fun _ => lift _
      | .aryAssign container position value =>
        (evaluate rounds depth container).bind fun _ => (evaluate rounds depth position).bind fun _ =>
          (evaluate rounds depth value).bind fun _ => (onStore _).bind fun _ => pure _
      | .hashNew items =>
        (onStore _).bind fun table => (fillHash (fun n => evaluate rounds depth n) depth table items).bind fun _ => pure _
      | .unknown _ => (liftLimit _).bind fun _ => fail _
      | .scalar => throw _
      | .broken => throw _

def evaluateIn (budget : Budget) (node : Node) : Course (MinRuby.evaluateIn budget node) :=
  evaluate budget.rounds budget.depth node

def runSource (budget : Budget) (source filename : String) : Course (MinRuby.runSource budget source filename) :=
  get fun _ => (parseProgram source filename _).bind fun tree => evaluateIn budget tree

end Course

end MinRuby
