import MinRuby.Run.Builtins
import MinRuby.Value.Operators

/-!
# Evaluation

The value of a tree, with all its effects on the machine. Operands come before the operator, from left
to right. A call runs the body of a definition in a frame that holds the arguments only.

The depth bounds how far trees, calls and containers nest, and is the recursion's measure; the rounds
bound each loop. Both are there to make evaluation total: a run that ends is the same under any larger
budget.

* `evaluate` — the value of a tree.
* `runSource` — parses and evaluates a program in the frame at hand.
-/

namespace MinRuby

open Syntax (Node)

namespace Eval

/-- Repeats a step while a test holds. -/
def whileTrue (test : Eval Bool) (body : Eval Unit) : Nat → Eval Unit
  | 0 => throw (.limit .rounds)
  | rounds + 1 => do
    if ← test then
      body
      whileTrue test body rounds

/-- Puts keys and values, which stand in turn, into a hash. -/
def fillHash (depth : Nat) (table : Value) (eval : Node → Eval Value) : List Node → Eval Unit
  | key :: value :: rest => do
    let k ← eval key
    let v ← eval value
    onStore (table.assign depth k v)
    fillHash depth table eval rest
  | _ => return ()

/-- Traces that a node is reached. What is no node leaves no trace. -/
def traceNode : Node → Eval Unit
  | .scalar | .broken => return ()
  | node => do
    if (← get).debug then
      let tag := node.tag
      if tag.hasLongNumeral then throw (.limit .numeral)
      trace ("Evaluating: " ++ tag.bareText)

/-- Defines a function. -/
def define (name : String) (params : List String) (body : Node) : Eval Value := do
  let a ← onStore (modifyGet (·.newProcedure ⟨name, params, body⟩))
  modify fun m => { m with functions := m.functions.insert name (.procedure a) }
  return .procedure a

/-- Calls what a name stands for; `eval` runs the body of a definition. -/
def call (depth : Nat) (eval : Node → Eval Value) (name : String) (args : List Value) :
    Eval Value := do
  match (← get).functions.find? name with
  | none => fail (.unknownFunction name)
  | some (.builtin b) => callBuiltin depth b.name args
  | some (.procedure a) =>
    match (← get).store.procedure? a with
    | none => fail (.unknownFunction name)
    | some procedure =>
      if args.length ≠ procedure.params.length then
        fail (.wrongArguments name args.length procedure.params.length)
      trace s!"Entering frame for {name}"
      inFrame (.ofList (procedure.params.zip args)) (eval procedure.body)

end Eval

open Eval

/-- The value of a tree. -/
def evaluate (rounds : Nat) : Nat → Node → Eval Value
  | 0, _ => throw (.limit .depth)
  | depth + 1, node => do
    traceNode node
    match node with
    | .lit value => onStore (Value.ofData depth value)
    | .binary op left right => do
      let x ← evaluate rounds depth left
      let y ← evaluate rounds depth right
      onStore (Value.apply depth op x y)
    | .stmts body => body.foldlM (fun _ n => evaluate rounds depth n) .nil
    | .varAssign name value => do
      let v ← evaluate rounds depth value
      modify fun m => { m with frame := m.frame.insert name v }
      return v
    | .varRef name => do
      match (← get).frame.find? name with
      | some v => return v
      | none => fail (.unboundVariable name)
    | .choice test yes no => do
      if (← evaluate rounds depth test).truthy then evaluate rounds depth yes
      else evaluate rounds depth no
    | .loop test body => do
      whileTrue (do return (← evaluate rounds depth test).truthy)
        (do let _ ← evaluate rounds depth body) rounds
      return .nil
    | .loopAfter test body => do
      let _ ← evaluate rounds depth body
      whileTrue (do return (← evaluate rounds depth test).truthy)
        (do let _ ← evaluate rounds depth body) rounds
      return .nil
    | .funcDef name params body => define name params body
    | .funcCall name args => do
      let args ← args.mapM (evaluate rounds depth)
      call depth (evaluate rounds depth) name args
    | .aryNew items => do
      let vs ← items.mapM (evaluate rounds depth)
      onStore (modifyGet (·.newArray vs.toArray))
    | .aryRef container position => do
      let c ← evaluate rounds depth container
      let p ← evaluate rounds depth position
      c.fetch (← get).store depth p
    | .aryAssign container position value => do
      let c ← evaluate rounds depth container
      let p ← evaluate rounds depth position
      let v ← evaluate rounds depth value
      onStore (c.assign depth p v)
      return v
    | .hashNew items => do
      let table ← onStore (modifyGet (·.newHash .empty))
      fillHash depth table (evaluate rounds depth) items
      return table
    | .unknown tag => do
      let shown ← (tag.written : Except Limit String)
      fail (.unknownTag shown tag.bareText)
    | .scalar => throw (.limit .scalarTree)
    | .broken => throw (.limit .missingChild)

/-- Evaluates a tree within a budget. -/
def evaluateIn (budget : Budget) (node : Node) : Eval Value := evaluate budget.rounds budget.depth node

/-- Evaluates a tree in an empty frame. -/
def evaluateAlone (budget : Budget) (node : Node) : Eval Value :=
  inFrame .empty (evaluateIn budget node)

/-- Parses and evaluates a program in the frame at hand, whose variables it knows. -/
def runSource (budget : Budget) (source filename : String) : Eval Value := do
  let tree ← parseProgram source filename (← get).frame.keys
  evaluateIn budget tree

end MinRuby
