import MinRuby.Run.Machine
import MinRuby.Syntax.Program
import MinRuby.Value.Conversion

/-!
# Builtins

What the functions do that are there from the start: printing, loading and parsing programs, and
calling a builtin by its name. A builtin cannot tell how it was called.

* `callBuiltin` — calls the builtin with a given name.
-/

namespace MinRuby

/-- The note that a traced run makes of a program it has parsed. -/
def parsedNote (tree : Syntax.Node) (filename : String) : String :=
  s!"Parsed {tree.statementCount} statements from {filename}"

namespace Eval

/-- Parses a program. In a traced run each program numbers its temporaries from one. -/
def parseProgram (source filename : String) (known : List String) : Eval Syntax.Node := do
  let m ← get
  let (tree, next) ←
    Syntax.parseProgram source filename known (if m.debug then 1 else m.nextTemporary)
  if m.debug then
    trace (parsedNote tree filename)
  else
    modify fun m => { m with nextTemporary := next }
  return tree

end Eval

namespace Builtin

open Eval

/-- The libraries that can be required. -/
def libraries : List String := ["minruby"]

/-- Prints each argument as a literal on a line of its own and gives back what it was given. -/
def runP (depth : Nat) (args : List Value) : Eval Value := do
  args.forM fun v => do emit ((← reading (v.inspect · depth)) ++ "\n")
  match args with
  | [] => return .nil
  | [v] => return v
  | vs => onStore (modifyGet (·.newArray vs.toArray))

/-- Prints the arguments one after the other. -/
def runPrint (depth : Nat) (args : List Value) : Eval Value := do
  let texts ← reading fun s => args.mapM (·.display s depth)
  emit ("".intercalate texts)
  return .nil

/-- The text with a line end at its end. -/
def asLine (text : String) : String := if text.endsWith "\n" then text else text ++ "\n"

/-- Prints the arguments, and the elements of arrays among them, on lines of their own. -/
def runPuts (depth : Nat) (args : List Value) : Eval Value := do
  if args.isEmpty then emit "\n"
  args.forM fun v => do
    (← reading (v.displayLines · depth)).forM fun line => emit (asLine line)
  return .nil

/-- Accepts the name of a library that is there. -/
def runRequire (name : Value) : Eval Value :=
  match name with
  | .str t => if t ∈ libraries then return .bool true else fail (.noSuchLibrary t)
  | v => fail (.requireOf v.kind)

/-- Takes the next program file from the command line and reads it. -/
def runLoad : Eval Value := do
  match (← get).toLoad with
  | [] => fail .noFileLeft
  | path :: rest =>
    modify fun m => { m with toLoad := rest }
    match (← get).files.read path with
    | .ok text => return .str text
    | .error e => fail (.unreadable path (e.message path))

/-- Parses a program into a value. -/
def runParse (depth : Nat) (source : Value) : Eval Value :=
  match source with
  | .str t => do
    let tree ← parseProgram t Syntax.anonymous []
    onStore (Value.ofData depth tree.toData)
  | v => fail (.parseOf v.kind)

/-- Calls a builtin by the name in the first argument with the arguments in the second. -/
def runCall (call : String → List Value → Eval Value) (name args : Value) : Eval Value :=
  match name, args with
  | .str t, .array a => do call t ((← get).store.array a).toList
  | .str _, v => fail (.callWith v.kind)
  | v, _ => fail (.callOf v.kind)

/-- Runs a builtin on as many arguments as it takes; `call` is used for a call by name. -/
def run (b : Builtin) (depth : Nat) (call : String → List Value → Eval Value) (args : List Value) :
    Eval Value :=
  match b, args with
  | p, args => runP depth args
  | print, args => runPrint depth args
  | puts, args => runPuts depth args
  | require, name :: _ => runRequire name
  | load, _ => runLoad
  | parse, source :: _ => runParse depth source
  | .call, name :: args :: _ => runCall call name args
  | b, args => fail (.wrongBuiltinArguments b.name args.length (b.arity?.getD 0))

end Builtin

/-- Calls the builtin with the given name. -/
def callBuiltin : Nat → String → List Value → Eval Value
  | 0, _, _ => throw (.limit .depth)
  | depth + 1, name, args =>
    match Builtin.ofName? name with
    | none => Eval.fail (.unknownBuiltin name)
    | some b => do
      if let some arity := b.arity? then
        if args.length ≠ arity then Eval.fail (.wrongBuiltinArguments name args.length arity)
      Eval.trace s!"Calling builtin {name} with {args.length} arguments"
      b.run depth (callBuiltin depth) args

end MinRuby
