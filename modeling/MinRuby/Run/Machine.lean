import MinRuby.Files
import MinRuby.Value.Indexing

/-!
# The machine

The state of a run: the store, the table of functions, the frame of the definition that is being
called, the program files not yet loaded, and what has been written so far. A step of a run is an
`Eval`, and a step that fails leaves the state as it had become by then.

* `inFrame` — runs a step in a frame of its own; the caller's frame is back afterwards, also after a
  failure.
-/

namespace MinRuby

/-- The functions that are there from the start. -/
inductive Builtin where
  | p | print | puts | require | parse | load | call
deriving DecidableEq, Repr

namespace Builtin

/-- The name of a builtin. -/
def name : Builtin → String
  | p => "p"
  | print => "print"
  | puts => "puts"
  | require => "require"
  | parse => "minruby_parse"
  | load => "minruby_load"
  | call => "minruby_call"

/-- How many arguments a builtin takes; none if it takes any number. -/
def arity? : Builtin → Option Nat
  | p | print | puts => none
  | require | parse => some 1
  | load => some 0
  | call => some 2

/-- All builtins. -/
def all : List Builtin := [p, print, puts, require, parse, load, call]

/-- The builtin with the given name. -/
def ofName? (name : String) : Option Builtin := all.find? (·.name == name)

end Builtin

/-- What a function name stands for. -/
inductive Callee where
  | builtin (b : Builtin)
  | procedure (a : Address)
deriving DecidableEq, Repr

/-- The variables of one call. -/
abbrev Frame := OrderedTable String Value

/-- What a run writes: the output of the program, and the trace of the interpreter. -/
inductive Output where
  | printed (text : String)
  | traced (text : String)
deriving DecidableEq, Repr

/-- The text of an output. -/
def Output.text : Output → String
  | printed t => t
  | traced t => t

/-- The functions of a fresh machine. -/
def initialFunctions : OrderedTable String Callee :=
  .ofList (Builtin.all.map fun b => (b.name, .builtin b))

/-- The state of a run. -/
structure Machine where
  store : Store := {}
  functions : OrderedTable String Callee := initialFunctions
  frame : Frame := .empty
  /-- The paths of the program files that have not been loaded. -/
  toLoad : List String := []
  files : Files := {}
  /-- What has been written, the latest first. -/
  output : List Output := []
  /-- The number of the next hidden temporary. -/
  nextTemporary : Nat := 1
  /-- Whether the run is traced. -/
  debug : Bool := false

namespace Machine

instance : Inhabited Machine := ⟨{}⟩

/-- All that has been written, in order. -/
def written (m : Machine) : String := "".intercalate (m.output.reverse.map Output.text)

/-- The machine with nothing written yet. -/
def flushed (m : Machine) : Machine := { m with output := [] }

end Machine

/-- How far a run may go: the depth of nesting, and the rounds of each loop. -/
structure Budget where
  depth : Nat
  rounds : Nat

/-- The budget of a run by default. -/
def Budget.standard : Budget := ⟨5000, Nat.pow 2 62⟩

/-- A step of a run. -/
abbrev Eval := EStateM Failure Machine

namespace Eval

variable {α : Type}

/-- Fails through the program's fault. -/
def fail (e : RuntimeError) : Eval α := throw (.runtime e)

/-- Runs a step on the store. -/
def onStore (step : StoreM α) : Eval α := fun m =>
  let store := m.store
  let m := { m with store := {} }
  match step store with
  | .ok a store => .ok a { m with store }
  | .error e store => .error e { m with store }

/-- Reads something from the store. -/
def reading (read : Store → Except Limit α) : Eval α := do
  let result ← (read (← get).store : Except Limit α)
  return result

/-- Runs a step in the given frame. -/
def inFrame (frame : Frame) (step : Eval α) : Eval α := fun m =>
  let saved := m.frame
  match step { m with frame } with
  | .ok a m => .ok a { m with frame := saved }
  | .error e m => .error e { m with frame := saved }

/-- Prints a text. -/
def emit (text : String) : Eval Unit := modify fun m => { m with output := .printed text :: m.output }

/-- Writes a line to the trace if the run is traced. -/
def trace (line : String) : Eval Unit := do
  if (← get).debug then
    modify fun m => { m with output := .traced (line ++ "\n") :: m.output }

end Eval

end MinRuby
