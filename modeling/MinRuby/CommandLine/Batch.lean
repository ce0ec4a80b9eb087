import MinRuby.Interactive.Dialogue

/-!
# Batch runs

Runs of a whole program, given as a script file or on the command line, and outlines of one. A program
that fails is reported on the error channel and gives the status one; only a limit other than the
depth has no report.
-/

namespace MinRuby

/-- Where a program comes from. -/
inductive ProgramSource where
  | inline (code : String)
  | script (path : String)
deriving DecidableEq, Repr

/-- The name of a program in reports. -/
def ProgramSource.name : ProgramSource → String
  | inline _ => "-e"
  | script path => path

/-- What is written, and the exit status or the limit at which all breaks off. -/
structure Result where
  messages : List Message
  status : Except Limit Nat

/-- The report on a runtime error. -/
def runtimeReport (name : String) (e : RuntimeError) : String :=
  let rule := String.ofList (List.replicate 70 '=') ++ "\n"
  "\n" ++ rule ++ s!"Runtime Error in '{name}'\n" ++ rule ++ s!"\n{e.message}\n\n"

/-- The error for a source file that cannot be read. -/
def ParseError.unreadable (path : String) (e : FileError) : ParseError :=
  { filename := path
    summary :=
      match e with
      | .missing => s!"File not found: {path}"
      | e => s!"Cannot read file {path}: {e.message path}" }

namespace ProgramSource

/-- The text of a program. -/
def text (source : ProgramSource) (files : Files) : Except Failure String :=
  match source with
  | inline code => .ok code
  | script path => (files.read path).mapError fun e => .parse (.unreadable path e)

/-- The outline of a program. -/
def outlined (source : ProgramSource) (files : Files) (debug : Bool) : Except Failure String := do
  return (← programOutline debug (← source.text files) source.name 1).1

/-- Shows the outline of a program. -/
def showOutline (source : ProgramSource) (files : Files) (debug : Bool) : Result :=
  match source.outlined files debug with
  | .ok text => ⟨[.out text], .ok 0⟩
  | .error (.parse e) => ⟨[.err e.report], .ok 1⟩
  | .error (.runtime e) => ⟨[.err (runtimeReport source.name e)], .ok 1⟩
  | .error (.limit l) => ⟨[], .error l⟩

/-- The machine on which a program runs: a script is the first of the files to load. -/
def machine (source : ProgramSource) (args : List String) (files : Files) (debug : Bool) : Machine :=
  let toLoad :=
    match source with
    | inline _ => args
    | script path => path :: args
  { toLoad, files, debug }

/-- Fetches the text of a program. -/
def fetch (depth : Nat) : ProgramSource → Eval String
  | inline code => return code
  | script _ => do
    match ← callBuiltin depth Builtin.load.name [] with
    | .str text => return text
    | _ => return ""

/-- Fetches and evaluates a program. -/
def evaluate (budget : Budget) (source : ProgramSource) : Eval Value := do
  let text ← source.fetch budget.depth
  Eval.trace s!"Running {source.name}..."
  runSource budget text source.name

/-- Runs a program. -/
def run (budget : Budget) (source : ProgramSource) (args : List String) (files : Files)
    (debug : Bool) : Result :=
  match source.evaluate budget (source.machine args files debug) with
  | .ok _ m => ⟨[.out m.written], .ok 0⟩
  | .error failure m =>
    let report (text : String) : Result := ⟨[.out m.written, .err text], .ok 1⟩
    match failure with
    | .parse e => report e.report
    | .runtime e => report (runtimeReport source.name e)
    | .limit .depth => report s!"Error: stack level too deep in '{source.name}'\n"
    | .limit l => ⟨[.out m.written], .error l⟩

end ProgramSource

end MinRuby
