import MinRuby.Run.Evaluate
import MinRuby.Run.Listing

/-!
# The interactive session

A session reads a line, reacts, and prompts again. A line at the first prompt may be a command. All
other lines make up entries: an entry that fails to parse for want of an `end` goes on with the next
line, any other one is run at once, in the frame that all entries share.

* `Dialogue.react` — the reaction to what is typed at a prompt.
* `Dialogue.converse` — the reactions to all that is typed.
-/

namespace MinRuby

/-- Text for one of the two channels. -/
inductive Message where
  | out (text : String)
  | err (text : String)
deriving DecidableEq, Repr

/-- The version of the interpreter. -/
def version : String := "0.1.0"

/-- What is typed at a prompt. -/
inductive Typed where
  | line (text : String)
  /-- The key that throws an entry away. -/
  | interrupt
  | endOfInput
deriving DecidableEq, Repr

/-- The commands that the first prompt knows. -/
inductive Command where
  | nothing
  | leave
  | help
  | locals
  | functions
  | outline (code : String)
  /-- No command, but the first line of an entry. -/
  | entry
deriving DecidableEq, Repr

/-- The command on a line. -/
def Command.ofLine (line : String) : Command :=
  let text := String.ofList (Text.strip line.toList)
  if text = "" then nothing
  else if text = "exit" ∨ text = "quit" then leave
  else if text = ":help" then help
  else if text = ":env" then locals
  else if text = ":functions" then functions
  else if text.startsWith ":parse " then outline (String.ofList (text.toList.drop 7))
  else entry

/-- The answer to the command for help. -/
def commandHelp : String :=
  "REPL Commands:
  :parse <code>     - Show the parsed tree
  :env              - Show local variables
  :functions        - Show defined functions
  :help             - Show this help
  exit              - Exit REPL

Unfinished blocks continue on the next line; an empty line ends the entry.
"

/-- A session at a prompt. -/
structure Dialogue where
  machine : Machine
  /-- The lines of the entry that is not finished. -/
  pending : List String := []
  /-- The number of the next temporary in trees that are only shown. -/
  nextShown : Nat := 1

/-- What comes after a reaction. -/
inductive Next where
  | prompt (d : Dialogue)
  | leave
  /-- The session breaks off at a limit. -/
  | breakOff (limit : Limit)

/-- A reaction: what is written, and what comes next. -/
structure Reaction where
  messages : List Message
  next : Next

namespace Dialogue

/-- The start of a session. -/
def start (debug : Bool) : Dialogue := { machine := { debug } }

/-- The text above the first prompt. -/
def greeting (debug : Bool) : String :=
  s!"MinRuby v{version} - Interactive Mode\nType 'exit' to quit, ':help' for commands\n"
    ++ (if debug then "Debug mode enabled\n" else "") ++ "\n"

/-- The prompt; another one while an entry is not finished. -/
def prompt (d : Dialogue) : String := if d.pending.isEmpty then "minruby> " else "...> "

/-- Writes a listing. -/
def list (d : Dialogue) (listing : Eval Unit) : Reaction :=
  match listing d.machine with
  | .ok _ m => ⟨[.out m.written], .prompt { d with machine := m.flushed }⟩
  | .error (.limit l) m => ⟨[.out m.written], .breakOff l⟩
  | .error _ m => ⟨[.out m.written], .prompt { d with machine := m.flushed }⟩

/-- Shows the outline of a program without running it. -/
def showOutline (d : Dialogue) (code : String) : Reaction :=
  match programOutline d.machine.debug code Syntax.anonymous d.nextShown with
  | .ok (text, next) => ⟨[.out text], .prompt { d with nextShown := next }⟩
  | .error (.parse e) => ⟨[.err e.report], .prompt d⟩
  | .error (.limit l) => ⟨[], .breakOff l⟩
  | .error (.runtime _) => ⟨[], .prompt d⟩

/-- Whether an entry that fails with this error may go on. -/
def mayGoOn (e : ParseError) : Bool := e.hints.contains .unclosedBlock

/-- Whether a line holds nothing but blanks. -/
def isBlankLine (line : String) : Bool := (Text.strip line.toList).isEmpty

/-- Runs the entry that a line completes, or waits for more of it. -/
def enter (budget : Budget) (d : Dialogue) (line : String) : Reaction :=
  let lines := d.pending ++ [line]
  match runSource budget ("\n".intercalate lines) Syntax.anonymous d.machine with
  | .ok v m =>
    match v.inspect m.store budget.depth with
    | .ok text =>
      ⟨[.out (m.written ++ "=> " ++ text ++ "\n")], .prompt { d with machine := m.flushed, pending := [] }⟩
    | .error l => ⟨[.out m.written], .breakOff l⟩
  | .error failure m =>
    let done := { d with machine := m.flushed, pending := [] }
    let report (text : String) : Reaction := ⟨[.out m.written, .err text], .prompt done⟩
    match failure with
    | .parse e =>
      if !isBlankLine line && mayGoOn e then
        ⟨[.out m.written], .prompt { done with pending := lines }⟩
      else report e.report
    | .runtime e => report s!"Runtime Error: {e.message}\n"
    | .limit .depth => report "Error: stack level too deep\n"
    | .limit l => ⟨[.out m.written], .breakOff l⟩

/-- The reaction to a line at the first prompt. -/
def obey (budget : Budget) (d : Dialogue) (line : String) : Reaction :=
  match Command.ofLine line with
  | .nothing => ⟨[], .prompt d⟩
  | .leave => ⟨[], .leave⟩
  | .help => ⟨[.out commandHelp], .prompt d⟩
  | .locals => d.list (listVariables budget.depth)
  | .functions => d.list listFunctions
  | .outline code => d.showOutline code
  | .entry => d.enter budget line

/-- The reaction to what is typed at a prompt. -/
def react (budget : Budget) (d : Dialogue) : Typed → Reaction
  | .interrupt => ⟨[.out "\n"], .prompt { d with pending := [] }⟩
  | .endOfInput => ⟨[.out "\nGoodbye!\n"], .leave⟩
  | .line text => if d.pending.isEmpty then d.obey budget text else d.enter budget text

/-- All that a session writes, from a prompt on, and the limit at which it breaks off, if it does. -/
def converse (budget : Budget) (d : Dialogue) : List Typed → List Message × Option Limit
  | [] => (.out d.prompt :: (d.react budget .endOfInput).messages, none)
  | typed :: rest =>
    let reaction := d.react budget typed
    let said := .out d.prompt :: reaction.messages
    match reaction.next with
    | .prompt d =>
      let (messages, limit) := converse budget d rest
      (said ++ messages, limit)
    | .leave => (said, none)
    | .breakOff l => (said, some l)

end Dialogue

end MinRuby
