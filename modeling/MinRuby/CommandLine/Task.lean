import MinRuby.CommandLine.Arguments
import MinRuby.CommandLine.Batch
import MinRuby.CommandLine.Help

/-!
# Tasks

What a command line amounts to: an interactive session, or a batch task that can be done at once.
-/

namespace MinRuby

/-- What a command line amounts to. -/
inductive Task where
  | batch (result : Result)
  | session (debug : Bool)

/-- The program that the options name, and the arguments that are left for it. -/
def Options.program? (o : Options) : Option (ProgramSource × List String) :=
  match o.code, o.script with
  | some code, some script => some (.inline code, script :: o.args)
  | some code, none => some (.inline code, o.args)
  | none, some path => some (.script path, o.args)
  | none, none => none

/-- The text of a usage error. -/
def UsageError.message : UsageError → String
  | needsValue _ => "an option lacks its value"
  | takesNoValue _ => "an option takes no value"
  | ambiguous argument => s!"ambiguous option: {argument}"
  | unrecognized arguments => "unrecognized arguments: " ++ " ".intercalate arguments

namespace Task

/-- The answer to a request for help. -/
def help : Task := batch ⟨[.out helpText], .ok 0⟩

/-- The task that the options describe. -/
def ofOptions (budget : Budget) (files : Files) (o : Options) : Task :=
  if o.interactive then session o.debug
  else
    match o.program? with
    | none => help
    | some (source, args) =>
      if o.parse then batch (source.showOutline files o.debug)
      else batch (source.run budget args files o.debug)

/-- The task that a command line describes. -/
def ofArguments (budget : Budget) (files : Files) (args : List String) : Task :=
  match Arguments.parse args with
  | .error e => batch ⟨[.err (usageText ++ s!"minruby: error: {e.message}\n")], .ok 2⟩
  | .ok .help => help
  | .ok .version => batch ⟨[.out s!"MinRuby v{version}\n"], .ok 0⟩
  | .ok (.start o) => ofOptions budget files o

/-- The result of a task when all that is typed is known beforehand. -/
def result (budget : Budget) (typed : List Typed) : Task → Result
  | batch r => r
  | session debug =>
    let (messages, limit) := Dialogue.converse budget (.start debug) typed
    ⟨.out (Dialogue.greeting debug) :: messages, limit.elim (.ok 0) .error⟩

end Task

end MinRuby
