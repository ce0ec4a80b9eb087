import MinRuby.Run.Builtins
import MinRuby.Syntax.Outline

/-!
# Listings

What can be shown without running a program: the variables of a session, without the hidden temporaries
and with long values cut off, its functions, and the outline of a program.
-/

namespace MinRuby

/-- Whether a variable is a hidden temporary. -/
def isTemporary (name : String) : Bool := name.startsWith "%"

/-- The most characters of a value in a listing. -/
def listedLength : Nat := 60

/-- The text, cut off if it is too long for a listing. -/
def abridged (text : String) : String :=
  let chars := text.toList
  if listedLength < chars.length then String.ofList (chars.take (listedLength - 3)) ++ "..." else text

/-- Lists the variables of the frame, up to one that has no text. -/
def listVariables (depth : Nat) : Eval Unit := do
  let shown := (← get).frame.entries.filter fun e => !isTemporary e.1
  if shown.isEmpty then Eval.emit "  (no local variables)\n"
  shown.forM fun (name, v) => do
    let text ← Eval.reading (v.inspect · depth)
    Eval.emit s!"  {name} = {abridged text}\n"

/-- The line for a function. -/
def functionLine (s : Store) (name : String) : Callee → String
  | .builtin _ => s!"  {name} (builtin)\n"
  | .procedure a =>
    let params := ((s.procedure? a).map (·.params)).getD []
    "  " ++ name ++ "(" ++ ", ".intercalate params ++ ")\n"

/-- Lists the functions. -/
def listFunctions : Eval Unit := do
  let m ← get
  m.functions.entries.forM fun (name, callee) => Eval.emit (functionLine m.store name callee)

/-- The outline of a program, after the note of a traced run, and the number of the next temporary. -/
def programOutline (debug : Bool) (source filename : String) (counter : Nat) :
    Except Failure (String × Nat) := do
  let (tree, next) ← Syntax.parseProgram source filename [] counter
  let outline ← Syntax.outline 0 tree.toData
  return (if debug then parsedNote tree filename ++ "\n" ++ outline else outline, next)

end MinRuby
