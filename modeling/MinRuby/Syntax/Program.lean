import MinRuby.Failure
import MinRuby.Syntax.Desugar
import MinRuby.Syntax.Grammar
import MinRuby.Syntax.Scope
import MinRuby.Syntax.Source

/-!
# Programs and statements

The two ways from source text to a tree. A program is a block of statements up to the end of the text,
and its names are resolved. A single statement keeps its names as they are.

* `parseProgram` — reads a program, given the names that are known before it.
* `parseStatement` — reads one statement.
-/

namespace MinRuby.Syntax

open MinRuby.Text (expandTabs strip)

/-- The limit that made a parser give up. -/
def Surrender.limit : Surrender → Limit
  | .numeral => .numeral
  | .depth => .depth

/-- Reads a phrase that takes up the whole of a prepared text; `source` is the text as it was written. -/
def readWhole (p : Phrase) (source prepared : List Char) (filename : String) : Except Failure Term :=
  let text := expandTabs prepared
  match parsePhrase p text with
  | .giveUp reason => .error (.limit reason.limit)
  | .fail => .error (.parse (.noStatement filename))
  | .done term next =>
    match next.skipBlanks.rest with
    | [] => .ok term
    | rest => .error (.parse (.leftOver source text (text.length - rest.length) filename))

/-- Reads the source text of a program. -/
def readProgram (source filename : String) : Except Failure Term :=
  readWhole .block source.toList (prepare source.toList) filename

/-- The name of source text that comes from no file. -/
def anonymous : String := "<input>"

/-- The tree of a program and the number of the next temporary. -/
def parseProgram (source filename : String) (known : List String) (counter : Nat) :
    Except Failure (Node × Nat) := do
  let term ← readProgram source filename
  let (tree, counter) := term.desugar.run counter
  return ((tree.resolve.run known).1, counter)

/-- The tree of a statement, its names not resolved. Whitespace around it does not count. -/
def parseStatement (source filename : String) : Except Failure Node := do
  let term ← readWhole .statement source.toList (strip (prepare source.toList)) filename
  return (term.desugar.run 1).1

end MinRuby.Syntax
