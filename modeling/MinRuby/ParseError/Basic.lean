import MinRuby.ParseError.Excerpt
import MinRuby.ParseError.Hint

/-!
# Parse errors

A parse error says where parsing stopped and shows the source around it. Parsing stops where no
further statement can be read, so what is expected there is always the end of the text. The position
counts in the prepared text, while excerpt and hints are taken from the text as it was written.
-/

namespace MinRuby

/-- Why source text is no program. -/
structure ParseError where
  filename : String
  summary : String
  /-- Line and column; none if the source could not even be read. -/
  position : Option (Nat × Nat) := none
  expected : List String := []
  found : List Char := []
  excerpt : List Char := []
  hints : List ParseError.Hint := []

namespace ParseError

/-- The line of the error; zero if it has none. -/
def line (e : ParseError) : Nat := (e.position.map (·.1)).getD 0

/-- The column of the error; zero if it has none. -/
def column (e : ParseError) : Nat := (e.position.map (·.2)).getD 0

/-- The full report of an error, one item a line. -/
def report (e : ParseError) : String :=
  let place :=
    match e.position with
    | some (line, column) => s!" at line {line}, column {column}"
    | none => ""
  let items :=
    [s!"{e.filename}: Parse error{place}:", s!"  {e.summary}"]
    ++ (if e.expected.isEmpty then [] else ["  Expected: " ++ ", ".intercalate e.expected])
    ++ (if e.found.isEmpty then [] else ["  Got: " ++ String.ofList e.found])
    ++ (if e.excerpt.isEmpty then [] else ["  Context:", String.ofList e.excerpt])
    ++ (if e.hints.isEmpty then [] else "  Suggestions:" :: e.hints.map fun h => s!"    - {h.text}")
  "\n".intercalate items ++ "\n"

/-- What a program is expected to be followed by. -/
def endOfText : String := "end of text"

/-- How many lines before and after the one pointed at are shown. -/
def excerptRadius : Nat := 2

/-- The error for a text that is left over from the given offset of its prepared form on. -/
def leftOver (source prepared : List Char) (offset : Nat) (filename : String) : ParseError :=
  let line := Text.lineOf prepared offset
  let column := Text.columnOf prepared offset
  let found := String.ofList (foundText (prepared.drop offset))
  let got := (textAt? source line column).getD []
  { filename
    summary := s!"Expected {endOfText}, found {found}  (at char {offset}), (line:{line}, col:{column})"
    position := some (line, column)
    expected := [endOfText]
    found := got
    excerpt := excerptOf source line column excerptRadius
    hints := hintsFor source got [endOfText] }

/-- The error for a text at whose start no statement can be read. -/
def noStatement (filename : String) : ParseError :=
  { filename, summary := "Expected a statement" }

end ParseError

end MinRuby
