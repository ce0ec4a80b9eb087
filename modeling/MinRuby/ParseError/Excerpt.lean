import MinRuby.Text.Blank
import MinRuby.Text.Lines
import MinRuby.Text.Position
import MinRuby.Text.Word
import MinRuby.Text.Quoted

/-!
# What a parse error shows of the source

The numbered lines around a position with a caret under it, the next few characters at it, and the
word that the parser names. Lines and columns are counted from one; zero and below count on from the
end, so that line zero is the last one.

* `isSome_textAt?` — there is something to show at every line that is counted from one.
-/

namespace MinRuby.ParseError

open MinRuby.Text

/-- A line number, right-aligned to four places. -/
def lineNumber (n : Nat) : List Char :=
  let digits := Nat.toDigits 10 n
  List.replicate (4 - digits.length) ' ' ++ digits

/-- The caret line for a column. -/
def caret (column : Int) : List Char := List.replicate (column + 5).toNat ' ' ++ ['^']

/-- A numbered line, followed by the caret line if it is the one pointed at. -/
def excerptLines (line column : Int) (number : Nat) (text : List Char) : List (List Char) :=
  let shown := lineNumber number ++ ':' :: ' ' :: text
  if number = line then [shown, caret column] else [shown]

/-- The lines whose numbers differ from `line` by at most `radius`, numbered, with a caret under the
column in that line. No line is numbered zero or below. -/
def excerptOf (source : List Char) (line column radius : Int) : List Char :=
  let near := ((splitLines source).zipIdx 1).filter fun l => line ≤ l.2 + radius && l.2 ≤ line + radius
  ['\n'].intercalate (near.flatMap fun l => excerptLines line column l.2 l.1)

/-- How many characters are shown where parsing stopped. -/
def shownLength : Nat := 11

/-- The line with the given number. The last line has the number zero too, the one before it the number
minus one, and so on up to the first. -/
def numberedLine? (lines : List (List Char)) (number : Int) : Option (List Char) :=
  if 0 < number then lines[(number - 1).toNat]? else lines.reverse[(-number).toNat]?

/-- The next few characters at a position, quoted, or which end is there; `none` if the line would lie
before the first one. -/
def textAt? (source : List Char) (line column : Int) : Option (List Char) :=
  let lines := splitLines source
  if lines.length < line then some "end of input".toList
  else
    (numberedLine? lines line).map fun text =>
      let rest := strip (between text (column - 1) (column - 1 + shownLength))
      if !rest.isEmpty then '\'' :: (rest ++ ['\''])
      else if line = lines.length then "end of input".toList
      else "end of line".toList

theorem isSome_textAt? (source : List Char) {line : Int} (column : Int) (h : 0 < line) :
    (textAt? source line column).isSome := by
  unfold textAt?
  by_cases hl : ((splitLines source).length : Int) < line
  · rw [if_pos hl, Option.isSome_some]
  · have hlt : (line - 1).toNat < (splitLines source).length := by omega
    rw [if_neg hl, Option.isSome_map, numberedLine?, if_pos h, List.getElem?_eq_getElem hlt, Option.isSome_some]

/-- The most characters of a word that the parser names. -/
def wordLength : Nat := 16

/-- The word at the start of a text, or the single character there if none starts. -/
def nextWord (text : List Char) : List Char :=
  match (text.take wordLength).takeWhile isReported with
  | [] => text.take 1
  | word => word

/-- The text with each doubled backslash made single. -/
def singleBackslashes : List Char → List Char
  | [] => []
  | '\\' :: '\\' :: rest => '\\' :: singleBackslashes rest
  | c :: rest => c :: singleBackslashes rest

/-- What the parser says it found at the start of a text. -/
def foundText (text : List Char) : List Char :=
  if text.isEmpty then "end of text".toList else singleBackslashes (quoted (nextWord text))

end MinRuby.ParseError
