import MinRuby.Text.Lines

/-!
# Source text before parsing

Source text is parsed after four changes: line ends become line feeds, comments become blanks, a
backslash at the end of a line joins it to the next one, and tabs are expanded. The scanner that
blanks comments knows string literals, so a `#` inside one stays.

* `length_stripComments` — blanking keeps every position.
-/

namespace MinRuby.Syntax

open MinRuby.Text

/-- Where the comment scanner stands. -/
inductive Scan where
  | code
  | comment
  /-- In a string literal that ends with the given quote. -/
  | literal (quote : Char)

/-- Blanks the comments of a text whose first character stands where `scan` says. -/
def blankComments : Scan → List Char → List Char
  | _, [] => []
  | .comment, c :: rest =>
    if c = '\n' then c :: blankComments .code rest else ' ' :: blankComments .comment rest
  | .literal quote, '\\' :: c :: rest => '\\' :: c :: blankComments (.literal quote) rest
  | .literal quote, c :: rest =>
    c :: blankComments (if c = quote then .code else .literal quote) rest
  | .code, c :: rest =>
    if c = '"' ∨ c = '\'' then c :: blankComments (.literal c) rest
    else if c = '#' then ' ' :: blankComments .comment rest
    else c :: blankComments .code rest

/-- The text with every comment replaced by blanks of the same length. -/
def stripComments (text : List Char) : List Char := blankComments .code text

theorem length_blankComments (scan : Scan) (text : List Char) :
    (blankComments scan text).length = text.length := by
  fun_induction blankComments scan text <;> simp_all

theorem length_stripComments (text : List Char) : (stripComments text).length = text.length :=
  length_blankComments .code text

/-- The text with each backslash at the end of a line, and the line feed after it, made two blanks. -/
def joinLines : List Char → List Char
  | [] => []
  | '\\' :: '\n' :: rest => ' ' :: ' ' :: joinLines rest
  | c :: rest => c :: joinLines rest

/-- The text that the error positions count in, up to tabs. -/
def prepare (text : List Char) : List Char := joinLines (stripComments (withLineFeeds text))

end MinRuby.Syntax
