import MinRuby.Data.Printer
import MinRuby.Text.Blank
import MinRuby.Text.Word

/-!
# Hints for parse errors

Hints for the mistakes that programs usually hold: an unclosed block, a block argument, a method call
on a value, a missing end. They are drawn from the words of the source, comments and literals
included, without parsing it.
-/

namespace MinRuby.ParseError

open MinRuby.Text

/-- A mistake that is suspected in a source text. -/
inductive Hint where
  | unclosedBlock | blockArgument | methodCall | unmatchedEnd
deriving DecidableEq, Repr

/-- The advice that a hint gives. -/
def Hint.text : Hint → String
  | .unclosedBlock => "A block is missing its closing 'end'"
  | .blockArgument => "Blocks are not supported; use while loops and functions instead"
  | .methodCall => "Method calls on values are not supported; call functions as f(x)"
  | .unmatchedEnd => "Check that every def/if/while/case has a matching 'end'"

/-- A letter or underscore. -/
def isWordLetter (c : Char) : Bool := c.isAlpha || c == '_'

/-- The longest runs of letters and underscores in a text, when `word` is the run that ends where the
text starts, read backwards. -/
def wordsFrom (word : List Char) : List Char → List (List Char)
  | [] => if word.isEmpty then [] else [word.reverse]
  | c :: rest =>
    if isWordLetter c then wordsFrom (c :: word) rest
    else if word.isEmpty then wordsFrom [] rest
    else word.reverse :: wordsFrom [] rest

/-- The longest runs of letters and underscores in a text. -/
def words (text : List Char) : List (List Char) := wordsFrom [] text

/-- The keywords that open a block. -/
def blockOpeners : List (List Char) :=
  ["def", "if", "unless", "while", "case", "begin"].map String.toList

/-- What follows the given characters at the start of a text, if it starts with them. -/
def afterPrefix? : List Char → List Char → Option (List Char)
  | [], text => some text
  | c :: rest, d :: text => if c = d then afterPrefix? rest text else none
  | _ :: _, [] => none

/-- Whether a text starts with the words `end` and `while`, only blanks between them. -/
def startsEndWhile (text : List Char) : Bool :=
  match afterPrefix? "end".toList text with
  | none => false
  | some rest =>
    match rest.takeWhile isBlank, afterPrefix? "while".toList (rest.dropWhile isBlank) with
    | _ :: _, some [] => true
    | _ :: _, some (c :: _) => !isWordChar c
    | _, _ => false

/-- How often `end` and `while` stand together as words, when `inWord` says that a word runs on from
before the text. -/
def endWhilesFrom (inWord : Bool) : List Char → Nat
  | [] => 0
  | c :: rest =>
    (if !inWord && startsEndWhile (c :: rest) then 1 else 0) + endWhilesFrom (isWordChar c) rest

/-- The number of words that open a block. A `while` after an `end` closes one instead. -/
def openerCount (source : List Char) : Int :=
  ((words source).countP fun w => blockOpeners.contains w) - (endWhilesFrom false source : Int)

/-- The number of words that close a block. -/
def endCount (source : List Char) : Nat := (words source).count "end".toList

/-- Whether a text occurs in another one. -/
def occursIn (part : List Char) : List Char → Bool
  | [] => part.isEmpty
  | c :: rest => part.isPrefixOf (c :: rest) || occursIn part rest

/-- Whether a text starts with a quote and a digit. -/
def startsQuotedDigit : List Char → Bool
  | '\'' :: c :: _ => isDecimalDigit c
  | _ => false

/-- The hints for a source text, the text found where parsing stopped and what was expected there. -/
def hintsFor (source found : List Char) (expected : List String) : List Hint :=
  let expectedText := (Data.list (expected.map .str)).text.toList
  (if openerCount source > endCount source then [.unclosedBlock] else []) ++
  (if ['\'', '\x7b'].isPrefixOf found || occursIn "do |".toList source then [.blockArgument] else []) ++
  (if found.contains '.' && !startsQuotedDigit found then [.methodCall] else []) ++
  (if occursIn "end".toList expectedText then [.unmatchedEnd] else [])

end MinRuby.ParseError
