import MinRuby.Numeric.FloatText
import MinRuby.Syntax.Escape
import MinRuby.Syntax.Parser
import MinRuby.Syntax.Term
import MinRuby.Text.Blank

/-!
# Tokens

Numerals, string literals, names, and the line ends and semicolons between statements. Blanks are
skipped before a token, line ends are not.
-/

namespace MinRuby.Syntax

open MinRuby.Text (isAsciiWord isBlank isDecimalDigit)
open MinRuby.Numeric (digitsValue ofDecimal)

/-- The reserved words. -/
def keywords : List String :=
  ["def", "end", "if", "elsif", "else", "unless", "while", "do", "begin", "case", "when", "then", "true",
    "false", "nil"]

namespace Parser

/-- Reads any reserved word. -/
def anyKeyword : Parser Unit := keywords.foldr (fun w p => keyword w <|> p) fail

/-- Reads the mark at the end of a name, which no equals sign may follow. -/
def nameMark : Parser Char := do
  let mark ← satisfying fun c => c == '?' || c == '!'
  notAhead (adjacent ['='])
  return mark

/-- Reads a name that is no reserved word. -/
def identifier : Parser String := do
  notAhead anyKeyword
  blanks
  let first ← satisfying fun c => c.isAlpha || c == '_'
  let more ← takeWhile isAsciiWord
  let mark ← optional nameMark
  return String.ofList (first :: more ++ mark.toList)

/-- Reads the fraction of a numeral. -/
def fraction : Parser (List Char) := do
  adjacent ['.']
  let first ← satisfying isDecimalDigit
  let more ← takeWhile fun c => isDecimalDigit c || c == '_'
  return first :: more

/-- Reads the exponent of a numeral. -/
def exponent : Parser Int := do
  let _ ← satisfying fun c => c == 'e' || c == 'E'
  let sign ← optional (satisfying fun c => c == '+' || c == '-')
  let first ← satisfying isDecimalDigit
  let more ← takeWhile isDecimalDigit
  let size : Int := digitsValue (first :: more)
  return if sign = some '-' then -size else size

/-- Reads a numeral: an integer, or a float if it has a fraction or an exponent. Underscores between the
digits do not count. -/
def numeral : Parser Literal := do
  blanks
  let first ← satisfying isDecimalDigit
  let more ← takeWhile fun c => isDecimalDigit c || c == '_'
  let whole := (first :: more).filter (· ≠ '_')
  let fraction? ← optional fraction
  let exponent? ← optional exponent
  if fraction?.isNone && exponent?.isNone then
    if maxDigits < whole.length then giveUp .numeral
    else return .int (digitsValue whole)
  else
    let fraction := (fraction?.getD []).filter (· ≠ '_')
    let shift : Int := exponent?.getD 0 - fraction.length
    return .float (ofDecimal false (digitsValue (whole ++ fraction)) shift)

/-- The characters up to the quote that ends a literal. A backslash takes the next character with it,
unless that is a line feed. -/
def literalBody (quote : Char) : List Char → Option (List Char)
  | [] => none
  | '\\' :: c :: rest => if c = '\n' then none else (literalBody quote rest).map ('\\' :: c :: ·)
  | c :: rest =>
    if c = quote then some []
    else if c = '\\' then none
    else (literalBody quote rest).map (c :: ·)

/-- Reads a literal between two quotes and gives what stands between them. -/
def quotedLiteral (quote : Char) : Parser (List Char) := do
  blanks
  adjacent [quote]
  fun c =>
    match literalBody quote c.rest with
    | some body => .done body (c.skip (body.length + 1))
    | none => .fail

/-- Reads a string literal. -/
def stringLiteral : Parser Literal :=
  (do return .str (String.ofList (unescapeDouble (← quotedLiteral '"'))))
    <|> (do return .str (String.ofList (unescapeSingle (← quotedLiteral '\''))))

/-- Reads any number of line ends. -/
def newlines : Parser Unit := do
  let _ ← many (symbol "\n")
  return ()

/-- Reads one of the marks between statements. -/
def separator : Parser Unit := symbol "\n" <|> symbol ";"

/-- Reads any number of marks between statements. -/
def separators : Parser Unit := do
  let _ ← many separator
  return ()

/-- Reads the marks between two statements. -/
def separators1 : Parser Unit := do
  separator
  separators

/-- Reads the marks between a condition and its body, with the given word behind them or without it. -/
def bodyStart (word : String) : Parser Unit :=
  (do separators; keyword word) <|> separators1

/-- Reads a comma; the next line may go on after it. -/
def comma : Parser Unit := do
  symbol ","
  newlines

end Parser

end MinRuby.Syntax
