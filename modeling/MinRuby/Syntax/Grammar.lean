import MinRuby.Syntax.Token

/-!
# The grammar

The phrases of the language, each as a parser over the parsers of the phrases nested in it; `phrase`
ties the knot. A nested phrase starts after a character of the outer one at least, so a text of length
`n` never needs more than `n + 1` levels.

An operator commits: once it has been read an operand has to follow, or the whole expression fails. An
exponent does not commit, nor do the alternatives of a statement, which are an assignment, a compound
assignment, a command call and an expression, in this order.
-/

open MinRuby.Syntax.Parser

namespace MinRuby.Syntax

open MinRuby.Text (isBlank)

/-- The phrases that can be nested in others. -/
inductive Phrase where
  | expression
  /-- An operand with or without negations before it. -/
  | negated
  /-- An operand with or without signs before it. -/
  | signed
  /-- What can stand on the right of an assignment. -/
  | value
  | statement
  | block
deriving DecidableEq, Repr

/-- The spellings of the operators of one level of precedence. -/
abbrev Level := List (String × Connective)

/-- The levels of precedence of the operators between two operands, loosest first. -/
def levels : List Level :=
  [[("||", .either)],
    [("&&", .both)],
    [("==", .core .eq), ("!=", .notEqual)],
    [("<=", .core .le), (">=", .core .ge), ("<", .core .lt), (">", .core .gt)],
    [("-", .core .sub), ("+", .core .add)],
    [("*", .core .mul), ("/", .core .div), ("%", .core .mod)]]

/-- Reads the spelling of an operator. A single star is not one of two. -/
def spelling (text : String) : Parser Unit :=
  if text = "*" then do symbol text; notAhead (adjacent ['*'])
  else symbol text

/-- Reads an operator of the level; its operand may stand on a later line. -/
def Level.operator (level : Level) : Parser Connective :=
  level.foldr (fun o p => (do spelling o.1; newlines; return o.2) <|> p) fail

/-- Reads operators and operands while there are operators, at most `bound` of them, and groups them
from the left. -/
def leftChain (operator : Parser Connective) (operand : Parser Term) : Nat → Term → Parser Term
  | 0, left => Parser.pure left
  | bound + 1, left => fun c =>
    match operator c with
    | .done op c' =>
      match operand c' with
      | .done right c'' => leftChain operator operand bound (.binary op left right) c''
      | .fail => .fail
      | .giveUp r => .giveUp r
    | .fail => .done left c
    | .giveUp r => .giveUp r

/-- Reads operands with the operators of the given levels between them. The very first operand is read
by a parser of its own. -/
def chain (operand : Parser Term) : List Level → Parser Term → Parser Term
  | [], first => first
  | level :: tighter, first => do
    let left ← chain operand tighter first
    fun c => leftChain level.operator (chain operand tighter operand) c.rest.length left c

section

variable (nested : Phrase → Parser Term)

/-! ## Operands -/

/-- Reads expressions with commas between them. -/
def expressions : Parser (List Term) := sepBy1 (nested .expression) comma

/-- Reads a call whose arguments stand in parentheses right behind the name. -/
def callWithParentheses : Parser Term := do
  let function ← identifier
  adjacent ['(']
  newlines
  let args ← optional (expressions nested)
  newlines
  symbol ")"
  return .call function (args.getD [])

/-- Reads an array literal; a comma may end its list. -/
def arrayLiteral : Parser Term := do
  symbol "["
  newlines
  let items ← optional do
    let items ← expressions nested
    let _ ← optional (symbol ",")
    return items
  newlines
  symbol "]"
  return .array (items.getD [])

/-- Reads a key and its value. -/
def keyAndValue : Parser (List Term) := do
  let key ← nested .expression
  symbol "=>"
  newlines
  let value ← nested .expression
  return [key, value]

/-- Reads a hash literal; a comma may end its list. -/
def hashLiteral : Parser Term := do
  symbol "\x7b"
  newlines
  let items ← optional do
    let pairs ← sepBy1 (keyAndValue nested) comma
    let _ ← optional (symbol ",")
    return pairs.flatten
  newlines
  symbol "\x7d"
  return .hash (items.getD [])

/-- Reads a statement in parentheses. -/
def parenthesized : Parser Term := do
  symbol "("
  newlines
  let inner ← nested .statement
  newlines
  symbol ")"
  return inner

/-- Reads an else branch. -/
def elseBranch : Parser Term := do
  keyword "else"
  nested .block

/-- Reads a condition and its body behind the given word. -/
def clause (word : String) : Parser (Term × Term) := do
  keyword word
  let test ← nested .expression
  bodyStart "then"
  let body ← nested .block
  return (test, body)

/-- Reads an `if`. -/
def ifExpression : Parser Term := do
  let (test, body) ← clause nested "if"
  let clauses ← many (clause nested "elsif")
  let otherwise ← optional (elseBranch nested)
  keyword "end"
  return .choices test body clauses (otherwise.getD .nothing)

/-- Reads an `unless`. -/
def unlessExpression : Parser Term := do
  let (test, body) ← clause nested "unless"
  let otherwise ← optional (elseBranch nested)
  keyword "end"
  return .choiceUnless test body (otherwise.getD .nothing)

/-- Reads a `while`. -/
def whileExpression : Parser Term := do
  keyword "while"
  let test ← nested .expression
  bodyStart "do"
  let body ← nested .block
  keyword "end"
  return .loop test body

/-- Reads a `when` clause. -/
def whenClause : Parser (List Term × Term) := do
  keyword "when"
  let values ← expressions nested
  bodyStart "then"
  let body ← nested .block
  return (values, body)

/-- Reads a `case`. -/
def caseExpression : Parser Term := do
  keyword "case"
  let subject ← nested .expression
  separators
  let clauses ← many1 (whenClause nested)
  let otherwise ← optional (elseBranch nested)
  keyword "end"
  return .caseOf subject (.ofList clauses (otherwise.getD .nothing))

/-- Reads parameter names, in parentheses or without; there may be none. -/
def parameters : Parser (List String) :=
  (do
    symbol "("
    newlines
    let names ← optional (sepBy1 identifier comma)
    newlines
    symbol ")"
    return names.getD [])
  <|> (do return (← optional (sepBy1 identifier (symbol ","))).getD [])

/-- Reads a definition. -/
def definition : Parser Term := do
  keyword "def"
  let name ← identifier
  let params ← parameters
  let body ← nested .block
  keyword "end"
  return .definition name params body

/-- Reads a `begin` block. -/
def beginExpression : Parser Term := do
  keyword "begin"
  let body ← nested .block
  keyword "end"
  return .beginEnd body

/-- Reads the word for a literal. -/
def literalWord (word : String) (value : Literal) : Parser Term := do
  keyword word
  return .lit value

/-- Reads an operand without signs, negations or indices. -/
def primary : Parser Term :=
  (Term.lit <$> numeral)
  <|> (Term.lit <$> stringLiteral)
  <|> literalWord "true" (.bool true)
  <|> literalWord "false" (.bool false)
  <|> literalWord "nil" .nil
  <|> arrayLiteral nested
  <|> hashLiteral nested
  <|> parenthesized nested
  <|> ifExpression nested
  <|> unlessExpression nested
  <|> whileExpression nested
  <|> caseExpression nested
  <|> definition nested
  <|> beginExpression nested
  <|> callWithParentheses nested
  <|> (Term.name <$> identifier)

/-- Reads an index right behind what it indexes. -/
def indexing : Parser Term := do
  adjacent ['[']
  newlines
  let position ← nested .expression
  newlines
  symbol "]"
  return position

/-- Reads an operand with its indices. -/
def indexed : Parser Term := do
  let base ← primary nested
  let positions ← many (indexing nested)
  return positions.foldl .index base

/-- Reads a negation. -/
def negation : Parser Term := do
  symbol "!"
  notAhead (adjacent ['='])
  return .negation (← nested .negated)

/-- Reads an operand with or without negations before it. -/
def negated : Parser Term := negation nested <|> indexed nested

/-- Reads what `base` reads, and an exponent if one follows. An exponent may have a sign. -/
def power (base : Parser Term) : Parser Term := do
  let base ← base
  let exponent ← optional do
    symbol "**"
    newlines
    nested .signed
  return match exponent with
    | some exponent => .binary (.core .pow) base exponent
    | none => base

/-- Reads a minus sign and its operand. -/
def minus : Parser Term := do
  symbol "-"
  return .minus (← nested .signed)

/-- Reads an operand with or without signs before it. -/
def signed : Parser Term := minus nested <|> power nested (negated nested)

/-! ## Expressions and statements -/

/-- Reads an expression whose first operand `first` reads. -/
def expressionFrom (first : Parser Term) : Parser Term := do
  let test ← chain (signed nested) levels first
  match ← optional (do symbol "?"; newlines) with
  | none => return test
  | some _ =>
    let yes ← nested .expression
    symbol ":"
    newlines
    let no ← nested .expression
    return .choice test yes no

/-- Reads an expression. -/
def expression : Parser Term := expressionFrom nested (signed nested)

/-- Reads an equals sign and a value behind the target of an assignment. -/
def assignment (target : Term) : Parser Term := do
  symbol "="
  notAhead (satisfying fun c => c == '=' || c == '~' || c == '>')
  newlines
  let value ← nested .value
  ofOption (target.assign? value)

/-- The operators that can be joined with an assignment. -/
def compoundOperators : List (String × BinaryOp) :=
  [("**=", .pow), ("-=", .sub), ("+=", .add), ("*=", .mul), ("/=", .div), ("%=", .mod)]

/-- Reads the operator of a compound assignment. -/
def compoundOperator : Parser BinaryOp :=
  compoundOperators.foldr (fun o p => (do symbol o.1; return o.2) <|> p) fail

/-- Reads an operator, an equals sign and a value behind the target of an assignment. -/
def compoundAssignment (target : Term) : Parser Term := do
  let op ← compoundOperator
  newlines
  let value ← nested .value
  ofOption (target.update? op value)

/-- Reads what no argument of a command call starts with: an operator, a closing mark, or a sign with a
blank behind it. -/
def noArgument : Parser Unit := do
  blanks
  (do
    let _ ← satisfying fun c => "*/%<>=&|?:,.)]\x7d".toList.contains c
    return ())
  <|> (do
    let _ ← satisfying fun c => c == '-' || c == '+' || c == '!'
    let _ ← satisfying isBlank
    return ())

/-- Reads an argument of a command call. -/
def commandArgument : Parser Term := do
  notAhead (keyword "if" <|> keyword "unless" <|> keyword "while")
  nested .value

/-- Reads a call whose arguments follow the name without parentheses. -/
def commandCall : Parser Term := do
  let function ← identifier
  notAhead (adjacent ['('])
  notAhead (adjacent ['['])
  notAhead noArgument
  let args ← sepBy1 (commandArgument nested) comma
  return .call function args

/-- Reads what can stand on the right of an assignment. All alternatives that can start with an operand
without sign share it. -/
def value : Parser Term := fun c =>
  match indexed nested c with
  | .done target c' =>
    let assigned := assignment nested target <|> compoundAssignment nested target
    match assigned c' with
    | .done t c'' => .done t c''
    | .giveUp r => .giveUp r
    | .fail =>
      match commandCall nested c with
      | .done t c'' => .done t c''
      | .giveUp r => .giveUp r
      | .fail => expressionFrom nested (power nested (Parser.pure target)) c'
  | .fail => expressionFrom nested (minus nested <|> power nested (negation nested)) c
  | .giveUp r => .giveUp r

/-- Reads a modifier and its condition. -/
def modifier : Parser (Modifier × Term) := do
  let kind ← (do keyword "if"; return Modifier.whenTrue)
    <|> (do keyword "unless"; return Modifier.unlessTrue)
    <|> (do keyword "while"; return Modifier.whileTrue)
  let test ← nested .expression
  return (kind, test)

/-- Reads a statement with its modifiers. -/
def statement : Parser Term := do
  let base ← value nested
  let modifiers ← many (modifier nested)
  return modifiers.foldl (fun s m => .modified s m.1 m.2) base

/-- Reads statements, as many as there are. -/
def block : Parser Term := do
  separators
  let statements ← optional (sepBy1 (statement nested) separators1)
  separators
  return .block (statements.getD [])

/-- Reads a phrase. -/
def rule : Phrase → Parser Term
  | .expression => expression nested
  | .negated => negated nested
  | .signed => signed nested
  | .value => value nested
  | .statement => statement nested
  | .block => block nested

end

/-- Reads a phrase in which others are nested less than `depth` levels deep. -/
def phrase : Nat → Phrase → Parser Term
  | 0, _ => giveUp .depth
  | depth + 1, p => rule (phrase depth) p

/-- Reads a phrase at the start of a text. -/
def parsePhrase (p : Phrase) (text : List Char) : Reply Term :=
  phrase (text.length + 1) p (.start text)

end MinRuby.Syntax
