import MinRuby.Text.Word

/-!
# Parsers with ordered choice

A parser reads a prefix of the text at a cursor and gives a value and the cursor behind it, or fails
there. Choice is ordered: an alternative is tried only where the one before it fails, and what has
matched is never reconsidered. Besides failing a parser can give up the whole parse.

* `Parser.orElse` — tries a second parser where the first fails.
* `Parser.many` — reads as often as possible; each round has to read something.
-/

namespace MinRuby.Syntax

/-- A place in a text: the character before it, and the characters from it on. -/
structure Cursor where
  before : Option Char
  rest : List Char

/-- The place at the start of a text. -/
def Cursor.start (text : List Char) : Cursor := ⟨none, text⟩

/-- Why a parse was given up. -/
inductive Surrender where
  /-- An integer numeral has too many digits. -/
  | numeral
  /-- The constructs of the text nest more deeply than the parser was prepared for. -/
  | depth
deriving DecidableEq, Repr

/-- The outcome of a parser at a cursor. -/
inductive Reply (α : Type) where
  | done (value : α) (next : Cursor)
  | fail
  | giveUp (reason : Surrender)

/-- Reads a value from the text at a cursor. -/
def Parser (α : Type) := Cursor → Reply α

namespace Parser

variable {α β : Type}

/-- Reads nothing. -/
def pure (a : α) : Parser α := fun c => .done a c

/-- Fails everywhere. -/
def fail : Parser α := fun _ => .fail

/-- Gives up the parse. -/
def giveUp (reason : Surrender) : Parser α := fun _ => .giveUp reason

/-- Reads one thing after another. -/
def bind (p : Parser α) (f : α → Parser β) : Parser β := fun c =>
  match p c with
  | .done a c' => f a c'
  | .fail => .fail
  | .giveUp r => .giveUp r

instance : Monad Parser where
  pure := pure
  bind := bind

instance : Inhabited (Parser α) := ⟨fail⟩

/-- Tries `q` where `p` fails. -/
def orElse (p : Parser α) (q : Unit → Parser α) : Parser α := fun c =>
  match p c with
  | .done a c' => .done a c'
  | .fail => q () c
  | .giveUp r => .giveUp r

instance : OrElse (Parser α) := ⟨orElse⟩

/-- Reads what `p` reads, or nothing. -/
def optional (p : Parser α) : Parser (Option α) := fun c =>
  match p c with
  | .done a c' => .done (some a) c'
  | .fail => .done none c
  | .giveUp r => .giveUp r

/-- Succeeds, reading nothing, where `p` fails. -/
def notAhead (p : Parser α) : Parser Unit := fun c =>
  match p c with
  | .done _ _ => .fail
  | .fail => .done () c
  | .giveUp r => .giveUp r

/-- Reads what `p` reads, at most `bound` times, until it fails. -/
def upTo (p : Parser α) : Nat → Parser (List α)
  | 0 => pure []
  | bound + 1 => fun c =>
    match p c with
    | .done a c' =>
      match upTo p bound c' with
      | .done as c'' => .done (a :: as) c''
      | .fail => .fail
      | .giveUp r => .giveUp r
    | .fail => .done [] c
    | .giveUp r => .giveUp r

/-- Reads what `p` reads until it fails, if each time it reads a character at least. -/
def many (p : Parser α) : Parser (List α) := fun c => upTo p c.rest.length c

/-- Reads what `p` reads until it fails, once at least. -/
def many1 (p : Parser α) : Parser (List α) := do
  let first ← p
  let more ← many p
  return first :: more

/-- Reads one or more items with the separator between them. -/
def sepBy1 (item : Parser α) (separator : Parser β) : Parser (List α) := do
  let first ← item
  let more ← many (do let _ ← separator; item)
  return first :: more

/-- Keeps a value if there is one. -/
def ofOption (a? : Option α) : Parser α :=
  match a? with
  | some a => pure a
  | none => fail

end Parser

/-! ## Tokens -/

namespace Cursor

/-- The place after the first character, the character before it known. -/
def advance (c : Cursor) : Cursor :=
  match c.rest with
  | [] => c
  | x :: rest => ⟨some x, rest⟩

/-- The place behind the given number of characters. -/
def skip : Nat → Cursor → Cursor
  | 0, c => c
  | n + 1, c => skip n c.advance

/-- The place behind the blanks at a cursor. Line feeds are no blanks here. -/
def skipBlanks (c : Cursor) : Cursor := c.skip (c.rest.takeWhile (· == ' ')).length

end Cursor

/-- Whether a character keeps a keyword next to it from being one. -/
def joinsKeyword (c : Char) : Bool := Text.isAsciiWord c || c == '$'

namespace Parser

/-- Reads blanks. -/
def blanks : Parser Unit := fun c => .done () c.skipBlanks

/-- Reads the given characters, no blanks before them. -/
def adjacent (text : List Char) : Parser Unit := fun c =>
  if text.isPrefixOf c.rest then .done () (c.skip text.length) else .fail

/-- Reads the given characters, after blanks. -/
def symbol (text : String) : Parser Unit := do
  blanks
  adjacent text.toList

/-- Reads a word that no letter, digit, underscore or dollar sign touches, after blanks. -/
def keyword (word : String) : Parser Unit := do
  blanks
  fun c =>
    let text := word.toList
    if text.isPrefixOf c.rest && !c.before.any joinsKeyword &&
        !(c.rest.drop text.length).head?.any joinsKeyword then
      .done () (c.skip text.length)
    else .fail

/-- Reads the characters that satisfy the predicate, up to the first that does not. -/
def takeWhile (p : Char → Bool) : Parser (List Char) := fun c =>
  let taken := c.rest.takeWhile p
  .done taken (c.skip taken.length)

/-- Reads one character that satisfies the predicate. -/
def satisfying (p : Char → Bool) : Parser Char := fun c =>
  match c.rest with
  | x :: _ => if p x then .done x c.advance else .fail
  | [] => .fail

end Parser

end MinRuby.Syntax
