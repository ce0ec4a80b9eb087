/-!
# Escapes in string literals

Between double quotes a backslash and a letter stand for a control character, a blank, a quote or a
backslash; before any other character the backslash is dropped. Between single quotes a backslash
protects a backslash or a single quote and stands for itself elsewhere.

* `unescapeDouble_escape` — the body that `escape` writes stands for the text it was written for.
-/

namespace MinRuby.Syntax

/-- What a character stands for after a backslash between double quotes. -/
def escaped (c : Char) : Char :=
  match c with
  | 'n' => '\n'
  | 't' => '\t'
  | 'r' => '\r'
  | 's' => ' '
  | '0' => '\x00'
  | 'a' => '\x07'
  | 'b' => '\x08'
  | 'f' => '\x0c'
  | 'v' => '\x0b'
  | 'e' => '\x1b'
  | c => c

/-- The characters that the body of a double-quoted literal stands for. -/
def unescapeDouble : List Char → List Char
  | [] => []
  | '\\' :: c :: rest => escaped c :: unescapeDouble rest
  | c :: rest => c :: unescapeDouble rest

/-- The characters that the body of a single-quoted literal stands for. -/
def unescapeSingle : List Char → List Char
  | [] => []
  | '\\' :: '\\' :: rest => '\\' :: unescapeSingle rest
  | '\\' :: '\'' :: rest => '\'' :: unescapeSingle rest
  | c :: rest => c :: unescapeSingle rest

/-- A character as it is written between double quotes. -/
def escapeChar (c : Char) : List Char :=
  match c with
  | '\\' => ['\\', '\\']
  | '"' => ['\\', '"']
  | '\n' => ['\\', 'n']
  | '\t' => ['\\', 't']
  | '\r' => ['\\', 'r']
  | '\x00' => ['\\', '0']
  | '\x07' => ['\\', 'a']
  | '\x08' => ['\\', 'b']
  | '\x0c' => ['\\', 'f']
  | '\x0b' => ['\\', 'v']
  | '\x1b' => ['\\', 'e']
  | c => [c]

/-- The body of a double-quoted literal that stands for a text. -/
def escape (text : List Char) : List Char := text.flatMap escapeChar

theorem unescapeDouble_escapeChar (c : Char) (rest : List Char) :
    unescapeDouble (escapeChar c ++ rest) = c :: unescapeDouble rest := by
  unfold escapeChar
  split
  case h_12 h _ _ _ _ _ _ _ _ _ _ =>
    rw [List.singleton_append, unescapeDouble]
    intro d _ h'
    exact absurd h' h
  all_goals rfl

theorem unescapeDouble_escape (text : List Char) : unescapeDouble (escape text) = text := by
  induction text with
  | nil => rfl
  | cons c rest ih => simpa [escape, unescapeDouble_escapeChar] using ih

end MinRuby.Syntax
