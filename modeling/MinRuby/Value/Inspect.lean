import MinRuby.Limit
import MinRuby.Syntax.Escape
import MinRuby.Value.Store

/-!
# Values as text

Two texts of a value: `inspect` is the form of a literal, `display` the form for a reader, in which a
string is itself and nil is empty. A value that contains itself has neither, so both stop at a depth of
nesting.
-/

namespace MinRuby.Value

open MinRuby.Numeric (FloatLayout)

/-- The text of a value as a literal. -/
def inspect (s : Store) : Nat → Value → Except Limit String
  | _, nil => .ok "nil"
  | _, bool b => .ok (if b then "true" else "false")
  | _, int n => decimal n
  | _, float x => .ok (FloatLayout.shown.text x)
  | _, str t => .ok (String.ofList ('"' :: (Syntax.escape t.toList ++ ['"'])))
  | depth + 1, array a => do
    let items ← (s.array a).toList.mapM (inspect s depth)
    return "[" ++ ", ".intercalate items ++ "]"
  | depth + 1, hash a => do
    let entries ← (s.entries a).mapM fun e => do
      return (← inspect s depth e.key) ++ " => " ++ (← inspect s depth e.value)
    return "\x7b" ++ ", ".intercalate entries ++ "\x7d"
  | _, procedure a =>
    .ok ("#<" ++ Kind.userDefined.name ++ " " ++ ((s.procedure? a).map (·.name)).getD "" ++ ">")
  | 0, array _ | 0, hash _ => .error .depth

/-- The text of a value for a reader. -/
def display (s : Store) (depth : Nat) : Value → Except Limit String
  | nil => .ok ""
  | str t => .ok t
  | v => v.inspect s depth

/-- The lines that show a value: one for each element of an array, nested arrays included. -/
def displayLines (s : Store) : Nat → Value → Except Limit (List String)
  | depth + 1, array a => do return (← (s.array a).toList.mapM (displayLines s depth)).flatten
  | 0, array _ => .error .depth
  | depth, v => do return [← v.display s depth]

end MinRuby.Value
