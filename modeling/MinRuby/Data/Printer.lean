import MinRuby.Data.Basic
import MinRuby.Numeric.FloatText
import MinRuby.Text.Quoted

/-!
# Printed data

The one-line text of plain data: brackets for lists, parentheses for tuples, braces for mappings,
quoted texts, floats in the plain layout. An integer whose numeral would be too long has no text, and
so has no data that holds one; `hasLongNumeral` looks for it.
-/

namespace MinRuby

/-- The largest number of digits in a numeral. -/
def maxDigits : Nat := 4300

/-- The least natural number whose numeral is too long. -/
def numeralBound : Nat := Nat.pow 10 maxDigits

/-- Whether the numeral of an integer is too long to be written. The sign does not count. -/
def isLongNumeral (n : Int) : Bool := numeralBound ≤ n.natAbs

namespace Data

open MinRuby.Numeric (FloatLayout)

mutual

/-- Whether the data holds an integer that is too long to be written. -/
def hasLongNumeral : Data → Bool
  | int n => isLongNumeral n
  | list items => anyLongNumeral items
  | tuple items => anyLongNumeral items
  | mapping entries => anyLongEntry entries
  | _ => false

/-- Whether a member of the sequence holds an integer that is too long to be written. -/
def anyLongNumeral : List Data → Bool
  | [] => false
  | d :: rest => d.hasLongNumeral || anyLongNumeral rest

/-- Whether an entry of the mapping holds an integer that is too long to be written. -/
def anyLongEntry : List (Data × Data) → Bool
  | [] => false
  | (k, v) :: rest => k.hasLongNumeral || v.hasLongNumeral || anyLongEntry rest

end

mutual

/-- The text of data. -/
def text : Data → String
  | null => "None"
  | bool b => if b then "True" else "False"
  | int n => toString n
  | float x => FloatLayout.plain.text x
  | str s => String.ofList (Text.quoted s.toList)
  | list items => "[" ++ ", ".intercalate (texts items) ++ "]"
  | tuple [item] => "(" ++ item.text ++ ",)"
  | tuple items => "(" ++ ", ".intercalate (texts items) ++ ")"
  | mapping entries => "\x7b" ++ ", ".intercalate (entryTexts entries) ++ "\x7d"

/-- The texts of the members of a sequence. -/
def texts : List Data → List String
  | [] => []
  | d :: rest => d.text :: texts rest

/-- The texts of the entries of a mapping. -/
def entryTexts : List (Data × Data) → List String
  | [] => []
  | (k, v) :: rest => (k.text ++ ": " ++ v.text) :: entryTexts rest

end

/-- The text of data, with a string as itself. -/
def bareText : Data → String
  | str s => s
  | d => d.text

end Data

end MinRuby
