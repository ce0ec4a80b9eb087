import MinRuby.Numeric.Number
import MinRuby.RuntimeError

/-!
# Values

The values that a program computes with. Arrays and hashes live in a store and a value holds only
their address, so that everyone who has the value sees every change. A definition is a value too, one
of its own each time it is evaluated.
-/

namespace MinRuby

open MinRuby.Numeric (Number)

/-- The place of an array, a hash or a procedure in a store. -/
abbrev Address := Nat

/-- A value of a program. -/
inductive Value where
  | nil
  | bool (b : Bool)
  | int (n : Int)
  | float (x : Float)
  | str (s : String)
  | array (a : Address)
  | hash (a : Address)
  /-- What a definition evaluates to. -/
  | procedure (a : Address)

namespace Value

instance : Inhabited Value := ⟨nil⟩

/-- The type of a value. -/
def kind : Value → Kind
  | nil => .nil
  | bool _ => .bool
  | int _ => .int
  | float _ => .float
  | str _ => .string
  | array _ => .array
  | hash _ => .hash
  | procedure _ => .userDefined

/-- Whether a value counts as true: all but `nil` and `false` do. -/
def truthy : Value → Bool
  | nil => false
  | bool b => b
  | _ => true

/-- The number that a value is. -/
def number? : Value → Option Number
  | int n => some (.int n)
  | float x => some (.float x)
  | _ => none

/-- Whether a value is a number. -/
def isNumeric (v : Value) : Bool := v.number?.isSome

/-- The value that a number is. -/
def ofNumber : Number → Value
  | .int n => int n
  | .float x => float x

@[simp] theorem number?_ofNumber (n : Number) : (ofNumber n).number? = some n := by
  cases n <;> rfl

end Value

end MinRuby
