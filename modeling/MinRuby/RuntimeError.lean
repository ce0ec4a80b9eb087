/-!
# Runtime errors

What a program can do wrong while it runs. A `RuntimeError` names the cause; its class, its wording and
the construct at which it arose follow from that.

* `RuntimeError.message` — the text of an error: class, description, construct.
-/

namespace MinRuby

/-- The types of values. -/
inductive Kind where
  | int | float | bool | nil | string | array | hash | userDefined
deriving DecidableEq, Repr

/-- The name of a type. -/
def Kind.name : Kind → String
  | .int => "Int"
  | .float => "Float"
  | .bool => "Bool"
  | .nil => "Nil"
  | .string => "String"
  | .array => "Array"
  | .hash => "Hash"
  | .userDefined => "UserDefined"

/-- The classes of runtime errors. -/
inductive ErrorClass where
  | undefinedVariable | undefinedFunction | divisionByZero | indexOutOfRange | unrecognizedNodeTag
  | arityMismatch | typeMismatch | programLoadError
deriving DecidableEq, Repr

/-- The name of an error class. -/
def ErrorClass.name : ErrorClass → String
  | .undefinedVariable => "UndefinedVariable"
  | .undefinedFunction => "UndefinedFunction"
  | .divisionByZero => "DivisionByZero"
  | .indexOutOfRange => "IndexOutOfRange"
  | .unrecognizedNodeTag => "UnrecognizedNodeTag"
  | .arityMismatch => "ArityMismatch"
  | .typeMismatch => "TypeMismatch"
  | .programLoadError => "ProgramLoadError"

/-- What a program did wrong. -/
inductive RuntimeError where
  | unboundVariable (name : String)
  | unknownFunction (name : String)
  | unknownBuiltin (name : String)
  | dividedByZero (operator : String)
  | indexOutside (index : Int) (size : Nat)
  | indexTooSmall (index : Int)
  | keyNotFound (key : String)
  /-- A node whose tag, shown quoted and bare, names no construct. -/
  | unknownTag (shown bare : String)
  | wrongArguments (function : String) (given expected : Nat)
  | wrongBuiltinArguments (builtin : String) (given expected : Nat)
  | badOperands (operator : String) (left right : Kind)
  | negativeCount
  | notReal
  | cannotIndex (container : Kind)
  | cannotAssignInto (container : Kind)
  | badIndex (tag : String) (index : Kind)
  | badKey (key : Kind)
  | requireOf (argument : Kind)
  | parseOf (argument : Kind)
  | callOf (name : Kind)
  | callWith (arguments : Kind)
  | noSuchLibrary (name : String)
  | noFileLeft
  | unreadable (path reason : String)
deriving DecidableEq, Repr

namespace RuntimeError

/-- The class of an error. -/
def errorClass : RuntimeError → ErrorClass
  | unboundVariable _ => .undefinedVariable
  | unknownFunction _ | unknownBuiltin _ => .undefinedFunction
  | dividedByZero _ => .divisionByZero
  | indexOutside .. | indexTooSmall _ | keyNotFound _ => .indexOutOfRange
  | unknownTag .. => .unrecognizedNodeTag
  | wrongArguments .. | wrongBuiltinArguments .. => .arityMismatch
  | noSuchLibrary _ | noFileLeft | unreadable .. => .programLoadError
  | _ => .typeMismatch

/-- What happened, in words. -/
def description : RuntimeError → String
  | unboundVariable name => s!"undefined local variable '{name}'"
  | unknownFunction name => s!"undefined method '{name}'"
  | unknownBuiltin name => s!"Undefined builtin: {name}"
  | dividedByZero _ => "divided by 0"
  | indexOutside index size => s!"index {index} outside of array of size {size}"
  | indexTooSmall index => s!"index {index} too small for array"
  | keyNotFound key => s!"key not found: {key}"
  | unknownTag shown _ => s!"Unknown node tag: {shown}"
  | wrongArguments function given expected =>
    s!"wrong number of arguments for '{function}' (given {given}, expected {expected})"
  | wrongBuiltinArguments builtin given expected =>
    s!"{builtin} requires {expected} arguments, got {given}"
  | badOperands operator left right => s!"Cannot apply '{operator}' to {left.name} and {right.name}"
  | negativeCount => "Negative repetition count"
  | notReal => "Result is not a real number"
  | cannotIndex container => s!"Cannot index into {container.name}"
  | cannotAssignInto container => s!"Cannot assign into {container.name}"
  | badIndex _ index => s!"Array index must be an Int, got {index.name}"
  | badKey key => s!"{key.name} cannot be used as a hash key"
  | requireOf argument => s!"require expects a String, got {argument.name}"
  | parseOf argument => s!"minruby_parse expects a String, got {argument.name}"
  | callOf name => s!"minruby_call expects a String name, got {name.name}"
  | callWith arguments => s!"minruby_call expects an Array of arguments, got {arguments.name}"
  | noSuchLibrary name => s!"cannot load such file -- {name}"
  | noFileLeft => "No program file left to load"
  | unreadable path reason => s!"Cannot read {path}: {reason}"

/-- The construct at which the error arose; empty if the text names none. -/
def site : RuntimeError → String
  | unboundVariable _ => "var_ref"
  | dividedByZero operator => operator
  | indexOutside .. | keyNotFound _ | cannotIndex _ => "ary_ref"
  | indexTooSmall _ | cannotAssignInto _ => "ary_assign"
  | unknownTag _ bare => bare
  | badOperands operator _ _ => operator
  | negativeCount => "*"
  | notReal => "**"
  | badIndex tag _ => tag
  | badKey _ => ""
  | _ => "func_call"

/-- The full text of an error. -/
def message (e : RuntimeError) : String :=
  if e.site.isEmpty then s!"{e.errorClass.name}: {e.description}"
  else s!"{e.errorClass.name}: {e.description} (in '{e.site}')"

example : (unboundVariable "x").message =
    "UndefinedVariable: undefined local variable 'x' (in 'var_ref')" := by rfl

end RuntimeError

end MinRuby
