import MinRuby.Value.Indexing

/-!
# Operators on values

Arithmetic is for numbers, comparison for two numbers or two strings, equality for all values. Besides,
`+` joins strings and arrays and `*` repeats them.
-/

namespace MinRuby.Value

open MinRuby.Numeric (ArithmeticError Number)
open MinRuby.Syntax (BinaryOp)

/-- The largest count of a repetition, and the largest length it may give. -/
def maxLength : Nat := Nat.pow 2 63 - 1

/-- The list repeated as often as the count says. -/
def repeated {α : Type} (items : List α) (count : Int) : Except Failure (List α) :=
  if count < 0 then blame .negativeCount
  else if (maxLength : Int) < count ∨ (maxLength : Int) < items.length * count then .error (.limit .count)
  else if items.isEmpty then .ok []
  else .ok (List.replicate count.toNat items).flatten

/-- The runtime error for an operation on numbers that has no result. -/
def arithmeticError (op : BinaryOp) : ArithmeticError → RuntimeError
  | .divisionByZero => .dividedByZero op.symbol
  | .notReal => .notReal

/-- The result of an operator on two numbers. -/
def onNumbers (op : BinaryOp) (a b : Number) : Except ArithmeticError Value :=
  match op with
  | .add => .ok (ofNumber (a.add b))
  | .sub => .ok (ofNumber (a.sub b))
  | .mul => .ok (ofNumber (a.mul b))
  | .div => ofNumber <$> a.div b
  | .mod => ofNumber <$> a.mod b
  | .pow => ofNumber <$> a.pow b
  | .lt => .ok (bool (a.lt b))
  | .le => .ok (bool (a.le b))
  | .ge => .ok (bool (b.le a))
  | .gt => .ok (bool (b.lt a))
  | .eq => .ok (bool (a.equal b))

/-- The result of an operator on other values than two numbers, equality apart. -/
def onOthers (op : BinaryOp) (x y : Value) : StoreM Value :=
  match op, x, y with
  | .add, str t, str u => return str (t ++ u)
  | .add, array a, array b => modifyGet fun s => s.newArray (s.array a ++ s.array b)
  | .mul, str t, int n => do return str (String.ofList (← repeated t.toList n))
  | .mul, array a, int n => do
    let items ← repeated ((← get).array a).toList n
    modifyGet fun s => s.newArray items.toArray
  | .lt, str t, str u => return bool (t < u)
  | .le, str t, str u => return bool (t ≤ u)
  | .ge, str t, str u => return bool (u ≤ t)
  | .gt, str t, str u => return bool (u < t)
  | op, x, y => (blame (.badOperands op.symbol x.kind y.kind) : Except Failure Value)

/-- The result of an operator on two values. -/
def apply (depth : Nat) (op : BinaryOp) (x y : Value) : StoreM Value :=
  match op with
  | .eq => do return bool (← x.equal (← get) depth y)
  | op =>
    match x.number?, y.number? with
    | some a, some b => ((onNumbers op a b).mapError (arithmeticError op) : Except RuntimeError Value)
    | _, _ => onOthers op x y

end MinRuby.Value
