import MinRuby.Numeric.Binary64

/-!
# Numbers

The two numeric types of the language, unbounded integers and doubles, and their arithmetic. Integers
stay exact among themselves. Together with a float an integer counts as the nearest float, an
infinity if it is out of range; comparisons never round.

Every double is a whole multiple of the smallest positive one, so `Number.scaled`, the number counted in that
unit, makes comparison of numbers comparison of integers.

* `Number.equal_iff` — two numbers are equal when neither is NaN and they scale to the same.
-/

namespace MinRuby.Numeric

/-- A number of the language. -/
inductive Number where
  | int (n : Int)
  | float (x : Float)

/-- Why an operation on two numbers has no result. -/
inductive ArithmeticError where
  | divisionByZero
  /-- A negative base under a broken exponent. -/
  | notReal
deriving DecidableEq, Repr

/-- A number that can be compared: an integer or an infinity. -/
inductive Scaled where
  | below
  | finite (n : Int)
  | above
deriving DecidableEq, Repr

/-- Order with the infinities at the ends. -/
def Scaled.le : Scaled → Scaled → Bool
  | .below, _ => true
  | _, .above => true
  | .finite a, .finite b => a ≤ b
  | _, _ => false

namespace Number

/-- One, counted in the smallest positive double. -/
def unitScale : Int := (Nat.pow 2 (-leastExponent).toNat : Nat)

theorem unitScale_pos : 0 < unitScale := by
  have h (n : Nat) : (0 : Int) < (Nat.pow 2 n : Nat) :=
    Int.natCast_pos.2 (Nat.pow_pos (Nat.succ_pos 1))
  exact h _

/-- The number as a count of the smallest positive double; `none` for NaN. -/
def scaled : Number → Option Scaled
  | int n => some (.finite (n * unitScale))
  | float x =>
    match Binary64.ofFloat x with
    | .nan => none
    | .infinite negative => some (if negative then .below else .above)
    | .finite negative m q =>
      let size : Int := m * Nat.pow 2 (q - leastExponent).toNat
      some (.finite (if negative then -size else size))

/-- Whether two numbers are the same number, whatever their types. NaN is not even itself. -/
def equal : Number → Number → Bool
  | int a, int b => a = b
  | a, b =>
    match a.scaled, b.scaled with
    | some x, some y => x = y
    | _, _ => false

/-- Whether the first number is at most the second; false if one of them is NaN. -/
def le : Number → Number → Bool
  | int a, int b => a ≤ b
  | a, b =>
    match a.scaled, b.scaled with
    | some x, some y => x.le y
    | _, _ => false

/-- Whether the first number is below the second; false if one of them is NaN. -/
def lt (a b : Number) : Bool := a.le b && !(b.le a)

theorem equal_iff {a b : Number} : a.equal b = true ↔ ∃ s, a.scaled = some s ∧ b.scaled = some s := by
  have hne : unitScale ≠ 0 := Int.ne_of_gt unitScale_pos
  unfold equal
  split
  · next m n =>
    simp only [scaled, decide_eq_true_eq, Option.some.injEq]
    constructor
    · rintro rfl
      exact ⟨_, rfl, rfl⟩
    · rintro ⟨s, hm, hn⟩
      exact (Int.mul_eq_mul_right_iff hne).1 (Scaled.finite.inj (hm.trans hn.symm))
  · cases ha : a.scaled <;> cases hb : b.scaled <;> simp [eq_comm]

/-- The nearest float. -/
def toFloat : Number → Float
  | int n => ofInt n
  | float x => x

/-- Whether the number is an integer too large to be a float. -/
def outOfRange : Number → Bool
  | int n =>
    match Binary64.ofFloat (ofInt n) with
    | .infinite _ => true
    | _ => false
  | float _ => false

/-- Whether the number is an odd integer. -/
def isOdd : Number → Bool
  | int n => n % 2 ≠ 0
  | float x =>
    match Binary64.ofFloat x with
    | .finite _ m q =>
      if 0 ≤ q then q = 0 && m % 2 = 1
      else m % Nat.pow 2 (-q).toNat = 0 && m / Nat.pow 2 (-q).toNat % 2 = 1
    | _ => false

/-- Whether the number is below zero. -/
def isBelowZero (a : Number) : Bool := a.lt (int 0)

/-- The sum. -/
def add : Number → Number → Number
  | int a, int b => int (a + b)
  | a, b => float (a.toFloat + b.toFloat)

/-- The difference. -/
def sub : Number → Number → Number
  | int a, int b => int (a - b)
  | a, b => float (a.toFloat - b.toFloat)

/-- The product. -/
def mul : Number → Number → Number
  | int a, int b => int (a * b)
  | a, b => float (a.toFloat * b.toFloat)

/-- The quotient; of integers, rounded down. -/
def div : Number → Number → Except ArithmeticError Number
  | int a, int b => if b = 0 then .error .divisionByZero else .ok (int (a.fdiv b))
  | a, b => .ok (float (a.toFloat / b.toFloat))

/-- The remainder of floats: what is left of `x` after taking away a whole multiple of `y`, moved to
the side of zero on which `y` lies. -/
def floatMod (x y : Float) : Float :=
  match Binary64.ofFloat x, Binary64.ofFloat y with
  | .nan, _ | .infinite _, _ | _, .nan => notANumber
  | .finite negative m _, .infinite negative' =>
    if m = 0 then zeroFloat negative' else if negative = negative' then x else y
  | .finite negative m q, .finite negative' m' q' =>
    if m' = 0 then notANumber
    else
      let least := min q q'
      let left := m * Nat.pow 2 (q - least).toNat % (m' * Nat.pow 2 (q' - least).toNat)
      if left = 0 then zeroFloat negative'
      else
        let remainder := ofParts negative left least
        if negative = negative' then remainder else remainder + y

/-- The remainder, of the sign of the divisor; of floats NaN when the divisor is zero. -/
def mod : Number → Number → Except ArithmeticError Number
  | int a, int b => if b = 0 then .error .divisionByZero else .ok (int (a.fmod b))
  | a, b => .ok (float (floatMod a.toFloat b.toFloat))

end Number

/-- The power of an integer. The bases whose powers stay small are treated apart, so that their
exponent may be of any size. -/
def intPow (base : Int) (exponent : Nat) : Int :=
  if base = 0 then (if exponent = 0 then 1 else 0)
  else if base = 1 then 1
  else if base = -1 then (if exponent % 2 = 0 then 1 else -1)
  else if base < 0 ∧ exponent % 2 = 1 then -((Nat.pow base.natAbs exponent : Nat) : Int)
  else ((Nat.pow base.natAbs exponent : Nat) : Int)

/-- The power of an infinity under a finite exponent. -/
def infinityPow (negative : Bool) (y : Number) : Float :=
  let negative := negative && y.isOdd
  if y.equal (.int 0) then oneFloat else if y.isBelowZero then zeroFloat negative else infinity negative

/-- The power under an infinite exponent. -/
def powInfinity (base : Binary64) (negative : Bool) : Float :=
  match base.compareOne with
  | .eq => oneFloat
  | .gt => if negative then zeroFloat false else infinity false
  | .lt => if negative then infinity false else zeroFloat false

/-- A power of numbers that is out of range. Its sign is that of the numbers before they are rounded. -/
def powBeyond (a b : Number) : Float := infinity (a.isBelowZero && b.isOdd)

/-- The power of numbers as floats. A zero has no power under a finite negative exponent, and a negative
number none under a broken one, unless the result is out of range anyway. -/
def floatPow (a b : Number) : Except ArithmeticError Float :=
  let x := a.toFloat
  let y := b.toFloat
  match Binary64.ofFloat x, Binary64.ofFloat y with
  | .nan, _ | _, .nan => .ok (x.pow y)
  | base, .infinite negative => .ok (powInfinity base negative)
  | .infinite negative, .finite .. => .ok (infinityPow negative (.float y))
  | .finite negative m _, .finite negative' m' q' =>
    if m = 0 ∧ m' ≠ 0 ∧ negative' then .error .divisionByZero
    else
      let broken := m ≠ 0 ∧ negative ∧ q' < 0 ∧ m' % Nat.pow 2 (-q').toNat ≠ 0
      match Binary64.ofFloat (if broken then (-x).pow y else x.pow y) with
      | .infinite _ => .ok (powBeyond a b)
      | _ => if broken then .error .notReal else .ok (x.pow y)

/-- The power of two numbers. Integers under a negative exponent give a float, and an integer that is
no float makes any power with a float infinite. -/
def Number.pow : Number → Number → Except ArithmeticError Number
  | .int a, .int b =>
    if 0 ≤ b then .ok (.int (intPow a b.toNat))
    else if a = 0 then .error .divisionByZero
    else .ok (.float ((ofInt a).pow (ofInt b)))
  | a, b =>
    if a.outOfRange || b.outOfRange then .ok (.float (powBeyond a b))
    else (floatPow a b).map .float

end MinRuby.Numeric
