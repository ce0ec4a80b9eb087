/-!
# Doubles as exact numbers

A finite double is `m * 2 ^ q` for a natural `m` and an integer `q`. `Binary64.ofFloat` takes a double
apart, and `nearest` rounds an exact quotient to a double, ties to the even mantissa. Reading decimal
text, converting integers and the remainder of floats all go through the two.

* `nearestMantissa_le` — a rounded quotient is at most half a unit above the exact one.
* `le_nearestMantissa` — it is at most half a unit below it.
-/

namespace MinRuby.Numeric

/-- What a double stands for. -/
inductive Binary64 where
  /-- Not a number. -/
  | nan
  /-- An infinity. -/
  | infinite (negative : Bool)
  /-- The number `mantissa * 2 ^ exponent` with its sign; the zeros have mantissa zero. -/
  | finite (negative : Bool) (mantissa : Nat) (exponent : Int)

/-- The exponent of the smallest positive double. -/
def leastExponent : Int := -1074

/-- Takes a double apart into sign, mantissa and exponent. -/
def Binary64.ofFloat (x : Float) : Binary64 :=
  let bits := x.toBits.toNat
  let negative := decide (Nat.pow 2 63 ≤ bits)
  let exponent : Nat := bits / Nat.pow 2 52 % Nat.pow 2 11
  let fraction := bits % Nat.pow 2 52
  if exponent = 2047 then (if fraction = 0 then .infinite negative else .nan)
  else if exponent = 0 then .finite negative fraction leastExponent
  else .finite negative (Nat.pow 2 52 + fraction) ((exponent : Int) - 1075)

/-- How the size of a double compares to one. -/
def Binary64.compareOne : Binary64 → Ordering
  | .finite _ m q => compare (m * Nat.pow 2 (q - leastExponent).toNat) (Nat.pow 2 (-leastExponent).toNat)
  | _ => .gt

/-- Not a number. -/
def notANumber : Float := Float.ofBits 0x7ff8000000000000

/-- The infinity of the given sign. -/
def infinity (negative : Bool) : Float :=
  Float.ofBits (if negative then 0xfff0000000000000 else 0x7ff0000000000000)

/-- One. -/
def oneFloat : Float := Float.ofBits 0x3ff0000000000000

/-- The zero of the given sign. -/
def zeroFloat (negative : Bool) : Float :=
  Float.ofBits (if negative then 0x8000000000000000 else 0)

/-- The natural number nearest to `num / den`; of two equally near ones the even one. -/
def nearestMantissa (num den : Nat) : Nat :=
  let low := num / den
  let twice := 2 * (num % den)
  if twice < den then low
  else if den < twice then low + 1
  else if low % 2 = 0 then low else low + 1

theorem nearestMantissa_le (num den : Nat) : 2 * (nearestMantissa num den * den) ≤ 2 * num + den := by
  have h := Nat.div_add_mod num den
  have hc : num / den * den = den * (num / den) := Nat.mul_comm _ _
  simp only [nearestMantissa]
  split
  · omega
  · split
    · simp only [Nat.add_mul]; omega
    · split
      · omega
      · simp only [Nat.add_mul]; omega

theorem le_nearestMantissa {den : Nat} (num : Nat) (hden : 0 < den) :
    2 * num ≤ 2 * (nearestMantissa num den * den) + den := by
  have h := Nat.div_add_mod num den
  have hlt := Nat.mod_lt num hden
  have hc : num / den * den = den * (num / den) := Nat.mul_comm _ _
  simp only [nearestMantissa]
  split
  · omega
  · split
    · simp only [Nat.add_mul]; omega
    · split
      · omega
      · simp only [Nat.add_mul]; omega

/-- The numerator and denominator of `num / den / 2 ^ q`. -/
def scaleDown (num den : Nat) (q : Int) : Nat × Nat :=
  if 0 ≤ q then (num, den * Nat.pow 2 q.toNat) else (num * Nat.pow 2 (-q).toNat, den)

/-- The double with the given sign and with the value `m * 2 ^ q`, for `m` at most `2 ^ 53`, where `m`
is below `2 ^ 52` at the least exponent only; an infinity if that is out of range. -/
def compose (negative : Bool) (m : Nat) (q : Int) : Float :=
  let (m, q) := if m = Nat.pow 2 53 then (Nat.pow 2 52, q + 1) else (m, q)
  if 971 < q then infinity negative
  else
    let sign := if negative then Nat.pow 2 63 else 0
    let magnitude := if m < Nat.pow 2 52 then m else (q + 1075).toNat * Nat.pow 2 52 + (m - Nat.pow 2 52)
    Float.ofBits (sign + magnitude).toUInt64

/-- The exponent at which the mantissa of `num / den` has 53 bits, or the least one. -/
def mantissaExponent (num den : Nat) : Int :=
  let guess : Int := (Nat.log2 num : Int) - Nat.log2 den - 52
  let (n, d) := scaleDown num den guess
  -- the guess is right or one too large
  max leastExponent (if n / d < Nat.pow 2 52 then guess - 1 else guess)

/-- The double nearest to `num / den` with the given sign, ties to the even mantissa. -/
def nearest (negative : Bool) (num den : Nat) : Float :=
  if num = 0 then zeroFloat negative
  else
    let q := mantissaExponent num den
    let (n, d) := scaleDown num den q
    compose negative (nearestMantissa n d) q

/-- The double nearest to an integer; an infinity if that is out of range. -/
def ofInt (n : Int) : Float := nearest (n < 0) n.natAbs 1

/-- The double `± m * 2 ^ q`, rounded where it must be. -/
def ofParts (negative : Bool) (m : Nat) (q : Int) : Float :=
  if 0 ≤ q then nearest negative (m * Nat.pow 2 q.toNat) 1 else nearest negative m (Nat.pow 2 (-q).toNat)

/-- Whether the sign bit is set. -/
def isNegative (x : Float) : Bool := decide (Nat.pow 2 63 ≤ x.toBits.toNat)

end MinRuby.Numeric
