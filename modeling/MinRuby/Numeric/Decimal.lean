import MinRuby.Numeric.Binary64

/-!
# Shortest decimals

`shortest m q` is the decimal with the fewest digits that rounds to the double `m * 2 ^ q`, and of
those the one nearest to it; an exact tie goes to the even last digit. On the grid of decimals with
`n` digits only the two neighbours of the value need a look: if any point of the grid rounds to the
double, one of them does.
-/

namespace MinRuby.Numeric

/-- The number `digits * 10 ^ exponent`. -/
structure Decimal where
  digits : Nat
  exponent : Int
deriving DecidableEq, Repr

/-- The positive quotient `num / den`. -/
structure Ratio where
  num : Nat
  den : Nat

/-- The quotient `m * b ^ e`. -/
def Ratio.ofPower (m b : Nat) (e : Int) : Ratio :=
  if 0 ≤ e then ⟨m * Nat.pow b e.toNat, 1⟩ else ⟨m, Nat.pow b (-e).toNat⟩

/-- Order of quotients with positive denominators. -/
def Ratio.le (a b : Ratio) : Bool := a.num * b.den ≤ b.num * a.den

/-- The quotient `a / b`. -/
def Ratio.div (a b : Ratio) : Ratio := ⟨a.num * b.den, a.den * b.num⟩

/-- The number of decimal digits; one for zero. -/
def digitCount (n : Nat) : Nat := (Nat.toDigits 10 n).length

/-- The exponent of the first decimal digit of a positive quotient. -/
def Ratio.magnitude (a : Ratio) : Int :=
  if a.den ≤ a.num then (digitCount (a.num / a.den) : Int) - 1
  else
    let scale := digitCount (a.den / a.num)
    -- the reciprocal lies between two powers of ten, the lower one included
    if a.den = a.num * Nat.pow 10 (scale - 1) then 1 - (scale : Int) else -(scale : Int)

/-- The reals that round to `m * 2 ^ q`: their ends, and whether the ends belong to them. -/
structure RoundingInterval where
  low : Ratio
  high : Ratio
  closed : Bool

/-- The reals that round to `m * 2 ^ q`. Below a power of two the doubles lie twice as close. -/
def RoundingInterval.of (m : Nat) (q : Int) : RoundingInterval where
  low :=
    if m = Nat.pow 2 52 ∧ leastExponent < q then Ratio.ofPower (4 * m - 1) 2 (q - 2)
    else Ratio.ofPower (2 * m - 1) 2 (q - 1)
  high := Ratio.ofPower (2 * m + 1) 2 (q - 1)
  closed := m % 2 = 0

/-- Whether the quotient lies in the interval. -/
def RoundingInterval.contains (i : RoundingInterval) (a : Ratio) : Bool :=
  if i.closed then i.low.le a && a.le i.high else !(a.le i.low) && !(i.high.le a)

/-- The digits of a decimal on the grid of spacing `10 ^ exponent` that rounds to the double, if the
grid has one. -/
def hitOnGrid (i : RoundingInterval) (value : Ratio) (exponent : Int) : Option Nat :=
  let scaled := value.div (Ratio.ofPower 1 10 exponent)
  let below := scaled.num / scaled.den
  let rounded := nearestMantissa scaled.num scaled.den
  let other := if rounded = below then below + 1 else below
  let hit (d : Nat) := 0 < d && i.contains (Ratio.ofPower d 10 exponent)
  if hit rounded then some rounded else if hit other then some other else none

/-- A decimal without the zeros at the end of its digits; `fuel` bounds their number. -/
def Decimal.trim : Nat → Decimal → Decimal
  | 0, d => d
  | fuel + 1, d =>
    if d.digits ≠ 0 ∧ d.digits % 10 = 0 then Decimal.trim fuel ⟨d.digits / 10, d.exponent + 1⟩ else d

/-- The first grid, of those with `count` digits and more, that has a point in the interval. -/
def firstHit (i : RoundingInterval) (value : Ratio) (magnitude : Int) : Nat → Nat → Decimal
  | 0, _ => ⟨0, 0⟩
  | more + 1, count =>
    let exponent := magnitude - count + 1
    match hitOnGrid i value exponent with
    | some digits => Decimal.trim (digitCount digits) ⟨digits, exponent⟩
    | none => firstHit i value magnitude more (count + 1)

/-- The shortest decimal that rounds to the double `m * 2 ^ q`, for a positive `m`. Seventeen digits
always suffice. -/
def shortest (m : Nat) (q : Int) : Decimal :=
  let value := Ratio.ofPower m 2 q
  firstHit (RoundingInterval.of m q) value value.magnitude 17 1

end MinRuby.Numeric
