import MinRuby.Numeric.Decimal
import MinRuby.Text.DecimalDigit

/-!
# Floats as text

A finite float is written with the fewest digits that read back. `FloatLayout` says how the digits
are laid out, and the library uses two layouts: `plain` in data, and `shown` for the values of a
program. `readFloat?` reads a decimal numeral, rounding to the nearest float.
-/

namespace MinRuby.Numeric

open MinRuby.Text (digitValue?)

/-- How floats are written. -/
structure FloatLayout where
  nan : String
  infinite : String
  /-- Whether a single digit before the exponent is followed by a zero fraction. -/
  fullMantissa : Bool

/-- The layout of floats in data. -/
def FloatLayout.plain : FloatLayout := ⟨"nan", "inf", false⟩

/-- The layout of floats among the values of a program. -/
def FloatLayout.shown : FloatLayout := ⟨"NaN", "Infinity", true⟩

/-- Decimal exponents of this range are written out by the position of the point. -/
def positional (exponent : Int) : Bool := -4 ≤ exponent && exponent < 16

/-- An exponent: its sign, and at least two digits. -/
def exponentText (exponent : Int) : List Char :=
  let digits := Nat.toDigits 10 exponent.natAbs
  (if exponent < 0 then '-' else '+') :: (if digits.length < 2 then '0' :: digits else digits)

/-- Digits with the point after the first `whole` of them; zeros fill up on either side. -/
def withPoint (digits : List Char) (whole : Int) : List Char :=
  if whole ≤ 0 then '0' :: '.' :: (List.replicate (-whole).toNat '0' ++ digits)
  else
    let padded := digits ++ List.replicate (whole.toNat - digits.length) '0'
    let fraction := padded.drop whole.toNat
    padded.take whole.toNat ++ '.' :: (if fraction.isEmpty then ['0'] else fraction)

/-- A positive decimal in the given layout. -/
def FloatLayout.digits (layout : FloatLayout) (d : Decimal) : List Char :=
  let digits := Nat.toDigits 10 d.digits
  let exponent := d.exponent + digits.length - 1
  if positional exponent then withPoint digits (exponent + 1)
  else
    let mantissa :=
      match digits with
      | [only] => if layout.fullMantissa then [only, '.', '0'] else [only]
      | first :: rest => first :: '.' :: rest
      | [] => []
    mantissa ++ 'e' :: exponentText exponent

/-- A float in the given layout. -/
def FloatLayout.text (layout : FloatLayout) (x : Float) : String :=
  match Binary64.ofFloat x with
  | .nan => layout.nan
  | .infinite negative => if negative then "-" ++ layout.infinite else layout.infinite
  | .finite negative m q =>
    let body := if m = 0 then ['0', '.', '0'] else layout.digits (shortest m q)
    String.ofList (if negative then '-' :: body else body)

/-- The number that a list of decimal digits writes. -/
def digitsValue (digits : List Char) : Nat :=
  digits.foldl (fun n c => 10 * n + (digitValue? c).getD 0) 0

/-- The float nearest to `digits * 10 ^ exponent`. Far outside the range of floats the power of ten is
not computed. -/
def ofDecimal (negative : Bool) (digits : Nat) (exponent : Int) : Float :=
  let top := exponent + digitCount digits
  if digits = 0 ∨ top < -400 then zeroFloat negative
  else if 400 < top then infinity negative
  else
    let value := Ratio.ofPower digits 10 exponent
    nearest negative value.num value.den

/-- Splits off the digits at the start of a text. -/
def spanDigits (text : List Char) : List Char × List Char :=
  text.span fun c => (digitValue? c).isSome

/-- Reads digits, then a point and a fraction, then an exponent, the last two of which may be
missing. -/
def readUnsigned? (negative : Bool) (text : List Char) : Option Float :=
  let (whole, rest) := spanDigits text
  let (fraction, rest) :=
    match rest with
    | '.' :: rest => spanDigits rest
    | _ => ([], rest)
  if whole.isEmpty && fraction.isEmpty then none
  else
    let digits := digitsValue (whole ++ fraction)
    let exponent (negativeExponent : Bool) (rest : List Char) : Option Float :=
      let (power, rest) := spanDigits rest
      if power.isEmpty || !rest.isEmpty then none
      else
        let power : Int := digitsValue power
        let power := if negativeExponent then -power else power
        some (ofDecimal negative digits (power - fraction.length))
    match rest with
    | [] => some (ofDecimal negative digits (-fraction.length))
    | e :: '-' :: rest => if e = 'e' ∨ e = 'E' then exponent true rest else none
    | e :: '+' :: rest => if e = 'e' ∨ e = 'E' then exponent false rest else none
    | e :: rest => if e = 'e' ∨ e = 'E' then exponent false rest else none

/-- Reads a decimal numeral or one of the names of the plain layout, with a sign if it has one. -/
def readFloat? (text : List Char) : Option Float :=
  let signed (negative : Bool) (text : List Char) : Option Float :=
    if text = FloatLayout.plain.infinite.toList then some (infinity negative)
    else if text = FloatLayout.plain.nan.toList then some notANumber
    else readUnsigned? negative text
  match text with
  | '-' :: rest => signed true rest
  | _ => signed false text

end MinRuby.Numeric
