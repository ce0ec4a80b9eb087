import MinRuby.Data.Printer

/-!
# Limits

The bounds of the interpreter itself. A program that hits one has done nothing wrong that could be
explained to it, so a `Limit` has no text, only a cause.
-/

namespace MinRuby

/-- A bound of the interpreter. -/
inductive Limit where
  /-- Calls or containers nest too deeply. -/
  | depth
  /-- A loop has run too often. -/
  | rounds
  /-- An integer has too many digits to be read or written. -/
  | numeral
  /-- A repetition count is beyond any length. -/
  | count
  /-- A compound of plain data stands where only a scalar can be looked up. -/
  | compoundKey
  /-- A scalar stands where a tree is needed. -/
  | scalarTree
  /-- A tree lacks a child that its tag needs. -/
  | missingChild
deriving DecidableEq, Repr

/-- The numeral of an integer. -/
def decimal (n : Int) : Except Limit String :=
  if isLongNumeral n then .error .numeral else .ok (toString n)

/-- The text of data, if all its integers can be written. -/
def Data.written (d : Data) : Except Limit String :=
  if d.hasLongNumeral then .error .numeral else .ok d.text

end MinRuby
