/-!
# Sets of characters as tables of code ranges

A property of characters is kept as a list of inclusive ranges of code points. `inRanges` is
membership in such a table; `inRanges_iff` says what it means without the search.
-/

namespace MinRuby.Text

/-- An inclusive range of code points. -/
abbrev CodeRange := Nat × Nat

/-- Whether the character's code lies in one of the ranges. -/
def inRanges (table : List CodeRange) (c : Char) : Bool :=
  table.any fun r => r.1 ≤ c.toNat && c.toNat ≤ r.2

theorem inRanges_iff {table : List CodeRange} {c : Char} :
    inRanges table c = true ↔ ∃ r ∈ table, r.1 ≤ c.toNat ∧ c.toNat ≤ r.2 := by
  simp [inRanges]

end MinRuby.Text
