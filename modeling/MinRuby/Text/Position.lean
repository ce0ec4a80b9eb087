/-!
# Positions that count from either end

A position in a list counts from the start, or, if it is negative, from the end. `offsetOf` is the
offset that it stands for, and `between` cuts out what lies between two positions.

* `offsetOf_le` — no position leads behind the end.
* `between_natCast` — positions that count from the start cut as `take` and `drop` do.
-/

namespace MinRuby.Text

/-- The offset that a position stands for in a list of the given length. A position before the start
stands for the start, and one behind the end for the end. -/
def offsetOf (length : Nat) (position : Int) : Nat :=
  if position < 0 then (length + position).toNat else min position.toNat length

theorem offsetOf_natCast (length n : Nat) : offsetOf length n = min n length := by
  simp [offsetOf, Int.not_lt.2 (Int.natCast_nonneg n)]

theorem offsetOf_le (length : Nat) (position : Int) : offsetOf length position ≤ length := by
  unfold offsetOf
  split <;> omega

/-- The part of a list from one position up to another; it is empty if they stand the other way round. -/
def between {α : Type} (items : List α) (start stop : Int) : List α :=
  (items.take (offsetOf items.length stop)).drop (offsetOf items.length start)

theorem between_natCast {α : Type} (items : List α) (start stop : Nat) :
    between items start stop = (items.take stop).drop start := by
  rw [between, offsetOf_natCast, offsetOf_natCast, ← List.take_eq_take_min]
  rcases Nat.le_total start items.length with h | h
  · rw [Nat.min_eq_left h]
  · have hlen : (items.take stop).length ≤ items.length := List.length_take_le' stop items
    rw [Nat.min_eq_right h, List.drop_of_length_le hlen, List.drop_of_length_le (Nat.le_trans hlen h)]

end MinRuby.Text
