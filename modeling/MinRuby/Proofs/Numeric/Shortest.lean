import MinRuby.Numeric.Decimal
import MinRuby.Proofs.Numeric.Words

/-!
# Shortest decimals tell doubles apart

The reals that round to a double lie between the middles towards its neighbours, so no real rounds to two doubles. A grid
of seventeen decimal digits is finer than the distance from a double to these middles: one of its points rounds to the double.

* `shortest_mem` — the shortest decimal of a double rounds to it.
* `RoundingInterval.eq_of_contains` — nothing rounds to two doubles.
* `eq_of_shortest_value_eq` — doubles with shortest decimals of one value.
-/

namespace MinRuby.Numeric

open Binary64 (Fits)

/-! ## Quotients -/

namespace Ratio

/-- The quotient as a rational number. -/
def toRat (a : Ratio) : ℚ := a.num / a.den

variable {a b : Ratio}

theorem le_iff (ha : 0 < a.den) (hb : 0 < b.den) : a.le b = true ↔ a.toRat ≤ b.toRat := by
  have ha' : (0 : ℚ) < a.den := by exact_mod_cast ha
  have hb' : (0 : ℚ) < b.den := by exact_mod_cast hb
  rw [le, decide_eq_true_eq, toRat, toRat, div_le_div_iff₀ ha' hb']
  exact_mod_cast Iff.rfl

theorem ofPower_den_pos {m base : Nat} {e : Int} (hbase : 0 < base) : 0 < (ofPower m base e).den := by
  unfold ofPower
  split
  · exact Nat.one_pos
  · exact Nat.pow_pos hbase

theorem ofPower_num_pos {m base : Nat} {e : Int} (hm : 0 < m) (hbase : 0 < base) : 0 < (ofPower m base e).num := by
  unfold ofPower
  split
  · exact Nat.mul_pos hm (Nat.pow_pos hbase)
  · exact hm

theorem toRat_div (a b : Ratio) : (a.div b).toRat = a.toRat / b.toRat := by
  rw [toRat, toRat, toRat, div_div_div_eq, div]
  push_cast
  rfl

theorem toRat_ofPower {m base : Nat} {e : Int} : (ofPower m base e).toRat = m * (base : ℚ) ^ e := by
  unfold ofPower
  split
  · next he =>
    obtain ⟨n, rfl⟩ := Int.eq_ofNat_of_zero_le he
    simp [toRat]
  · next he =>
    obtain ⟨n, hn⟩ := Int.eq_ofNat_of_zero_le (show 0 ≤ -e by omega)
    obtain rfl : e = -(n : Int) := by omega
    simp [toRat, div_eq_mul_inv]

theorem digitCount_pos (n : Nat) : 0 < digitCount n := Nat.length_toDigits_pos

theorem lt_pow_digitCount (n : Nat) : n < 10 ^ digitCount n :=
  (Nat.length_toDigits_le_iff (by decide) (digitCount_pos n)).mp le_rfl

theorem pow_le_of_digitCount {n : Nat} (hn : 0 < n) : 10 ^ (digitCount n - 1) ≤ n := by
  by_contra hlt
  rcases Nat.eq_zero_or_pos (digitCount n - 1) with hzero | hpos
  · rw [hzero] at hlt
    omega
  · have hle := (Nat.length_toDigits_le_iff (by decide) hpos).mpr (Nat.lt_of_not_le hlt)
    have hcount := digitCount_pos n
    rw [digitCount] at *
    omega

/-- The power of ten of the first digit is at most the quotient. -/
theorem pow_magnitude_le (hnum : 0 < a.num) (hden : 0 < a.den) : (10 : ℚ) ^ a.magnitude ≤ a.toRat := by
  have hnum' : (0 : ℚ) < a.num := by exact_mod_cast hnum
  have hden' : (0 : ℚ) < a.den := by exact_mod_cast hden
  rw [toRat, le_div_iff₀ hden']
  unfold magnitude
  split
  · next hle =>
    have hcount := digitCount_pos (a.num / a.den)
    have hpow := pow_le_of_digitCount (Nat.div_pos hle hden)
    have hexponent : (digitCount (a.num / a.den) : Int) - 1 = ((digitCount (a.num / a.den) - 1 : Nat) : Int) := by omega
    rw [hexponent, zpow_natCast]
    exact_mod_cast (Nat.mul_le_mul_right _ hpow).trans (Nat.div_mul_le_self _ _)
  · simp only
    split
    · next heq =>
      have hcount := digitCount_pos (a.den / a.num)
      have hexponent : 1 - (digitCount (a.den / a.num) : Int) = -((digitCount (a.den / a.num) - 1 : Nat) : Int) := by omega
      have heq' : (a.den : ℚ) = a.num * 10 ^ (digitCount (a.den / a.num) - 1) := by exact_mod_cast heq
      rw [hexponent, zpow_neg, zpow_natCast, heq', mul_comm, mul_assoc, mul_inv_cancel₀ (by positivity), mul_one]
    · have hlt := Nat.lt_mul_of_div_lt (lt_pow_digitCount (a.den / a.num)) hnum
      have hlt' : (a.den : ℚ) < 10 ^ digitCount (a.den / a.num) * a.num := by exact_mod_cast hlt
      rw [zpow_neg, zpow_natCast, inv_mul_le_iff₀ (by positivity)]
      exact hlt'.le

end Ratio

/-! ## Rounding intervals -/

/-- The number that a mantissa and an exponent write. -/
def doubleValue (m : Nat) (q : Int) : ℚ := m * 2 ^ q

/-- The reals below a double that round to it reach one or two quarters of the unit down. -/
def quartersDown (m : Nat) (q : Int) : ℚ := if m = 2 ^ 52 ∧ -1074 < q then 1 else 2

/-- A quarter of the unit of an exponent. -/
def quarter (q : Int) : ℚ := 2 ^ (q - 2)

theorem quarter_pos (q : Int) : 0 < quarter q := by
  unfold quarter
  positivity

theorem doubleValue_eq (m : Nat) (q : Int) : doubleValue m q = 4 * m * quarter q := by
  have hsplit : (2 : ℚ) ^ q = 4 * 2 ^ (q - 2) := by
    rw [zpow_sub₀ (by norm_num)]
    norm_num
    ring
  rw [doubleValue, quarter, hsplit]
  ring

theorem two_zpow_sub_one (q : Int) : (2 : ℚ) ^ (q - 1) = 2 * quarter q := by
  rw [quarter, show q - 1 = q - 2 + 1 by ring, zpow_add_one₀ (by norm_num)]
  ring

namespace RoundingInterval

variable {m m' : Nat} {q q' : Int} {r : Ratio}

theorem toRat_low (hm : 0 < m) : (RoundingInterval.of m q).low.toRat = (4 * m - quartersDown m q) * quarter q := by
  have hlow : (RoundingInterval.of m q).low = if m = 2 ^ 52 ∧ -1074 < q then Ratio.ofPower (4 * m - 1) 2 (q - 2)
      else Ratio.ofPower (2 * m - 1) 2 (q - 1) := rfl
  rw [hlow, quartersDown]
  split
  · rw [Ratio.toRat_ofPower, Nat.cast_sub (by omega)]
    push_cast
    rfl
  · rw [Ratio.toRat_ofPower, Nat.cast_sub (by omega)]
    push_cast
    rw [two_zpow_sub_one]
    ring

theorem toRat_high : (RoundingInterval.of m q).high.toRat = (4 * m + 2) * quarter q := by
  rw [RoundingInterval.of, Ratio.toRat_ofPower]
  push_cast
  rw [two_zpow_sub_one]
  ring

theorem low_den_pos : 0 < (RoundingInterval.of m q).low.den := by
  simp only [RoundingInterval.of]
  split <;> exact Ratio.ofPower_den_pos (by decide)

theorem high_den_pos : 0 < (RoundingInterval.of m q).high.den := Ratio.ofPower_den_pos (by decide)

theorem contains_iff (hr : 0 < r.den) : (RoundingInterval.of m q).contains r = true ↔
    if m % 2 = 0 then (RoundingInterval.of m q).low.toRat ≤ r.toRat ∧ r.toRat ≤ (RoundingInterval.of m q).high.toRat
    else (RoundingInterval.of m q).low.toRat < r.toRat ∧ r.toRat < (RoundingInterval.of m q).high.toRat := by
  have hclosed : (RoundingInterval.of m q).closed = decide (m % 2 = 0) := rfl
  rw [contains, hclosed]
  split
  · next h =>
    rw [if_pos (of_decide_eq_true h), Bool.and_eq_true, Ratio.le_iff low_den_pos hr, Ratio.le_iff hr high_den_pos]
  · next h =>
    have hlow := not_congr (Ratio.le_iff hr (low_den_pos (m := m) (q := q)))
    have hhigh := not_congr (Ratio.le_iff (high_den_pos (m := m) (q := q)) hr)
    rw [if_neg (fun heq => h (decide_eq_true heq)), Bool.and_eq_true, Bool.not_eq_true', Bool.not_eq_true',
      ← Bool.not_eq_true, ← Bool.not_eq_true, hlow, hhigh, not_le, not_le]

theorem contains_congr {r' : Ratio} (hr : 0 < r.den) (hr' : 0 < r'.den) (heq : r.toRat = r'.toRat) :
    (RoundingInterval.of m q).contains r = (RoundingInterval.of m q).contains r' := by
  rw [Bool.eq_iff_iff, contains_iff hr, contains_iff hr', heq]

/-- What is closer to a double than a part in `2 ^ 54` rounds to it. -/
theorem contains_of_near (h : Fits m q) (hr : 0 < r.den) (hm : 0 < m)
    (hnear : |r.toRat - doubleValue m q| * 2 ^ 54 < doubleValue m q) : (RoundingInterval.of m q).contains r = true := by
  have hu := quarter_pos q
  have hmlt : (m : ℚ) < 2 ^ 53 := by exact_mod_cast h.mantissa_lt
  have hone : 1 ≤ quartersDown m q ∧ (m : ℚ) ≤ 2 ^ 52 * quartersDown m q := by
    unfold quartersDown
    split
    · next heq =>
      rw [heq.1]
      norm_num
    · constructor <;> linarith
  rw [doubleValue_eq] at hnear
  obtain ⟨hbelow, habove⟩ := abs_lt.mp (show |r.toRat - 4 * m * quarter q| < 4 * m * quarter q / 2 ^ 54 by
    rw [lt_div_iff₀ (by norm_num)]; exact hnear)
  have hlow : (RoundingInterval.of m q).low.toRat < r.toRat := by
    rw [toRat_low hm]
    have := mul_le_mul_of_nonneg_right hone.2 hu.le
    linarith
  have hhigh : r.toRat < (RoundingInterval.of m q).high.toRat := by
    rw [toRat_high]
    have := mul_lt_mul_of_pos_right hmlt hu
    linarith
  rw [contains_iff hr]
  split
  · exact ⟨hlow.le, hhigh.le⟩
  · exact ⟨hlow, hhigh⟩

theorem mantissa_ge (h : Fits m q) (hq : -1074 < q) : 2 ^ 52 ≤ m := by
  by_contra hlt
  exact absurd (h.least_eq (Nat.lt_of_not_le hlt)) (Int.ne_of_gt hq)

/-- The interval of a double is below that of another one: it ends where the other begins, or lower, and a point that both
reach belongs to one of them at most. -/
structure IsBelow (m : Nat) (q : Int) (m' : Nat) (q' : Int) : Prop where
  le : (RoundingInterval.of m q).high.toRat ≤ (RoundingInterval.of m' q').low.toRat
  parity : (RoundingInterval.of m q).high.toRat = (RoundingInterval.of m' q').low.toRat → ¬ (m % 2 = 0 ∧ m' % 2 = 0)

/-- The interval of a larger mantissa at the same exponent is above. -/
theorem isBelow_of_mantissa_lt (h : Fits m q) (hlt : m < m') : IsBelow m q m' q := by
  have hu := quarter_pos q
  have hdown : quartersDown m' q = 2 := by
    rw [quartersDown, if_neg]
    rintro ⟨rfl, hq⟩
    exact absurd (mantissa_ge h hq) (Nat.not_le.mpr hlt)
  have hle : (m : ℚ) + 1 ≤ m' := by exact_mod_cast hlt
  constructor <;> rw [toRat_high, toRat_low (Nat.zero_lt_of_lt hlt), hdown]
  · exact mul_le_mul_of_nonneg_right (by linarith) hu.le
  · intro heq
    -- the two have an end in common only if the mantissas are neighbours, and of those one is odd
    have heq' := mul_right_cancel₀ hu.ne' heq
    have hnext : (m' : ℚ) = (m + 1 : Nat) := by
      push_cast
      linarith
    have hnext' : m' = m + 1 := by exact_mod_cast hnext
    omega

/-- The interval of a double at a larger exponent is above. -/
theorem isBelow_of_exponent_lt (h : Fits m q) (h' : Fits m' q') (hlt : q < q') : IsBelow m q m' q' := by
  have hu := quarter_pos q
  have hnormal : 2 ^ 52 ≤ m' := mantissa_ge h' (Int.lt_of_le_of_lt h.least_le hlt)
  have hunits : 2 * quarter q ≤ quarter q' := by
    rw [← two_zpow_sub_one, quarter]
    exact zpow_le_zpow_right₀ (by norm_num) (by omega)
  have hmantissa : 2 ^ 54 - 1 ≤ 4 * (m' : ℚ) - quartersDown m' q' := by
    rcases Nat.lt_or_eq_of_le hnormal with hgt | heq
    · have hgt' : (2 : ℚ) ^ 52 + 1 ≤ m' := by exact_mod_cast hgt
      unfold quartersDown
      split <;> linarith
    · rw [quartersDown, if_pos ⟨heq.symm, Int.lt_of_le_of_lt h.least_le hlt⟩, ← heq]
      norm_num
  have hlow : (2 ^ 55 - 2) * quarter q ≤ (4 * m' - quartersDown m' q') * quarter q' := by
    calc (2 ^ 55 - 2) * quarter q = (2 ^ 54 - 1) * (2 * quarter q) := by ring
      _ ≤ (4 * m' - quartersDown m' q') * quarter q' := by gcongr
  have hmost : (m : ℚ) + 1 ≤ 2 ^ 53 := by exact_mod_cast h.mantissa_lt
  have hhigh : (4 * (m : ℚ) + 2) * quarter q ≤ (2 ^ 55 - 2) * quarter q :=
    mul_le_mul_of_nonneg_right (by linarith) hu.le
  constructor <;> rw [toRat_high, toRat_low (Nat.lt_of_lt_of_le (by decide) hnormal)]
  · exact hhigh.trans hlow
  · intro heq
    have heq' := mul_right_cancel₀ hu.ne' (le_antisymm hhigh (hlow.trans heq.symm.le))
    have hodd : ((m + 1 : Nat) : ℚ) = (2 ^ 53 : Nat) := by
      push_cast
      linarith
    have hodd' : m + 1 = 2 ^ 53 := by exact_mod_cast hodd
    omega

/-- Nothing lies in two intervals of which one is above the other. -/
theorem IsBelow.not_contains (hbelow : IsBelow m q m' q') (hr : 0 < r.den)
    (h : (RoundingInterval.of m q).contains r = true) : (RoundingInterval.of m' q').contains r = false := by
  rw [← Bool.not_eq_true]
  intro h'
  rw [contains_iff hr] at h h'
  obtain ⟨hle, hparity⟩ := hbelow
  by_cases hm : m % 2 = 0
  · by_cases hm' : m' % 2 = 0
    · rw [if_pos hm] at h
      rw [if_pos hm'] at h'
      exact hparity (le_antisymm hle (h'.1.trans h.2)) ⟨hm, hm'⟩
    · rw [if_pos hm] at h
      rw [if_neg hm'] at h'
      exact absurd (h'.1.trans_le (h.2.trans hle)) (lt_irrefl _)
  · have hlow : (RoundingInterval.of m' q').low.toRat ≤ r.toRat := by
      split at h'
      · exact h'.1
      · exact h'.1.le
    rw [if_neg hm] at h
    exact absurd (h.2.trans_le (hle.trans hlow)) (lt_irrefl _)

/-- What rounds to two doubles rounds to one. -/
theorem eq_of_contains (h : Fits m q) (h' : Fits m' q') (hr : 0 < r.den)
    (hm : (RoundingInterval.of m q).contains r = true) (hm' : (RoundingInterval.of m' q').contains r = true) :
    m = m' ∧ q = q' := by
  rcases lt_trichotomy q q' with hq | rfl | hq
  · rw [(isBelow_of_exponent_lt h h' hq).not_contains hr hm] at hm'
    cases hm'
  · rcases lt_trichotomy m m' with hlt | rfl | hlt
    · rw [(isBelow_of_mantissa_lt h hlt).not_contains hr hm] at hm'
      cases hm'
    · exact ⟨rfl, rfl⟩
    · rw [(isBelow_of_mantissa_lt h' hlt).not_contains hr hm'] at hm
      cases hm
  · rw [(isBelow_of_exponent_lt h' h hq).not_contains hr hm'] at hm
    cases hm

end RoundingInterval

/-! ## The grids -/

section

variable {m : Nat} {q : Int}

/-- The number that a decimal writes. -/
def Decimal.value (d : Decimal) : ℚ := d.digits * 10 ^ d.exponent

theorem toRat_ofPower_ten (d : Decimal) : (Ratio.ofPower d.digits 10 d.exponent).toRat = d.value := by
  rw [Ratio.toRat_ofPower, Decimal.value]
  norm_num

/-- The rounded quotient is at most half a unit off. -/
theorem abs_nearestMantissa_sub {num den : Nat} (hden : 0 < den) :
    |(nearestMantissa num den : ℚ) - num / den| ≤ 1 / 2 := by
  have hden' : (0 : ℚ) < den := by exact_mod_cast hden
  have habove : (2 : ℚ) * (nearestMantissa num den * den) ≤ 2 * num + den := by exact_mod_cast nearestMantissa_le num den
  have hbelow : (2 : ℚ) * num ≤ 2 * (nearestMantissa num den * den) + den := by exact_mod_cast le_nearestMantissa num hden
  have hdiff : ((nearestMantissa num den : ℚ) - num / den) = (nearestMantissa num den * den - num) / den := by
    field_simp
  rw [hdiff, abs_div, abs_of_pos hden', div_le_iff₀ hden', abs_le]
  constructor <;> linarith

theorem of_first_hit {hit : Nat → Bool} {a b d : Nat}
    (h : (if hit a = true then some a else if hit b = true then some b else none) = some d) : hit d = true := by
  split at h
  · next ha => rwa [← Option.some.inj h]
  · split at h
    · next hb => rwa [← Option.some.inj h]
    · cases h

theorem mem_of_hitOnGrid {i : RoundingInterval} {value : Ratio} {exponent : Int} {digits : Nat}
    (h : hitOnGrid i value exponent = some digits) : 0 < digits ∧ i.contains (Ratio.ofPower digits 10 exponent) = true := by
  have hhit := @of_first_hit (fun d => 0 < d && i.contains (Ratio.ofPower d 10 exponent)) _ _ _ h
  simpa using hhit

/-- A grid finer than a part in `10 ^ 16` of the double has a point that rounds to it. -/
theorem isSome_hitOnGrid (h : Fits m q) (hm : 0 < m) {exponent : Int}
    (hfine : (10 : ℚ) ^ exponent * 10 ^ 16 ≤ doubleValue m q) :
    (hitOnGrid (RoundingInterval.of m q) (Ratio.ofPower m 2 q) exponent).isSome = true := by
  have hgrid : (0 : ℚ) < 10 ^ exponent := by positivity
  have hvalue : doubleValue m q = (Ratio.ofPower m 2 q).toRat := by
    rw [Ratio.toRat_ofPower, doubleValue]
    norm_num
  let scaled := (Ratio.ofPower m 2 q).div (Ratio.ofPower 1 10 exponent)
  let digits := nearestMantissa scaled.num scaled.den
  have hden : 0 < scaled.den :=
    Nat.mul_pos (Ratio.ofPower_den_pos (by decide)) (Ratio.ofPower_num_pos (by decide) (by decide))
  have hhalf : |(digits : ℚ) - doubleValue m q / 10 ^ exponent| ≤ 1 / 2 := by
    have hscaled : (scaled.num : ℚ) / scaled.den = doubleValue m q / 10 ^ exponent := by
      rw [← Ratio.toRat, Ratio.toRat_div, ← hvalue, Ratio.toRat_ofPower, Nat.cast_one, one_mul]
      norm_num
    rw [← hscaled]
    exact abs_nearestMantissa_sub hden
  -- half a step of the grid is less than the part in two to the 54
  have hnear : |(digits : ℚ) * 10 ^ exponent - doubleValue m q| * 2 ^ 54 < doubleValue m q := by
    have hdistance : |(digits : ℚ) * 10 ^ exponent - doubleValue m q| ≤ 1 / 2 * 10 ^ exponent := by
      calc |(digits : ℚ) * 10 ^ exponent - doubleValue m q|
          = |((digits : ℚ) - doubleValue m q / 10 ^ exponent) * 10 ^ exponent| := by
            rw [sub_mul, div_mul_cancel₀ _ hgrid.ne']
        _ = |(digits : ℚ) - doubleValue m q / 10 ^ exponent| * 10 ^ exponent := by rw [abs_mul, abs_of_pos hgrid]
        _ ≤ 1 / 2 * 10 ^ exponent := mul_le_mul_of_nonneg_right hhalf hgrid.le
    calc |(digits : ℚ) * 10 ^ exponent - doubleValue m q| * 2 ^ 54 ≤ 1 / 2 * 10 ^ exponent * 2 ^ 54 := by gcongr
      _ < 10 ^ exponent * 10 ^ 16 := by linarith
      _ ≤ doubleValue m q := hfine
  have hpos : 0 < digits := by
    by_contra hzero
    obtain hzero : digits = 0 := by omega
    have hvalue_pos : 0 < doubleValue m q := lt_of_lt_of_le (by positivity) hfine
    rw [hzero, Nat.cast_zero, zero_mul, zero_sub, abs_neg, abs_of_pos hvalue_pos] at hnear
    linarith
  have hcontains : (RoundingInterval.of m q).contains (Ratio.ofPower digits 10 exponent) = true := by
    refine RoundingInterval.contains_of_near h (Ratio.ofPower_den_pos (by decide)) hm ?_
    rw [Ratio.toRat_ofPower]
    exact_mod_cast hnear
  unfold hitOnGrid
  simp only
  rw [if_pos (by rw [Bool.and_eq_true, decide_eq_true_eq]; exact ⟨hpos, hcontains⟩)]
  rfl

/-! ## The shortest decimal -/

/-- The zeros at the end do not count. -/
theorem trim_value (fuel : Nat) {d : Decimal} (hd : 0 < d.digits) :
    0 < (Decimal.trim fuel d).digits ∧ (Decimal.trim fuel d).value = d.value := by
  induction fuel generalizing d with
  | zero => exact ⟨hd, rfl⟩
  | succ fuel ih =>
    rw [Decimal.trim]
    split
    · next h =>
      have hsplit : d.digits = 10 * (d.digits / 10) := by omega
      have hpos : 0 < d.digits / 10 := by omega
      obtain ⟨hdigits, hvalue⟩ := @ih ⟨d.digits / 10, d.exponent + 1⟩ hpos
      refine ⟨hdigits, hvalue.trans ?_⟩
      have hcast : (d.digits : ℚ) = 10 * (d.digits / 10 : Nat) := by exact_mod_cast hsplit
      simp only [Decimal.value]
      rw [hcast, zpow_add_one₀ (by norm_num)]
      ring
    · exact ⟨hd, rfl⟩

/-- If one of the grids has a point that rounds to the double, the first such point is found. -/
theorem mem_firstHit {i : RoundingInterval} {value : Ratio} {magnitude : Int} : ∀ {more count : Nat} (n : Nat), n < more →
    (hitOnGrid i value (magnitude - (count + n : Nat) + 1)).isSome = true →
    0 < (firstHit i value magnitude more count).digits ∧
      ∃ r : Ratio, 0 < r.den ∧ r.toRat = (firstHit i value magnitude more count).value ∧ i.contains r = true
  | 0, _, _, hn, _ => absurd hn (Nat.not_lt_zero _)
  | more + 1, count, n, hn, h => by
    rw [firstHit]
    split
    · next digits hhit =>
      obtain ⟨hpos, hmem⟩ := mem_of_hitOnGrid hhit
      obtain ⟨htrim, hvalue⟩ := @trim_value (digitCount digits) ⟨digits, magnitude - count + 1⟩ hpos
      exact ⟨htrim, _, Ratio.ofPower_den_pos (by decide), (toRat_ofPower_ten ⟨digits, _⟩).trans hvalue.symm, hmem⟩
    · next hnone =>
      cases n with
      | zero =>
        rw [Nat.add_zero, hnone] at h
        cases h
      | succ n =>
        refine mem_firstHit n (by omega) ?_
        rwa [show count + 1 + n = count + (n + 1) by omega]

/-- The shortest decimal of a double rounds to it. -/
theorem shortest_mem (h : Fits m q) (hm : 0 < m) : 0 < (shortest m q).digits ∧
    ∃ r : Ratio, 0 < r.den ∧ r.toRat = (shortest m q).value ∧ (RoundingInterval.of m q).contains r = true := by
  have hmagnitude := Ratio.pow_magnitude_le (Ratio.ofPower_num_pos (e := q) hm (by decide : 0 < 2))
    (Ratio.ofPower_den_pos (by decide))
  refine mem_firstHit 16 (by decide) (isSome_hitOnGrid h hm ?_)
  rw [Ratio.toRat_ofPower] at hmagnitude
  calc (10 : ℚ) ^ ((Ratio.ofPower m 2 q).magnitude - (1 + 16 : Nat) + 1) * 10 ^ 16
      = 10 ^ (Ratio.ofPower m 2 q).magnitude := by
        rw [← zpow_natCast, ← zpow_add₀ (by norm_num)]
        congr 1
        push_cast
        ring
    _ ≤ doubleValue m q := by
        rw [doubleValue]
        exact_mod_cast hmagnitude

/-- Doubles whose shortest decimals write the same number are the same. -/
theorem eq_of_shortest_value_eq {m' : Nat} {q' : Int} (h : Fits m q) (h' : Fits m' q') (hm : 0 < m) (hm' : 0 < m')
    (heq : (shortest m q).value = (shortest m' q').value) : m = m' ∧ q = q' := by
  obtain ⟨-, r, hr, hvalue, hmem⟩ := shortest_mem h hm
  obtain ⟨-, r', hr', hvalue', hmem'⟩ := shortest_mem h' hm'
  refine RoundingInterval.eq_of_contains h h' hr hmem ?_
  rwa [RoundingInterval.contains_congr hr hr' (hvalue.trans (heq.trans hvalue'.symm))]

end

end MinRuby.Numeric
