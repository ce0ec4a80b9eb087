import MinRuby.Numeric.Number
import MinRuby.Proofs.Numeric.Words

/-!
# Integers as doubles

An integer is rounded to a double, and to an infinity if it is too large: the least such size lies half a unit behind the
largest double.

* `ofInt_of_large`, `ofFloat_ofInt_of_small` — the double of an integer.
* `Number.outOfRange_iff` — the integers that are no doubles.
-/

namespace MinRuby.Numeric

open Binary64 (Fits)

/-! ## Rounded quotients -/

section

variable {num den k : Nat}

theorem nearestMantissa_le_of_lt (h : 2 * num < (2 * k + 1) * den) : nearestMantissa num den ≤ k := by
  have hle := nearestMantissa_le num den
  by_contra hlt
  have hmul : (k + 1) * den ≤ nearestMantissa num den * den := Nat.mul_le_mul_right den (Nat.lt_of_not_le hlt)
  have hexpand : (2 * k + 1) * den + den = 2 * ((k + 1) * den) := by ring
  omega

theorem le_nearestMantissa_of_le (hden : 0 < den) (h : k * den ≤ num) : k ≤ nearestMantissa num den := by
  have hle : k ≤ num / den := (Nat.le_div_iff_mul_le hden).mpr h
  unfold nearestMantissa
  simp only
  split_ifs <;> omega

/-- A quotient between an odd number and the next one, not below the middle. -/
theorem nearestMantissa_of_odd (hk : k % 2 = 1) (hmiddle : (2 * k + 1) * den ≤ 2 * num) (hnext : num < (k + 1) * den) :
    nearestMantissa num den = k + 1 := by
  have hden : 0 < den := Nat.pos_of_ne_zero fun h => by simp [h] at hnext
  have hexpand : (2 * k + 1) * den = 2 * (k * den) + den := by ring
  have hsucc : (k + 1) * den = k * den + den := Nat.succ_mul k den
  have hquotient : num / den = k := by
    rw [Nat.div_eq_iff hden]
    constructor <;> omega
  have hsplit := Nat.div_add_mod num den
  rw [hquotient, Nat.mul_comm] at hsplit
  unfold nearestMantissa
  simp only [hquotient]
  rw [if_neg (by omega)]
  split
  · rfl
  · rw [if_neg (by omega)]

end

/-! ## The mantissa of an integer -/

section

variable {a : Nat}

/-- An integer in its binade. -/
theorem scaleDown_bounds (ha : a ≠ 0) :
    let scaled := scaleDown a 1 ((a.log2 : Int) - 52)
    0 < scaled.2 ∧ 2 ^ 52 * scaled.2 ≤ scaled.1 ∧ scaled.1 < 2 ^ 53 * scaled.2 := by
  have hle := Nat.log2_self_le ha
  have hlt : a < 2 ^ (a.log2 + 1) := Nat.lt_log2_self
  unfold scaleDown
  simp only
  split
  · next hpos =>
    obtain ⟨e, he⟩ : ∃ e, a.log2 = 52 + e := ⟨a.log2 - 52, by omega⟩
    have htoNat : ((a.log2 : Int) - 52).toNat = e := by omega
    have hpow : Nat.pow 2 e = 2 ^ e := rfl
    rw [he] at hle hlt
    simp only [htoNat, hpow, Nat.one_mul]
    refine ⟨Nat.two_pow_pos e, ?_, ?_⟩
    · rwa [← Nat.pow_add]
    · rw [← Nat.pow_add]
      exact Nat.lt_of_lt_of_eq hlt (by ring)
  · next hneg =>
    obtain ⟨e, he⟩ : ∃ e, 52 = a.log2 + e := ⟨52 - a.log2, by omega⟩
    have htoNat : (-((a.log2 : Int) - 52)).toNat = e := by omega
    have hpow : Nat.pow 2 e = 2 ^ e := rfl
    simp only [htoNat, hpow, Nat.mul_one]
    refine ⟨Nat.one_pos, ?_, ?_⟩
    · calc 2 ^ 52 = 2 ^ a.log2 * 2 ^ e := by rw [← Nat.pow_add, ← he]
        _ ≤ a * 2 ^ e := Nat.mul_le_mul_right _ hle
    · calc a * 2 ^ e < 2 ^ (a.log2 + 1) * 2 ^ e := Nat.mul_lt_mul_of_pos_right hlt (Nat.two_pow_pos e)
        _ = 2 ^ 53 := by rw [← Nat.pow_add]; congr 1; omega

theorem mantissaExponent_eq (ha : a ≠ 0) : mantissaExponent a 1 = (a.log2 : Int) - 52 := by
  obtain ⟨hpos, hle, -⟩ := scaleDown_bounds ha
  have hlog : Nat.log2 1 = 0 := by decide
  have hge : ¬ (scaleDown a 1 ((a.log2 : Int) - 52)).1 / (scaleDown a 1 ((a.log2 : Int) - 52)).2 < Nat.pow 2 52 :=
    Nat.not_lt.mpr ((Nat.le_div_iff_mul_le hpos).mpr hle)
  have hguess : (a.log2 : Int) - Nat.log2 1 - 52 = (a.log2 : Int) - 52 := by rw [hlog]; simp
  unfold mantissaExponent
  simp only [hguess]
  rw [if_neg hge]
  simp only [leastExponent]
  omega

/-- The double of a size, and the mantissa before it is halved. -/
theorem nearest_eq (negative : Bool) (ha : a ≠ 0) : ∃ m, 2 ^ 52 ≤ m ∧ m ≤ 2 ^ 53 ∧
    nearest negative a 1 = compose negative m ((a.log2 : Int) - 52) ∧
    m = nearestMantissa (scaleDown a 1 ((a.log2 : Int) - 52)).1 (scaleDown a 1 ((a.log2 : Int) - 52)).2 := by
  obtain ⟨hpos, hle, hlt⟩ := scaleDown_bounds ha
  refine ⟨_, le_nearestMantissa_of_le hpos hle, nearestMantissa_le_of_lt ?_, ?_, rfl⟩
  · calc 2 * (scaleDown a 1 ((a.log2 : Int) - 52)).1 < 2 * (2 ^ 53 * (scaleDown a 1 ((a.log2 : Int) - 52)).2) := by omega
      _ ≤ _ := by omega
  · unfold nearest
    rw [if_neg ha]
    simp only [mantissaExponent_eq ha]

/-- The least size that is rounded to an infinity, in the halves of the largest unit. -/
theorem least_large_eq : 2 ^ 1024 - 2 ^ 970 = (2 ^ 54 - 1) * 2 ^ 970 := by
  have hwhole : (2 : Nat) ^ 1024 = 2 ^ 54 * 2 ^ 970 := by rw [← Nat.pow_add]
  rw [hwhole, Nat.sub_mul, Nat.one_mul]

theorem log2_of_large (h : 2 ^ 1024 - 2 ^ 970 ≤ a) : 1023 ≤ a.log2 := by
  have hpow : 2 ^ (53 + 970) ≤ a := by
    calc 2 ^ (53 + 970) = 2 ^ 53 * 2 ^ 970 := Nat.pow_add 2 53 970
      _ ≤ (2 ^ 54 - 1) * 2 ^ 970 := Nat.mul_le_mul_right (2 ^ 970) (by decide)
      _ ≤ a := by rwa [← least_large_eq]
  exact (Nat.le_log2 (Nat.ne_of_gt ((Nat.two_pow_pos _).trans_le hpow))).mpr hpow

theorem scaleDown_of_eq {num den e : Nat} {q : Int} (h : q = e) : scaleDown num den q = (num, den * 2 ^ e) := by
  subst h
  unfold scaleDown
  rw [if_pos (Int.natCast_nonneg e)]
  rfl

/-- A mantissa below `2 ^ 53` is rounded up to it from the middle of the last unit on. -/
theorem nearestMantissa_eq_most {e : Nat} {q : Int} (hq : q = (e + 1 : Nat)) (hlt : a < 2 ^ 54 * 2 ^ e) :
    nearestMantissa (scaleDown a 1 q).1 (scaleDown a 1 q).2 = 2 ^ 53 ↔ (2 ^ 54 - 1) * 2 ^ e ≤ a := by
  rw [scaleDown_of_eq hq, Nat.one_mul, Nat.pow_succ']
  simp only
  generalize 2 ^ e = p at hlt ⊢
  constructor
  · intro h
    by_contra hsmall
    have hle := nearestMantissa_le_of_lt (show 2 * a < (2 * (2 ^ 53 - 1) + 1) * (2 * p) by omega)
    omega
  · intro h
    exact nearestMantissa_of_odd (show (2 ^ 53 - 1) % 2 = 1 by decide) (by omega) (by omega)

theorem nearestMantissa_at_most {q : Int} (hlog : a.log2 = 1023) (hq : q = (970 + 1 : Nat)) :
    nearestMantissa (scaleDown a 1 q).1 (scaleDown a 1 q).2 = 2 ^ 53 ↔ 2 ^ 1024 - 2 ^ 970 ≤ a := by
  have hlt : a < 2 ^ 54 * 2 ^ 970 := by
    calc a < 2 ^ (a.log2 + 1) := Nat.lt_log2_self
      _ = 2 ^ 54 * 2 ^ 970 := by rw [hlog, ← Nat.pow_add]
  rw [nearestMantissa_eq_most hq hlt, least_large_eq]

end

section

variable {n : Int}

/-- An integer that is too large is an infinity of its sign. -/
theorem ofInt_of_large (h : 2 ^ 1024 - 2 ^ 970 ≤ n.natAbs) : ofInt n = infinity (n < 0) := by
  have hlog := log2_of_large h
  have hne : n.natAbs ≠ 0 := by
    intro h0
    rw [h0] at hlog
    exact absurd hlog (by decide)
  obtain ⟨m, -, hm, hnearest, hmantissa⟩ := nearest_eq (n < 0) hne
  rw [ofInt, hnearest]
  rcases Nat.lt_or_eq_of_le hlog with hlt | heq
  · exact Binary64.compose_eq_infinity (by omega) hm
  · have hexponent : (n.natAbs.log2 : Int) - 52 = (970 + 1 : Nat) := by omega
    rw [(nearestMantissa_at_most heq.symm hexponent).mpr h] at hmantissa
    rw [hmantissa, hexponent, Binary64.compose_of_eq]
    exact Binary64.compose_eq_infinity (by decide) (by decide)

/-- Any other integer is a finite double of its sign. -/
theorem ofFloat_ofInt_of_small (h : n.natAbs < 2 ^ 1024 - 2 ^ 970) :
    ∃ m q, Binary64.ofFloat (ofInt n) = .finite (n < 0) m q := by
  rw [ofInt]
  by_cases hne : n.natAbs = 0
  · rw [nearest, if_pos hne]
    exact ⟨_, _, Binary64.ofFloat_zeroFloat _⟩
  obtain ⟨m, hmin, hm, hnearest, hmantissa⟩ := nearest_eq (n < 0) hne
  have hlog : n.natAbs.log2 < 1024 := by
    rw [Nat.log2_lt hne]
    exact h.trans_le (Nat.sub_le (2 ^ 1024) (2 ^ 970))
  rw [hnearest]
  rcases Nat.lt_or_eq_of_le hm with hlt | heq
  · exact ⟨_, _, Binary64.ofFloat_compose ⟨hlt, by omega, by omega, by omega⟩⟩
  · have hmost : n.natAbs.log2 ≠ 1023 := by
      intro hlog
      have hexponent : (n.natAbs.log2 : Int) - 52 = (970 + 1 : Nat) := by omega
      exact absurd ((nearestMantissa_at_most hlog hexponent).mp (hmantissa.symm.trans heq)) (Nat.not_le.mpr h)
    rw [heq, Binary64.compose_of_eq]
    exact ⟨_, _, Binary64.ofFloat_compose ⟨by decide, by omega, by omega, by omega⟩⟩

/-- The integers that are no doubles. -/
theorem Number.outOfRange_iff : (Number.int n).outOfRange = true ↔ 2 ^ 1024 - 2 ^ 970 ≤ n.natAbs := by
  rw [Number.outOfRange]
  constructor
  · intro h
    by_contra hsmall
    obtain ⟨m, q, hfinite⟩ := ofFloat_ofInt_of_small (Nat.lt_of_not_le hsmall)
    rw [hfinite] at h
    cases h
  · intro h
    rw [ofInt_of_large h, Binary64.ofFloat_infinity]

end

end MinRuby.Numeric
