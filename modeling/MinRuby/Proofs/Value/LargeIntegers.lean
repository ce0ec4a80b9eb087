import MinRuby.Proofs.Numeric.IntegerRange
import MinRuby.Proofs.Value.Operators

/-!
# Integers that are no floats among floats

Beside a float an integer that is too large to be one counts as an infinity of its sign. The arithmetic operators but the
power read it so. The power does not: it gives an infinity whatever the other operand is, also where the power of an
infinity, or under one, is zero, one or of the other sign.

* `Value.apply_large_int` — the operators, and where the power agrees with them.
* `Value.power_not_of_infinity` — a power that should vanish.
-/

namespace MinRuby

namespace Numeric

/-- A double that is neither an infinity nor not a number. -/
def IsFinite (x : Float) : Prop := ∃ negative m q, Binary64.ofFloat x = .finite negative m q

/-! ## Powers of infinities -/

section

variable {negative : Bool} {x y : Float} {n : Int}

theorem infinity_eq_iff : infinity negative = x ↔ Binary64.ofFloat x = .infinite negative := by
  constructor
  · rintro rfl
    exact Binary64.ofFloat_infinity negative
  · intro h
    exact Binary64.ofFloat_injective ((Binary64.ofFloat_infinity negative).trans h.symm)

theorem Number.isBelowZero_int : (Number.int n).isBelowZero = decide (n < 0) := by
  rw [Bool.eq_iff_iff]
  simp only [isBelowZero, lt, le, Bool.and_eq_true, Bool.not_eq_true', decide_eq_true_eq, decide_eq_false_iff_not]
  omega

/-- A finite double is zero, below zero or above. -/
theorem Number.above_zero_iff (hy : IsFinite y) : (Number.int 0).lt (.float y) = true ↔
    (Number.float y).equal (.int 0) = false ∧ (Number.float y).isBelowZero = false := by
  obtain ⟨sign, m, q, hy⟩ := hy
  obtain ⟨k, hk⟩ : ∃ k, (Number.float y).scaled = some (.finite k) := by
    rw [Number.scaled, hy]
    exact ⟨_, rfl⟩
  have hzero : (Number.int 0).scaled = some (.finite 0) := by rw [Number.scaled, Int.zero_mul]
  simp only [isBelowZero, lt, le, equal, hk, hzero, Scaled.le, Scaled.finite.injEq, Bool.and_eq_true,
    Bool.and_eq_false_iff, Bool.not_eq_true', Bool.not_eq_false', decide_eq_true_eq, decide_eq_false_iff_not]
  omega

/-- The power of an infinity under a finite exponent is an infinity if the exponent is above zero. -/
theorem infinityPow_eq_infinity_iff (hy : IsFinite y) :
    infinity (negative && (Number.float y).isOdd) = infinityPow negative (.float y) ↔ (Number.int 0).lt (.float y) = true := by
  rw [infinity_eq_iff, Number.above_zero_iff hy]
  unfold infinityPow
  split_ifs with hzero hbelow
  · simp [hzero, Binary64.ofFloat_oneFloat]
  · simp [hbelow, Binary64.ofFloat_zeroFloat]
  · simp [hzero, hbelow, Binary64.ofFloat_infinity]

/-- The power under an infinite exponent is the positive infinity if the exponent makes the base grow. -/
theorem powInfinity_eq_infinity_iff {base : Binary64} {sign : Bool} : infinity sign = powInfinity base negative ↔
    (if negative then base.compareOne = .lt else base.compareOne = .gt) ∧ sign = false := by
  rw [infinity_eq_iff]
  unfold powInfinity
  cases base.compareOne <;> cases negative <;>
    simp [Binary64.ofFloat_oneFloat, Binary64.ofFloat_zeroFloat, Binary64.ofFloat_infinity, eq_comm]

theorem floatPow_infinity_base (hy : IsFinite y) :
    floatPow (.float (infinity negative)) (.float y) = .ok (infinityPow negative (.float y)) := by
  obtain ⟨sign, m, q, hy⟩ := hy
  unfold floatPow
  simp only [Number.toFloat, Binary64.ofFloat_infinity, hy]

theorem floatPow_infinity_exponent (hx : IsFinite x) :
    floatPow (.float x) (.float (infinity negative)) = .ok (powInfinity (Binary64.ofFloat x) negative) := by
  obtain ⟨sign, m, q, hx⟩ := hx
  unfold floatPow
  simp only [Number.toFloat, Binary64.ofFloat_infinity, hx]

end

end Numeric

namespace Value

open Numeric (Number IsFinite infinity infinityPow powInfinity powBeyond ofInt)
open Syntax (BinaryOp)

/-- The infinity of the sign of an integer. -/
def infinityOf (n : Int) : Value := float (infinity (n < 0))

section

variable {s : Store} {d : Nat} {n : Int} {y : Float}

/-- The operators that take integers beside floats as the doubles they are rounded to. -/
theorem apply_rounded {op : BinaryOp} (hop : op ∈ [BinaryOp.add, .sub, .mul, .div, .mod]) :
    apply d op (int n) (float y) s = apply d op (float (ofInt n)) (float y) s ∧
      apply d op (float y) (int n) s = apply d op (float y) (float (ofInt n)) s := by
  simp only [List.mem_cons, List.not_mem_nil, or_false] at hop
  rcases hop with rfl | rfl | rfl | rfl | rfl <;> exact ⟨rfl, rfl⟩

/-! ## The power -/

theorem apply_pow_of_large_base (hn : (Number.int n).outOfRange = true) :
    apply d .pow (int n) (float y) s = .ok (float (infinity (decide (n < 0) && (Number.float y).isOdd))) s := by
  have hpow : (Number.int n).pow (.float y) = .ok (.float (powBeyond (.int n) (.float y))) := by
    simp only [Number.pow, hn, Bool.true_or, if_true]
  rw [powBeyond, Number.isBelowZero_int] at hpow
  refine apply_numbers (by decide) rfl rfl ?_
  simp only [onNumbers, hpow]
  rfl

theorem apply_pow_of_large_exponent (hn : (Number.int n).outOfRange = true) :
    apply d .pow (float y) (int n) s = .ok (float (infinity ((Number.float y).isBelowZero && (Number.int n).isOdd))) s := by
  have hpow : (Number.float y).pow (.int n) = .ok (.float (powBeyond (.float y) (.int n))) := by
    simp only [Number.pow, hn, Bool.or_true, if_true]
  rw [powBeyond] at hpow
  refine apply_numbers (by decide) rfl rfl ?_
  simp only [onNumbers, hpow]
  rfl

theorem apply_pow_infinity_base (hy : IsFinite y) :
    apply d .pow (infinityOf n) (float y) s = .ok (float (infinityPow (n < 0) (.float y))) s := by
  have hpow : (Number.float (infinity (n < 0))).pow (.float y) = .ok (.float (infinityPow (n < 0) (.float y))) := by
    rw [Number.pow, Numeric.floatPow_infinity_base hy]
    · rfl
    · simp
  refine apply_numbers (by decide) rfl rfl ?_
  simp only [onNumbers, hpow]
  rfl

theorem apply_pow_infinity_exponent (hy : IsFinite y) :
    apply d .pow (float y) (infinityOf n) s = .ok (float (powInfinity (Numeric.Binary64.ofFloat y) (n < 0))) s := by
  have hpow : (Number.float y).pow (.float (infinity (n < 0))) =
      .ok (.float (powInfinity (Numeric.Binary64.ofFloat y) (n < 0))) := by
    rw [Number.pow, Numeric.floatPow_infinity_exponent hy]
    · rfl
    · simp
  refine apply_numbers (by decide) rfl rfl ?_
  simp only [onNumbers, hpow]
  rfl

/-! ## Large integers as infinities -/

/-- An integer too large to be a float counts as an infinity of its sign. As a base of a power it does so under the exponents
above zero only; as an exponent only if it makes the size of the base grow, and the base is not below zero or the integer even. -/
theorem apply_large_int (s : Store) (d : Nat) (hn : 2 ^ 1024 - 2 ^ 970 ≤ n.natAbs) (hy : IsFinite y) :
    (∀ op ∈ [BinaryOp.add, .sub, .mul, .div, .mod],
      apply d op (int n) (float y) s = apply d op (infinityOf n) (float y) s ∧
        apply d op (float y) (int n) s = apply d op (float y) (infinityOf n) s) ∧
    (apply d .pow (int n) (float y) s = apply d .pow (infinityOf n) (float y) s ↔ (Number.int 0).lt (.float y) = true) ∧
    (apply d .pow (float y) (int n) s = apply d .pow (float y) (infinityOf n) s ↔
      (if n < 0 then (Numeric.Binary64.ofFloat y).compareOne = .lt else (Numeric.Binary64.ofFloat y).compareOne = .gt) ∧
        ((Number.float y).isBelowZero && (Number.int n).isOdd) = false) := by
  have hlarge : (Number.int n).outOfRange = true := Number.outOfRange_iff.mpr hn
  refine ⟨fun op hop => ?_, ?_, ?_⟩
  · rw [infinityOf, ← Numeric.ofInt_of_large hn]
    exact apply_rounded hop
  · rw [apply_pow_of_large_base hlarge, apply_pow_infinity_base hy]
    simp only [EStateM.Result.ok.injEq, Value.float.injEq, and_true, Numeric.infinityPow_eq_infinity_iff hy]
  · rw [apply_pow_of_large_exponent hlarge, apply_pow_infinity_exponent hy]
    simp only [EStateM.Result.ok.injEq, Value.float.injEq, and_true, Numeric.powInfinity_eq_infinity_iff, decide_eq_true_eq]

end

/-- The double `1 / 2`. -/
def half : Float := Float.ofBits (Numeric.Binary64.word (.finite false (2 ^ 52) (-53))).toUInt64

theorem ofFloat_half : Numeric.Binary64.ofFloat half = .finite false (2 ^ 52) (-53) :=
  Numeric.Binary64.ofFloat_of_word ⟨by decide, by decide, by decide, by decide⟩

theorem compareOne_half : (Numeric.Binary64.ofFloat half).compareOne = .lt := by
  rw [ofFloat_half]
  decide +kernel

/-- The first power of two that is no double. -/
def tooLarge : Int := 2 ^ 1024

theorem tooLarge_le : 2 ^ 1024 - 2 ^ 970 ≤ tooLarge.natAbs := by
  have hsize : tooLarge.natAbs = 2 ^ 1024 := Int.natAbs_pow 2 1024
  rw [hsize]
  exact Nat.sub_le (2 ^ 1024) (2 ^ 970)

theorem tooLarge_not_neg : ¬ tooLarge < 0 := Int.not_lt.mpr (Int.pow_nonneg (by decide))

theorem isOdd_tooLarge : (Number.int tooLarge).isOdd = false := by decide +kernel

/-- Half an infinity is one, and the power of one half under it is not that under an infinity. -/
theorem large_int_beside_half :
    (2 ^ 1024 - 2 ^ 970 ≤ tooLarge.natAbs ∧ IsFinite half) ∧
      apply 0 .mul (int tooLarge) (float half) {} = apply 0 .mul (infinityOf tooLarge) (float half) {} ∧
      apply 0 .pow (float half) (int tooLarge) {} ≠ apply 0 .pow (float half) (infinityOf tooLarge) {} := by
  have hhalf : IsFinite half := ⟨_, _, _, ofFloat_half⟩
  obtain ⟨hrounded, -, hexponent⟩ := apply_large_int {} 0 tooLarge_le hhalf
  refine ⟨⟨tooLarge_le, hhalf⟩, (hrounded .mul (by decide)).1, fun heq => ?_⟩
  rw [if_neg tooLarge_not_neg, compareOne_half] at hexponent
  cases (hexponent.mp heq).1

/-- One half under an integer that is no float is an infinity; under the infinity that the integer counts as it is zero. -/
theorem power_not_of_infinity :
    2 ^ 1024 - 2 ^ 970 ≤ tooLarge.natAbs ∧ IsFinite half ∧
      apply 0 .pow (float half) (int tooLarge) {} = .ok (float (infinity false)) {} ∧
      apply 0 .pow (float half) (infinityOf tooLarge) {} = .ok (float (Numeric.zeroFloat false)) {} ∧
      infinity false ≠ Numeric.zeroFloat false := by
  have hhalf : IsFinite half := ⟨_, _, _, ofFloat_half⟩
  refine ⟨tooLarge_le, hhalf, ?_, ?_, fun heq => ?_⟩
  · rw [apply_pow_of_large_exponent (Number.outOfRange_iff.mpr tooLarge_le), isOdd_tooLarge, Bool.and_false]
  · rw [apply_pow_infinity_exponent hhalf, powInfinity, compareOne_half]
    simp only [tooLarge_not_neg, decide_false, Bool.false_eq_true, if_false]
  · rw [Numeric.infinity_eq_iff, Numeric.Binary64.ofFloat_zeroFloat] at heq
    cases heq

end Value

end MinRuby
