import MinRuby.Numeric.Binary64
import Mathlib

/-!
# The words of doubles

A double is told by its word of 64 bits, and all words but those of the other NaNs are words of doubles. So the sign, the
mantissa and the exponent of a double tell it too.

* `toBits_ofBits` — the word of the double with a given word.
* `ofFloat_eq`, `Binary64.ofFloat_injective` — what a word stands for, and that no two doubles stand for the same.
-/

namespace MinRuby.Numeric

open Float.Model (UnpackedFloat)
open Float.Model.UnpackedFloat (unpackMantissa unpackExponent)

/-! ## The parts of a word -/

section

variable (v : BitVec 64)

theorem toNat_unpackMantissa : (@unpackMantissa .binary64 v).toNat = v.toNat % 2 ^ 52 := by
  simp [unpackMantissa]

theorem toNat_unpackExponent : (@unpackExponent .binary64 v).toNat = v.toNat / 2 ^ 52 % 2 ^ 11 := by
  simp [unpackExponent, Nat.shiftRight_eq_div_pow]

/-- The word is one of a NaN. -/
theorem isNaNBits_iff : @UnpackedFloat.isNaNBits .binary64 v = true ↔
    v.toNat / 2 ^ 52 % 2 ^ 11 = 2047 ∧ v.toNat % 2 ^ 52 ≠ 0 := by
  rw [UnpackedFloat.isNaNBits, decide_eq_true_eq, ← toNat_unpackExponent, ← toNat_unpackMantissa]
  refine and_congr ⟨fun h => ?_, fun h => BitVec.eq_of_toNat_eq h⟩ (not_congr ⟨fun h => ?_, fun h => BitVec.eq_of_toNat_eq h⟩)
  · rw [h]
    rfl
  · rw [h]
    rfl

end

/-! ## Words of doubles -/

/-- Words that are none of a NaN are kept. -/
theorem toBits_ofBits {b : UInt64} (h : b.toNat / 2 ^ 52 % 2 ^ 11 = 2047 → b.toNat % 2 ^ 52 = 0) :
    (Float.ofBits b).toBits = b := by
  have hword : ¬ @UnpackedFloat.isNaNBits .binary64 b.toBitVec = true := fun hnan => by
    obtain ⟨hexponent, hfraction⟩ := (isNaNBits_iff _).mp hnan
    exact hfraction (h hexponent)
  show UInt64.ofBitVec (UnpackedFloat.pack .binary64 (UnpackedFloat.unpack .binary64 b.toBitVec)) = b
  rw [UnpackedFloat.pack_unpack, if_neg hword]

/-- The word of a NaN is always the same. -/
theorem toBits_of_isNaN {x : Float} (hexponent : x.toBits.toNat / 2 ^ 52 % 2 ^ 11 = 2047)
    (hfraction : x.toBits.toNat % 2 ^ 52 ≠ 0) :
    x.toBits.toBitVec = UnpackedFloat.packedNaN .binary64 := by
  refine x.toModel.valid.eq_packedNaN (BitVec.eq_of_toNat_eq ?_) fun h => hfraction ?_
  · exact (toNat_unpackExponent _).trans hexponent
  · exact (toNat_unpackMantissa _).symm.trans (congrArg BitVec.toNat h)

/-! ## What words stand for -/

namespace Binary64

/-- The word of what a double stands for. -/
def word : Binary64 → Nat
  | nan => 2047 * 2 ^ 52 + 2 ^ 51
  | infinite negative => (if negative then 2 ^ 63 else 0) + 2047 * 2 ^ 52
  | finite negative m q =>
    (if negative then 2 ^ 63 else 0) + if m < 2 ^ 52 then m else (q + 1075).toNat * 2 ^ 52 + (m - 2 ^ 52)

/-- The mantissa and the exponent of a double. The mantissa has 53 bits, or fewer at the least exponent. -/
structure Fits (m : Nat) (q : Int) : Prop where
  mantissa_lt : m < 2 ^ 53
  least_le : -1074 ≤ q
  le_most : q ≤ 971
  least_eq : m < 2 ^ 52 → q = -1074

/-- What the parts of a word stand for. -/
def ofWord (w : Nat) : Binary64 :=
  let negative := decide (2 ^ 63 ≤ w)
  let exponent : Nat := w / 2 ^ 52 % 2 ^ 11
  let fraction := w % 2 ^ 52
  if exponent = 2047 then (if fraction = 0 then infinite negative else nan)
  else if exponent = 0 then finite negative fraction (-1074)
  else finite negative (2 ^ 52 + fraction) ((exponent : Int) - 1075)

theorem ofFloat_eq (x : Float) : ofFloat x = ofWord x.toBits.toNat := rfl

/-- The sign, the exponent and the fraction of a word put together. -/
theorem ofWord_of_parts {negative : Bool} {e f : Nat} (he : e < 2047) (hf : f < 2 ^ 52) :
    ofWord ((if negative then 2 ^ 63 else 0) + (e * 2 ^ 52 + f)) =
      if e = 0 then finite negative f (-1074) else finite negative (2 ^ 52 + f) ((e : Int) - 1075) := by
  have hexponent : ((if negative then 2 ^ 63 else 0) + (e * 2 ^ 52 + f)) / 2 ^ 52 % 2 ^ 11 = e := by split <;> omega
  have hfraction : ((if negative then 2 ^ 63 else 0) + (e * 2 ^ 52 + f)) % 2 ^ 52 = f := by split <;> omega
  have hsign : decide (2 ^ 63 ≤ (if negative then 2 ^ 63 else 0) + (e * 2 ^ 52 + f)) = negative := by
    cases negative
    · exact decide_eq_false (by simp only [Bool.false_eq_true, if_false]; omega)
    · exact decide_eq_true (by simp only [if_true]; omega)
  rw [ofWord]
  simp only [hexponent, hfraction, hsign]
  rw [if_neg (Nat.ne_of_lt he)]

theorem ofWord_word_finite {negative : Bool} {m : Nat} {q : Int} (h : Fits m q) :
    ofWord (word (finite negative m q)) = finite negative m q := by
  obtain ⟨hm, hleast, hmost, hsmall⟩ := h
  rw [word]
  by_cases hlt : m < 2 ^ 52
  · have hparts := @ofWord_of_parts negative 0 m (by decide) hlt
    rw [Nat.zero_mul, Nat.zero_add] at hparts
    rw [if_pos hlt, hparts, if_pos rfl, hsmall hlt]
  · have hmantissa : 2 ^ 52 + (m - 2 ^ 52) = m := by omega
    have hexponent : ((q + 1075).toNat : Int) - 1075 = q := by omega
    rw [if_neg hlt, ofWord_of_parts (by omega) (by omega), if_neg (by omega), hmantissa, hexponent]

theorem ofWord_word_infinite (negative : Bool) : ofWord (word (infinite negative)) = infinite negative := by
  cases negative <;> rfl

/-- The word of a double is that of what it stands for. -/
theorem word_ofFloat (x : Float) : (ofFloat x).word = x.toBits.toNat := by
  have hx := x.toBits.toNat_lt
  have hsign : (if decide (2 ^ 63 ≤ x.toBits.toNat) = true then 2 ^ 63 else 0) = x.toBits.toNat / 2 ^ 63 * 2 ^ 63 := by
    split
    · next htop =>
      have hle : 2 ^ 63 ≤ x.toBits.toNat := of_decide_eq_true htop
      omega
    · next htop =>
      have hlt : ¬ 2 ^ 63 ≤ x.toBits.toNat := fun hle => htop (decide_eq_true hle)
      omega
  rw [ofFloat_eq, ofWord]
  split
  · next htop =>
    split
    · next hzero =>
      rw [word, hsign]
      omega
    · next hpos =>
      have hword := congrArg BitVec.toNat (toBits_of_isNaN htop hpos)
      exact hword.symm
  · next htop =>
    split
    · next hleast =>
      rw [word, hsign, if_pos (Nat.mod_lt _ (by decide))]
      omega
    · next hnormal =>
      rw [word, hsign, if_neg (by omega)]
      omega

/-- Doubles that stand for the same are the same. -/
theorem ofFloat_injective {x y : Float} (h : ofFloat x = ofFloat y) : x = y := by
  refine Float.toBits_inj.mp (UInt64.toNat_inj.mp ?_)
  rw [← word_ofFloat x, ← word_ofFloat y, h]

theorem fits_of_ofFloat {x : Float} {negative : Bool} {m : Nat} {q : Int} (h : ofFloat x = finite negative m q) :
    Fits m q := by
  rw [ofFloat_eq, ofWord] at h
  split at h
  · split at h <;> cases h
  · split at h
    · obtain ⟨-, rfl, rfl⟩ := Binary64.finite.inj h
      exact ⟨by omega, by decide, by decide, fun _ => rfl⟩
    · obtain ⟨-, rfl, rfl⟩ := Binary64.finite.inj h
      exact ⟨by omega, by omega, by omega, by omega⟩

/-! ## Doubles with given parts -/

theorem ofFloat_ofBits {w : Nat} (hw : w < 2 ^ 64) (h : w / 2 ^ 52 % 2 ^ 11 = 2047 → w % 2 ^ 52 = 0) :
    ofFloat (Float.ofBits w.toUInt64) = ofWord w := by
  have hnat : w.toUInt64.toNat = w := Nat.mod_eq_of_lt hw
  rw [ofFloat_eq, toBits_ofBits (by rwa [hnat]), hnat]

theorem ofFloat_infinity (negative : Bool) : ofFloat (infinity negative) = infinite negative := by
  have hword : infinity negative = Float.ofBits (word (infinite negative)).toUInt64 := by cases negative <;> rfl
  rw [hword, ofFloat_ofBits (by cases negative <;> decide) (by cases negative <;> decide), ofWord_word_infinite]

theorem ofFloat_oneFloat : ofFloat oneFloat = finite false (2 ^ 52) (-52) := by
  have hword : oneFloat = Float.ofBits (word (finite false (2 ^ 52) (-52))).toUInt64 := rfl
  rw [hword, ofFloat_ofBits (by decide) (by decide), ofWord_word_finite ⟨by decide, by decide, by decide, by decide⟩]

theorem ofFloat_zeroFloat (negative : Bool) : ofFloat (zeroFloat negative) = finite negative 0 (-1074) := by
  have hword : zeroFloat negative = Float.ofBits (word (finite negative 0 (-1074))).toUInt64 := by cases negative <;> rfl
  rw [hword, ofFloat_ofBits (by cases negative <;> decide) (by cases negative <;> decide),
    ofWord_word_finite ⟨by decide, by decide, by decide, by decide⟩]

theorem ofFloat_of_word {negative : Bool} {m : Nat} {q : Int} (h : Fits m q) :
    ofFloat (Float.ofBits (word (finite negative m q)).toUInt64) = finite negative m q := by
  obtain ⟨hm, hleast, hmost, -⟩ := id h
  have hmagnitude : (if m < 2 ^ 52 then m else (q + 1075).toNat * 2 ^ 52 + (m - 2 ^ 52)) < 2047 * 2 ^ 52 := by
    split <;> omega
  rw [ofFloat_ofBits, ofWord_word_finite h]
  · rw [word]
    split <;> omega
  · rw [word]
    split <;> omega

theorem compose_of_lt {negative : Bool} {m : Nat} {q : Int} (hm : m < 2 ^ 53) : compose negative m q =
    if 971 < q then infinity negative else Float.ofBits (word (finite negative m q)).toUInt64 := by
  have hne : m ≠ Nat.pow 2 53 := Nat.ne_of_lt hm
  unfold compose
  rw [if_neg hne]
  rfl

/-- A mantissa that was rounded up to 54 bits is halved. -/
theorem compose_of_eq (negative : Bool) (q : Int) : compose negative (2 ^ 53) q = compose negative (2 ^ 52) (q + 1) := by
  have heq : (2 : Nat) ^ 53 = Nat.pow 2 53 := rfl
  have hne : (2 : Nat) ^ 52 ≠ Nat.pow 2 53 := by decide
  unfold compose
  rw [if_pos heq, if_neg hne]
  rfl

theorem compose_eq_infinity {negative : Bool} {m : Nat} {q : Int} (h : 971 < q) (hm : m ≤ 2 ^ 53) :
    compose negative m q = infinity negative := by
  rcases Nat.lt_or_eq_of_le hm with hlt | rfl
  · rw [compose_of_lt hlt, if_pos h]
  · rw [compose_of_eq, compose_of_lt (by decide), if_pos (by omega)]

theorem ofFloat_compose {negative : Bool} {m : Nat} {q : Int} (h : Fits m q) :
    ofFloat (compose negative m q) = finite negative m q := by
  rw [compose_of_lt h.mantissa_lt, if_neg (Int.not_lt.mpr h.le_most), ofFloat_of_word h]

end Binary64

end MinRuby.Numeric
