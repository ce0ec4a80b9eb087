import MinRuby.Numeric.FloatText
import MinRuby.Proofs.Numeric.Shortest

/-!
# Floats are told by their texts

The digits, the point and the exponent of a text write one number, whatever the layout. The text of a finite double writes
a decimal that rounds to the double, so no two doubles have the same text.

* `value_eq_of_digits_eq` — decimals laid out in the same way.
* `text_plain_injective` — the texts of doubles.
-/

namespace MinRuby.Numeric

/-! ## Texts with a point -/

/-- What stands on either side of a mark that neither side in front of it holds. -/
theorem eq_of_append_mark {mark : Char} : ∀ {v v' w w' : List Char}, mark ∉ v → mark ∉ v' →
    v ++ mark :: w = v' ++ mark :: w' → v = v' ∧ w = w'
  | [], [], _, _, _, _, h => ⟨rfl, (List.cons.inj h).2⟩
  | [], x :: v', _, _, _, hv', h => absurd (List.cons.inj h).1 (List.ne_of_not_mem_cons hv')
  | x :: v, [], _, _, hv, _, h => absurd (List.cons.inj h).1.symm (List.ne_of_not_mem_cons hv)
  | x :: v, y :: v', _, _, hv, hv', h => by
    obtain ⟨hx, hrest⟩ := List.cons.inj h
    obtain ⟨hv, hw⟩ := eq_of_append_mark (List.not_mem_of_not_mem_cons hv) (List.not_mem_of_not_mem_cons hv') hrest
    exact ⟨by rw [hx, hv], hw⟩

/-- All characters are digits. -/
def AllDigits (text : List Char) : Prop := ∀ x ∈ text, x.isDigit = true

theorem allDigits_toDigits (n : Nat) : AllDigits (Nat.toDigits 10 n) := fun _ =>
  Nat.isDigit_of_mem_toDigits (by decide) (by decide)

theorem allDigits_replicate (n : Nat) : AllDigits (List.replicate n '0') := fun x hx => by
  rw [List.eq_of_mem_replicate hx]
  rfl

theorem AllDigits.append {v w : List Char} (hv : AllDigits v) (hw : AllDigits w) : AllDigits (v ++ w) :=
  fun x hx => (List.mem_append.mp hx).elim (hv x) (hw x)

theorem AllDigits.not_mem {v : List Char} (hv : AllDigits v) {mark : Char} (hmark : mark.isDigit = false) : mark ∉ v := by
  intro h
  rw [hv mark h] at hmark
  cases hmark

/-- The number that digits before and behind a point write. -/
def pointValue (whole fraction : List Char) : ℚ := Nat.ofDigitChars 10 (whole ++ fraction) 0 / 10 ^ fraction.length

theorem pointValue_zeros (digits : List Char) (n : Nat) :
    pointValue ('0' :: []) (List.replicate n '0' ++ digits) =
      Nat.ofDigitChars 10 digits 0 * (10 : ℚ) ^ (-(n + digits.length : Nat) : Int) := by
  have hdigits : '0' :: [] ++ (List.replicate n '0' ++ digits) = List.replicate (n + 1) '0' ++ digits := rfl
  rw [pointValue, hdigits, Nat.ofDigitChars_append, Nat.ofDigitChars_replicate_zero, Nat.mul_zero, List.length_append,
    List.length_replicate, zpow_neg, zpow_natCast, div_eq_mul_inv]

theorem pointValue_padded (digits : List Char) (n : Nat) :
    pointValue (digits ++ List.replicate n '0') ['0'] = Nat.ofDigitChars 10 digits 0 * (10 : ℚ) ^ (n : Int) := by
  have hzeros : digits ++ List.replicate n '0' ++ ['0'] = digits ++ List.replicate (n + 1) '0' := by
    rw [List.append_assoc, ← List.replicate_succ']
  rw [pointValue, hzeros, Nat.ofDigitChars_append, Nat.ofDigitChars_replicate_zero, List.length_singleton, zpow_natCast]
  push_cast
  ring

theorem pointValue_split {digits : List Char} {n : Nat} (h : n ≤ digits.length) :
    pointValue (digits.take n) (digits.drop n) = Nat.ofDigitChars 10 digits 0 * (10 : ℚ) ^ ((n : Int) - digits.length) := by
  have hexponent : (n : Int) - digits.length = -((digits.length - n : Nat) : Int) := by omega
  rw [pointValue, List.take_append_drop, List.length_drop, hexponent, zpow_neg, zpow_natCast, div_eq_mul_inv]

/-- The text with a point that writes the digits with the given number of them before the point. -/
theorem withPoint_eq {digits : List Char} (hdigits : AllDigits digits) (hne : digits ≠ []) (count : Int) :
    ∃ whole fraction, withPoint digits count = whole ++ '.' :: fraction ∧ AllDigits whole ∧ AllDigits fraction ∧ whole ≠ [] ∧
      pointValue whole fraction = Nat.ofDigitChars 10 digits 0 * 10 ^ (count - digits.length) := by
  have hzero : AllDigits ['0'] := allDigits_replicate 1
  have hlength : 0 < digits.length := List.length_pos_iff.mpr hne
  unfold withPoint
  split
  · next hcount =>
    obtain ⟨n, hn⟩ := Int.eq_ofNat_of_zero_le (show 0 ≤ -count by omega)
    have hexponent : count - digits.length = -((n + digits.length : Nat) : Int) := by omega
    refine ⟨['0'], List.replicate n '0' ++ digits, ?_, hzero, (allDigits_replicate n).append hdigits, List.cons_ne_nil _ _, ?_⟩
    · rw [show (-count).toNat = n by omega]
      rfl
    · rw [pointValue_zeros, hexponent]
  · next hcount =>
    obtain ⟨n, rfl⟩ := Int.eq_ofNat_of_zero_le (show 0 ≤ count by omega)
    simp only [Int.toNat_natCast]
    rcases Nat.lt_or_ge n digits.length with hlt | hge
    · have hpadded : digits ++ List.replicate (n - digits.length) '0' = digits := by
        rw [Nat.sub_eq_zero_of_le hlt.le, List.replicate_zero, List.append_nil]
      have hdrop : digits.drop n ≠ [] := fun h => by
        have hle := List.drop_eq_nil_iff.mp h
        omega
      have htake : digits.take n ≠ [] := fun h => by
        rcases List.take_eq_nil_iff.mp h with h | h
        · omega
        · exact hne h
      refine ⟨digits.take n, digits.drop n, ?_, fun x hx => hdigits x (List.mem_of_mem_take hx),
        fun x hx => hdigits x (List.mem_of_mem_drop hx), htake, pointValue_split hlt.le⟩
      rw [hpadded, if_neg (by rwa [List.isEmpty_iff])]
    · have hexponent : (n : Int) - digits.length = ((n - digits.length : Nat) : Int) := by omega
      have hpadded : (digits ++ List.replicate (n - digits.length) '0').length = n := by
        rw [List.length_append, List.length_replicate]
        omega
      refine ⟨digits ++ List.replicate (n - digits.length) '0', ['0'], ?_, hdigits.append (allDigits_replicate _), hzero,
        List.append_ne_nil_of_left_ne_nil hne _, ?_⟩
      · rw [List.take_of_length_le hpadded.le, List.drop_of_length_le hpadded.le]
        rfl
      · rw [pointValue_padded, hexponent]

/-! ## Exponents -/

/-- The exponent that a text tells. -/
theorem exponentText_injective {e e' : Int} (h : exponentText e = exponentText e') : e = e' := by
  have hsize (n : Nat) : Nat.ofDigitChars 10 (if (Nat.toDigits 10 n).length < 2 then '0' :: Nat.toDigits 10 n
      else Nat.toDigits 10 n) 0 = n := by
    split
    · rw [Nat.ofDigitChars_cons]
      exact Nat.ofDigitChars_ten_toDigits
    · exact Nat.ofDigitChars_ten_toDigits
  obtain ⟨hsign, hdigits⟩ := List.cons.inj h
  have habs : e.natAbs = e'.natAbs := by
    rw [← hsize e.natAbs, ← hsize e'.natAbs]
    exact congrArg (Nat.ofDigitChars 10 · 0) hdigits
  have hnegative : e < 0 ↔ e' < 0 := by
    constructor <;> intro hlt <;> by_contra hge <;> rw [if_pos hlt, if_neg hge] at hsign <;> exact absurd hsign (by decide)
  omega

theorem exponentText_eq (e : Int) :
    ∃ sign digits, exponentText e = sign :: digits ∧ (sign = '-' ∨ sign = '+') ∧ AllDigits digits := by
  refine ⟨_, _, rfl, ?_, ?_⟩
  · split
    · exact .inl rfl
    · exact .inr rfl
  · split
    · exact (allDigits_replicate 1).append (allDigits_toDigits _)
    · exact allDigits_toDigits _

/-! ## Decimals -/

/-- The digits of a decimal as characters. -/
abbrev Decimal.chars (d : Decimal) : List Char := Nat.toDigits 10 d.digits

/-- The exponent of the first digit. -/
def Decimal.leading (d : Decimal) : Int := d.exponent + d.chars.length - 1

/-- The digits with a point behind the first one, if there are more. -/
def pointed : List Char → List Char
  | [only] => [only]
  | first :: rest => first :: '.' :: rest
  | [] => []

theorem digits_plain_eq (d : Decimal) : FloatLayout.plain.digits d =
    if positional d.leading then withPoint d.chars (d.leading + 1) else pointed d.chars ++ 'e' :: exponentText d.leading := rfl

theorem chars_ne_nil (d : Decimal) : d.chars ≠ [] := List.length_pos_iff.mp Nat.length_toDigits_pos

/-- A decimal that is written out: its text is digits with a point, which write its number. -/
theorem positional_text (d : Decimal) : ∃ whole fraction, withPoint d.chars (d.leading + 1) = whole ++ '.' :: fraction ∧
    AllDigits whole ∧ AllDigits fraction ∧ whole ≠ [] ∧ pointValue whole fraction = d.value := by
  obtain ⟨whole, fraction, htext, hwhole, hfraction, hne, hvalue⟩ :=
    withPoint_eq (allDigits_toDigits d.digits) (chars_ne_nil d) (d.leading + 1)
  refine ⟨whole, fraction, htext, hwhole, hfraction, hne, hvalue.trans ?_⟩
  rw [Nat.ofDigitChars_ten_toDigits, Decimal.value, Decimal.leading, Decimal.chars]
  congr 2
  omega

theorem mem_pointed {digits : List Char} {x : Char} (h : x ∈ pointed digits) : x ∈ digits ∨ x = '.' := by
  match digits with
  | [] => cases h
  | [only] => exact .inl h
  | first :: second :: rest =>
    rcases List.mem_cons.mp h with h | h
    · exact .inl (h ▸ List.mem_cons_self)
    · rcases List.mem_cons.mp h with h | h
      · exact .inr h
      · exact .inl (List.mem_cons_of_mem _ h)

theorem pointed_injective {digits digits' : List Char} (hdigits : AllDigits digits) (hdigits' : AllDigits digits')
    (h : pointed digits = pointed digits') : digits = digits' := by
  match digits, digits' with
  | [], [] => rfl
  | [only], [only'] => exact h
  | first :: second :: rest, first' :: second' :: rest' =>
    obtain ⟨hfirst, hrest⟩ := List.cons.inj h
    rw [hfirst, (List.cons.inj hrest).2]
  | [], [_] | [], _ :: _ :: _ | [_], [] | _ :: _ :: _, [] => cases h
  | [_], _ :: _ :: _ | _ :: _ :: _, [_] => cases h

theorem mark_not_mem_pointed (d : Decimal) : 'e' ∉ pointed d.chars := fun h => by
  rcases mem_pointed h with h | h
  · exact (allDigits_toDigits d.digits).not_mem (by decide) h
  · exact absurd h (by decide)

theorem mark_not_mem_withPoint (d : Decimal) : 'e' ∉ withPoint d.chars (d.leading + 1) := by
  obtain ⟨whole, fraction, htext, hwhole, hfraction, -, -⟩ := positional_text d
  rw [htext, List.mem_append, List.mem_cons]
  rintro (h | h | h)
  · exact hwhole.not_mem (by decide) h
  · exact absurd h (by decide)
  · exact hfraction.not_mem (by decide) h

/-- Decimals laid out in the same way write the same number. -/
theorem value_eq_of_digits_eq {d d' : Decimal} (h : FloatLayout.plain.digits d = FloatLayout.plain.digits d') :
    d.value = d'.value := by
  have hmixed {d d' : Decimal} (h : withPoint d.chars (d.leading + 1) = pointed d'.chars ++ 'e' :: exponentText d'.leading) :
      d.value = d'.value :=
    absurd (h ▸ List.mem_append_right _ List.mem_cons_self) (mark_not_mem_withPoint d)
  rw [digits_plain_eq, digits_plain_eq] at h
  split at h
  · split at h
    · obtain ⟨whole, fraction, htext, hwhole, -, -, hvalue⟩ := positional_text d
      obtain ⟨whole', fraction', htext', hwhole', -, -, hvalue'⟩ := positional_text d'
      rw [htext, htext'] at h
      obtain ⟨rfl, rfl⟩ := eq_of_append_mark (hwhole.not_mem (by decide)) (hwhole'.not_mem (by decide)) h
      exact hvalue.symm.trans hvalue'
    · exact hmixed h
  · split at h
    · exact (hmixed h.symm).symm
    · obtain ⟨hpointed, hexponent⟩ := eq_of_append_mark (mark_not_mem_pointed d) (mark_not_mem_pointed d') h
      have hchars : d.chars = d'.chars := pointed_injective (allDigits_toDigits _) (allDigits_toDigits _) hpointed
      have hleading := exponentText_injective hexponent
      have hdigits : d.digits = d'.digits := by
        simpa [Nat.ofDigitChars_ten_toDigits] using congrArg (Nat.ofDigitChars 10 · 0) hchars
      rw [Decimal.leading, Decimal.leading, hchars] at hleading
      rw [Decimal.value, Decimal.value, hdigits, show d.exponent = d'.exponent by omega]

/-! ## Texts of doubles -/

/-- The characters of texts of doubles. -/
def isFloatChar (x : Char) : Bool := x.isDigit || ['.', 'e', '+', '-', 'i', 'n', 'f', 'a'].contains x

theorem allDigits_isFloatChar {text : List Char} (h : AllDigits text) : ∀ x ∈ text, isFloatChar x = true := fun x hx => by
  rw [isFloatChar, h x hx, Bool.true_or]

/-- A decimal is written with a digit in front, and with a point or an exponent. -/
structure IsDecimalText (text : List Char) : Prop where
  head : ∃ first rest, text = first :: rest ∧ first.isDigit = true
  chars : ∀ x ∈ text, isFloatChar x = true
  mark : '.' ∈ text ∨ 'e' ∈ text

theorem isDecimalText_withPoint {whole fraction : List Char} (hwhole : AllDigits whole) (hfraction : AllDigits fraction)
    (hne : whole ≠ []) : IsDecimalText (whole ++ '.' :: fraction) where
  head := by
    cases whole with
    | nil => exact absurd rfl hne
    | cons first rest => exact ⟨first, _, rfl, hwhole first List.mem_cons_self⟩
  chars x hx := by
    rcases List.mem_append.mp hx with hx | hx
    · exact allDigits_isFloatChar hwhole x hx
    · rcases List.mem_cons.mp hx with rfl | hx
      · decide
      · exact allDigits_isFloatChar hfraction x hx
  mark := .inl (List.mem_append_right _ List.mem_cons_self)

theorem isDecimalText_digits (d : Decimal) : IsDecimalText (FloatLayout.plain.digits d) := by
  rw [digits_plain_eq]
  split
  · obtain ⟨whole, fraction, htext, hwhole, hfraction, hne, -⟩ := positional_text d
    rw [htext]
    exact isDecimalText_withPoint hwhole hfraction hne
  · have hdigits : AllDigits d.chars := allDigits_toDigits d.digits
    constructor
    · match hchars : d.chars with
      | [] => exact absurd hchars (chars_ne_nil d)
      | [only] => exact ⟨only, _, rfl, hdigits only (hchars ▸ List.mem_cons_self)⟩
      | first :: second :: rest => exact ⟨first, _, rfl, hdigits first (hchars ▸ List.mem_cons_self)⟩
    · intro x hx
      rcases List.mem_append.mp hx with hx | hx
      · rcases mem_pointed hx with hx | rfl
        · exact allDigits_isFloatChar hdigits x hx
        · decide
      · rcases List.mem_cons.mp hx with rfl | hx
        · decide
        · obtain ⟨sign, digits, htext, hsign, hdigits⟩ := exponentText_eq d.leading
          rcases List.mem_cons.mp (htext ▸ hx) with rfl | hx
          · rcases hsign with rfl | rfl <;> decide
          · exact allDigits_isFloatChar hdigits x hx
    · exact .inr (List.mem_append_right _ List.mem_cons_self)

/-- The decimal that is written for the size of a finite double. -/
def sizeDecimal (m : Nat) (q : Int) : Decimal := if m = 0 then ⟨0, 0⟩ else shortest m q

/-- A double without its sign. -/
def Binary64.unsigned : Binary64 → List Char
  | .nan => ['n', 'a', 'n']
  | .infinite _ => ['i', 'n', 'f']
  | .finite _ m q => FloatLayout.plain.digits (sizeDecimal m q)

/-- Whether a sign is written. -/
def Binary64.isSigned : Binary64 → Bool
  | .nan => false
  | .infinite negative => negative
  | .finite negative _ _ => negative

theorem toList_text_plain (x : Float) : (FloatLayout.plain.text x).toList =
    if (Binary64.ofFloat x).isSigned then '-' :: (Binary64.ofFloat x).unsigned else (Binary64.ofFloat x).unsigned := by
  unfold FloatLayout.text
  cases Binary64.ofFloat x with
  | nan => rfl
  | infinite negative => cases negative <;> rfl
  | finite negative m q =>
    have hsize : (if m = 0 then ['0', '.', '0'] else FloatLayout.plain.digits (shortest m q)) =
        FloatLayout.plain.digits (sizeDecimal m q) := by
      unfold sizeDecimal
      split <;> rfl
    simp only [String.toList_ofList, hsize]
    rfl

/-- The characters of the text of a double, one of which no text of an integer has. -/
theorem chars_unsigned : ∀ b : Binary64, (∀ x ∈ b.unsigned, isFloatChar x = true) ∧ ∃ x ∈ b.unsigned, x ∈ ['.', 'e', 'n']
  | .nan => ⟨List.all_eq_true.mp (by decide), 'n', by decide, by decide⟩
  | .infinite negative => by cases negative <;> exact ⟨List.all_eq_true.mp (by decide), 'n', by decide, by decide⟩
  | .finite _ m q => by
    have htext := isDecimalText_digits (sizeDecimal m q)
    refine ⟨htext.chars, ?_⟩
    rcases htext.mark with h | h
    · exact ⟨'.', h, by decide⟩
    · exact ⟨'e', h, by decide⟩

theorem chars_text_plain (x : Float) : (∀ c ∈ (FloatLayout.plain.text x).toList, isFloatChar c = true) ∧
    ∃ c ∈ (FloatLayout.plain.text x).toList, c ∈ ['.', 'e', 'n'] := by
  obtain ⟨hchars, c, hc, hmark⟩ := chars_unsigned (Binary64.ofFloat x)
  rw [toList_text_plain]
  split
  · exact ⟨List.forall_mem_cons.mpr ⟨by decide, hchars⟩, c, List.mem_cons_of_mem _ hc, hmark⟩
  · exact ⟨hchars, c, hc, hmark⟩

/-- The first character behind the sign. -/
theorem head_unsigned : ∀ b : Binary64, ∃ first rest, b.unsigned = first :: rest ∧
    (first.isDigit = true ∨ first = 'n' ∨ first = 'i')
  | .nan => ⟨_, _, rfl, .inr (.inl rfl)⟩
  | .infinite _ => ⟨_, _, rfl, .inr (.inr rfl)⟩
  | .finite _ m q => by
    obtain ⟨first, rest, h, hfirst⟩ := (isDecimalText_digits (sizeDecimal m q)).head
    exact ⟨first, rest, h, .inl hfirst⟩

theorem unsigned_ne_sign (b : Binary64) (rest : List Char) : b.unsigned ≠ '-' :: rest := by
  obtain ⟨first, more, h, hfirst⟩ := head_unsigned b
  rw [h]
  intro heq
  rw [(List.cons.inj heq).1] at hfirst
  exact absurd hfirst (by decide)

theorem signed_injective {b b' : Binary64} (h : (if b.isSigned then '-' :: b.unsigned else b.unsigned) =
    if b'.isSigned then '-' :: b'.unsigned else b'.unsigned) : b.isSigned = b'.isSigned ∧ b.unsigned = b'.unsigned := by
  split at h <;> split at h
  · next hb hb' => exact ⟨hb.trans hb'.symm, (List.cons.inj h).2⟩
  · exact absurd h.symm (unsigned_ne_sign b' _)
  · exact absurd h (unsigned_ne_sign b _)
  · next hb hb' => exact ⟨(Bool.eq_false_iff.mpr hb).trans (Bool.eq_false_iff.mpr hb').symm, h⟩

theorem digits_head_ne {first : Char} (h : first.isDigit = false) (d : Decimal) (rest : List Char) :
    FloatLayout.plain.digits d ≠ first :: rest := by
  obtain ⟨x, more, htext, hx⟩ := (isDecimalText_digits d).head
  rw [htext]
  intro heq
  rw [(List.cons.inj heq).1, h] at hx
  cases hx

/-- The size of a double is told by its decimal. -/
theorem sizeDecimal_injective {m m' : Nat} {q q' : Int} (h : Binary64.Fits m q) (h' : Binary64.Fits m' q')
    (heq : (sizeDecimal m q).value = (sizeDecimal m' q').value) : m = m' ∧ q = q' := by
  have hzero : Decimal.value ⟨0, 0⟩ = 0 := by simp [Decimal.value]
  have hpos {m : Nat} {q : Int} (h : Binary64.Fits m q) (hm : m ≠ 0) : 0 < (shortest m q).value := by
    have hdigits : (0 : ℚ) < (shortest m q).digits := by exact_mod_cast (shortest_mem h (Nat.pos_of_ne_zero hm)).1
    unfold Decimal.value
    positivity
  unfold sizeDecimal at heq
  split at heq <;> split at heq
  · next hm hm' =>
    rw [h.least_eq (by omega), h'.least_eq (by omega), hm, hm']
    exact ⟨rfl, rfl⟩
  · next hm' =>
    rw [hzero] at heq
    exact absurd heq (hpos h' hm').ne
  · next hm _ =>
    rw [hzero] at heq
    exact absurd heq (hpos h hm).ne'
  · next hm hm' => exact eq_of_shortest_value_eq h h' (Nat.pos_of_ne_zero hm) (Nat.pos_of_ne_zero hm') heq

/-- Doubles of one text are the same. -/
theorem text_plain_injective {x y : Float} (h : FloatLayout.plain.text x = FloatLayout.plain.text y) : x = y := by
  have hlist := congrArg String.toList h
  rw [toList_text_plain, toList_text_plain] at hlist
  obtain ⟨hsign, hsize⟩ := signed_injective hlist
  refine Binary64.ofFloat_injective ?_
  match hx : Binary64.ofFloat x, hy : Binary64.ofFloat y with
  | .nan, .nan => rfl
  | .infinite negative, .infinite negative' =>
    rw [hx, hy] at hsign
    exact congrArg Binary64.infinite hsign
  | .finite negative m q, .finite negative' m' q' =>
    rw [hx, hy] at hsign hsize
    obtain ⟨rfl, rfl⟩ := sizeDecimal_injective (Binary64.fits_of_ofFloat hx) (Binary64.fits_of_ofFloat hy)
      (value_eq_of_digits_eq hsize)
    obtain rfl : negative = negative' := hsign
    rfl
  | .nan, .infinite _ | .infinite _, .nan =>
    rw [hx, hy] at hsize
    exact absurd (List.cons.inj hsize).1 (by decide)
  | .nan, .finite _ _ _ | .infinite _, .finite _ _ _ =>
    rw [hx, hy] at hsize
    exact absurd hsize.symm (digits_head_ne (by decide) _ _)
  | .finite _ _ _, .nan | .finite _ _ _, .infinite _ =>
    rw [hx, hy] at hsize
    exact absurd hsize (digits_head_ne (by decide) _ _)

end MinRuby.Numeric
