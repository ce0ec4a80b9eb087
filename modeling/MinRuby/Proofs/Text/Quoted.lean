import MinRuby.Text.Quoted
import Mathlib.Algebra.GroupWithZero.Nat
import Mathlib.Tactic.Common

/-!
# Quoted text is read back

A character between quotes is told by the first characters from it on, and the quote ends the text. So texts in quotes
can be put one behind the other, or before anything else, and taken apart again. No line feed stands between the quotes.

* `quoted_append_inj` — a quoted text and what follows it.
* `feed_not_mem_quoted` — a quoted text is on one line.
-/

namespace MinRuby.Text

/-! ## Hexadecimal digits -/

section

variable {width n : Nat} {c : Char}

/-- The number that hexadecimal digits write. -/
def hexValue (digits : List Char) : Nat := digits.foldl
    (fun n c => 16 * n + (if c.isDigit then c.toNat - 48 else c.toNat - 87)) 0

theorem length_hexDigits : (hexDigits width n).length = width := by
  induction width generalizing n with
  | zero => rfl
  | succ width ih => rw [hexDigits, List.length_append, ih, List.length_singleton]

theorem hexValue_append (digits : List Char) (hn : n < 16) : hexValue (digits ++ [hexDigit n]) = 16 * hexValue digits + n := by
  have hdigit : ∀ n < 16, (if (hexDigit n).isDigit then (hexDigit n).toNat - 48 else (hexDigit n).toNat - 87) = n := by decide
  simp only [hexValue, List.foldl_append, List.foldl_cons, List.foldl_nil, hdigit n hn]

theorem hexValue_hexDigits (hn : n < 16 ^ width) : hexValue (hexDigits width n) = n := by
  induction width generalizing n with
  | zero =>
    obtain rfl : n = 0 := by simpa using hn
    rfl
  | succ width ih =>
    rw [Nat.pow_succ] at hn
    rw [hexDigits, hexValue_append _ (Nat.mod_lt _ (by decide)), ih (by omega)]
    exact Nat.div_add_mod n 16

theorem mem_hexDigits (h : c ∈ hexDigits width n) : ∃ d < 16, c = hexDigit d := by
  induction width generalizing n with
  | zero => cases h
  | succ width ih =>
    rcases List.mem_append.mp h with h | h
    · exact ih h
    · exact ⟨n % 16, Nat.mod_lt _ (by decide), List.mem_singleton.mp h⟩

end

/-! ## One character -/

/-- The quotes that enclose a text. -/
def quotes : List Char := ['\'', '"']

theorem quoteFor_mem (text : List Char) : quoteFor text ∈ quotes := by
  unfold quoteFor
  split <;> decide

/-- The character that a number of hexadecimal digits stand for, and what follows. -/
def readCode (width : Nat) (text : List Char) : Char × List Char := (Char.ofNat (hexValue (text.take width)), text.drop width)

/-- The character at the start of a text between quotes, and what follows. -/
def readQuotedChar : List Char → Option (Char × List Char)
  | [] => none
  | '\\' :: 't' :: rest => some ('\t', rest)
  | '\\' :: 'n' :: rest => some ('\n', rest)
  | '\\' :: 'r' :: rest => some ('\r', rest)
  | '\\' :: 'x' :: rest => some (readCode 2 rest)
  | '\\' :: 'u' :: rest => some (readCode 4 rest)
  | '\\' :: 'U' :: rest => some (readCode 8 rest)
  | '\\' :: c :: rest => some (c, rest)
  | c :: rest => some (c, rest)

section

variable {quote c : Char} {rest : List Char}

theorem readCode_hexDigits {width : Nat} (hc : c.toNat < 16 ^ width) :
    readCode width (hexDigits width c.toNat ++ rest) = (c, rest) := by
  rw [readCode, List.take_left' length_hexDigits, List.drop_left' length_hexDigits, hexValue_hexDigits hc, Char.ofNat_toNat]

theorem readQuotedChar_codeEscape : readQuotedChar (codeEscape c ++ rest) = some (c, rest) := by
  have hmax : c.toNat < 0x110000 := by
    have hvalid := c.valid
    simp only [UInt32.isValidChar, Nat.isValidChar] at hvalid
    simp only [Char.toNat]
    omega
  unfold codeEscape
  split
  · next h => exact congrArg some (readCode_hexDigits h)
  · split
    · next h => exact congrArg some (readCode_hexDigits h)
    · exact congrArg some (readCode_hexDigits (Nat.lt_trans hmax (by decide)))

theorem readQuotedChar_of_ne (h : c ≠ '\\') : readQuotedChar (c :: rest) = some (c, rest) := by
  unfold readQuotedChar
  split <;> simp_all

/-- A character between quotes is read back, whatever follows. -/
theorem readQuotedChar_quotedChar (hquote : quote ∈ quotes) : readQuotedChar (quotedChar quote c ++ rest) = some (c, rest) := by
  unfold quotedChar
  split_ifs with hmarked htab hfeed hreturn hprintable
  · simp only [quotes, List.mem_cons, List.not_mem_nil, or_false] at hquote
    rcases hmarked with rfl | rfl
    · rcases hquote with rfl | rfl <;> rfl
    · rfl
  · rw [htab]; rfl
  · rw [hfeed]; rfl
  · rw [hreturn]; rfl
  · exact readQuotedChar_of_ne fun h => hmarked (.inr h)
  · exact readQuotedChar_codeEscape

/-- A character between quotes does not start with the quote. -/
theorem head_quotedChar (hquote : quote ∈ quotes) : ∃ x rest, quotedChar quote c = x :: rest ∧ x ≠ quote := by
  have hmark : '\\' ≠ quote := by
    rintro rfl
    revert hquote
    decide
  unfold quotedChar codeEscape
  split_ifs with hmarked
  · exact ⟨_, _, rfl, hmark⟩
  · exact ⟨_, _, rfl, hmark⟩
  · exact ⟨_, _, rfl, hmark⟩
  · exact ⟨_, _, rfl, hmark⟩
  · exact ⟨_, _, rfl, fun h => hmarked (.inl h)⟩
  all_goals exact ⟨_, _, rfl, hmark⟩

theorem feed_not_mem_quotedChar (hquote : quote ∈ quotes) : '\n' ∉ quotedChar quote c := by
  have hquote' : '\n' ≠ quote := by
    rintro rfl
    revert hquote
    decide
  have hdigit : ∀ d < 16, '\n' ≠ hexDigit d := by decide
  have hdigits (width n : Nat) : '\n' ∉ hexDigits width n := fun h => by
    obtain ⟨d, hd, heq⟩ := mem_hexDigits h
    exact hdigit d hd heq
  unfold quotedChar codeEscape
  split_ifs with hmarked htab hfeed hreturn
  · rcases hmarked with rfl | rfl <;> simp [hquote']
  all_goals first | exact fun h => hfeed (List.mem_singleton.mp h).symm | simp [hdigits]

end

/-! ## Whole texts -/

section

variable {quote : Char} {s t x y : List Char}

theorem body_append_inj (hquote : quote ∈ quotes) :
    ∀ {s t : List Char}, s.flatMap (quotedChar quote) ++ quote :: x = t.flatMap (quotedChar quote) ++ quote :: y → s = t ∧ x = y
  | [], [], h => ⟨rfl, (List.cons.inj h).2⟩
  -- no character between the quotes starts with the quote, so the two bodies end together
  | [], c :: t, h => by
    obtain ⟨z, rest, hz, hne⟩ := head_quotedChar (c := c) hquote
    rw [List.flatMap_cons, hz] at h
    exact absurd (List.cons.inj h).1.symm hne
  | c :: s, [], h => by
    obtain ⟨z, rest, hz, hne⟩ := head_quotedChar (c := c) hquote
    rw [List.flatMap_cons, hz] at h
    exact absurd (List.cons.inj h).1 hne
  | c :: s, d :: t, h => by
    rw [List.flatMap_cons, List.flatMap_cons, List.append_assoc, List.append_assoc] at h
    have hread := congrArg readQuotedChar h
    rw [readQuotedChar_quotedChar hquote, readQuotedChar_quotedChar hquote, Option.some.injEq, Prod.mk.injEq] at hread
    obtain ⟨hst, hxy⟩ := body_append_inj hquote hread.2
    exact ⟨by rw [hread.1, hst], hxy⟩

/-- A quoted text is told from what follows it. -/
theorem quoted_append_inj (h : quoted s ++ x = quoted t ++ y) : s = t ∧ x = y := by
  simp only [quoted, List.cons_append, List.append_assoc, List.nil_append, List.cons.injEq] at h
  rw [h.1] at h
  exact body_append_inj (quoteFor_mem t) h.2

theorem quoted_injective (h : quoted s = quoted t) : s = t :=
  (quoted_append_inj (congrArg (· ++ []) h)).1

/-- A quoted text is on one line. -/
theorem feed_not_mem_quoted (text : List Char) : '\n' ∉ quoted text := by
  have hquote := quoteFor_mem text
  have hne : '\n' ≠ quoteFor text := by
    intro h
    rw [← h] at hquote
    revert hquote
    decide
  simp only [quoted, List.mem_cons, List.mem_append, List.mem_flatMap, List.not_mem_nil, or_false, hne, false_or]
  rintro ⟨c, -, hc⟩
  exact feed_not_mem_quotedChar hquote hc

end

end MinRuby.Text
