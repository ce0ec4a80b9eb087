import MinRuby.Text.Ranges

/-!
# Blank characters

Unicode white space, the control characters that separate records among them, and the removal of
blanks at the ends of a text.
-/

namespace MinRuby.Text

/-- The blanks of all scripts, line ends and the four information separators included. -/
def blankRanges : List CodeRange := [
  (0x9, 0xd), (0x1c, 0x20), (0x85, 0x85), (0xa0, 0xa0), (0x1680, 0x1680), (0x2000, 0x200a),
  (0x2028, 0x2029), (0x202f, 0x202f), (0x205f, 0x205f), (0x3000, 0x3000)]

/-- Whether the character is blank. -/
def isBlank (c : Char) : Bool := inRanges blankRanges c

/-- The text without the blanks it starts with. -/
def stripLeft (text : List Char) : List Char := text.dropWhile isBlank

/-- The text without the blanks at its two ends. -/
def strip (text : List Char) : List Char := (stripLeft (stripLeft text).reverse).reverse

theorem isBlank_of_isWhitespace {c : Char} (h : c.isWhitespace = true) : isBlank c = true := by
  simp only [Char.isWhitespace, Bool.or_eq_true, decide_eq_true_eq] at h
  rcases h with (((rfl | rfl) | rfl) | rfl) <;> decide

end MinRuby.Text
