import MinRuby.ParseError.Excerpt
import MinRuby.Proofs.Text.Lines

/-!
# The caret of an excerpt

An excerpt shows the lines near a position, each behind its number, and a caret line behind the line of the position. The
caret is set for numbers that take four places. A number from 10000 on takes more, so that its line stands further to the
right than the caret does.

* `splitLines_excerptOf` — the lines of an excerpt.
* `caret_offset_iff` — when the caret stands under its column.
* `caret_under_column_iff` — both.
-/

namespace MinRuby.ParseError

open MinRuby.Text

/-- A line as it is shown behind its number. -/
def numbered (number : Nat) (text : List Char) : List Char := lineNumber number ++ ':' :: ' ' :: text

/-- The line of a source text that has the given number. -/
def lineText (source : List Char) (number : Nat) : List Char := (splitLines source).getD (number - 1) []

/-- The numbers up to `count` that differ from that of a line by at most the radius. -/
def numbersNear (count line radius : Nat) : List Nat :=
  (List.range' 1 count).filter fun k => k ≤ line + radius ∧ line ≤ k + radius

/-- Where a column of a line is when the line is shown behind its number. -/
def shownOffset (line column : Nat) : Nat := (numbered line []).length + (column - 1)

/-! ## The lines of an excerpt -/

theorem mem_numbersNear {count line radius k : Nat} :
    k ∈ numbersNear count line radius ↔ (0 < k ∧ k ≤ count) ∧ k ≤ line + radius ∧ line ≤ k + radius := by
  rw [numbersNear, List.mem_filter, List.mem_range'_1, decide_eq_true_iff]
  omega

theorem pairwise_numbersNear (count line radius : Nat) : (numbersNear count line radius).Pairwise (· < ·) :=
  (List.pairwise_lt_range' 1).filter _

theorem zipIdx_eq_map (lines : List (List Char)) :
    lines.zipIdx 1 = (List.range' 1 lines.length).map fun k => (lines.getD (k - 1) [], k) := by
  refine List.ext_getElem (by simp) fun i hi _ => ?_
  rw [List.length_zipIdx] at hi
  simp [List.getElem_zipIdx, hi]

theorem excerptOf_eq (source : List Char) (line column radius : Nat) :
    excerptOf source line column radius =
      ['\n'].intercalate ((numbersNear (splitLines source).length line radius).flatMap fun k =>
        excerptLines line column k (lineText source k)) := by
  have hnear : (((splitLines source).zipIdx 1).filter fun l => (line : Int) ≤ l.2 + radius && l.2 ≤ (line : Int) + radius) =
      (numbersNear (splitLines source).length line radius).map fun k => (lineText source k, k) := by
    rw [zipIdx_eq_map, List.filter_map]
    refine congrArg (List.map _) (List.filter_congr fun k _ => ?_)
    rw [Bool.eq_iff_iff]
    simp only [Function.comp_apply, Bool.and_eq_true, decide_eq_true_iff]
    omega
  rw [excerptOf]
  simp only [hnear, List.flatMap_map]

theorem excerptLines_eq (line column k : Nat) (text : List Char) :
    excerptLines line column k text =
      numbered k text :: if k = line then [List.replicate (column + 5) ' ' ++ ['^']] else [] := by
  rw [excerptLines]
  by_cases h : k = line
  · rw [if_pos (congrArg _ h), if_pos h]
    rfl
  · rw [if_neg (mt Int.natCast_inj.mp h), if_neg h]
    rfl

theorem feed_not_mem_numbered (source : List Char) (k : Nat) : '\n' ∉ numbered k (lineText source k) := by
  have hnumber : '\n' ∉ lineNumber k := by
    rw [lineNumber, List.mem_append, not_or]
    refine ⟨fun h => absurd (List.eq_of_mem_replicate h) (by decide), fun h => ?_⟩
    exact absurd (Nat.isDigit_of_mem_toDigits (by decide) (by decide) h) (by decide)
  have htext : '\n' ∉ lineText source k := by
    rw [lineText, List.getD_eq_getElem?_getD]
    cases h : (splitLines source)[k - 1]? with
    | none => exact List.not_mem_nil
    | some text => exact feed_not_mem_of_mem_splitLines (List.mem_of_getElem? h)
  simp [numbered, hnumber, htext]

/-- The lines of an excerpt: those near the given one, which has the caret line behind it. -/
theorem splitLines_excerptOf {source : List Char} {line : Nat} (column radius : Nat) (hline : 0 < line)
    (hlast : line ≤ (splitLines source).length) :
    splitLines (excerptOf source line column radius) =
      (numbersNear (splitLines source).length line radius).flatMap fun k =>
        numbered k (lineText source k) :: if k = line then [List.replicate (column + 5) ' ' ++ ['^']] else [] := by
  have hmem : line ∈ numbersNear (splitLines source).length line radius := mem_numbersNear.mpr (by omega)
  rw [excerptOf_eq, List.flatMap_congr fun k _ => excerptLines_eq line column k (lineText source k)]
  refine splitLines_intercalate (fun hnil => ?_) fun l hl => ?_
  · exact List.cons_ne_nil _ _ (List.flatMap_eq_nil_iff.mp hnil line hmem)
  · obtain ⟨k, -, hk⟩ := List.mem_flatMap.mp hl
    rcases List.mem_cons.mp hk with rfl | hk
    · exact feed_not_mem_numbered source k
    · split at hk
      · rw [List.mem_singleton.mp hk]
        simp
      · exact absurd hk List.not_mem_nil

/-! ## The caret -/

theorem numbered_eq (number : Nat) (text : List Char) : numbered number text = numbered number [] ++ text := by
  rw [numbered, numbered, List.append_assoc]
  rfl

theorem getElem?_numbered (line : Nat) (text : List Char) (column : Nat) :
    (numbered line text)[shownOffset line column]? = text[column - 1]? := by
  rw [numbered_eq, shownOffset, List.getElem?_append_right (Nat.le_add_right _ _), Nat.add_sub_cancel_left]

/-- The number of a line takes four places, unless it has more digits. -/
theorem length_lineNumber (k : Nat) : (lineNumber k).length = max 4 (Nat.toDigits 10 k).length := by
  rw [lineNumber, List.length_append, List.length_replicate]
  omega

theorem caret_offset_iff {line column : Nat} (hcolumn : 0 < column) :
    column + 5 = shownOffset line column ↔ line < 10000 := by
  have hdigits : (Nat.toDigits 10 line).length ≤ 4 ↔ line < 10000 := Nat.length_toDigits_le_iff (by decide) (by decide)
  have hplaces : (lineNumber line).length = 4 ↔ (Nat.toDigits 10 line).length ≤ 4 := by
    rw [length_lineNumber]
    omega
  have hlength : (numbered line []).length = (lineNumber line).length + 2 := List.length_append
  rw [shownOffset, hlength, ← hdigits, ← hplaces]
  omega

/-- An excerpt shows, in order and each once, the lines whose numbers differ from the given one by at most the radius, and
directly behind the given line a caret. Where that line is shown the character of a column stands at `shownOffset`, and a
column behind its end is as far behind the end of what is shown. The caret stands at this offset exactly if the number of
the line is below 10000. -/
theorem caret_under_column_iff {source : List Char} {line column : Nat} (radius : Nat) (hline : 0 < line)
    (hlast : line ≤ (splitLines source).length) (hcolumn : 0 < column) :
    let numbers := numbersNear (splitLines source).length line radius
    let text := lineText source line
    (∀ k, k ∈ numbers ↔ (0 < k ∧ k ≤ (splitLines source).length) ∧ k ≤ line + radius ∧ line ≤ k + radius) ∧
      numbers.Pairwise (· < ·) ∧ (∀ k ∈ numbers, (splitLines source)[k - 1]? = some (lineText source k)) ∧
      splitLines (excerptOf source line column radius) = (numbers.flatMap fun k =>
        numbered k (lineText source k) :: if k = line then [List.replicate (column + 5) ' ' ++ ['^']] else []) ∧
      (numbered line text)[shownOffset line column]? = text[column - 1]? ∧
      shownOffset line column + text.length = (numbered line text).length + (column - 1) ∧
      (column + 5 = shownOffset line column ↔ line < 10000) := by
  refine ⟨fun k => mem_numbersNear, pairwise_numbersNear _ _ _, fun k hk => ?_, splitLines_excerptOf column radius hline hlast,
    getElem?_numbered line _ column, ?_, caret_offset_iff hcolumn⟩
  · have hnumber := mem_numbersNear.mp hk
    have hlength : k - 1 < (splitLines source).length := by omega
    rw [lineText, List.getD_eq_getElem?_getD, List.getElem?_eq_getElem hlength, Option.getD_some]
  · rw [numbered_eq line (lineText source line), shownOffset, List.length_append]
    omega

/-- The caret under the bracket that ends the second line. -/
theorem caret_under_bracket :
    let source := "x = 1\nfoo)".toList
    (0 < 2 ∧ 2 ≤ (splitLines source).length ∧ 0 < 4) ∧
      splitLines (excerptOf source 2 4 1) = ["   1: x = 1".toList, "   2: foo)".toList, "         ^".toList] ∧
      (numbered 2 "foo)".toList)[shownOffset 2 4]? = some ')' ∧ (4 + 5 = shownOffset 2 4 ↔ 2 < 10000) := by
  intro source
  have hlast : 2 ≤ (splitLines source).length := by decide +kernel
  have hline : lineText source 2 = "foo)".toList := by decide +kernel
  obtain ⟨-, -, -, hlines, hcharacter, -, hcaret⟩ := @caret_under_column_iff source 2 4 1 (by decide) hlast (by decide)
  refine ⟨⟨by decide, hlast, by decide⟩, hlines.trans (by decide +kernel), ?_, hcaret⟩
  rw [← hline]
  exact hcharacter.trans (by decide +kernel)

/-- In the line 10000 the caret for the first column stands under the blank before it. -/
theorem caret_left_of_column :
    let source := List.replicate 9999 '\n' ++ ['x']
    (splitLines source).length = 10000 ∧ (splitLines source)[9999]? = some ['x'] ∧
      splitLines (excerptOf source 10000 1 0) = ["10000: x".toList, "      ^".toList] ∧
      "10000: x".toList[7]? = some 'x' ∧ "      ^".toList[6]? = some '^' := by
  intro source
  have hlines : splitLines source = List.replicate 9999 [] ++ [['x']] := splitLines_replicate_append 9999 ['x']
  have hlength : (splitLines source).length = 10000 := by
    rw [hlines, List.length_append, List.length_replicate]
    rfl
  have hlast : (splitLines source)[9999]? = some ['x'] := by
    rw [hlines, List.getElem?_append_right (Nat.le_of_eq List.length_replicate), List.length_replicate]
    rfl
  have hnear : numbersNear 10000 10000 0 = [10000] := by
    have hbefore : (List.range' 1 9999).filter (fun k => k ≤ 10000 + 0 ∧ 10000 ≤ k + 0) = [] := by
      refine List.filter_eq_nil_iff.mpr fun k hk => ?_
      rw [List.mem_range'_1] at hk
      rw [decide_eq_true_iff]
      omega
    rw [numbersNear, List.range'_1_concat, List.filter_append, hbefore]
    rfl
  have htext : lineText source 10000 = ['x'] := by
    rw [lineText, List.getD_eq_getElem?_getD, hlast, Option.getD_some]
  refine ⟨hlength, hlast, ?_, rfl, rfl⟩
  have hshown := @splitLines_excerptOf source 10000 1 0 (by decide) (Nat.le_of_eq hlength.symm)
  rw [hlength, hnear, List.flatMap_singleton, htext] at hshown
  exact hshown.trans (by decide +kernel)

end MinRuby.ParseError
