/-!
# Lines and columns

Lines are separated by line feeds, both counted from one. `lineOf` and `columnOf` locate an offset,
`expandTabs` replaces tabs by blanks up to the next column that is a multiple of the tab width, and
`withLineFeeds` makes every line end a line feed.

* `splitLines_ne_nil` — every text has a first line.
* `not_mem_expandTabs` — after expansion no tab is left.
* `not_mem_withLineFeeds` — after normalisation no carriage return is left.
-/

namespace MinRuby.Text

/-- The lines of a text; a text that ends in a line feed has an empty last line. -/
def splitLines : List Char → List (List Char)
  | [] => [[]]
  | c :: rest =>
    if c = '\n' then [] :: splitLines rest
    else
      match splitLines rest with
      | [] => [[c]]
      | line :: lines => (c :: line) :: lines

theorem splitLines_ne_nil (text : List Char) : splitLines text ≠ [] := by
  cases text with
  | nil => simp [splitLines]
  | cons c rest =>
    simp only [splitLines]
    split
    · simp
    · split <;> simp

/-- The number of the line that holds the given offset. -/
def lineOf (text : List Char) (offset : Nat) : Nat := (text.take offset).count '\n' + 1

/-- The number of the column that holds the given offset. -/
def columnOf (text : List Char) (offset : Nat) : Nat :=
  ((text.take offset).reverse.takeWhile (· ≠ '\n')).length + 1

/-- The distance between tab stops. -/
def tabWidth : Nat := 8

/-- The text with each tab replaced by the blanks it stands for, when it starts in the column with
the given number, counted from zero. -/
def expandTabsFrom : Nat → List Char → List Char
  | _, [] => []
  | column, c :: rest =>
    if c = '\t' then
      let width := tabWidth - column % tabWidth
      List.replicate width ' ' ++ expandTabsFrom (column + width) rest
    else c :: expandTabsFrom (if c = '\n' then 0 else column + 1) rest

/-- The text with each tab replaced by the blanks it stands for. -/
def expandTabs (text : List Char) : List Char := expandTabsFrom 0 text

theorem not_mem_expandTabs (text : List Char) : '\t' ∉ expandTabs text := by
  suffices h : ∀ column, '\t' ∉ expandTabsFrom column text from h 0
  induction text with
  | nil => simp [expandTabsFrom]
  | cons c rest ih =>
    intro column
    by_cases hc : c = '\t'
    · simp [expandTabsFrom, hc, ih, List.mem_replicate]
    · simp [expandTabsFrom, hc, ih, Ne.symm hc]

/-- The text with each carriage return, and the line feed that may follow it, made one line feed. -/
def withLineFeeds : List Char → List Char
  | [] => []
  | '\r' :: '\n' :: rest => '\n' :: withLineFeeds rest
  | c :: rest => (if c = '\r' then '\n' else c) :: withLineFeeds rest

theorem not_mem_withLineFeeds (text : List Char) : '\r' ∉ withLineFeeds text := by
  fun_induction withLineFeeds text with
  | case1 => simp
  | case2 rest ih => simp [ih]
  | case3 c rest _ ih =>
    by_cases hc : c = '\r'
    · simp [hc, ih]
    · simp [hc, ih, Ne.symm hc]

end MinRuby.Text
