import Mathlib.Data.List.DropRight
import MinRuby.Syntax.Source

/-!
# Places in prepared text

Source text is changed in four steps before it is parsed: line ends become line feeds, comments become blanks, lines
are joined, and tabs are expanded. Joined lines are one line afterwards, and what stands behind a tab may move to the
right; the other two steps leave every character at its line and column.

* `Tracks` — each character of the changed text that is neither blank nor line feed is one of the text, and what stands
  before it comes from what stands before it in the text.
* `endPosition_parsedText_iff` — when the steps keep the position of what comes next.
-/

namespace MinRuby.Syntax

open MinRuby.Text

/-! ## Where a character comes from -/

/-- Neither a blank nor a line feed. -/
def IsSolid (c : Char) : Prop := c ≠ ' ' ∧ c ≠ '\n'

/-- Each solid character of the changed text is one of the text, and what stands before it in the changed text is made
of what stands before it in the text. -/
def TracksAt (f : List Char → List Char) (text : List Char) : Prop :=
  ∀ left c right, f text = left ++ c :: right → IsSolid c →
    ∃ before after, text = before ++ c :: after ∧ f before = left

/-- The same of every text. -/
def Tracks (f : List Char → List Char) : Prop := ∀ text, TracksAt f text

section

variable {f g : List Char → List Char} {x y : Char} {rest : List Char}

theorem Tracks.comp (hg : Tracks g) (hf : Tracks f) : Tracks (g ∘ f) := by
  intro text left c right h hc
  obtain ⟨before, after, htext, rfl⟩ := hg (f text) left c right h hc
  obtain ⟨before', after', rfl, rfl⟩ := hf text before c after htext hc
  exact ⟨before', after', rfl, rfl⟩

theorem TracksAt.nil (hnil : f [] = []) : TracksAt f [] := by
  intro left c right h
  rw [hnil] at h
  exact absurd h (by simp)

/-- A character that is kept, or becomes a blank or a line feed, whatever part of the rest follows it. -/
theorem TracksAt.cons (hnil : f [] = []) (hstep : ∀ before, before <+: rest → f (x :: before) = y :: g before)
    (hy : IsSolid y → y = x) (h : TracksAt g rest) : TracksAt f (x :: rest) := by
  intro left c right hf hc
  rw [hstep rest (List.prefix_refl rest)] at hf
  cases left with
  | nil =>
    obtain ⟨rfl, -⟩ := List.cons.inj hf
    exact ⟨[], rest, by rw [hy hc]; rfl, hnil⟩
  | cons z left =>
    obtain ⟨rfl, htail⟩ := List.cons.inj hf
    obtain ⟨before, after, rfl, rfl⟩ := h left c right htail hc
    exact ⟨x :: before, after, rfl, hstep before (List.prefix_append _ _)⟩

/-- Characters that become blanks and line feeds. -/
theorem TracksAt.blank (w blanks : List Char) (hstep : ∀ before, f (w ++ before) = blanks ++ g before)
    (hblanks : ∀ b ∈ blanks, ¬ IsSolid b) (h : TracksAt g rest) : TracksAt f (w ++ rest) := by
  intro left c right hf hc
  rw [hstep, List.append_eq_append_iff] at hf
  rcases hf with ⟨left', rfl, hf⟩ | ⟨more, rfl, hf⟩
  · obtain ⟨before, after, rfl, rfl⟩ := h left' c right hf hc
    exact ⟨w ++ before, after, (List.append_assoc _ _ _).symm, hstep before⟩
  · cases more with
    | nil =>
      obtain ⟨before, after, rfl, hbefore⟩ := h [] c right hf.symm hc
      exact ⟨w ++ before, after, (List.append_assoc _ _ _).symm, by rw [hstep, hbefore, List.append_nil, List.append_nil]⟩
    | cons z more =>
      obtain ⟨rfl, -⟩ := List.cons.inj hf
      exact absurd hc (hblanks _ (by simp))

end

theorem tracks_withLineFeeds : Tracks withLineFeeds := by
  intro text
  fun_induction withLineFeeds text with
  | case1 => exact .nil rfl
  | case2 rest ih => exact .blank ['\r', '\n'] ['\n'] (fun before => rfl) (by simp [IsSolid]) ih
  | case3 x rest hx ih =>
    refine .cons (y := if x = '\r' then '\n' else x) rfl (fun before hbefore => ?_) ?_ ih
    · rw [withLineFeeds]
      -- a line end is not cut in two, since the text goes on in the same way
      rintro tail rfl rfl
      obtain ⟨more, rfl⟩ := hbefore
      exact hx _ rfl rfl
    · split
      · exact fun h => absurd rfl h.2
      · exact fun _ => rfl

theorem tracks_blankComments (scan : Scan) : Tracks (blankComments scan) := by
  intro text
  fun_induction blankComments scan text with
  | case1 scan => exact .nil (by rw [blankComments])
  | case2 rest ih => exact .cons (by rw [blankComments]) (fun before _ => by rw [blankComments, if_pos rfl]) (fun _ => rfl) ih
  | case3 x rest hx ih =>
    exact .cons (by rw [blankComments]) (fun before _ => by rw [blankComments, if_neg hx]) (fun h => absurd rfl h.1) ih
  | case4 quote x rest ih =>
    -- what the scanner makes of a text behind the backslash
    have hescape : TracksAt (fun text => (blankComments (.literal quote) ('\\' :: text)).tail) (x :: rest) :=
      .cons (by simp [blankComments]) (fun before _ => by rw [blankComments, List.tail_cons]) (fun _ => rfl) ih
    refine .cons (by rw [blankComments]) (fun before _ => ?_) (fun _ => rfl) hescape
    cases before with
    | nil => simp [blankComments]
    | cons z before => rw [blankComments, List.tail_cons]
  | case5 quote x rest hx ih =>
    refine .cons (by rw [blankComments]) (fun before hbefore => ?_) (fun _ => rfl) ih
    rw [blankComments]
    rintro z tail rfl rfl
    obtain ⟨more, rfl⟩ := hbefore
    exact hx _ _ rfl rfl
  | case6 x rest hx ih =>
    exact .cons (by rw [blankComments]) (fun before _ => by rw [blankComments, if_pos hx]) (fun _ => rfl) ih
  | case7 rest hx ih =>
    exact .cons (by rw [blankComments]) (fun before _ => by rw [blankComments, if_neg hx, if_pos rfl])
      (fun h => absurd rfl h.1) ih
  | case8 x rest hx hhash ih =>
    exact .cons (by rw [blankComments]) (fun before _ => by rw [blankComments, if_neg hx, if_neg hhash]) (fun _ => rfl) ih

theorem tracks_joinLines : Tracks joinLines := by
  intro text
  fun_induction joinLines text with
  | case1 => exact .nil rfl
  | case2 rest ih => exact .blank ['\\', '\n'] [' ', ' '] (fun before => rfl) (by simp [IsSolid]) ih
  | case3 x rest hx ih =>
    refine .cons rfl (fun before hbefore => ?_) (fun _ => rfl) ih
    rw [joinLines]
    rintro tail rfl rfl
    obtain ⟨more, rfl⟩ := hbefore
    exact hx _ rfl rfl

theorem tracks_expandTabsFrom (column : Nat) : Tracks (expandTabsFrom column) := by
  intro text
  induction text generalizing column with
  | nil => exact .nil rfl
  | cons x rest ih =>
    by_cases hx : x = '\t'
    · subst hx
      exact .blank ['\t'] (List.replicate (tabWidth - column % tabWidth) ' ')
        (fun before => by rw [List.singleton_append, expandTabsFrom, if_pos rfl]) (by simp [IsSolid, List.mem_replicate]) (ih _)
    · exact .cons rfl (fun before _ => by rw [expandTabsFrom, if_neg hx]) (fun _ => rfl) (ih _)

/-- The text that is parsed. -/
def parsedText (source : List Char) : List Char := expandTabs (prepare source)

/-- Where a solid character of the parsed text comes from. -/
theorem tracks_parsedText : Tracks parsedText :=
  (tracks_expandTabsFrom 0).comp (tracks_joinLines.comp ((tracks_blankComments .code).comp tracks_withLineFeeds))

/-! ## Lines -/

/-- What stands behind the last line feed. -/
def lastLine (text : List Char) : List Char := text.rtakeWhile (· ≠ '\n')

theorem lastLine_of_not_mem {text : List Char} (h : '\n' ∉ text) : lastLine text = text :=
  List.rtakeWhile_eq_self_iff.mpr fun _ hc => decide_eq_true fun heq => h (heq ▸ hc)

theorem lastLine_append (above : List Char) {line : List Char} (h : '\n' ∉ line) :
    lastLine (above ++ '\n' :: line) = line := by
  have hline : ∀ c ∈ line.reverse, decide (c ≠ '\n') = true :=
    fun _ hc => decide_eq_true fun heq => h (heq ▸ List.mem_reverse.mp hc)
  rw [lastLine, List.rtakeWhile, List.reverse_append, List.reverse_cons, List.append_assoc,
    List.takeWhile_append_of_pos hline]
  simp

/-- A text is its last line, or has a line feed before that line. -/
theorem lastLine_cases (text : List Char) :
    '\n' ∉ text ∧ lastLine text = text ∨
      ∃ above line, '\n' ∉ line ∧ text = above ++ '\n' :: line ∧ lastLine text = line := by
  by_cases h : '\n' ∈ text
  · obtain ⟨line, above, htext, hline⟩ := List.eq_append_cons_of_mem (List.mem_reverse.mpr h)
    have heq : text = above.reverse ++ '\n' :: line.reverse := by
      rw [← List.reverse_reverse text, htext]
      simp
    have hmem : '\n' ∉ line.reverse := fun hmem => hline (List.mem_reverse.mp hmem)
    exact .inr ⟨above.reverse, line.reverse, hmem, heq, by rw [heq, lastLine_append _ hmem]⟩
  · exact .inl ⟨h, lastLine_of_not_mem h⟩

/-- The line and the column of what follows a text. -/
def endPosition (text : List Char) : Nat × Nat := (text.count '\n' + 1, (lastLine text).length + 1)

theorem position_of_append (left right : List Char) :
    (lineOf (left ++ right) left.length, columnOf (left ++ right) left.length) = endPosition left := by
  rw [lineOf, columnOf, List.take_left, endPosition, lastLine, List.rtakeWhile, List.length_reverse]

/-! ### Comments -/

theorem map_blankComments (scan : Scan) (text : List Char) :
    (blankComments scan text).map (· == '\n') = text.map (· == '\n') := by
  fun_induction blankComments scan text <;> simp_all

/-- Whether a position stands behind a line feed says where the lines end. -/
theorem endPosition_of_map {text : List Char} :
    endPosition text = ((text.map (· == '\n')).count true + 1, ((text.map (· == '\n')).rtakeWhile (!·)).length + 1) := by
  have hcount : (text.map (· == '\n')).count true = text.count '\n' := by
    rw [List.count, List.countP_map]
    exact List.countP_congr fun c _ => by simp
  have hline : ((text.map (· == '\n')).rtakeWhile (!·)).length = (lastLine text).length := by
    rw [List.rtakeWhile, ← List.map_reverse, List.takeWhile_map, List.length_reverse, List.length_map, lastLine,
      List.rtakeWhile, List.length_reverse]
    congr 2
    funext c
    by_cases hc : c = '\n' <;> simp [hc]
  rw [hcount, hline, endPosition]

/-- Comments take no line and no column away. -/
theorem endPosition_blankComments (scan : Scan) (text : List Char) :
    endPosition (blankComments scan text) = endPosition text := by
  rw [endPosition_of_map, map_blankComments, ← endPosition_of_map]

/-! ### Joined lines -/

/-- No backslash stands at the end of a line that another one follows. -/
def Unjoined (text : List Char) : Prop := ¬ ['\\', '\n'] <:+: text

theorem count_joinLines_le (text : List Char) : (joinLines text).count '\n' ≤ text.count '\n' := by
  fun_induction joinLines text with
  | case1 => exact Nat.le_refl _
  | case2 rest ih => simp only [List.count_cons] at *; simp; omega
  | case3 x rest _ ih => simp only [List.count_cons]; omega

/-- Lines that are joined are fewer, and without any the text stays as it is. -/
theorem joinLines_cases (text : List Char) :
    Unjoined text ∧ joinLines text = text ∨ ¬ Unjoined text ∧ (joinLines text).count '\n' < text.count '\n' := by
  fun_induction joinLines text with
  | case1 => exact .inl ⟨by simp [Unjoined], rfl⟩
  | case2 rest ih =>
    refine .inr ⟨fun h => h ⟨[], rest, rfl⟩, ?_⟩
    have hle := count_joinLines_le rest
    simp only [List.count_cons]
    simp
    omega
  | case3 x rest hx ih =>
    have hpair : ['\\', '\n'] <:+: x :: rest ↔ ['\\', '\n'] <:+: rest := by
      rw [List.infix_cons_iff, or_iff_right_iff_imp]
      rintro ⟨tail, htail⟩
      obtain ⟨rfl, rfl⟩ := List.cons.inj htail
      exact absurd rfl (hx tail rfl)
    rcases ih with ⟨hjoined, heq⟩ | ⟨hjoined, hlt⟩
    · exact .inl ⟨fun h => hjoined (hpair.mp h), by rw [heq]⟩
    · refine .inr ⟨fun h => hjoined fun hrest => h (hpair.mpr hrest), ?_⟩
      simp only [List.count_cons]
      omega

/-! ### Tabs -/

theorem count_expandTabsFrom (column : Nat) (text : List Char) :
    (expandTabsFrom column text).count '\n' = text.count '\n' := by
  induction text generalizing column with
  | nil => rfl
  | cons x rest ih =>
    by_cases hx : x = '\t'
    · simp [expandTabsFrom, hx, ih, List.count_replicate]
    · simp [expandTabsFrom, hx, ih, List.count_cons]

theorem not_mem_expandTabsFrom {text : List Char} (column : Nat) (h : '\n' ∉ text) : '\n' ∉ expandTabsFrom column text := by
  rw [← List.count_eq_zero] at h ⊢
  rw [count_expandTabsFrom, h]

/-- Behind a line feed the columns are counted anew. -/
theorem expandTabsFrom_append (column : Nat) (above line : List Char) :
    expandTabsFrom column (above ++ '\n' :: line) = expandTabsFrom column above ++ '\n' :: expandTabs line := by
  induction above generalizing column with
  | nil => simp [expandTabsFrom, expandTabs]
  | cons x above ih => by_cases hx : x = '\t' <;> simp [expandTabsFrom, hx, ih]

theorem lastLine_expandTabs (text : List Char) : lastLine (expandTabs text) = expandTabs (lastLine text) := by
  rcases lastLine_cases text with ⟨htext, heq⟩ | ⟨above, line, hline, rfl, heq⟩
  · rw [heq]
    exact lastLine_of_not_mem (not_mem_expandTabsFrom 0 htext)
  · rw [heq, expandTabs, expandTabsFrom_append]
    exact lastLine_append _ (not_mem_expandTabsFrom 0 hline)

/-- Every tab of a line stands one column before a tab stop, so that it is one blank wide. -/
def NarrowTabs (row : List Char) : Prop := ∀ k, row[k]? = some '\t' → (k + 1) % tabWidth = 0

theorem length_le_expandTabsFrom (column : Nat) (row : List Char) : row.length ≤ (expandTabsFrom column row).length := by
  induction row generalizing column with
  | nil => exact Nat.le_refl _
  | cons x rest ih =>
    by_cases hx : x = '\t'
    · have hwidth : 0 < tabWidth - column % tabWidth := Nat.sub_pos_of_lt (Nat.mod_lt _ (by decide))
      have hrest := ih (column + (tabWidth - column % tabWidth))
      simp only [expandTabsFrom, hx, if_true, List.length_append, List.length_replicate, List.length_cons]
      omega
    · have hrest := ih (if x = '\n' then 0 else column + 1)
      simp only [expandTabsFrom, hx, if_false, List.length_cons]
      omega

/-- A line is as long as before if its tabs are one blank wide, and longer otherwise. -/
theorem length_expandTabsFrom_iff {row : List Char} (hline : '\n' ∉ row) (column : Nat) :
    (expandTabsFrom column row).length = row.length ↔ ∀ k, row[k]? = some '\t' → (column + k + 1) % tabWidth = 0 := by
  induction row generalizing column with
  | nil => simp [expandTabsFrom]
  | cons x rest ih =>
    obtain ⟨hne, hrest⟩ := not_or.mp (List.mem_cons.not.mp hline)
    have hsplit : (∀ k, (x :: rest)[k]? = some '\t' → (column + k + 1) % tabWidth = 0) ↔
        (x = '\t' → (column + 1) % tabWidth = 0) ∧ ∀ k, rest[k]? = some '\t' → (column + 1 + k + 1) % tabWidth = 0 := by
      constructor
      · refine fun h => ⟨fun hx => h 0 (by rw [hx]; rfl), fun k hk => ?_⟩
        have hnext := h (k + 1) hk
        rwa [show column + (k + 1) + 1 = column + 1 + k + 1 by omega] at hnext
      · rintro ⟨hfirst, hmore⟩ k hk
        cases k with
        | zero => exact hfirst (Option.some.inj hk)
        | succ k =>
          rw [show column + (k + 1) + 1 = column + 1 + k + 1 by omega]
          exact hmore k hk
    rw [hsplit]
    by_cases hx : x = '\t'
    · have hle := length_le_expandTabsFrom (column + (tabWidth - column % tabWidth)) rest
      simp only [expandTabsFrom, hx, if_true, List.length_append, List.length_replicate, List.length_cons, true_imp_iff]
      by_cases hwide : (column + 1) % tabWidth = 0
      · have hwidth : tabWidth - column % tabWidth = 1 := by
          simp only [tabWidth] at hwide ⊢
          omega
        rw [hwidth, and_iff_right hwide, ← ih hrest (column + 1)]
        omega
      · have hwidth : 1 < tabWidth - column % tabWidth := by
          simp only [tabWidth] at hwide ⊢
          omega
        exact iff_of_false (by omega) fun h => hwide h.1
    · simp only [expandTabsFrom, hx, Ne.symm hne, if_false, List.length_cons, false_imp_iff, true_and]
      rw [← ih hrest (column + 1)]
      omega

theorem length_expandTabs_iff {row : List Char} (hline : '\n' ∉ row) :
    (expandTabs row).length = row.length ↔ NarrowTabs row := by
  rw [expandTabs, length_expandTabsFrom_iff hline, NarrowTabs]
  simp only [Nat.zero_add]

/-! ### All steps -/

/-- The steps keep the position of what follows exactly if no line is joined to the one after it, and the tabs in the
last line are one blank wide. -/
theorem endPosition_parsedText_iff (source : List Char) :
    endPosition (parsedText source) = endPosition (withLineFeeds source) ↔
      Unjoined (stripComments (withLineFeeds source)) ∧ NarrowTabs (lastLine (stripComments (withLineFeeds source))) := by
  rw [← endPosition_blankComments .code (withLineFeeds source), parsedText, prepare]
  show endPosition (expandTabs (joinLines (stripComments (withLineFeeds source)))) =
    endPosition (stripComments (withLineFeeds source)) ↔ _
  generalize stripComments (withLineFeeds source) = text
  have hline : '\n' ∉ lastLine text := by
    rcases lastLine_cases text with ⟨htext, heq⟩ | ⟨above, line, hline, -, heq⟩
    · rwa [heq]
    · rwa [heq]
  rw [endPosition, endPosition, Prod.mk.injEq, lastLine_expandTabs, expandTabs, count_expandTabsFrom]
  rcases joinLines_cases text with ⟨hjoined, heq⟩ | ⟨hjoined, hlt⟩
  · rw [heq, and_iff_right hjoined, and_iff_right rfl, Nat.add_right_cancel_iff, length_expandTabs_iff hline]
  · exact iff_of_false (fun h => by omega) fun h => hjoined h.1

end MinRuby.Syntax
