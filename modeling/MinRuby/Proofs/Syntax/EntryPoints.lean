import Mathlib.Data.List.DropRight
import MinRuby.Proofs.Syntax.Parts
import MinRuby.Proofs.Syntax.Surroundings

/-!
# Statements as programs

A text that is read as a single statement is a program of that statement. A statement is read of the text without the
whitespace around it, a program of the text with it; where that is blanks and line feeds, both read the same term. The
tree of the program is that of the statement with its names resolved, its temporaries numbered from another number on.

* `SpacedEnds.eq_surrounded` — a text and what is left of it without whitespace around it.
* `parseProgram_of_parseStatement` — the tree of the program.
-/

namespace MinRuby.Syntax

open MinRuby.Text (expandTabs isBlank strip stripLeft withLineFeeds)

/-! ## Preparation -/

/-- Preparation brings no characters into a text but blanks and line feeds. -/
theorem not_mem_prepare {x : Char} (hblank : x ≠ ' ') (hfeed : x ≠ '\n') {text : List Char} (h : x ∉ text) :
    x ∉ prepare text := by
  have hlines : x ∉ withLineFeeds text := by
    fun_induction withLineFeeds text with
    | case1 => exact h
    | case2 rest ih => simp_all
    | case3 c rest _ ih => split <;> simp_all
  have hcomments (scan : Scan) {text : List Char} (h : x ∉ text) : x ∉ blankComments scan text := by
    fun_induction blankComments scan text <;> simp_all
  have hjoined {text : List Char} (h : x ∉ text) : x ∉ joinLines text := by
    fun_induction joinLines text <;> simp_all
  exact hjoined (hcomments .code hlines)

/-- What is blank at the two ends of the text are blanks and line feeds. -/
def SpacedEnds (text : List Char) : Prop := Spacing (text.takeWhile isBlank) ∧ Spacing (text.rtakeWhile isBlank)

instance (text : List Char) : Decidable (SpacedEnds text) := inferInstanceAs (Decidable (_ ∧ _))

theorem SpacedEnds.eq_surrounded {text : List Char} (h : SpacedEnds text) :
    ∃ before behind, text = before ++ strip text ++ behind ∧ Spacing before ∧ Spacing behind := by
  refine ⟨text.takeWhile isBlank, (stripLeft text).rtakeWhile isBlank, ?_, h.1, fun x hx => h.2 x ?_⟩
  · have hright : strip text ++ (stripLeft text).rtakeWhile isBlank = stripLeft text := List.rdropWhile_append_rtakeWhile
    rw [List.append_assoc, hright, stripLeft, List.takeWhile_append_dropWhile]
  · have hreverse : text.reverse = (stripLeft text).reverse ++ (text.takeWhile isBlank).reverse := by
      rw [← List.reverse_append, stripLeft, List.takeWhile_append_dropWhile]
    rw [List.rtakeWhile, List.mem_reverse] at hx ⊢
    rw [hreverse, List.takeWhile_append]
    split
    · exact List.mem_append_left _ (List.takeWhile_prefix _ |>.subset hx)
    · exact hx

/-! ## Programs -/

theorem readWhole_eq_ok {p : Phrase} {source prepared : List Char} {filename : String} {t : Term}
    (h : readWhole p source prepared filename = .ok t) :
    ∃ c, read p (.start (expandTabs prepared)) = .done t c ∧ c.lead = .finish := by
  unfold readWhole at h
  simp only at h
  split at h
  · cases h
  · cases h
  · next term next hread =>
    split at h
    · next hend =>
      obtain rfl := Except.ok.inj h
      exact ⟨next, hread, lead_of_end hend⟩
    · cases h

/-- The whole text of a statement is a program. -/
theorem readProgram_of_statement {source filename : String} {t : Term} (htab : '\t' ∉ source.toList)
    (hends : SpacedEnds (prepare source.toList))
    (h : readWhole .statement source.toList (strip (prepare source.toList)) filename = .ok t) (filename' : String) :
    readProgram source filename' = .ok (.block [t]) := by
  have htabs : '\t' ∉ prepare source.toList := not_mem_prepare (by decide) (by decide) htab
  obtain ⟨before, behind, htext, hbefore, hbehind⟩ := hends.eq_surrounded
  have hcore : '\t' ∉ strip (prepare source.toList) := fun hmem => htabs (by rw [htext]; simp [hmem])
  obtain ⟨c, hread, hend⟩ := readWhole_eq_ok h
  rw [expandTabs_of_not_mem hcore, read_eq] at hread
  obtain ⟨c', hall, hfinish⟩ := wholeText_surrounded hbefore hbehind (.of_statement hread hend)
  refine readProgram_eq_ok_iff.mpr ⟨[t], c', rfl, ?_, hfinish⟩
  rwa [parsedText, expandTabs_of_not_mem htabs, htext]

end MinRuby.Syntax
