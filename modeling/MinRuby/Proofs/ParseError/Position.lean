import MinRuby.Proofs.Syntax.Beyond
import MinRuby.Proofs.Syntax.Preparation
import MinRuby.Proofs.Text.Lines

/-!
# The position of a parse error

Parsing stops at a character of the source, and the error names its line and column in the text that is parsed. They
are those in the source unless a line before has been joined to the next one, or a tab in the same line is wider than
one blank. What the error shows is cut out of the source at that line and column.

* `stop_of_readProgram` — the character at which parsing stops.
* `position_of_readProgram` — when the position is the one in the source, and what is shown then.
-/

namespace MinRuby.Syntax

open MinRuby.Syntax.Parser MinRuby.Text
open MinRuby.ParseError (shownLength textAt? numberedLine? leftOver)

/-! ## Where parsing stops -/

/-- Behind a block, blanks apart, stands neither a blank nor a line feed. -/
theorem solid_behind_block {nested : Phrase → Parser Term} {c c' : Cursor} {t : Term}
    (h : block nested c = .done t c') {x : Char} {rest : List Char} (hrest : c'.skipBlanks.rest = x :: rest) : IsSolid x := by
  have hend : separator c' = .fail := by
    obtain ⟨c₁, hfirst, -⟩ := done_of_separators c
    rw [block, bind_of_done hfirst] at h
    cases hstatements : optional (sepBy1 (statement nested) separators1) c₁ with
    | done ts? c₂ =>
      obtain ⟨c₃, hmore, hend⟩ := done_of_separators c₂
      rw [bind_of_done hstatements, bind_of_done hmore] at h
      obtain ⟨-, rfl⟩ := Reply.done.inj h
      exact hend
    | fail => exact absurd hstatements (optional_ne_fail _ _)
    | giveUp r =>
      rw [bind_of_giveUp hstatements] at h
      cases h
  constructor
  · rintro rfl
    have hblanks := Cursor.rest_skipBlanks c'
    rw [hrest] at hblanks
    have hhead := List.head?_dropWhile_not (· == ' ') c'.rest
    rw [← hblanks] at hhead
    simp at hhead
  · rintro rfl
    have hfeed : symbol "\n" c' = .done () ⟨some '\n', rest⟩ := symbol_of_rest (w := []) rfl hrest
    rw [separator, orElse_of_done hfeed] at hend
    cases hend

/-- Parsing stops in front of a character of the source. -/
theorem stop_of_readProgram {source filename : String} {e : ParseError}
    (h : readProgram source filename = .error (.parse e)) :
    ∃ t c' before x after, parsePhrase .block (parsedText source.toList) = .done t c' ∧
      source.toList = before ++ x :: after ∧ IsSolid x ∧
      parsedText source.toList = parsedText before ++ c'.skipBlanks.rest ∧ c'.skipBlanks.rest.head? = some x ∧
      e = leftOver source.toList (parsedText source.toList) (parsedText before).length filename := by
  unfold readProgram readWhole at h
  simp only at h
  split at h
  · cases h
  · next hfail => exact absurd hfail (block_ne_fail _ _)
  · next t c' hread =>
    split at h
    · cases h
    · next hmore =>
      obtain ⟨x, rest, hrest⟩ := List.exists_cons_of_ne_nil hmore
      have hsolid : IsSolid x := solid_behind_block hread hrest
      have hphrase : read .block (.start (parsedText source.toList)) = .done t c' := hread
      obtain ⟨w, hw, -⟩ := reads_read .block _ _ _ hphrase
      obtain ⟨w', hw'⟩ : ∃ w', parsedText source.toList = w' ++ c'.skipBlanks.rest := by
        refine ⟨w ++ c'.rest.takeWhile (· == ' '), ?_⟩
        rw [Cursor.rest_skipBlanks, List.append_assoc, List.takeWhile_append_dropWhile]
        exact hw
      obtain ⟨before, after, hsource, rfl⟩ := tracks_parsedText source.toList w' x rest (by rw [hw', hrest]) hsolid
      refine ⟨t, c', before, x, after, hread, hsource, hsolid, hw', by rw [hrest]; rfl, ?_⟩
      have hoffset : (parsedText source.toList).length - c'.skipBlanks.rest.length = (parsedText before).length := by
        rw [hw', List.length_append, Nat.add_sub_cancel]
      rw [← hoffset]
      exact (Failure.parse.inj (Except.error.inj h)).symm

/-! ## What is shown -/

/-- The line that a place is in: what stands before it in that line, and what stands behind it. -/
theorem line_of_append (before after : List Char) :
    (splitLines (before ++ after))[before.count '\n']? = some (lastLine before ++ after.takeWhile (· ≠ '\n')) := by
  have hfirst {line : List Char} (hline : '\n' ∉ line) :
      (splitLines (line ++ after))[0]? = some (line ++ after.takeWhile (· ≠ '\n')) := by
    rw [← List.head?_eq_getElem?, head?_splitLines, List.takeWhile_append_of_pos]
    exact fun _ hc => decide_eq_true fun heq => hline (heq ▸ hc)
  rcases lastLine_cases before with ⟨hbefore, heq⟩ | ⟨above, line, hline, rfl, heq⟩
  · rw [List.count_eq_zero.mpr hbefore, heq, hfirst hbefore]
  · have hcount : (above ++ '\n' :: line).count '\n' = (splitLines above).length := by
      rw [length_splitLines, List.count_append, List.count_cons_self, List.count_eq_zero.mpr hline]
    rw [heq, hcount, List.append_assoc, List.cons_append, splitLines_append,
      List.getElem?_append_right (Nat.le_refl _), Nat.sub_self, hfirst hline]

/-- Of a text that starts with no blank only the end is stripped. -/
theorem strip_cons {x : Char} (rest : List Char) (hx : isBlank x = false) :
    ∃ more, strip (x :: rest) = x :: more ∧ more <+: rest := by
  have hleft : stripLeft (x :: rest) = x :: rest := List.dropWhile_cons_of_neg (by simp [hx])
  have hright : (stripLeft (x :: rest).reverse).reverse = (x :: rest).rdropWhile isBlank := rfl
  rw [strip, hleft, hright]
  cases hdrop : (x :: rest).rdropWhile isBlank with
  | nil =>
    have hall := List.rdropWhile_eq_nil_iff.mp hdrop x List.mem_cons_self
    rw [hx] at hall
    cases hall
  | cons y more =>
    have hprefix := List.rdropWhile_prefix isBlank (x :: rest)
    rw [hdrop, List.cons_prefix_cons] at hprefix
    obtain ⟨rfl, hmore⟩ := hprefix
    exact ⟨more, rfl, hmore⟩

/-- At the position behind a text a piece of what follows it is shown, unless that starts with a blank. -/
theorem textAt?_of_append (before : List Char) {x : Char} (after : List Char) (hx : x ≠ '\n') (hblank : isBlank x = false) :
    ∃ shown, shown <+: after ∧ textAt? (before ++ x :: after) (endPosition before).1 (endPosition before).2 =
      some ('\'' :: x :: (shown ++ ['\''])) := by
  have hlength : ¬ ((splitLines (before ++ x :: after)).length : Int) < (endPosition before).1 := by
    rw [length_splitLines, List.count_append, endPosition]
    omega
  have hline : numberedLine? (splitLines (before ++ x :: after)) (endPosition before).1 =
      some (lastLine before ++ (x :: after).takeWhile (· ≠ '\n')) := by
    rw [← line_of_append, numberedLine?, endPosition, if_pos (by omega)]
    congr 1
    omega
  have hcut : between (lastLine before ++ (x :: after).takeWhile (· ≠ '\n')) ((endPosition before).2 - 1)
      ((endPosition before).2 - 1 + shownLength) = x :: (after.takeWhile (· ≠ '\n')).take 10 := by
    have hcolumn : ((endPosition before).2 : Int) - 1 = (lastLine before).length := by
      rw [endPosition]
      omega
    have hfirst : (x :: after).takeWhile (· ≠ '\n') = x :: after.takeWhile (· ≠ '\n') :=
      List.takeWhile_cons_of_pos (decide_eq_true hx)
    rw [hcolumn, ← Int.natCast_add, between_natCast, List.take_length_add_append, List.drop_left, hfirst, shownLength,
      List.take_succ_cons]
  obtain ⟨shown, hstrip, hshown⟩ := strip_cons ((after.takeWhile (· ≠ '\n')).take 10) hblank
  refine ⟨shown, (hshown.trans (List.take_prefix _ _)).trans (List.takeWhile_prefix _), ?_⟩
  rw [textAt?, if_neg hlength, hline, Option.map_some, hcut, hstrip]
  rfl

/-! ## Carriage returns -/

/-- Every carriage return has a line feed behind it. -/
def FedReturns (text : List Char) : Prop := ∀ k, text[k]? = some '\r' → text[k + 1]? = some '\n'

/-- The position behind a text, from the position behind all but its first character. -/
theorem endPosition_cons (c : Char) (rest : List Char) : endPosition (c :: rest) =
    if c = '\n' then ((endPosition rest).1 + 1, (endPosition rest).2)
    else ((endPosition rest).1, (endPosition rest).2 + if (endPosition rest).1 = 1 then 1 else 0) := by
  have hfirst : (endPosition rest).1 = 1 ↔ '\n' ∉ rest := by
    rw [endPosition, Nat.add_eq_right, List.count_eq_zero]
  rcases lastLine_cases rest with ⟨hrest, heq⟩ | ⟨above, line, hline, hrest, heq⟩
  · rw [if_pos (hfirst.mpr hrest)]
    split
    · next hc =>
      have hlast : lastLine ('\n' :: rest) = rest := lastLine_append [] hrest
      rw [hc, endPosition, endPosition, hlast, heq, List.count_cons_self]
    · next hc =>
      rw [endPosition, endPosition, heq, lastLine_of_not_mem (List.not_mem_cons_of_ne_of_not_mem (Ne.symm hc) hrest),
        List.count_cons_of_ne hc, List.length_cons]
  · have hmem : '\n' ∈ rest := by
      rw [hrest]
      simp
    have hlast : lastLine (c :: rest) = lastLine rest := by
      rw [heq, hrest]
      exact lastLine_append (c :: above) hline
    rw [if_neg fun h => hfirst.mp h hmem, endPosition, endPosition, hlast]
    split
    · next hc => rw [hc, List.count_cons_self]
    · next hc => rw [List.count_cons_of_ne hc, Nat.add_zero]

theorem endPosition_withLineFeeds {text : List Char} (h : FedReturns text) :
    endPosition (withLineFeeds text) = endPosition text := by
  have htail {c : Char} {rest : List Char} (h : FedReturns (c :: rest)) : FedReturns rest := fun k hk => h (k + 1) hk
  fun_induction withLineFeeds text with
  | case1 => rfl
  | case2 rest ih =>
    rw [endPosition_cons '\n', if_pos rfl, ih (htail (htail h)), endPosition_cons '\r', if_neg (by decide),
      endPosition_cons '\n',
      if_pos rfl]
    simp [endPosition]
  | case3 c rest hc ih =>
    have hreturn : c ≠ '\r' := by
      rintro rfl
      obtain ⟨more, rfl⟩ := List.head?_eq_some_iff.mp (List.head?_eq_getElem?.trans (h 0 rfl))
      exact hc more rfl rfl
    rw [if_neg hreturn, endPosition_cons c, endPosition_cons c, ih (htail h)]

/-! ## The reported position -/

/-- Parsing stops at a character of the source. The error names its line and column in the text that is parsed. They
are those of the character in the source exactly if no line before has been joined to the next one and the tabs
before it in the same line are one blank wide. If moreover every carriage return before it has a line feed behind it
and the character is no blank of any kind, then what is shown is a piece of the source from this character on. -/
theorem position_of_readProgram {source filename : String} {e : ParseError}
    (h : readProgram source filename = .error (.parse e)) :
    ∃ t c' before x after, parsePhrase .block (parsedText source.toList) = .done t c' ∧
      source.toList = before ++ x :: after ∧
      parsedText source.toList = parsedText before ++ c'.skipBlanks.rest ∧ c'.skipBlanks.rest.head? = some x ∧
      e.position = some (endPosition (parsedText before)) ∧
      let text := stripComments (withLineFeeds before)
      (e.position = some (endPosition (withLineFeeds before)) ↔ Unjoined text ∧ NarrowTabs (lastLine text)) ∧
      (Unjoined text → NarrowTabs (lastLine text) → FedReturns before → isBlank x = false →
        ∃ shown, shown <+: after ∧ e.found = '\'' :: x :: (shown ++ ['\''])) := by
  obtain ⟨t, c', before, x, after, hread, hsource, hsolid, htext, hhead, rfl⟩ := stop_of_readProgram h
  have hposition : (lineOf (parsedText source.toList) (parsedText before).length,
      columnOf (parsedText source.toList) (parsedText before).length) = endPosition (parsedText before) := by
    rw [htext, position_of_append]
  refine ⟨t, c', before, x, after, hread, hsource, htext, hhead, congrArg some hposition, ?_, ?_⟩
  · rw [← endPosition_parsedText_iff, ← hposition]
    exact Option.some_inj
  · intro hjoined htabs hreturns hblank
    have hkept := (endPosition_parsedText_iff before).mpr ⟨hjoined, htabs⟩
    rw [endPosition_withLineFeeds hreturns, ← hposition] at hkept
    obtain ⟨shown, hshown, htextAt⟩ := textAt?_of_append before after hsolid.2 hblank
    rw [← hkept, ← hsource] at htextAt
    exact ⟨shown, hshown, congrArg (Option.getD · []) htextAt⟩

/-- Parsing stops at a bracket that closes nothing, and names its position in the source. -/
theorem position_of_bracket : ∃ e, readProgram "x\r\n  )" anonymous = .error (.parse e) ∧
    e.position = some (2, 3) ∧ e.found = "')'".toList ∧
    ∃ before x after, "x\r\n  )".toList = before ++ x :: after ∧ e.position = some (endPosition (parsedText before)) := by
  have hread : (match readProgram "x\r\n  )" anonymous with
      | .error (.parse e) => decide (e.position = some (2, 3) ∧ e.found = "')'".toList)
      | _ => false) = true := by decide +kernel
  split at hread
  · next e heq =>
    obtain ⟨hposition, hfound⟩ := of_decide_eq_true hread
    obtain ⟨t, c', before, x, after, -, hsource, -, -, hkept, -⟩ := position_of_readProgram heq
    exact ⟨e, heq, hposition, hfound, before, x, after, hsource, hkept⟩
  · cases hread

/-- Behind a tab the position is not the one in the source, and the character is not shown. -/
theorem position_behind_tab : ∃ e, readProgram "\t)" anonymous = .error (.parse e) ∧
    e.position = some (1, 9) ∧ e.found = "end of input".toList := by
  have hread : (match readProgram "\t)" anonymous with
      | .error (.parse e) => decide (e.position = some (1, 9) ∧ e.found = "end of input".toList)
      | _ => false) = true := by decide +kernel
  split at hread
  · next e heq => exact ⟨e, heq, of_decide_eq_true hread⟩
  · cases hread

end MinRuby.Syntax
