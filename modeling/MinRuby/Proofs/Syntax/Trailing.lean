import MinRuby.Proofs.Syntax.Statements

/-!
# Blanks behind a text

Blanks at the end of a text do not change what is read of it. Tokens read the same in both texts, and where they find
the end of the shorter one they find nothing but blanks in the longer one. Only a sign that is the last thing in the
text is told by the look-ahead in front of arguments: with a blank behind it none of them can start there. Without the
blank it can, but for want of an operand none does.

* `Cursor.Trails` — the same place, with blanks behind the text.
* `trails_read`, `trails_statements` — phrases and the statements of a block.
-/

namespace MinRuby.Syntax

open MinRuby.Text (isBlank)
open MinRuby.Syntax.Parser

/-- The same text follows, but for blanks at its end. Where it has ended, what stands before it does not matter. -/
structure Cursor.Trails (c c' : Cursor) : Prop where
  rest : ∃ k, c'.rest = c.rest ++ List.replicate k ' '
  before : c.rest ≠ [] → c'.before = c.before

theorem head_replicate_blank {k : Nat} {x : Char} (h : (List.replicate k ' ').head? = some x) : x = ' ' :=
  List.eq_of_mem_replicate (List.mem_of_mem_head? h)

theorem any_head_replicate_blank {r : Char → Bool} (hr : r ' ' = false) (k : Nat) :
    (List.replicate k ' ').head?.any r = false := by
  cases k with
  | zero => rfl
  | succ k => exact hr

namespace Cursor.Trails

variable {c c' : Cursor}

theorem append (c : Cursor) (k : Nat) : c.Trails (c.append (List.replicate k ' ')) := ⟨⟨k, rfl⟩, fun _ => rfl⟩

theorem of_end (h : c.rest = []) (h' : c'.rest = []) : c.Trails c' := ⟨⟨0, by rw [h, h']; rfl⟩, fun hc => absurd h hc⟩

theorem eq_append (h : c.Trails c') (hc : c.rest ≠ []) : ∃ k, c' = c.append (List.replicate k ' ') := by
  obtain ⟨k, hk⟩ := h.rest
  have hbefore := h.before hc
  obtain ⟨b, rest⟩ := c'
  obtain rfl : b = c.before := hbefore
  obtain rfl : rest = c.rest ++ List.replicate k ' ' := hk
  exact ⟨k, rfl⟩

theorem skip (h : c.Trails c') {n : Nat} (hn : n ≤ c.rest.length) : (c.skip n).Trails (c'.skip n) := by
  by_cases hc : c.rest = []
  · obtain rfl : n = 0 := by
      rw [hc] at hn
      exact Nat.le_zero.mp hn
    exact h
  · obtain ⟨k, rfl⟩ := h.eq_append hc
    rw [skip_append hn]
    exact append _ k

/-- Where only blanks are left of the text, more of them are left of the longer one. -/
theorem lead_eq_finish (h : c.Trails c') (hc : c.lead = .finish) : c'.lead = .finish := by
  obtain ⟨k, hk⟩ := h.rest
  rw [lead_eq_finish_iff, rest_skipBlanks, List.dropWhile_eq_nil_iff] at hc ⊢
  rw [hk, List.forall_mem_append]
  exact ⟨hc, fun x hx => beq_iff_eq.mpr (List.eq_of_mem_replicate hx)⟩

theorem skipBlanks (h : c.Trails c') : c.skipBlanks.Trails c'.skipBlanks := by
  by_cases hrest : c.skipBlanks.rest = []
  · exact of_end hrest (lead_eq_finish_iff.mp (h.lead_eq_finish (lead_of_end hrest)))
  · obtain ⟨k, rfl⟩ := h.eq_append fun hc => hrest (rest_skipBlanks_of_end hc)
    rw [skipBlanks_append_of_rest hrest]
    exact append _ k

end Cursor.Trails

/-! ## Tokens -/

section

variable {c c' : Cursor}

/-- A character is read alike where there is one in the shorter text. -/
theorem trails_satisfying_of_rest {r : Char → Bool} (h : c.Trails c') (hc : c.rest ≠ []) :
    (satisfying r c).Refines Cursor.Trails (satisfying r c') := by
  obtain ⟨k, hk⟩ := h.rest
  obtain ⟨x, rest, hrest⟩ := List.exists_cons_of_ne_nil hc
  have hrest' : c'.rest = x :: (rest ++ List.replicate k ' ') := by rw [hk, hrest]; rfl
  cases hx : r x with
  | true =>
    rw [satisfying_of_rest hrest hx, satisfying_of_rest hrest' hx]
    exact .done x ⟨⟨k, rfl⟩, fun _ => rfl⟩
  | false =>
    rw [satisfying_of_head (by rw [hrest]; exact hx), satisfying_of_head (by rw [hrest']; exact hx)]
    exact .fail

theorem trails_satisfying {r : Char → Bool} (hr : r ' ' = false) : Respects Cursor.Trails (satisfying r) := by
  intro c c' h
  by_cases hc : c.rest = []
  · obtain ⟨k, hk⟩ := h.rest
    rw [satisfying_of_head (by rw [hc]; rfl), satisfying_of_head (by rw [hk, hc]; exact any_head_replicate_blank hr k)]
    exact .fail
  · exact trails_satisfying_of_rest h hc

theorem trails_blanks : Respects Cursor.Trails blanks := fun _ _ h => .done () h.skipBlanks

theorem isPrefixOf_append_blanks {text w : List Char} (h : ' ' ∉ text) (k : Nat) :
    text.isPrefixOf (w ++ List.replicate k ' ') = text.isPrefixOf w :=
  isPrefixOf_append_of_head fun _ ha hhead => h (head_replicate_blank hhead ▸ ha)

theorem trails_adjacent {text : List Char} (h : ' ' ∉ text) : Respects Cursor.Trails (adjacent text) := by
  intro c c' hc
  obtain ⟨k, hk⟩ := hc.rest
  unfold Parser.adjacent
  rw [hk, isPrefixOf_append_blanks h]
  split
  · next hprefix => exact .done () (hc.skip (List.isPrefixOf_iff_prefix.mp hprefix).length_le)
  · exact .fail

theorem trails_takeWhile {r : Char → Bool} (hr : r ' ' = false) : Respects Cursor.Trails (takeWhile r) := by
  intro c c' h
  obtain ⟨k, hk⟩ := h.rest
  unfold Parser.takeWhile
  rw [hk, takeWhile_append_of_head (any_head_replicate_blank hr k)]
  exact .done _ (h.skip (List.takeWhile_prefix _).length_le)

theorem trails_keyword {word : String} (hword : word ∈ keywords) : Respects Cursor.Trails (keyword word) := by
  intro c c' h
  have hblanks := h.skipBlanks
  obtain ⟨k, hk⟩ := hblanks.rest
  have hblank : ' ' ∉ word.toList := (by decide : ∀ w ∈ keywords, ' ' ∉ w.toList) word hword
  rw [keyword_eq, keyword_eq, hk, isPrefixOf_append_blanks hblank]
  cases hprefix : word.toList.isPrefixOf c.skipBlanks.rest with
  | false => exact .fail
  | true =>
    have hlength := (List.isPrefixOf_iff_prefix.mp hprefix).length_le
    have hrest : c.skipBlanks.rest ≠ [] := by
      intro hend
      rw [hend] at hlength
      exact absurd (Nat.le_zero.mp hlength) ((by decide : ∀ w ∈ keywords, w.toList.length ≠ 0) word hword)
    have hnext : ((c.skipBlanks.rest ++ List.replicate k ' ').drop word.toList.length).head?.any joinsKeyword =
        (c.skipBlanks.rest.drop word.toList.length).head?.any joinsKeyword := by
      rw [List.drop_append_of_le_length hlength]
      cases c.skipBlanks.rest.drop word.toList.length with
      | nil => exact any_head_replicate_blank (by decide) k
      | cons x rest => rfl
    rw [hblanks.before hrest, hnext]
    split
    · exact .done () (hblanks.skip hlength)
    · exact .fail

/-- Blanks do not close a literal. -/
theorem literalBody_append_blanks {quote : Char} (hblank : quote ≠ ' ') (hslash : quote ≠ '\\') (k : Nat) (w : List Char) :
    literalBody quote (w ++ List.replicate k ' ') = literalBody quote w := by
  have hnone (k : Nat) : literalBody quote (List.replicate k ' ') = none := by
    induction k with
    | zero => rfl
    | succ k ih => rw [List.replicate_succ, literalBody_cons_of_ne (by decide), if_neg (Ne.symm hblank), ih, Option.map_none]
  fun_induction literalBody quote w with
  | case1 => exact hnone k
  | case2 rest => rw [List.cons_append, List.cons_append, literalBody, if_pos rfl]
  | case3 x rest hx ih => rw [List.cons_append, List.cons_append, literalBody, if_neg hx, ih]
  | case4 rest => rw [List.cons_append, literalBody_cons_of_ne hslash, if_pos rfl]
  | case5 rest hrest =>
    -- a backslash as the last character takes a blank with it
    cases rest with
    | nil =>
      cases k with
      | zero =>
        rw [List.replicate_zero, List.append_nil, literalBody, if_neg (Ne.symm hslash), if_pos rfl]
        exact fun _ _ _ h => List.cons_ne_nil _ _ h.symm
      | succ k =>
        rw [List.cons_append, List.nil_append, List.replicate_succ, literalBody, if_neg (by decide), hnone, Option.map_none]
    | cons x rest => exact (hrest x rest rfl rfl).elim
  | case6 x rest _ hx hother ih => rw [List.cons_append, literalBody_cons_of_ne hother, if_neg hx, ih]

theorem trails_quotedLiteral {quote : Char} (hblank : quote ≠ ' ') (hslash : quote ≠ '\\') :
    Respects Cursor.Trails (quotedLiteral quote) := by
  refine trails_blanks.bind fun _ => (trails_adjacent (by simpa using Ne.symm hblank)).bind fun _ c c' h => ?_
  obtain ⟨k, hk⟩ := h.rest
  simp only [hk, literalBody_append_blanks hblank hslash]
  cases hbody : literalBody quote c.rest with
  | none => exact .fail
  | some body =>
    obtain ⟨tail, hrest, -⟩ := after_literalBody hbody
    refine .done body (h.skip ?_)
    rw [hrest, List.length_append, List.length_cons]
    omega

/-- Only behind the last sign of the text is the look-ahead in front of arguments of another mind. -/
theorem trails_noArgument (h : c.Trails c') : (noArgument c).Refines Cursor.Trails (noArgument c') ∨
    c.AtSign ∧ noArgument c = .fail ∧ noArgument c' ≠ .fail := by
  let mark : Parser Unit := do let _ ← satisfying fun c => "*/%<>=&|?:,.)]\x7d".toList.contains c; return ()
  let sign : Char → Bool := fun c => c == '-' || c == '+' || c == '!'
  let behind : Parser Unit := do let _ ← satisfying isBlank; return ()
  have hblanks := h.skipBlanks
  have hmark : (mark c.skipBlanks).Refines Cursor.Trails (mark c'.skipBlanks) :=
    (trails_satisfying (by decide)).bind (fun _ => .pure ()) _ _ hblanks
  have hall {c : Cursor} : noArgument c = (mark <|> satisfying sign >>= fun _ => behind) c.skipBlanks := rfl
  have hsign := trails_satisfying (r := sign) (by decide) _ _ hblanks
  rw [hall, hall]
  cases hread : satisfying sign c.skipBlanks with
  | done x c₁ =>
    obtain ⟨c₁', hread', hbehind⟩ := hsign.of_done hread
    obtain ⟨w, hw, rfl, hx⟩ := reads_satisfying sign _ _ _ hread
    by_cases hend : c₁.rest = []
    · have hrest : c.skipBlanks.rest = [x] := by rw [hw, hend]; rfl
      have hmem : x ∈ signs := by simpa [sign, signs, or_assoc] using hx
      have hother : mark c.skipBlanks = .fail := by
        refine bind_of_fail (satisfying_of_head ?_)
        rw [hrest]
        rcases mem_signs hmem with rfl | rfl | rfl <;> rfl
      have hnone : behind c₁ = .fail := bind_of_fail (satisfying_of_head (by rw [hend]; rfl))
      have hfail : (mark <|> satisfying sign >>= fun _ => behind) c.skipBlanks = .fail :=
        (orElse_of_fail hother).trans ((bind_of_done hread).trans hnone)
      rw [hfail]
      by_cases hmore : (mark <|> satisfying sign >>= fun _ => behind) c'.skipBlanks = .fail
      · exact .inl (by rw [hmore]; exact .fail)
      · exact .inr ⟨⟨x, hmem, hrest⟩, rfl, hmore⟩
    · refine .inl (hmark.orElse ?_)
      rw [bind_of_done hread, bind_of_done hread']
      exact (trails_satisfying_of_rest hbehind hend).bind fun _ _ _ h => .done () h
  | fail =>
    have hread' : satisfying sign c'.skipBlanks = .fail := by
      rw [hread] at hsign
      generalize satisfying sign c'.skipBlanks = r at hsign
      cases hsign
      rfl
    refine .inl (hmark.orElse ?_)
    rw [bind_of_fail hread, bind_of_fail hread']
    exact .fail
  | giveUp r => exact absurd hread (Persists.satisfying sign _ r)

end

theorem tokensRespect_trails : TokensRespect Cursor.Trails where
  blanks := trails_blanks
  adjacent htext := trails_adjacent (not_blank_of_plain htext)
  satisfying hr := trails_satisfying (blank_of_spares hr)
  takeWhile hr := trails_takeWhile (blank_of_spares hr)
  keyword := trails_keyword
  quotedLiteral {quote} hquote := by
    obtain rfl | rfl : quote = '"' ∨ quote = '\'' := by simpa using hquote
    · exact trails_quotedLiteral (by decide) (by decide)
    · exact trails_quotedLiteral (by decide) (by decide)
  noArgument _ _ := trails_noArgument

theorem trails_read (p : Phrase) : Respects Cursor.Trails (read p) := by
  intro c c' h
  obtain ⟨k, hk⟩ := h.rest
  have hlevels : c.rest.length < c'.rest.length + 1 := by
    rw [hk, List.length_append]
    omega
  have hsame := (hereditary_respects tokensRespect_trails).phrase (c'.rest.length + 1) p c c' h
  rwa [phrase_eq_read hlevels] at hsame

theorem trails_statements : Respects Cursor.Trails statements := respects_statements tokensRespect_trails trails_read

end MinRuby.Syntax
