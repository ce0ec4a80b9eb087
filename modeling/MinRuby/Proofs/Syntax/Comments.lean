import MinRuby.Proofs.Syntax.Quoting
import MinRuby.Proofs.Syntax.StringLiteral

/-!
# Comments and layout

A text consists of code, comments and string literals, and no scanner is needed to say which is which: a comment goes
on to the end of its line, a literal to the next quote of its kind that no backslash stands before. The scanner blanks
exactly the comments, position by position. Neither the blanking nor the joining of lines leaves anything to do for a
second time: no `#` is left outside a literal, whatever the joining does to the backslashes before a line feed.

* `Division` — the pieces of a text.
* `stripComments_flatMap` — what is made of the pieces.
* `stripComments_eq_self_iff` — the texts without comments.
* `source_preparation` — layout is kept, and preparing twice is preparing once.
-/

namespace MinRuby.Syntax

open MinRuby.Text
open MinRuby.Syntax.Quoting

/-! ## Pieces -/

/-- A part of a source text. -/
inductive Piece where
  /-- A character outside of comments and literals. -/
  | code (c : Char)
  /-- A comment, without the `#` it starts with. -/
  | comment (body : List Char)
  /-- A string literal, without its two quotes. -/
  | literal (quote : Char) (body : List Char)
  /-- A string literal that is not closed, without its quote. -/
  | unclosed (quote : Char) (body : List Char)

namespace Piece

/-- The piece as it is written. -/
def text : Piece → List Char
  | code c => [c]
  | comment body => '#' :: body
  | literal quote body => quote :: (body ++ [quote])
  | unclosed quote body => quote :: body

/-- The piece with blanks for the characters of a comment. -/
def blanked : Piece → List Char
  | comment body => ' ' :: body.map fun _ => ' '
  | piece => piece.text

end Piece

/-- The pieces are those of the text they make up. A comment ends with its line, and only the last literal can be left
open; a backslash at the end of the text escapes nothing. -/
inductive Division : List Piece → Prop where
  | nil : Division []
  | code {c : Char} {pieces : List Piece} (hc : c ∉ ['"', '\'', '#']) (h : Division pieces) : Division (.code c :: pieces)
  | comment {body : List Char} {pieces : List Piece} (hbody : '\n' ∉ body)
    (hend : ∀ c ∈ (pieces.flatMap Piece.text).head?, c = '\n')
    (h : Division pieces) : Division (.comment body :: pieces)
  | literal {quote : Char} {body : List Char} {pieces : List Piece} (hquote : quote ∈ ['"', '\'']) (hbody : Enclosed quote body)
    (h : Division pieces) : Division (.literal quote body :: pieces)
  | unclosed {quote : Char} {body : List Char} (hquote : quote ∈ ['"', '\'']) (hbody : Enclosed quote body) :
    Division [.unclosed quote body]
  | cut {quote : Char} {body : List Char} (hquote : quote ∈ ['"', '\'']) (hbody : Enclosed quote body) :
    Division [.unclosed quote (body ++ ['\\'])]

section

variable {quote c : Char} {body before tail text : List Char} {pieces : List Piece} {s : Quoting} {scan : Scan}

/-- Behind its first quote a literal is closed or goes on to the end of the text. -/
theorem enclosed_cases (quote : Char) (text : List Char) :
    (∃ body tail, Enclosed quote body ∧ text = body ++ quote :: tail) ∨
      ∃ body, Enclosed quote body ∧ (text = body ∨ text = body ++ ['\\']) := by
  match text with
  | [] => exact .inr ⟨[], .nil, .inl rfl⟩
  | c :: rest =>
    by_cases hslash : c = '\\'
    · subst hslash
      match rest with
      | [] => exact .inr ⟨[], .nil, .inr rfl⟩
      | c :: rest =>
        rcases enclosed_cases quote rest with ⟨body, tail, hbody, rfl⟩ | ⟨body, hbody, htext⟩
        · exact .inl ⟨_, tail, .pair c hbody, rfl⟩
        · exact .inr ⟨_, .pair c hbody, htext.imp (congrArg (_ :: _ :: ·)) (congrArg (_ :: _ :: ·))⟩
    · by_cases hquote : c = quote
      · exact .inl ⟨[], rest, .nil, by rw [hquote]; rfl⟩
      · rcases enclosed_cases quote rest with ⟨body, tail, hbody, rfl⟩ | ⟨body, hbody, htext⟩
        · exact .inl ⟨_, tail, .plain hquote hslash hbody, rfl⟩
        · exact .inr ⟨_, .plain hquote hslash hbody, htext.imp (congrArg (c :: ·)) (congrArg (c :: ·))⟩

/-- Every text has its pieces. -/
theorem exists_division (text : List Char) : ∃ pieces, Division pieces ∧ pieces.flatMap Piece.text = text := by
  induction hn : text.length using Nat.strong_induction_on generalizing text with
  | _ n ih =>
  subst hn
  cases text with
  | nil => exact ⟨[], .nil, rfl⟩
  | cons c rest =>
    have hrest (tail : List Char) (h : tail.length ≤ rest.length) :
        ∃ pieces, Division pieces ∧ pieces.flatMap Piece.text = tail := ih _ (Nat.lt_succ_of_le h) tail rfl
    by_cases hquote : c ∈ ['"', '\'']
    · rcases enclosed_cases c rest with ⟨body, tail, hbody, rfl⟩ | ⟨body, hbody, rfl | rfl⟩
      · obtain ⟨pieces, hpieces, rfl⟩ := hrest tail (by simp; omega)
        exact ⟨.literal c body :: pieces, .literal hquote hbody hpieces, by simp [Piece.text]⟩
      · exact ⟨_, .unclosed hquote hbody, by simp [Piece.text]⟩
      · exact ⟨_, .cut hquote hbody, by simp [Piece.text]⟩
    · by_cases hhash : c = '#'
      · subst hhash
        -- the comment is what stands before the next line feed
        obtain ⟨pieces, hpieces, htail⟩ := hrest _ (List.dropWhile_suffix (· ≠ '\n')).length_le
        refine ⟨.comment (rest.takeWhile (· ≠ '\n')) :: pieces, .comment ?_ ?_ hpieces, ?_⟩
        · exact fun hmem => by simpa using List.mem_takeWhile_imp hmem
        · rw [htail]
          intro x hx
          have hend := List.head?_dropWhile_not (fun c => decide (c ≠ '\n')) rest
          rw [Option.mem_def.mp hx] at hend
          simpa using hend
        · rw [List.flatMap_cons, htail, Piece.text, List.cons_append, List.takeWhile_append_dropWhile]
      · obtain ⟨pieces, hpieces, rfl⟩ := hrest rest le_rfl
        exact ⟨.code c :: pieces, .code (by simp_all) hpieces, rfl⟩

/-! ## Blanking -/

theorem blankComments_comment (h : '\n' ∉ body) (tail : List Char) :
    blankComments .comment (body ++ tail) = (body.map fun _ => ' ') ++ blankComments .comment tail := by
  induction body with
  | nil => rfl
  | cons c body ih =>
    obtain ⟨hc, hbody⟩ := not_or.mp (List.mem_cons.not.mp h)
    rw [List.cons_append, blankComments, if_neg (Ne.symm hc), ih hbody]
    rfl

theorem blankComments_comment_feed (tail : List Char) :
    blankComments .comment ('\n' :: tail) = blankComments .code ('\n' :: tail) := by
  rw [blankComments, if_pos rfl]
  rfl

theorem blankComments_open (h : quote ∈ ['"', '\'']) (tail : List Char) :
    blankComments .code (quote :: tail) = quote :: blankComments (.literal quote) tail := by
  rw [blankComments, if_pos (by simpa using h)]

/-- The comments are blanked, and nothing else is. -/
theorem stripComments_flatMap (h : Division pieces) :
    stripComments (pieces.flatMap Piece.text) = pieces.flatMap Piece.blanked := by
  unfold stripComments
  induction h with
  | nil => rfl
  | @code c pieces hc _ ih =>
    obtain ⟨hdouble, hsingle, hhash⟩ : c ≠ '"' ∧ c ≠ '\'' ∧ c ≠ '#' := by simpa using hc
    rw [List.flatMap_cons, List.flatMap_cons, ← ih, Piece.text, List.singleton_append, blankComments,
      if_neg (not_or.mpr ⟨hdouble, hsingle⟩), if_neg hhash]
    rfl
  | @comment body pieces hbody hend _ ih =>
    have hcode : blankComments .comment (pieces.flatMap Piece.text) = blankComments .code (pieces.flatMap Piece.text) := by
      cases htext : pieces.flatMap Piece.text with
      | nil => rfl
      | cons c tail =>
        obtain rfl := hend c (by rw [htext]; rfl)
        exact blankComments_comment_feed tail
    rw [List.flatMap_cons, List.flatMap_cons, ← ih, Piece.text, List.cons_append, blankComments, if_neg (by decide), if_pos rfl,
      blankComments_comment hbody, hcode]
    rfl
  | @literal quote body pieces hquote hbody _ ih =>
    have hslash : quote ≠ '\\' := by
      rintro rfl
      exact absurd hquote (by decide)
    rw [List.flatMap_cons, List.flatMap_cons, ← ih, Piece.text, List.cons_append, blankComments_open hquote, List.append_assoc,
      List.singleton_append, hbody.blankComments_close hslash]
    simp [Piece.blanked, Piece.text]
  | @unclosed quote body hquote hbody =>
    have hscan := hbody.blankComments_append []
    rw [List.append_nil, blankComments, List.append_nil] at hscan
    simp [Piece.blanked, Piece.text, blankComments_open hquote, hscan]
  | @cut quote body hquote hbody =>
    have hscan := hbody.blankComments_append ['\\']
    have hslash : blankComments (.literal quote) ['\\'] = ['\\'] := by simp [blankComments]
    rw [hslash] at hscan
    simp [Piece.blanked, Piece.text, blankComments_open hquote, hscan]

/-! ## A second time -/

/-- No comment starts in the text. -/
def Uncommented (s : Quoting) (text : List Char) : Prop :=
  ∀ before tail, text = before ++ '#' :: tail → s.after before ≠ outside

theorem uncommented_nil : Uncommented s [] := fun _ _ h => absurd h (by simp)

theorem uncommented_cons_iff : Uncommented s (c :: text) ↔ (c = '#' → s ≠ outside) ∧ Uncommented (s.step c) text := by
  constructor
  · refine fun h => ⟨fun hc => h [] text (by rw [hc]; rfl), fun before tail heq => h (c :: before) tail (by rw [heq]; rfl)⟩
  · rintro ⟨hfirst, hrest⟩ before tail heq
    cases before with
    | nil => exact hfirst (List.cons.inj heq).1
    | cons x before =>
      obtain ⟨rfl, htext⟩ := List.cons.inj heq
      exact hrest before tail htext

/-- The scanner leaves no comment. -/
theorem uncommented_blankComments (scan : Scan) (text : List Char) :
    Uncommented scan.quoting (blankComments scan text) := by
  fun_induction blankComments scan text with
  | case1 => exact uncommented_nil
  | case2 rest ih => exact uncommented_cons_iff.mpr ⟨fun h => absurd h (by decide), ih⟩
  | case3 x rest hx ih => exact uncommented_cons_iff.mpr ⟨fun h => absurd h (by decide), ih⟩
  | case4 quote x rest ih =>
    refine uncommented_cons_iff.mpr ⟨fun h => absurd h (by decide), ?_⟩
    exact uncommented_cons_iff.mpr ⟨fun _ => Quoting.noConfusion, ih⟩
  | case5 quote x rest hx ih =>
    refine uncommented_cons_iff.mpr ⟨fun _ => Quoting.noConfusion, ?_⟩
    by_cases hslash : x = '\\'
    · -- the backslash is the last character
      cases rest with
      | nil => exact uncommented_nil
      | cons y rest => exact absurd rfl (hx y rest hslash)
    · exact step_inside_eq_quoting hslash ▸ ih
  | case6 x rest hx ih =>
    refine uncommented_cons_iff.mpr ⟨?_, ?_⟩
    · rintro rfl
      exact absurd hx (by decide)
    · rw [Scan.quoting, step, if_pos hx]
      exact ih
  | case7 rest hx ih => exact uncommented_cons_iff.mpr ⟨fun h => absurd h (by decide), ih⟩
  | case8 x rest hx hhash ih =>
    refine uncommented_cons_iff.mpr ⟨fun h => absurd h hhash, ?_⟩
    rw [Scan.quoting, step, if_neg hx]
    exact ih

/-- Without comments the scanner has nothing to do. -/
theorem blankComments_eq_self (hscan : scan ≠ .comment) (h : Uncommented scan.quoting text) :
    blankComments scan text = text := by
  fun_induction blankComments scan text with
  | case1 => rfl
  | case2 rest ih => exact (hscan rfl).elim
  | case3 x rest hx ih => exact (hscan rfl).elim
  | case4 quote x rest ih =>
    rw [uncommented_cons_iff, uncommented_cons_iff] at h
    rw [ih Scan.noConfusion h.2.2]
  | case5 quote x rest hx ih =>
    by_cases hslash : x = '\\'
    · cases rest with
      | nil => simp [blankComments]
      | cons y rest => exact absurd rfl (hx y rest hslash)
    · rw [uncommented_cons_iff, Scan.quoting, step_inside_eq_quoting hslash] at h
      rw [ih (by split <;> exact Scan.noConfusion) h.2]
  | case6 x rest hx ih =>
    rw [uncommented_cons_iff, Scan.quoting, step, if_pos hx] at h
    rw [ih Scan.noConfusion h.2]
  | case7 rest hx ih => exact absurd rfl ((uncommented_cons_iff.mp h).1 rfl)
  | case8 x rest hx hhash ih =>
    rw [uncommented_cons_iff, Scan.quoting, step, if_neg hx] at h
    rw [ih Scan.noConfusion h.2]

/-- The texts that blanking leaves as they are. -/
theorem stripComments_eq_self_iff : stripComments text = text ↔ Uncommented outside text :=
  ⟨fun h => h ▸ uncommented_blankComments .code text, fun h => blankComments_eq_self Scan.noConfusion h⟩

theorem stripComments_stripComments (text : List Char) : stripComments (stripComments text) = stripComments text :=
  stripComments_eq_self_iff.mpr (uncommented_blankComments .code text)

/-- Joining lines makes no comment of anything. -/
theorem Uncommented.joinLines (h : Uncommented outside text) : Uncommented outside (joinLines text) := by
  intro before tail heq
  obtain ⟨above, below, rfl, rfl⟩ := tracks_joinLines text before '#' tail heq ⟨by decide, by decide⟩
  rw [Proper.after_joinLines (s := outside) trivial]
  exact h above below rfl

/-- No line is left to be joined to the next one. -/
theorem unjoined_joinLines (text : List Char) : Unjoined (joinLines text) := by
  fun_induction joinLines text with
  | case1 => exact unjoined_nil
  | case2 rest ih =>
    have hsecond : Unjoined (' ' :: joinLines rest) := unjoined_cons_iff.mpr ⟨fun h => absurd h.1 (by decide), ih⟩
    exact unjoined_cons_iff.mpr ⟨fun h => absurd h.1 (by decide), hsecond⟩
  | case3 x rest hx ih =>
    refine unjoined_cons_iff.mpr ⟨?_, ih⟩
    rintro ⟨rfl, tail, htail⟩
    unfold joinLines at htail
    split at htail
    · cases htail
    · cases htail
    · next y rest _ =>
      obtain ⟨rfl, -⟩ := List.cons.inj htail
      exact hx rest rfl rfl

/-- A text that the steps of the preparation have been applied to stays as it is under each of them. -/
theorem prepare_prepare (text : List Char) : prepare (prepare text) = prepare text := by
  have hlines : withLineFeeds (prepare text) = prepare text := by
    refine withLineFeeds_of_not_mem fun hmem => ?_
    obtain ⟨left, right, hprepared⟩ := List.append_of_mem hmem
    obtain ⟨before, after, htext, -⟩ :=
      (tracks_joinLines.comp (tracks_blankComments .code)) (withLineFeeds text) left '\r' right hprepared ⟨by decide, by decide⟩
    exact not_mem_withLineFeeds text (htext ▸ by simp)
  have hcomments : stripComments (prepare text) = prepare text :=
    stripComments_eq_self_iff.mpr (uncommented_blankComments .code _).joinLines
  have hjoined : joinLines (prepare text) = prepare text :=
    ((joinLines_cases (prepare text)).resolve_right fun h => h.1 (unjoined_joinLines _)).2
  calc prepare (prepare text) = joinLines (stripComments (prepare text)) := by rw [prepare, hlines]
    _ = joinLines (prepare text) := by rw [hcomments]
    _ = prepare text := hjoined

/-! ## Layout -/

theorem getElem?_blankComments (scan : Scan) (text : List Char) (i : Nat) :
    (blankComments scan text)[i]? = text[i]? ∨ (blankComments scan text)[i]? = some ' ' := by
  fun_induction blankComments scan text generalizing i with
  | case1 => exact .inl rfl
  | case4 quote c rest ih =>
    rcases i with _ | _ | i
    · exact .inl rfl
    · exact .inl rfl
    · exact ih i
  | case3 c rest hc ih | case7 rest hc ih =>
    cases i with
    | zero => exact .inr rfl
    | succ i => exact ih i
  | case2 rest ih | case5 quote c rest hc ih | case6 c rest hc ih | case8 c rest hc hhash ih =>
    cases i with
    | zero => exact .inl rfl
    | succ i => exact ih i

theorem getElem?_stripComments_eq_feed_iff (text : List Char) (i : Nat) :
    (stripComments text)[i]? = some '\n' ↔ text[i]? = some '\n' := by
  have hmark (t : List Char) : t[i]? = some '\n' ↔ (t.map (· == '\n'))[i]? = some true := by simp
  rw [hmark, hmark, stripComments, map_blankComments]

end

/-- The preparation of source text keeps the layout and is idempotent. Each text has its pieces, and its comments become
blanks of the same length, while everything else stays as it is and where it is: code, literals, literals that are not
closed, and all line feeds. To blank again, or to prepare again, changes nothing. -/
theorem source_preparation (text : List Char) :
    (∃ pieces, Division pieces ∧ pieces.flatMap Piece.text = text) ∧
      (∀ pieces, Division pieces → pieces.flatMap Piece.text = text → stripComments text = pieces.flatMap Piece.blanked) ∧
      (stripComments text).length = text.length ∧
      (∀ i : Nat, (stripComments text)[i]? = text[i]? ∨ (stripComments text)[i]? = some ' ') ∧
      (∀ i : Nat, (stripComments text)[i]? = some '\n' ↔ text[i]? = some '\n') ∧
      stripComments (stripComments text) = stripComments text ∧ prepare (prepare text) = prepare text := by
  refine ⟨exists_division text, ?_, length_stripComments text, getElem?_blankComments .code text,
    getElem?_stripComments_eq_feed_iff text, stripComments_stripComments text, prepare_prepare text⟩
  rintro pieces hpieces rfl
  exact stripComments_flatMap hpieces

end MinRuby.Syntax
