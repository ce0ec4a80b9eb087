import MinRuby.Proofs.Syntax.Quoting
import MinRuby.Proofs.Syntax.Rereading
import MinRuby.Proofs.Syntax.SideBySide

/-!
# Statements one after the other

A block is read statement by statement. What is read of a text up to its end is also read where a further line follows,
and then the statements of that line are read as they are on their own.

* `statements_of_statement` — the first statement of a block, and those behind it.
* `statements_append` — the statements of a text, and of the lines behind it.
-/

namespace MinRuby.Syntax

open MinRuby.Syntax.Parser

/-! ## Places that are alike -/

/-- The same text follows, and the characters before it matter to keywords alike. -/
structure Cursor.Like (c c' : Cursor) : Prop where
  rest : c.rest = c'.rest
  joins : c.before.any joinsKeyword = c'.before.any joinsKeyword

theorem Cursor.Like.skip {c c' : Cursor} (h : c.Like c') (n : Nat) : (c.skip n).Like (c'.skip n) := by
  induction n generalizing c c' with
  | zero => exact h
  | succ n ih =>
    refine ih ?_
    unfold Cursor.advance
    rw [← h.rest]
    split
    · exact h
    · exact ⟨rfl, rfl⟩

theorem Cursor.Like.skipBlanks {c c' : Cursor} (h : c.Like c') : c.skipBlanks.Like c'.skipBlanks := by
  unfold Cursor.skipBlanks
  rw [← h.rest]
  exact h.skip _

/-- Only the end of the text matters for whether a place is there. -/
theorem Cursor.Like.lead_eq_finish {c c' : Cursor} (h : c.Like c') (hend : c.lead = .finish) : c'.lead = .finish := by
  rw [lead_eq_finish_iff] at hend ⊢
  rw [← h.skipBlanks.rest, hend]

theorem respectsLike_adjacent (text : List Char) : Respects Cursor.Like (adjacent text) := by
  intro c c' h
  unfold Parser.adjacent
  rw [h.rest]
  split
  · exact .done () (h.skip _)
  · exact .fail

theorem respectsLike_satisfying (r : Char → Bool) : Respects Cursor.Like (satisfying r) := by
  intro c c' h
  rw [satisfying_eq, satisfying_eq, h.rest]
  split
  · split
    · exact .done _ (h.skip 1)
    · exact .fail
  · exact .fail

theorem respectsLike_blanks : Respects Cursor.Like blanks := fun _ _ h => .done _ h.skipBlanks

theorem tokensRespect_like : TokensRespect Cursor.Like where
  blanks := respectsLike_blanks
  adjacent _ := respectsLike_adjacent _
  satisfying _ := respectsLike_satisfying _
  takeWhile _ c c' h := by
    unfold Parser.takeWhile
    rw [h.rest]
    exact .done _ (h.skip _)
  keyword _ c c' h := by
    have hblanks := h.skipBlanks
    rw [keyword_eq, keyword_eq, hblanks.rest, hblanks.joins]
    split
    · exact .done () (hblanks.skip _)
    · exact .fail
  quotedLiteral _ := respectsLike_blanks.bind fun _ => (respectsLike_adjacent _).bind fun _ c c' h => by
    simp only [h.rest]
    split
    · exact .done _ (h.skip _)
    · exact .fail
  noArgument c c' h := .inl ((respectsLike_blanks.bind fun _ =>
    ((respectsLike_satisfying _).bind fun _ => .pure ()).orElse
      ((respectsLike_satisfying _).bind fun _ => (respectsLike_satisfying _).bind fun _ => .pure ())) c c' h)

theorem hereditary_respectsLike : Hereditary (Respects Cursor.Like) := hereditary_respects tokensRespect_like

theorem respectsLike_read (p : Phrase) : Respects Cursor.Like (read p) := by
  intro c c' h
  unfold read
  rw [h.rest]
  exact hereditary_respectsLike.phrase _ p c c' h

/-! ## Blocks -/

theorem Parser.bind_bind {α β γ : Type} (p : Parser α) (f : α → Parser β) (g : β → Parser γ) :
    (p >>= f) >>= g = p >>= fun a => f a >>= g := by
  funext c
  cases h : p c with
  | done a c' =>
    have hfirst : (p >>= f) c = f a c' := bind_of_done h
    rw [bind_of_done (p := p) h, bind_congr hfirst]
  | fail => rw [bind_of_fail (p := p) h, bind_of_fail (bind_of_fail h)]
  | giveUp r => rw [bind_of_giveUp (p := p) h, bind_of_giveUp (bind_of_giveUp h)]

theorem Parser.many_of_giveUp {α : Type} {p : Parser α} {c : Cursor} {r : Surrender} (hrest : c.rest ≠ [])
    (h : p c = .giveUp r) :
    many p c = .giveUp r := by
  obtain ⟨a, rest, hrest⟩ := List.exists_cons_of_ne_nil hrest
  simp only [many, hrest, List.length_cons, upTo, h]

/-- Reads statements, no marks before them. -/
def unmarkedStatements : Parser (List Term) := do
  let ts ← optional (sepBy1 (statement read) separators1)
  separators
  return ts.getD []

/-- Reads the statements of a block. -/
def statements : Parser (List Term) := do
  separators
  unmarkedStatements

theorem read_block : read .block = (do return .block (← statements) : Parser Term) := by
  rw [read_eq]
  show block read = (separators >>= fun _ => unmarkedStatements) >>= fun ts => Pure.pure (Term.block ts)
  rw [bind_bind]
  unfold unmarkedStatements
  simp only [bind_bind]
  rfl

/-- Two texts of which phrases are read alike have the same statements. -/
theorem respects_statements {R : Cursor → Cursor → Prop} (h : TokensRespect R) (hread : ∀ p, Respects R (read p)) :
    Respects R statements := by
  have h := hereditary_respects h
  exact h.bind h.separators fun _ =>
    h.bind (h.optional (h.statements ⟨hread, reads_read, fun _ => idle_value_of_sign⟩)) fun _ =>
      h.bind h.separators fun _ => h.pure _

theorem respectsLike_statements : Respects Cursor.Like statements := respects_statements tokensRespect_like respectsLike_read

section

variable {c c' : Cursor} {t : Term}

/-- A mark before the statements does not count. -/
theorem statements_of_separator (h : separator c = .done () c') : statements c = statements c' := by
  obtain ⟨c'', hmarks, -⟩ := done_of_separators c'
  have hall : separators c = .done () c'' := separators_of_separators1 ((bind_of_done h).trans hmarks)
  rw [statements, bind_of_done hall, bind_of_done hmarks]

theorem statements_of_fail (hmark : separator c = .fail) : statements c = unmarkedStatements c :=
  bind_of_done (separators_of_fail hmark)

theorem statements_of_no_statement (hmark : separator c = .fail) (h : statement read c = .fail) : statements c = .done [] c := by
  have hnone : optional (sepBy1 (statement read) separators1) c = .done none c := optional_of_fail (bind_of_fail h)
  rw [statements_of_fail hmark, unmarkedStatements, bind_of_done hnone, bind_of_done (separators_of_fail hmark)]
  rfl

theorem statements_of_finish (h : c.lead = .finish) : statements c = .done [] c :=
  statements_of_no_statement (ledBy_separator.fails (by rw [h]; decide)) (ledBy_statement.fails (by rw [h]; decide))

theorem statements_of_giveUp {r : Surrender} (hmark : separator c = .fail) (h : statement read c = .giveUp r) :
    statements c = .giveUp r := by
  have hgiveUp : sepBy1 (statement read) separators1 c = .giveUp r := bind_of_giveUp h
  have hoptional : Parser.optional (sepBy1 (statement read) separators1) c = .giveUp r := by
    simp only [Parser.optional, hgiveUp]
  rw [statements_of_fail hmark]
  exact bind_of_giveUp hoptional

/-- Reads the further statements, each with marks before it. -/
def furtherStatements : Parser (List Term) := many do
  let _ ← separators1
  statement read

theorem unmarkedStatements_of_statement (h : statement read c = .done t c') :
    unmarkedStatements c = (do let ts ← furtherStatements; separators; return t :: ts : Parser (List Term)) c' := by
  cases hmore : furtherStatements c' with
  | done ts c'' =>
    have hall : optional (sepBy1 (statement read) separators1) c = .done (some (t :: ts)) c'' :=
      optional_of_done ((bind_of_done h).trans (bind_of_done hmore))
    rw [unmarkedStatements, bind_of_done hall, bind_of_done hmore]
    rfl
  | fail => exact absurd hmore (upTo_ne_fail _ _ c')
  | giveUp r =>
    have hgiveUp : sepBy1 (statement read) separators1 c = .giveUp r := (bind_of_done h).trans (bind_of_giveUp hmore)
    have hoptional : Parser.optional (sepBy1 (statement read) separators1) c = .giveUp r := by
      simp only [Parser.optional, hgiveUp]
    rw [bind_of_giveUp hmore]
    exact bind_of_giveUp hoptional

theorem statements_of_last (hmark : separator c = .fail) (h : statement read c = .done t c') (hend : separator c' = .fail) :
    statements c = .done [t] c' := by
  have hnone : furtherStatements c' = .done [] c' := many_of_fail (bind_of_fail (bind_of_fail hend))
  rw [statements_of_fail hmark, unmarkedStatements_of_statement h, bind_of_done hnone, bind_of_done (separators_of_fail hend)]
  rfl

/-- The first statement of a block, where marks stand behind it. -/
theorem statements_of_statement (hmark : separator c = .fail) (h : statement read c = .done t c')
    (hmore : separator c' ≠ .fail) :
    statements c = (do return t :: (← statements) : Parser (List Term)) c' := by
  rw [statements_of_fail hmark, unmarkedStatements_of_statement h]
  obtain ⟨c₁, hfirst⟩ : ∃ c₁, separator c' = .done () c₁ := by
    cases hread : separator c' with
    | done u c₁ => exact ⟨c₁, rfl⟩
    | fail => exact absurd hread hmore
    | giveUp r => exact absurd hread (persists_separator c' r)
  obtain ⟨c'', hmarks, hend⟩ := done_of_separators c₁
  have hmarks1 : separators1 c' = .done () c'' := (bind_of_done hfirst).trans hmarks
  have hstatements : statements c' = unmarkedStatements c'' := bind_of_done (separators_of_separators1 hmarks1)
  rw [bind_congr hstatements]
  have hstatement := reads_read .statement
  rw [read_eq] at hstatement
  have hrest : c'.rest ≠ [] := by
    obtain ⟨w, hw, hne⟩ := takes_separator _ _ _ hfirst
    rw [hw]
    exact List.append_ne_nil_of_left_ne_nil hne _
  cases hnext : statement read c'' with
  | done t' c₂ =>
    have hround : (do let _ ← separators1; statement read : Parser Term) c' = .done t' c₂ := (bind_of_done hmarks1).trans hnext
    have hfurther : furtherStatements c' = (do return t' :: (← furtherStatements) : Parser (List Term)) c₂ :=
      (Advances.separators1.bind fun _ => hstatement).many_of_done hround
    rw [bind_congr hfurther, bind_congr (unmarkedStatements_of_statement hnext), bind_bind, bind_bind]
    simp only [bind_bind]
    rfl
  | fail =>
    have hround : (do let _ ← separators1; statement read : Parser Term) c' = .fail := (bind_of_done hmarks1).trans hnext
    have hlast : unmarkedStatements c'' = .done [] c'' :=
      (statements_of_fail hend).symm.trans (statements_of_no_statement hend hnext)
    have hnone : furtherStatements c' = .done [] c' := many_of_fail hround
    rw [bind_of_done hnone, bind_of_done (separators_of_separators1 hmarks1), bind_of_done hlast]
  | giveUp r =>
    have hround : (do let _ ← separators1; statement read : Parser Term) c' = .giveUp r := (bind_of_done hmarks1).trans hnext
    have hgiveUp : unmarkedStatements c'' = .giveUp r := (statements_of_fail hend).symm.trans (statements_of_giveUp hend hnext)
    have hmore : furtherStatements c' = .giveUp r := many_of_giveUp hrest hround
    rw [bind_of_giveUp hgiveUp, bind_of_giveUp hmore]

end

/-- The place behind a statement that has more of its block behind it. -/
theorem statementEnds_of_statements {c c' c'' : Cursor} {t : Term} {ts : List Term} (hmark : separator c = .fail)
    (h : statement read c = .done t c') (hall : statements c = .done ts c'') (hend : c''.lead = .finish) :
    c'.lead ∈ statementEnds := by
  by_cases hmore : separator c' = .fail
  · rw [statements_of_last hmark h hmore] at hall
    obtain ⟨-, rfl⟩ := Reply.done.inj hall
    rw [hend]
    decide
  · exact (by decide : ∀ l ∈ [Lead.mark '\n', .mark ';'], l ∈ statementEnds) _ (ledBy_separator c' hmore)

section

variable {x v : List Char} (hcut : Cut x ('\n' :: v))
include hcut

omit hcut in
theorem sameAt_separator_of_rest {c : Cursor} (h : c.skipBlanks.rest ≠ []) : SameAt x ('\n' :: v) separator c :=
  (sameAt_symbol_of_rest rfl h).orElse fun _ => sameAt_symbol_of_rest rfl h

omit hcut in
theorem separator_at_break {c : Cursor} (h : c.skipBlanks.rest = []) :
    separator (c.append ('\n' :: v)) = .done () ⟨some '\n', v⟩ := by
  have hblanks : (c.append ('\n' :: v)).skipBlanks = c.skipBlanks.append ('\n' :: v) := Cursor.skipBlanks_append rfl
  refine orElse_of_done ?_
  show adjacent ['\n'] (c.append ('\n' :: v)).skipBlanks = _
  rw [hblanks]
  exact adjacent_of_rest (by rw [Cursor.rest_append, h]; rfl)

/-- At the break there is nothing but a line feed to be read of the shorter text. -/
theorem statements_at_break {c c' : Cursor} {ts : List Term} (h : c.skipBlanks.rest = [])
    (hread : statements (c.append x) = .done ts c') : ts = [] := by
  have hleft : (c.append x).skipBlanks.rest = x := by rw [hcut.skipBlanks_left, Cursor.rest_append, h, List.nil_append]
  have hend {c : Cursor} (hfinish : c.lead = .finish) (hread : statements c = .done ts c') : ts = [] := by
    rw [statements_of_finish hfinish] at hread
    exact (Reply.done.inj hread).1.symm
  cases hcut with
  | line _ => exact hend (lead_of_end hleft) hread
  | feed _ =>
    have hmark : separator (c.append ['\n']) = .done () ⟨some '\n', []⟩ := orElse_of_done (adjacent_of_rest hleft)
    rw [statements_of_separator hmark] at hread
    exact hend (lead_of_end rfl) hread

/-- The cursor is at the break, or a mark stands before it. -/
def AtMark (x : List Char) (c : Cursor) : Prop :=
  c.skipBlanks.rest = [] ∨ c.skipBlanks.rest ≠ [] ∧ separator (c.append x) ≠ .fail

omit hcut in
theorem AtMark.cases {c : Cursor} (h : AtMark x c) (v : List Char) :
    c.skipBlanks.rest = [] ∧ separator (c.append ('\n' :: v)) = .done () ⟨some '\n', v⟩ ∨
      ∃ c₁ : Cursor, separator (c.append x) = .done () (c₁.append x) ∧
        separator (c.append ('\n' :: v)) = .done () (c₁.append ('\n' :: v)) := by
  refine h.imp (fun hrest => ⟨hrest, separator_at_break hrest⟩) fun ⟨hrest, hmark⟩ => ?_
  cases hdone : separator (c.append x) with
  | done u c₁ =>
    obtain ⟨c₁, rfl, hlong⟩ := (sameAt_separator_of_rest (v := v) hrest).done hdone
    exact ⟨c₁, rfl, hlong⟩
  | fail => exact absurd hdone hmark
  | giveUp r => exact absurd hdone (persists_separator _ r)

omit hcut in
theorem AtMark.separates {c : Cursor} (h : AtMark x c) : separator (c.append ('\n' :: v)) ≠ .fail := by
  obtain ⟨-, hlong⟩ | ⟨c₁, -, hlong⟩ := h.cases v <;>
  · rw [hlong]
    exact nofun

/-- Whatever is read from the cursor up to the end of the shorter text is read of the longer one, with `ts'` behind it. -/
def ReadsOn (x v : List Char) (ts' : List Term) (c₂ c : Cursor) : Prop :=
  ∀ ts c', statements (c.append x) = .done ts c' → c'.lead = .finish →
    statements (c.append ('\n' :: v)) = .done (ts ++ ts') c₂

variable {ts' : List Term} {c₂ c : Cursor}

theorem readsOn_at_mark (hbelow : statements ⟨some '\n', v⟩ = .done ts' c₂) (hmark : AtMark x c)
    (hbehind : ∀ d : Cursor, d.rest.length < c.rest.length → ReadsOn x v ts' c₂ d) : ReadsOn x v ts' c₂ c := by
  intro ts c' hread hend
  obtain ⟨hrest, hfeed⟩ | ⟨c₁, hdone, hlong⟩ := hmark.cases v
  · rw [statements_at_break hcut hrest hread, statements_of_separator hfeed, hbelow, List.nil_append]
  · rw [statements_of_separator hdone] at hread
    rw [statements_of_separator hlong]
    exact hbehind c₁ (length_lt_of_takes takes_separator hdone) ts c' hread hend

/-- Behind a statement there is a mark or the break. -/
theorem readsOn_at_statement (hrest : c.skipBlanks.rest ≠ []) (hmark : separator (c.append x) = .fail)
    (hbehind : ∀ d : Cursor, d.rest.length ≤ c.rest.length → AtMark x d → ReadsOn x v ts' c₂ d) : ReadsOn x v ts' c₂ c := by
  intro ts c' hread hend
  cases hfirst : statement read (c.append x) with
  | done t c₁ =>
    have hends := statementEnds_of_statements hmark hfirst hread hend
    have hkeeps := (keeps_statement hcut (keeps_read hcut c.rest.length)).same c (Nat.lt_succ_self _)
      (by rwa [Continues, hfirst])
    obtain ⟨c₁, rfl, hlong⟩ := hkeeps.done hfirst
    have hlength := length_le_of_reads (reads_read .statement) ((congrFun (read_eq .statement) _).trans hfirst)
    have hmark' := (sameAt_separator_of_rest (v := v) hrest).fails hmark
    by_cases hmore : separator (c₁.append x) = .fail
    · rw [statements_of_last hmark hfirst hmore] at hread
      obtain ⟨rfl, rfl⟩ := Reply.done.inj hread
      have hnone : AtMark x c₁ := by
        rw [lead_eq_finish_iff, hcut.skipBlanks_left] at hend
        exact .inl (List.append_eq_nil_iff.mp hend).1
      have hlines := hbehind c₁ hlength hnone [] _ (statements_of_finish hend) hend
      rw [statements_of_statement hmark' hlong hnone.separates, bind_of_done hlines]
      rfl
    · rw [statements_of_statement hmark hfirst hmore] at hread
      have hplace : AtMark x c₁ := (em _).imp_right fun h => ⟨h, hmore⟩
      cases hrest₁ : statements (c₁.append x) with
      | done ts₁ c₃ =>
        rw [bind_of_done hrest₁] at hread
        obtain ⟨rfl, rfl⟩ := Reply.done.inj hread
        rw [statements_of_statement hmark' hlong hplace.separates, bind_of_done (hbehind c₁ hlength hplace ts₁ _ hrest₁ hend)]
        rfl
      | fail =>
        rw [bind_of_fail hrest₁] at hread
        cases hread
      | giveUp r =>
        rw [bind_of_giveUp hrest₁] at hread
        cases hread
  | fail =>
    rw [statements_of_no_statement hmark hfirst] at hread
    obtain ⟨-, rfl⟩ := Reply.done.inj hread
    rw [lead_eq_finish_iff, Cursor.skipBlanks_append_of_rest hrest] at hend
    exact absurd (List.append_eq_nil_iff.mp hend).1 hrest
  | giveUp r =>
    rw [statements_of_giveUp hmark hfirst] at hread
    cases hread

/-- What is read up to the end of the shorter text is read up to the break of the longer one, and then what stands
behind the line feed there. -/
theorem statements_append (hbelow : statements ⟨some '\n', v⟩ = .done ts' c₂) (c : Cursor) : ReadsOn x v ts' c₂ c := by
  have hall : ∀ n (c : Cursor), c.rest.length < n → ReadsOn x v ts' c₂ c := by
    intro n
    induction n with
    | zero => exact fun c hc => absurd hc (Nat.not_lt_zero _)
    | succ n ih =>
      intro c hc
      have hmarks (d : Cursor) (hd : d.rest.length ≤ c.rest.length) (hmark : AtMark x d) : ReadsOn x v ts' c₂ d :=
        readsOn_at_mark hcut hbelow hmark fun e he => ih e (by omega)
      by_cases hmark : AtMark x c
      · exact hmarks c (Nat.le_refl _) hmark
      · have hrest : c.skipBlanks.rest ≠ [] := fun hrest => hmark (.inl hrest)
        exact readsOn_at_statement hcut hrest (not_not.mp fun h => hmark (.inr ⟨hrest, h⟩)) hmarks
  exact hall _ c (Nat.lt_succ_self _)

end

/-! ## Programs -/

theorem parsePhrase_eq_read (p : Phrase) (text : List Char) : parsePhrase p text = read p (.start text) := rfl

/-- A program is the statements that are read up to the end of its text. -/
theorem readProgram_eq_ok_iff {source filename : String} {t : Term} : readProgram source filename = .ok t ↔
    ∃ ts c', t = .block ts ∧ statements (.start (parsedText source.toList)) = .done ts c' ∧ c'.lead = .finish := by
  have hphrase : parsePhrase .block (MinRuby.Text.expandTabs (prepare source.toList)) =
      (do return .block (← statements) : Parser Term) (.start (parsedText source.toList)) := by
    rw [parsePhrase_eq_read, read_block]
    rfl
  unfold readProgram readWhole
  cases hread : statements (.start (parsedText source.toList)) with
  | done ts c' =>
    have hblock := hphrase.trans ((bind_of_done hread).trans (rfl : _ = Reply.done (Term.block ts) c'))
    simp only [hblock]
    constructor
    · intro h
      split at h
      · next hend => exact ⟨ts, c', (Except.ok.inj h).symm, rfl, lead_of_end hend⟩
      · cases h
    · rintro ⟨ts', c'', rfl, hdone, hend⟩
      obtain ⟨rfl, rfl⟩ := Reply.done.inj hdone
      rw [lead_eq_finish_iff.mp hend]
  | fail =>
    simp only [hphrase.trans (bind_of_fail hread)]
    exact ⟨by rintro ⟨⟩, by rintro ⟨_, _, _, ⟨⟩, _⟩⟩
  | giveUp r =>
    simp only [hphrase.trans (bind_of_giveUp hread)]
    exact ⟨by rintro ⟨⟩, by rintro ⟨_, _, _, ⟨⟩, _⟩⟩

/-- The text of a program ends outside the literals and not with a backslash. -/
theorem balanced_parsedText {source filename : String} {t : Term} (h : readProgram source filename = .ok t) :
    Balanced (parsedText source.toList) := by
  obtain ⟨ts, c', -, hread, hend⟩ := readProgram_eq_ok_iff.mp h
  have hblock : read .block (.start (parsedText source.toList)) = .done (.block ts) c' := by
    rw [read_block, bind_of_done hread]
    rfl
  obtain ⟨w, hw, hbalanced⟩ := hereditary_balanced.phrase _ .block _ _ _ hblock
  have hblanks : Balanced c'.rest := by
    rw [lead_eq_finish_iff, Cursor.rest_skipBlanks, List.dropWhile_eq_nil_iff] at hend
    refine .of_not_mem fun x hx => ?_
    rw [eq_of_beq (hend x hx)]
    decide
  show Balanced (Cursor.start (parsedText source.toList)).rest
  rw [hw]
  exact hbalanced.append hblanks

/-- A program, a line feed and a program are a program: the statements of the one, and those of the other. -/
theorem readProgram_append {first second filename : String} {ts ts' : List Term}
    (h : readProgram first filename = .ok (.block ts))
    (h' : readProgram second filename = .ok (.block ts')) (hjoins : ¬ JoinsNext first.toList) :
    readProgram (first ++ "\n" ++ second) filename = .ok (.block (ts ++ ts')) := by
  obtain ⟨_, c₁, heq, hread, hend⟩ := readProgram_eq_ok_iff.mp h
  obtain rfl := Term.block.inj heq
  obtain ⟨_, c₂, heq', hread', hend'⟩ := readProgram_eq_ok_iff.mp h'
  obtain rfl := Term.block.inj heq'
  obtain ⟨above, below, hbelow, hshort, hlong⟩ := parsedText_append (balanced_parsedText h) hjoins second.toList
  have hcut : Cut below ('\n' :: parsedText second.toList) := by
    rcases hbelow with rfl | rfl
    · exact .line _
    · exact .feed _
  rw [hshort] at hread
  -- the second text is read behind a line feed as at the start of a text
  obtain ⟨c₃, hbehind, hlike⟩ := (respectsLike_statements (.start (parsedText second.toList))
    ⟨some '\n', parsedText second.toList⟩ ⟨rfl, rfl⟩).of_done hread'
  refine readProgram_eq_ok_iff.mpr ⟨ts ++ ts', c₃, rfl, ?_, hlike.lead_eq_finish hend'⟩
  have htext : (first ++ "\n" ++ second).toList = first.toList ++ '\n' :: second.toList := by simp
  rw [htext, hlong]
  exact statements_append hcut hbehind (.start above) _ _ hread hend

end MinRuby.Syntax
