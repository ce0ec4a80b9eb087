import MinRuby.Proofs.Syntax.Trailing

/-!
# Blanks and line feeds around a text

Blanks and line feeds in front of a text and behind it do not change the statements that are read of it. In front, every
statement skips the blanks, and line feeds are marks between statements. Behind, the blanks up to the first line feed
are no part of the last statement, and what follows has no statements of its own.

* `SkipsBlanks.statement` — a statement with blanks before it.
* `wholeText_surrounded` — statements with blanks and line feeds around them.
-/

namespace MinRuby.Syntax

open MinRuby.Syntax.Parser

/-! ## Blanks before a statement -/

theorem Cursor.skipBlanks_skipBlanks (c : Cursor) : c.skipBlanks.skipBlanks = c.skipBlanks := by
  cases hrest : c.skipBlanks.rest with
  | nil => rw [skipBlanks, hrest]; rfl
  | cons x rest =>
    refine skipBlanks_of_ne hrest fun hx => ?_
    have hhead := List.head?_dropWhile_not (· == ' ') c.rest
    rw [← rest_skipBlanks, hrest, hx] at hhead
    cases hhead

namespace Parser

variable {α β : Type} {p q : Parser α} {f : α → Parser β} {nested : Phrase → Parser Term}

/-- The parser skips blanks before it does anything else. -/
def SkipsBlanks (p : Parser α) : Prop := ∀ c : Cursor, p c.skipBlanks = p c

namespace SkipsBlanks

theorem bind (hp : SkipsBlanks p) : SkipsBlanks (p >>= f) := fun c => bind_congr (hp c)

theorem blanks {f : Unit → Parser β} : SkipsBlanks (blanks >>= f) := fun c => by
  show f () c.skipBlanks.skipBlanks = f () c.skipBlanks
  rw [Cursor.skipBlanks_skipBlanks]

theorem orElse (hp : SkipsBlanks p) (hq : SkipsBlanks q) : SkipsBlanks (p <|> q) := fun c => by
  show Parser.orElse p (fun _ => q) c.skipBlanks = Parser.orElse p (fun _ => q) c
  rw [Parser.orElse, Parser.orElse, hp c, hq c]

/-- What is not there is not behind blanks either. -/
theorem notAhead_bind {f : Unit → Parser β} (hp : SkipsBlanks p) (hf : SkipsBlanks (f ())) :
    SkipsBlanks (notAhead p >>= f) := fun c => by
  cases hread : p c with
  | done a c' => rw [bind_of_fail (notAhead_of_done hread), bind_of_fail (notAhead_of_done ((hp c).trans hread))]
  | fail => rw [bind_of_done (notAhead_of_fail hread), bind_of_done (notAhead_of_fail ((hp c).trans hread)), hf c]
  | giveUp r =>
    have hnone {c : Cursor} (h : p c = .giveUp r) : notAhead p c = .giveUp r := by rw [notAhead, h]
    rw [bind_of_giveUp (hnone hread), bind_of_giveUp (hnone ((hp c).trans hread))]

theorem symbol (o : String) : SkipsBlanks (symbol o) := blanks

theorem keyword (word : String) : SkipsBlanks (keyword word) := blanks

theorem identifier : SkipsBlanks identifier := by
  have hany : ∀ words : List String, SkipsBlanks (words.foldr (fun w p => Parser.keyword w <|> p) Parser.fail) := by
    intro words
    induction words with
    | nil => exact fun _ => rfl
    | cons w words ih => exact (keyword w).orElse ih
  exact (hany keywords).notAhead_bind blanks

theorem stringLiteral : SkipsBlanks stringLiteral := (SkipsBlanks.bind blanks).orElse (SkipsBlanks.bind blanks)

theorem primary : SkipsBlanks (primary nested) :=
  (SkipsBlanks.bind blanks).orElse <| stringLiteral.bind.orElse <| (keyword _).bind.orElse <| (keyword _).bind.orElse <|
  (keyword _).bind.orElse <| (symbol _).bind.orElse <| (symbol _).bind.orElse <| (symbol _).bind.orElse <|
  (keyword _).bind.bind.orElse <| (keyword _).bind.bind.orElse <| (keyword _).bind.orElse <| (keyword _).bind.orElse <|
  (keyword _).bind.orElse <| (keyword _).bind.orElse <| identifier.bind.orElse identifier.bind

theorem chain {operand first : Parser Term} (h : SkipsBlanks first) : ∀ ls : List Level, SkipsBlanks (chain operand ls first)
  | [] => h
  | _ :: tighter => (chain h tighter).bind

theorem value : SkipsBlanks (value nested) := fun c => by
  have hindexed : SkipsBlanks (indexed nested) := primary.bind
  have hcommand : SkipsBlanks (commandCall nested) := identifier.bind
  have hsigned : SkipsBlanks (expressionFrom nested (minus nested <|> power nested (negation nested))) :=
    (chain ((symbol _).bind.orElse (symbol _).bind.bind) levels).bind
  unfold Syntax.value
  rw [hindexed c, hcommand c, hsigned c]

theorem statement : SkipsBlanks (statement nested) := value.bind

end SkipsBlanks

end Parser

/-! ## Whole texts -/

/-- The text at a cursor is read up to its end as the given statements. -/
def WholeText (c : Cursor) (ts : List Term) : Prop := ∃ c', statements c = .done ts c' ∧ c'.lead = .finish

namespace WholeText

variable {c c' : Cursor} {b : Option Char} {text : List Char} {ts ts' : List Term}

theorem of_finish (h : c.lead = .finish) : WholeText c [] := ⟨c, statements_of_finish h, h⟩

/-- A single statement with nothing behind it. -/
theorem of_statement {t : Term} (h : statement read c = .done t c') (hend : c'.lead = .finish) : WholeText c [t] := by
  have hmark : separator c = .fail := ledBy_separator.fails
    ((by decide : ∀ l ∈ valueLeads, l ∉ [Lead.mark '\n', .mark ';']) _ (ledBy_statement c (by rw [h]; exact nofun)))
  exact ⟨c', statements_of_last hmark h (ledBy_separator.fails (by rw [hend]; decide)), hend⟩

theorem of_like (h : WholeText c ts) (hlike : c.Like c') : WholeText c' ts := by
  obtain ⟨c₁, hread, hend⟩ := h
  obtain ⟨c₂, hread', hlike'⟩ := (respectsLike_statements c c' hlike).of_done hread
  exact ⟨c₂, hread', hlike'.lead_eq_finish hend⟩

/-- Blanks behind the text. -/
theorem of_trails (h : WholeText c ts) (htrails : c.Trails c') : WholeText c' ts := by
  obtain ⟨c₁, hread, hend⟩ := h
  obtain ⟨c₂, hread', htrails'⟩ := (trails_statements c c' htrails).of_done hread
  exact ⟨c₂, hread', htrails'.lead_eq_finish hend⟩

/-- A mark before the text. -/
theorem of_separator (h : WholeText c' ts) (hmark : separator c = .done () c') : WholeText c ts := by
  rwa [WholeText, statements_of_separator hmark]

/-- A line feed before the text. -/
theorem feed (h : WholeText ⟨some '\n', text⟩ ts) : WholeText ⟨b, '\n' :: text⟩ ts :=
  h.of_separator (orElse_of_done (symbol_of_rest (w := []) rfl rfl))

/-- Blanks before the text, more or fewer of them. -/
theorem of_skipBlanks_eq (h : WholeText c ts) (hskip : c.skipBlanks = c'.skipBlanks) : WholeText c' ts := by
  obtain ⟨c₁, hread, hend⟩ := h
  have heq {α : Type} {p : Parser α} (hp : SkipsBlanks p) : p c = p c' := by rw [← hp c, hskip, hp c']
  have hseparator : separator c = separator c' := heq ((SkipsBlanks.symbol _).orElse (SkipsBlanks.symbol _))
  have hstatement : statement read c = statement read c' := heq .statement
  cases hmark : separator c with
  | done u c₂ =>
    rw [statements_of_separator hmark, ← statements_of_separator (hseparator ▸ hmark)] at hread
    exact ⟨c₁, hread, hend⟩
  | fail =>
    have hmark' : separator c' = .fail := hseparator ▸ hmark
    cases hfirst : statement read c with
    | done t c₂ =>
      rw [statements_of_fail hmark, unmarkedStatements_of_statement hfirst,
        ← unmarkedStatements_of_statement (hstatement ▸ hfirst), ← statements_of_fail hmark'] at hread
      exact ⟨c₁, hread, hend⟩
    | fail =>
      rw [statements_of_no_statement hmark hfirst] at hread
      obtain ⟨rfl, rfl⟩ := Reply.done.inj hread
      refine .of_finish ?_
      rwa [lead_eq_finish_iff, hskip, ← lead_eq_finish_iff] at hend
    | giveUp r =>
      rw [statements_of_giveUp hmark hfirst] at hread
      cases hread
  | giveUp r => exact absurd hmark (persists_separator c r)

/-- A blank before the text. -/
theorem blank (h : WholeText ⟨some ' ', text⟩ ts) : WholeText ⟨b, ' ' :: text⟩ ts := h.of_skipBlanks_eq rfl

/-- Lines behind the text. -/
theorem append {below : List Char} (h : WholeText (.start text) ts) (h' : WholeText ⟨some '\n', below⟩ ts') :
    WholeText (.start (text ++ '\n' :: below)) (ts ++ ts') := by
  obtain ⟨c₁, hread, hend⟩ := h
  obtain ⟨c₂, hread', hend'⟩ := h'
  have hshort : Cursor.start text = (Cursor.start text).append [] := by rw [Cursor.append, Cursor.start, List.append_nil]
  rw [hshort] at hread
  exact ⟨c₂, statements_append (.line below) hread' (.start text) _ _ hread hend, hend'⟩

end WholeText

/-- Blanks and line feeds. -/
def Spacing (text : List Char) : Prop := ∀ x ∈ text, x = ' ' ∨ x = '\n'

instance (text : List Char) : Decidable (Spacing text) := List.decidableBAll (fun x => x = ' ' ∨ x = '\n') text

section

variable {before text behind : List Char} {ts : List Term}

theorem wholeText_behind_spacing (hbefore : Spacing before) (h : WholeText (.start text) ts) :
    ∀ b : Option Char, b.any joinsKeyword = false → WholeText ⟨b, before ++ text⟩ ts := by
  induction before with
  | nil => exact fun b hb => h.of_like ⟨rfl, hb.symm⟩
  | cons x before ih =>
    intro b _
    have hmore := ih (fun y hy => hbefore y (List.mem_cons_of_mem x hy)) (some x)
    rcases hbefore x List.mem_cons_self with rfl | rfl
    · exact (hmore (by decide)).blank
    · exact (hmore (by decide)).feed

/-- There are no statements in blanks and line feeds. -/
theorem wholeText_of_spacing (h : Spacing text) {b : Option Char} (hb : b.any joinsKeyword = false) :
    WholeText ⟨b, text⟩ [] := by
  have hnone : WholeText (.start []) [] := .of_finish (lead_of_end rfl)
  have hall := wholeText_behind_spacing h hnone b hb
  rwa [List.append_nil] at hall

theorem wholeText_before_spacing (hbehind : Spacing behind) (h : WholeText (.start text) ts) :
    WholeText (.start (text ++ behind)) ts := by
  induction behind generalizing text with
  | nil => rwa [List.append_nil]
  | cons x behind ih =>
    have hmore : Spacing behind := fun y hy => hbehind y (List.mem_cons_of_mem x hy)
    rcases hbehind x List.mem_cons_self with rfl | rfl
    · have hall := ih hmore (h.of_trails (.append (.start text) 1))
      rwa [List.append_assoc] at hall
    · have hall := h.append (wholeText_of_spacing hmore (b := some '\n') (by decide))
      rwa [List.append_nil] at hall

/-- Blanks and line feeds around a text make no difference. -/
theorem wholeText_surrounded (hbefore : Spacing before) (hbehind : Spacing behind) (h : WholeText (.start text) ts) :
    WholeText (.start (before ++ text ++ behind)) ts := by
  rw [List.append_assoc]
  exact wholeText_behind_spacing hbefore (wholeText_before_spacing hbehind h) none rfl

end

end MinRuby.Syntax
