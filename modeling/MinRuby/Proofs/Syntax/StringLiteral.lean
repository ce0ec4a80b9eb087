import MinRuby.Proofs.Syntax.LiteralProgram
import MinRuby.Proofs.Syntax.Preparation
import MinRuby.Proofs.Syntax.Vocabulary

/-!
# String literals

What becomes of a string literal between the source text and the tree. The scanner for comments leaves the body of a
literal alone, and the parser reads the literal up to its closing quote. But lines are joined and tabs expanded inside of
literals as everywhere else: the body that the parser reads is the one that was written exactly if it has no tab and no
backslash before a line feed, and only then does the literal stand for what its body says.

* `unescape` — what a body stands for.
* `bodyRead` — what the parser reads of a body.
* `IsBody.parsedText_eq` — a literal in the text that is parsed, whatever stands around it.
* `literals_kept_iff` — when the characters of a literal are kept.
-/

namespace MinRuby.Syntax

open MinRuby.Text
open MinRuby.Syntax.Parser

/-! ## Bodies -/

/-- What the body of a literal stands for. -/
def unescape (quote : Char) (body : List Char) : List Char :=
  if quote = '"' then unescapeDouble body else unescapeSingle body

/-- What a backslash and the character behind it stand for in a literal. -/
def unescapePair (quote c : Char) : List Char :=
  if quote = '"' then [escaped c] else if c = '\\' ∨ c = '\'' then [c] else ['\\', c]

/-- The body of a single-quoted literal that stands for a text. -/
def escapeSingle (text : List Char) : List Char := text.flatMap fun c => if c = '\\' ∨ c = '\'' then ['\\', c] else [c]

section

variable {quote c : Char} {text rest body : List Char}

theorem unescape_plain (hc : c ≠ '\\') : unescape quote (c :: rest) = c :: unescape quote rest := by
  unfold unescape
  split
  · rw [unescapeDouble]
    exact fun _ _ h => absurd h hc
  · rw [unescapeSingle]
    · exact fun _ h => absurd h hc
    · exact fun _ h => absurd h hc

theorem unescape_pair (c : Char) : unescape quote ('\\' :: c :: rest) = unescapePair quote c ++ unescape quote rest := by
  unfold unescape unescapePair
  split
  · rfl
  · by_cases hslash : c = '\\'
    · subst hslash
      rfl
    · by_cases hquote : c = '\''
      · subst hquote
        rfl
      · rw [if_neg (by simp [hslash, hquote]), unescapeSingle, unescapeSingle]
        · rfl
        all_goals simp_all

theorem isBody_escapeSingle (text : List Char) : IsBody '\'' (escapeSingle text) := by
  induction text with
  | nil => exact .nil
  | cons c text ih =>
    rw [escapeSingle, List.flatMap_cons]
    split
    · next hc => exact .escaped (by rcases hc with rfl | rfl <;> decide) ih
    · next hc => exact .plain (fun h => hc (.inr h)) (fun h => hc (.inl h)) ih

theorem unescape_escapeSingle (text : List Char) : unescape '\'' (escapeSingle text) = text := by
  induction text with
  | nil => rfl
  | cons c text ih =>
    rw [escapeSingle, List.flatMap_cons, ← escapeSingle]
    split
    · next hc =>
      rw [List.cons_append, List.singleton_append, unescape_pair, ih, unescapePair, if_neg (by decide), if_pos hc]
      rfl
    · next hc => rw [List.singleton_append, unescape_plain fun h => hc (.inl h), ih]

theorem mem_of_mem_escapeSingle (hc : c ≠ '\\') (h : c ∈ escapeSingle text) : c ∈ text := by
  obtain ⟨x, hx, hmem⟩ := List.mem_flatMap.mp h
  split at hmem
  · obtain rfl : c = x := by simpa [hc] using hmem
    exact hx
  · exact List.mem_singleton.mp hmem ▸ hx

/-! ## What the parser reads of a body -/

/-- What the parser reads of the body of a literal that starts in the given column, counted from zero. -/
def bodyRead (column : Nat) (body : List Char) : List Char := expandTabsFrom column (joinLines body)

/-- Neither a tab nor a backslash at the end of a line stands in the text. -/
def Lasting (text : List Char) : Prop := '\t' ∉ text ∧ Unjoined text

theorem unjoined_cons_iff : Unjoined (c :: rest) ↔ ¬ (c = '\\' ∧ ∃ tail, rest = '\n' :: tail) ∧ Unjoined rest := by
  rw [Unjoined, List.infix_cons_iff, not_or, Unjoined]
  refine and_congr_left fun _ => not_congr ⟨?_, ?_⟩
  · rintro ⟨tail, htail⟩
    obtain ⟨rfl, rfl⟩ := List.cons.inj htail
    exact ⟨rfl, tail, rfl⟩
  · rintro ⟨rfl, tail, rfl⟩
    exact ⟨tail, rfl⟩

theorem unjoined_nil : Unjoined [] := by simp [Unjoined]

theorem lasting_cons (hc : c ≠ '\t') (hjoin : ¬ (c = '\\' ∧ ∃ tail, rest = '\n' :: tail)) (h : Lasting rest) :
    Lasting (c :: rest) :=
  ⟨List.not_mem_cons_of_ne_of_not_mem (Ne.symm hc) h.1, unjoined_cons_iff.mpr ⟨hjoin, h.2⟩⟩

theorem joinLines_of_ne (hc : c ≠ '\\') : joinLines (c :: rest) = c :: joinLines rest := by
  rw [joinLines]
  exact fun _ h => absurd h hc

/-- A pair stays as it is, or its second character is a backslash that joins its line to the next one. -/
theorem joinLines_pair (rest : List Char) (hc : c ≠ '\n') :
    (¬ (c = '\\' ∧ ∃ tail, rest = '\n' :: tail) ∧ joinLines ('\\' :: c :: rest) = '\\' :: c :: joinLines rest) ∨
      ∃ tail, c = '\\' ∧ rest = '\n' :: tail ∧ joinLines ('\\' :: c :: rest) = '\\' :: ' ' :: ' ' :: joinLines tail := by
  have hslash : joinLines ('\\' :: c :: rest) = '\\' :: joinLines (c :: rest) := by
    rw [joinLines]
    exact fun _ _ h => absurd (List.cons.inj h).1 hc
  by_cases hjoin : c = '\\' ∧ ∃ tail, rest = '\n' :: tail
  · obtain ⟨rfl, tail, rfl⟩ := hjoin
    exact .inr ⟨tail, rfl, rfl, by rw [hslash, joinLines]⟩
  · refine .inl ⟨hjoin, ?_⟩
    rw [hslash, joinLines]
    exact fun tail hc htail => hjoin ⟨hc, tail, htail⟩

/-- A tab becomes a blank and perhaps more of them. -/
theorem expandTabsFrom_tab (column : Nat) (rest : List Char) :
    ∃ more column', expandTabsFrom column ('\t' :: rest) = ' ' :: (more ++ expandTabsFrom column' rest) ∧ ∀ x ∈ more,
      x = ' ' := by
  obtain ⟨n, hn⟩ : ∃ n, tabWidth - column % tabWidth = n + 1 :=
    Nat.exists_eq_succ_of_ne_zero (Nat.sub_ne_zero_of_lt (Nat.mod_lt _ (by decide)))
  refine ⟨List.replicate n ' ', column + (n + 1), ?_, fun x hx => List.eq_of_mem_replicate hx⟩
  rw [expandTabsFrom, if_pos rfl, hn]
  rfl

theorem expandTabsFrom_of_ne (column : Nat) (rest : List Char) (hc : c ≠ '\t') :
    ∃ column', expandTabsFrom column (c :: rest) = c :: expandTabsFrom column' rest :=
  ⟨_, by rw [expandTabsFrom, if_neg hc]⟩

theorem IsBody.joined (h : IsBody quote body) (hquote : IsQuote quote) : IsBody quote (joinLines body) := by
  have hblank : ' ' ≠ quote := by rcases hquote with rfl | rfl <;> decide
  induction h with
  | nil => exact .nil
  | plain hc hslash _ ih =>
    rw [joinLines_of_ne hslash]
    exact .plain hc hslash ih
  | @escaped c rest hc _ ih =>
    rcases joinLines_pair rest hc with ⟨-, hpair⟩ | ⟨tail, -, rfl, hpair⟩
    · rw [hpair]
      exact .escaped hc ih
    · rw [hpair]
      rw [joinLines_of_ne (by decide)] at ih
      cases ih with
      | plain _ _ ih => exact .escaped (by decide) (.plain hblank (by decide) ih)

theorem IsBody.blanks {blanks : List Char} (hquote : IsQuote quote) (hblanks : ∀ x ∈ blanks, x = ' ') (h : IsBody quote body) :
    IsBody quote (blanks ++ body) := by
  have hblank : ' ' ≠ quote := by rcases hquote with rfl | rfl <;> decide
  induction blanks with
  | nil => exact h
  | cons x blanks ih =>
    obtain ⟨rfl, hrest⟩ := List.forall_mem_cons.mp hblanks
    exact .plain hblank (by decide) (ih hrest)

theorem IsBody.expanded (h : IsBody quote body) (hquote : IsQuote quote) (column : Nat) :
    IsBody quote (expandTabsFrom column body) := by
  have hblank : ' ' ≠ quote := by rcases hquote with rfl | rfl <;> decide
  induction h generalizing column with
  | nil => exact .nil
  | @plain c rest hc hslash _ ih =>
    by_cases htab : c = '\t'
    · obtain ⟨more, column', hexpand, hmore⟩ := expandTabsFrom_tab column rest
      rw [htab, hexpand]
      exact .plain hblank (by decide) (.blanks hquote hmore (ih column'))
    · obtain ⟨column', hexpand⟩ := expandTabsFrom_of_ne column rest htab
      rw [hexpand]
      exact .plain hc hslash (ih column')
  | @escaped c rest hc _ ih =>
    rw [expandTabsFrom, if_neg (by decide)]
    by_cases htab : c = '\t'
    · obtain ⟨more, column', hexpand, hmore⟩ := expandTabsFrom_tab _ rest
      rw [htab, hexpand]
      exact .escaped (by decide) (.blanks hquote hmore (ih column'))
    · obtain ⟨column', hexpand⟩ := expandTabsFrom_of_ne _ rest htab
      rw [hexpand]
      exact .escaped hc (ih column')

/-- What the parser reads of a body is a body. -/
theorem IsBody.read (h : IsBody quote body) (hquote : IsQuote quote) (column : Nat) : IsBody quote (bodyRead column body) :=
  (h.joined hquote).expanded hquote column

theorem bodyRead_of_lasting (h : Lasting text) (column : Nat) : bodyRead column text = text := by
  obtain ⟨-, hjoin⟩ := (joinLines_cases text).resolve_right fun hjoined => hjoined.1 h.2
  rw [bodyRead, hjoin, expandTabsFrom_of_not_mem column h.1]

theorem unescapePair_tab_ne (quote : Char) (tail tail' : List Char) :
    unescapePair quote ' ' ++ tail ≠ unescapePair quote '\t' ++ tail' := by
  unfold unescapePair
  split <;> simp [escaped]

theorem unescapePair_slash_ne (quote : Char) (tail tail' : List Char) :
    unescapePair quote ' ' ++ ' ' :: tail ≠ unescapePair quote '\\' ++ '\n' :: tail' := by
  unfold unescapePair
  split <;> simp [escaped]

/-- A body that stands for the same when it is read has neither tabs nor joined lines. -/
theorem IsBody.lasting_of_unescape_eq (h : IsBody quote body) (column : Nat)
    (heq : unescape quote (bodyRead column body) = unescape quote body) : Lasting body := by
  induction h generalizing column with
  | nil => exact ⟨List.not_mem_nil, unjoined_nil⟩
  | @plain c rest hc hslash _ ih =>
    rw [bodyRead, joinLines_of_ne hslash, unescape_plain hslash] at heq
    by_cases htab : c = '\t'
    · obtain ⟨more, column', hexpand, -⟩ := expandTabsFrom_tab column (joinLines rest)
      rw [htab, hexpand, unescape_plain (by decide)] at heq
      exact absurd (List.cons.inj heq).1 (by decide)
    · obtain ⟨column', hexpand⟩ := expandTabsFrom_of_ne column (joinLines rest) htab
      rw [hexpand, unescape_plain hslash] at heq
      exact lasting_cons htab (fun h => hslash h.1) (ih column' (List.cons.inj heq).2)
  | @escaped c rest hc _ ih =>
    rw [bodyRead, unescape_pair] at heq
    rcases joinLines_pair rest hc with ⟨hjoin, hpair⟩ | ⟨tail, rfl, rfl, hpair⟩
    · rw [hpair, expandTabsFrom, if_neg (by decide)] at heq
      by_cases htab : c = '\t'
      · obtain ⟨more, column', hexpand, -⟩ := expandTabsFrom_tab (if '\\' = '\n' then 0 else column + 1) (joinLines rest)
        rw [htab, hexpand, unescape_pair] at heq
        exact absurd heq (unescapePair_tab_ne quote _ _)
      · obtain ⟨column', hexpand⟩ := expandTabsFrom_of_ne (if '\\' = '\n' then 0 else column + 1) (joinLines rest) htab
        rw [hexpand, unescape_pair] at heq
        have hrest := lasting_cons htab hjoin (ih column' (List.append_cancel_left heq))
        refine lasting_cons (by decide) ?_ hrest
        rintro ⟨-, tail, htail⟩
        exact hc (List.cons.inj htail).1
    · -- two blanks stand where the backslash and the line feed were
      obtain ⟨column', hexpand⟩ : ∃ column', expandTabsFrom column ('\\' :: ' ' :: ' ' :: joinLines tail) =
          '\\' :: ' ' :: ' ' :: expandTabsFrom column' (joinLines tail) := ⟨_, rfl⟩
      rw [hpair, hexpand, unescape_pair, unescape_plain (by decide), unescape_plain (by decide)] at heq
      exact absurd heq (unescapePair_slash_ne quote _ _)

/-- A literal stands for what its body says exactly if the body has neither tabs nor joined lines. -/
theorem IsBody.unescape_bodyRead_iff (h : IsBody quote body) (column : Nat) :
    unescape quote (bodyRead column body) = unescape quote body ↔ Lasting body :=
  ⟨h.lasting_of_unescape_eq column, fun hlasting => by rw [bodyRead_of_lasting hlasting]⟩

/-- A body is read as it was written exactly if it has neither tabs nor joined lines. -/
theorem IsBody.bodyRead_iff (h : IsBody quote body) (column : Nat) : bodyRead column body = body ↔ Lasting body :=
  ⟨fun heq => h.lasting_of_unescape_eq column (by rw [heq]), fun hlasting => bodyRead_of_lasting hlasting column⟩

theorem escapeSingle_eq_feed_iff : (∃ tail, escapeSingle text = '\n' :: tail) ↔ ∃ tail, text = '\n' :: tail := by
  cases text with
  | nil => simp [escapeSingle]
  | cons c text =>
    rw [escapeSingle, List.flatMap_cons]
    split
    · next hc => rcases hc with rfl | rfl <;> simp
    · simp

/-- The backslashes that a text is escaped with stand at the end of no line. -/
theorem lasting_escapeSingle_iff : Lasting (escapeSingle text) ↔ Lasting text := by
  induction text with
  | nil => rfl
  | cons c text ih =>
    have hcons (x : Char) (rest : List Char) :
        Lasting (x :: rest) ↔ x ≠ '\t' ∧ ¬ (x = '\\' ∧ ∃ tail, rest = '\n' :: tail) ∧ Lasting rest := by
      rw [Lasting, unjoined_cons_iff, List.mem_cons, not_or, Lasting, ne_comm]
      tauto
    rw [hcons c text, ← ih, escapeSingle, List.flatMap_cons, ← escapeSingle, ← escapeSingle_eq_feed_iff]
    split
    · next hc =>
      have hfeed : c ≠ '\n' := by rcases hc with rfl | rfl <;> decide
      rw [List.cons_append, List.singleton_append, hcons, hcons]
      simp [hfeed]
    · rw [List.singleton_append, hcons]

/-! ## Reading a literal -/

/-- A literal is read as what its body stands for. -/
theorem IsBody.stringLiteral_eq {cursor : Cursor} {tail : List Char} (h : IsBody quote body) (hquote : IsQuote quote)
    (hat : cursor.skipBlanks.rest = quote :: (body ++ quote :: tail)) :
    ∃ next, stringLiteral cursor = .done (.str (String.ofList (unescape quote body))) next ∧ next.rest = tail := by
  obtain ⟨next, hread, hrest⟩ := h.quotedLiteral_eq hquote hat
  refine ⟨next, ?_, hrest⟩
  rw [stringLiteral]
  rcases hquote with rfl | rfl
  · refine orElse_of_done ?_
    rw [bind_of_done hread]
    rfl
  · have hdouble : quotedLiteral '"' cursor = .fail := quotedLiteral_of_head (by rw [hat]; rfl)
    refine (orElse_of_fail (bind_of_fail hdouble)).trans ?_
    rw [bind_of_done hread]
    rfl

/-! ### In a text -/

/-- A text ends in code, neither in a comment nor in a literal. -/
def EndsInCode (text : List Char) : Prop :=
  ∀ rest, blankComments .code (withLineFeeds text ++ rest) = blankComments .code (withLineFeeds text) ++ blankComments .code rest

/-- The column behind a text that starts in the given column. -/
def columnBehind : Nat → List Char → Nat
  | column, [] => column
  | column, c :: rest =>
    columnBehind (if c = '\t' then column + (tabWidth - column % tabWidth) else if c = '\n' then 0 else column + 1) rest

theorem expandTabsFrom_append_eq (column : Nat) (text rest : List Char) :
    expandTabsFrom column (text ++ rest) = expandTabsFrom column text ++ expandTabsFrom (columnBehind column text) rest := by
  induction text generalizing column with
  | nil => rfl
  | cons c text ih =>
    by_cases hc : c = '\t'
    · simp [expandTabsFrom, columnBehind, hc, ih]
    · simp [expandTabsFrom, columnBehind, hc, ih]

/-- Only a line feed is joined to what stands before it. -/
theorem joinLines_append_of_ne (hc : c ≠ '\n') (text rest : List Char) :
    joinLines (text ++ c :: rest) = joinLines text ++ joinLines (c :: rest) := by
  fun_induction joinLines text with
  | case1 => rfl
  | case2 text ih => rw [List.cons_append, List.cons_append, joinLines, ih]; rfl
  | case3 x text hx ih =>
    rw [List.cons_append, joinLines, ih]
    · rfl
    · rintro tail rfl htail
      cases text with
      | nil => exact hc (List.cons.inj htail).1
      | cons y text => exact hx text rfl (congrArg (· :: text) (List.cons.inj htail).1)

/-- Only a line feed belongs to a line end before it. -/
theorem withLineFeeds_append_of_ne (hc : c ≠ '\n') (text rest : List Char) :
    withLineFeeds (text ++ c :: rest) = withLineFeeds text ++ withLineFeeds (c :: rest) := by
  fun_induction withLineFeeds text with
  | case1 => rfl
  | case2 text ih => rw [List.cons_append, List.cons_append, withLineFeeds, ih]; rfl
  | case3 x text hx ih =>
    rw [List.cons_append, withLineFeeds, ih]
    · rfl
    · rintro tail rfl htail
      cases text with
      | nil => exact hc (List.cons.inj htail).1
      | cons y text => exact hx text rfl (congrArg (· :: text) (List.cons.inj htail).1)

/-- A literal behind a text that ends in code: the parser sees its quotes and what it reads of the body. -/
theorem IsBody.parsedText_eq (above : List Char) (h : IsBody quote body) (hquote : IsQuote quote) (hreturn : '\r' ∉ body)
    (habove : EndsInCode above) (below : List Char) :
    ∃ column, parsedText (above ++ quote :: (body ++ quote :: below)) = parsedText above ++
      quote :: (bodyRead (columnBehind 0 (prepare above) + 1) body ++ quote :: expandTabsFrom column (prepare below)) := by
  have hchars : quote ≠ '\n' ∧ quote ≠ '\r' ∧ quote ≠ '\\' ∧ quote ≠ '\t' := by rcases hquote with rfl | rfl <;> decide
  obtain ⟨hfeed, hcr, hslash, htab⟩ := hchars
  -- line ends: the quotes are no part of any
  have hquoted (rest : List Char) : withLineFeeds (quote :: rest) = quote :: withLineFeeds rest := by
    rw [withLineFeeds, if_neg hcr]
    exact fun _ h => absurd h hcr
  have hlines : withLineFeeds (above ++ quote :: (body ++ quote :: below)) =
      withLineFeeds above ++ quote :: (body ++ quote :: withLineFeeds below) := by
    rw [withLineFeeds_append_of_ne hfeed, hquoted, withLineFeeds_append_of_ne hfeed, hquoted, withLineFeeds_of_not_mem hreturn]
  have hscan : blankComments .code (quote :: (body ++ quote :: withLineFeeds below)) =
      quote :: (body ++ quote :: blankComments .code (withLineFeeds below)) := by
    rw [blankComments, if_pos (show quote = '"' ∨ quote = '\'' from hquote), h.enclosed.blankComments_close hslash]
  have hprepare : prepare (above ++ quote :: (body ++ quote :: below)) =
      prepare above ++ quote :: (joinLines body ++ quote :: prepare below) := by
    rw [prepare, hlines, stripComments, habove, hscan, joinLines_append_of_ne hfeed, joinLines_of_ne hslash,
      joinLines_append_of_ne hfeed, joinLines_of_ne hslash]
    rfl
  have htabs : expandTabsFrom (columnBehind 0 (prepare above)) (quote :: (joinLines body ++ quote :: prepare below)) =
      quote :: expandTabsFrom (columnBehind 0 (prepare above) + 1) (joinLines body ++ quote :: prepare below) := by
    rw [expandTabsFrom, if_neg htab, if_neg hfeed]
  obtain ⟨column, hclosed⟩ := expandTabsFrom_of_ne (columnBehind (columnBehind 0 (prepare above) + 1) (joinLines body))
    (prepare below) htab
  refine ⟨column, ?_⟩
  rw [parsedText, hprepare, expandTabs, expandTabsFrom_append_eq, htabs, expandTabsFrom_append_eq, hclosed]
  rfl

end

/-! ## Programs that are one literal -/

section

variable {quote : Char} {body : List Char}

/-- The program that is one literal. -/
theorem IsBody.readProgram_eq (h : IsBody quote body) (hquote : IsQuote quote) (hreturn : '\r' ∉ body) (filename : String) :
    readProgram (String.ofList (quote :: (body ++ [quote]))) filename =
      .ok (.block [.lit (.str (String.ofList (unescape quote (bodyRead 1 body))))]) := by
  have hstart : quote ≠ ' ' ∧ quote ≠ '\n' ∧ quote ≠ ';' ∧ isDecimalDigit quote = false ∧
    (quote.isAlpha || quote == '_') = false := by
    rcases hquote with rfl | rfl <;> decide
  obtain ⟨hblank, hfeed, hsemicolon, hdigit, hletter⟩ := hstart
  obtain ⟨column, hparsed⟩ := h.parsedText_eq [] hquote hreturn (fun _ => rfl) []
  have htext : expandTabs (prepare (quote :: (body ++ [quote]))) = quote :: (bodyRead 1 body ++ [quote]) := hparsed
  let cursor : Cursor := .start (quote :: (bodyRead 1 body ++ [quote]))
  have hat : cursor.skipBlanks.rest = quote :: (bodyRead 1 body ++ [quote]) := by rw [Cursor.skipBlanks_of_ne rfl hblank]; rfl
  obtain ⟨next, hread, hend⟩ := (h.read hquote 1).stringLiteral_eq hquote hat
  have hnumeral : numeral cursor = .fail := numeral_of_head (by rw [hat]; exact hdigit)
  have hname : identifier cursor = .fail := identifier_of_head (by rw [hat]; exact hletter)
  have hprimary (nested : Phrase → Parser Term) :
      primary nested cursor = .done (.lit (.str (String.ofList (unescape quote (bodyRead 1 body))))) next :=
    (orElse_of_fail (map_of_fail hnumeral)).trans (orElse_of_done (map_of_done hread))
  have hblock : parsePhrase .block (quote :: (bodyRead 1 body ++ [quote])) = .done (.block [_]) next :=
    block_of_value (value_of_primary (hprimary _) hend hname) hend (separator_of_ne hat ⟨hfeed, hsemicolon⟩)
  rw [readProgram, String.toList_ofList, readWhole, htext]
  simp only [hblock, Cursor.rest_skipBlanks_of_end hend]

theorem IsBody.parseProgram_eq (h : IsBody quote body) (hquote : IsQuote quote) (hreturn : '\r' ∉ body) (filename : String)
    (known : List String) (counter : Nat) :
    parseProgram (String.ofList (quote :: (body ++ [quote]))) filename known counter =
      .ok (.stmts [.lit (.str (String.ofList (unescape quote (bodyRead 1 body))))], counter) := by
  rw [parseProgram_of_readProgram (h.readProgram_eq hquote hreturn filename)]
  rfl

end

/-- The characters of a string literal are kept exactly if no tab and no backslash at the end of a line stands between
its quotes. So it is for the program that is one literal, of any body between double quotes and of any text that is
escaped between single quotes. Behind whatever text a literal stands, if only that ends in code, the parser reads the
body with tabs expanded and lines joined, and the literal stands for what that says. -/
theorem literals_kept_iff (filename : String) (known : List String) (counter : Nat) :
    (∀ body : List Char, '\r' ∉ body → IsBody '"' body →
      let parsed := parseProgram (String.ofList ('"' :: (body ++ ['"']))) filename known counter
      parsed = .ok (.stmts [.lit (.str (String.ofList (unescapeDouble (bodyRead 1 body))))], counter) ∧
        (parsed = .ok (.stmts [.lit (.str (String.ofList (unescapeDouble body)))], counter) ↔ Lasting body)) ∧
    (∀ text : List Char, '\r' ∉ text →
      let parsed := parseProgram (String.ofList ('\'' :: (escapeSingle text ++ ['\'']))) filename known counter
      parsed = .ok (.stmts [.lit (.str (String.ofList (unescapeSingle (bodyRead 1 (escapeSingle text)))))], counter) ∧
        (parsed = .ok (.stmts [.lit (.str (String.ofList text))], counter) ↔ Lasting text)) ∧
    ∀ quote, IsQuote quote → ∀ body : List Char, '\r' ∉ body → IsBody quote body → ∀ above below, EndsInCode above →
      let read := bodyRead (columnBehind 0 (prepare above) + 1) body
      (∃ column, parsedText (above ++ quote :: (body ++ quote :: below)) =
        parsedText above ++ quote :: (read ++ quote :: expandTabsFrom column (prepare below))) ∧
      (∀ before rest, ∃ next, stringLiteral ⟨before, quote :: (read ++ quote :: rest)⟩ =
        .done (.str (String.ofList (unescape quote read))) next ∧ next.rest = rest) ∧
      (read = body ↔ Lasting body) ∧ (unescape quote read = unescape quote body ↔ Lasting body) := by
  have tree_eq_iff {text text' : List Char} :
      (Except.ok (Node.stmts [.lit (.str (String.ofList text))], counter) : Except Failure (Node × Nat)) =
        .ok (Node.stmts [.lit (.str (String.ofList text'))], counter) ↔ text = text' := by
    simp [String.ofList_inj]
  refine ⟨fun body hreturn h => ?_, fun text hreturn => ?_,
    fun quote hquote body hreturn h above below habove => ⟨h.parsedText_eq above hquote hreturn habove below, fun before rest => ?_,
      h.bodyRead_iff _, h.unescape_bodyRead_iff _⟩⟩
  · have hparse := h.parseProgram_eq (.inl rfl) hreturn filename known counter
    refine ⟨hparse, ?_⟩
    rw [hparse, tree_eq_iff]
    exact h.unescape_bodyRead_iff 1
  · have hbody := isBody_escapeSingle text
    have hreturn' : '\r' ∉ escapeSingle text := fun hmem => hreturn (mem_of_mem_escapeSingle (by decide) hmem)
    have hparse := hbody.parseProgram_eq (.inr rfl) hreturn' filename known counter
    have hkept := hbody.unescape_bodyRead_iff 1
    rw [unescape_escapeSingle, lasting_escapeSingle_iff] at hkept
    refine ⟨hparse, ?_⟩
    rw [hparse, tree_eq_iff]
    exact hkept
  · have hblank : quote ≠ ' ' := by rcases hquote with rfl | rfl <;> decide
    refine (h.read hquote _).stringLiteral_eq hquote ?_
    rw [Cursor.skipBlanks_of_ne rfl hblank]

/-- Quotes, a comment sign, a line feed and a backslash: between double quotes, between single quotes, and behind a line
with a comment. -/
theorem marks_kept :
    let body := "it's #1\n\\\\".toList
    let text := "it's #1\n\\".toList
    let above := "x = 1 # it's\n".toList
    ('\r' ∉ body ∧ IsBody '"' body ∧ Lasting body ∧
      parseProgram (String.ofList ('"' :: (body ++ ['"']))) anonymous [] 1 = .ok (.stmts [.lit (.str (String.ofList text))], 1)) ∧
    ('\r' ∉ text ∧ Lasting text ∧ parseProgram (String.ofList ('\'' :: (escapeSingle text ++ ['\'']))) anonymous [] 1 =
      .ok (.stmts [.lit (.str (String.ofList text))], 1)) ∧
    IsQuote '"' ∧ EndsInCode above ∧ ∃ column, parsedText (above ++ '"' :: (body ++ '"' :: ['\n'])) =
      parsedText above ++ '"' :: (body ++ '"' :: expandTabsFrom column (prepare ['\n'])) := by
  intro body text above
  have hbody : IsBody '"' body := by
    repeat first | exact .nil | refine .plain (by decide) (by decide) ?_ | refine .escaped (by decide) ?_
  have hreturn : '\r' ∉ body ∧ '\r' ∉ text := by decide
  have hlasting : Lasting body ∧ Lasting text := by
    simp [Lasting, body, text, unjoined_cons_iff, unjoined_nil]
  have hcode : EndsInCode above := fun _ => rfl
  obtain ⟨hdouble, hsingle, hbehind⟩ := literals_kept_iff anonymous [] 1
  obtain ⟨⟨column, hparsed⟩, -, hread, -⟩ := hbehind '"' (.inl rfl) body hreturn.1 hbody above ['\n'] hcode
  rw [hread.mpr hlasting.1] at hparsed
  exact ⟨⟨hreturn.1, hbody, hlasting.1, (hdouble body hreturn.1 hbody).2.mpr hlasting.1⟩,
    ⟨hreturn.2, hlasting.2, (hsingle text hreturn.2).2.mpr hlasting.2⟩, .inl rfl, hcode, column, hparsed⟩

/-- A tab becomes blanks, and an escaped backslash at the end of a line is lost with the line feed. -/
theorem tab_not_kept :
    IsBody '"' ['\t'] ∧ IsBody '"' ['\\', '\\', '\n'] ∧
      parseProgram "\"\t\"" anonymous [] 1 = .ok (.stmts [.lit (.str "       ")], 1) ∧
      parseProgram "\"\t\"" anonymous [] 1 ≠ .ok (.stmts [.lit (.str "\t")], 1) ∧
      parseProgram "\"\\\\\n\"" anonymous [] 1 ≠ .ok (.stmts [.lit (.str "\\\n")], 1) := by
  have htab : IsBody '"' ['\t'] := .plain (by decide) (by decide) .nil
  have hslash : IsBody '"' ['\\', '\\', '\n'] := .escaped (by decide) (.plain (by decide) (by decide) .nil)
  have hblanks := htab.parseProgram_eq (.inl rfl) (by decide) anonymous [] 1
  have hjoined := hslash.parseProgram_eq (.inl rfl) (by decide) anonymous [] 1
  rw [show unescape '"' (bodyRead 1 ['\t']) = "       ".toList by rfl, String.ofList_toList,
    show '"' :: (['\t'] ++ ['"']) = "\"\t\"".toList by rfl, String.ofList_toList] at hblanks
  rw [show unescape '"' (bodyRead 1 ['\\', '\\', '\n']) = "  ".toList by rfl, String.ofList_toList,
    show '"' :: (['\\', '\\', '\n'] ++ ['"']) = "\"\\\\\n\"".toList by rfl, String.ofList_toList] at hjoined
  rw [hblanks, hjoined]
  refine ⟨htab, hslash, rfl, ?_, ?_⟩ <;> simp

end MinRuby.Syntax
