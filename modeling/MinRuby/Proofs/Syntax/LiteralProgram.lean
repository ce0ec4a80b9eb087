import MinRuby.Proofs.Syntax.Literals

/-!
# Programs that are one literal

The preparation of source text leaves the text of a content as it is: the comment scanner is in code again
behind it, and no tab, line feed or carriage return stands in it. So the program that consists of the text is
the one statement that the text is read as.

* `Enclosed` — what the comment scanner takes for the inside of a literal.
* `Content.prepare_text` — the text is prepared already.
* `Content.readProgram_text` — the program that consists of the text.
-/

namespace MinRuby

namespace Syntax

open MinRuby.Text

/-! ## Preparation -/

theorem withLineFeeds_of_not_mem : ∀ {text : List Char}, '\r' ∉ text → withLineFeeds text = text
  | [], _ => rfl
  | c :: rest, h => by
    have hc : c ≠ '\r' := fun hc => h (hc ▸ List.mem_cons_self)
    have hrest := withLineFeeds_of_not_mem fun hmem => h (List.mem_cons_of_mem c hmem)
    rw [withLineFeeds, if_neg hc, hrest]
    rintro rest' rfl
    exact absurd rfl hc

theorem joinLines_of_not_mem : ∀ {text : List Char}, '\n' ∉ text → joinLines text = text
  | [], _ => rfl
  | c :: rest, h => by
    have hrest := joinLines_of_not_mem fun hmem => h (List.mem_cons_of_mem c hmem)
    rw [joinLines, hrest]
    rintro rest' - rfl
    exact h (List.mem_cons_of_mem c List.mem_cons_self)

theorem expandTabsFrom_of_not_mem {text : List Char} (column : Nat) (h : '\t' ∉ text) : expandTabsFrom column text = text := by
  induction text generalizing column with
  | nil => rfl
  | cons c rest ih =>
    obtain ⟨hc, hrest⟩ := not_or.mp (mt List.mem_cons.mpr h)
    rw [expandTabsFrom, if_neg (Ne.symm hc), ih _ hrest]

theorem expandTabs_of_not_mem {text : List Char} (h : '\t' ∉ text) : expandTabs text = text := expandTabsFrom_of_not_mem 0 h

/-- The characters that the preparation of source text looks for outside of literals. -/
def isMark (x : Char) : Bool := isLayout x || x == '"' || x == '\'' || x == '#'

/-- The preparation of source text leaves the text as it is and is in code again behind it. -/
structure Clear (text : List Char) : Prop where
  not_layout : text.any isLayout = false
  blankComments_eq : ∀ tail, blankComments .code (text ++ tail) = text ++ blankComments .code tail

namespace Clear

variable {text text' : List Char}

theorem not_mem {x : Char} (h : Clear text) (hx : isLayout x = true) : x ∉ text :=
  fun hmem => List.any_eq_false.mp h.not_layout x hmem hx

theorem append (h : Clear text) (h' : Clear text') : Clear (text ++ text') where
  not_layout := by rw [List.any_append, h.not_layout, h'.not_layout, Bool.or_self]
  blankComments_eq tail := by
    rw [List.append_assoc, h.blankComments_eq, h'.blankComments_eq, List.append_assoc]

theorem of_not_mark (h : text.any isMark = false) : Clear text where
  not_layout := by
    refine List.any_eq_false.mpr fun x hx hlayout => List.any_eq_false.mp h x hx ?_
    rw [isMark, hlayout, Bool.true_or, Bool.true_or, Bool.true_or]
  blankComments_eq tail := by
    induction text with
    | nil => rfl
    | cons x text ih =>
      obtain ⟨hx, hrest⟩ := Bool.or_eq_false_iff.mp (List.any_cons.symm.trans h)
      have hquote : ¬ (x = '"' ∨ x = '\'') := by
        rintro (rfl | rfl) <;> exact absurd hx (by decide)
      have hhash : x ≠ '#' := by
        rintro rfl
        exact absurd hx (by decide)
      rw [List.cons_append, blankComments, if_neg hquote, if_neg hhash, ih hrest, List.cons_append]

theorem cons {x : Char} (hx : isMark x = false) (h : Clear text) : Clear (x :: text) := by
  have hfirst : Clear [x] := of_not_mark (by rw [List.any_cons, hx]; rfl)
  exact hfirst.append h

theorem separated {texts : List (List Char)} (h : ∀ t ∈ texts, Clear t) : Clear (Content.separated texts) := by
  have hcomma : Clear [',', ' '] := of_not_mark (by decide)
  induction texts with
  | nil => exact of_not_mark rfl
  | cons t texts ih =>
    have ht : Clear t := h t List.mem_cons_self
    have hrest := ih fun u hu => h u (List.mem_cons_of_mem t hu)
    cases texts with
    | nil => rwa [Content.separated, List.intercalate_singleton]
    | cons u texts =>
      rw [Content.separated, List.intercalate_cons_cons]
      exact (ht.append hcomma).append hrest

/-- A clear text is prepared already. -/
theorem prepare_eq (h : Clear text) : prepare text = text := by
  have hblank := h.blankComments_eq []
  rw [List.append_nil, blankComments, List.append_nil] at hblank
  rw [prepare, withLineFeeds_of_not_mem (h.not_mem (by decide)), stripComments, hblank,
    joinLines_of_not_mem (h.not_mem (by decide))]

end Clear

/-- A text that can stand behind the first quote of a literal without closing it: characters other than the quote and
the backslash, and backslashes with the character behind them. -/
inductive Enclosed (quote : Char) : List Char → Prop where
  | nil : Enclosed quote []
  | plain {c : Char} {rest : List Char} (hquote : c ≠ quote) (hslash : c ≠ '\\') (h : Enclosed quote rest) :
    Enclosed quote (c :: rest)
  | pair (c : Char) {rest : List Char} (h : Enclosed quote rest) : Enclosed quote ('\\' :: c :: rest)

namespace Enclosed

variable {quote : Char} {body : List Char}

/-- The comment scanner leaves the text as it is and is still in the literal behind it. -/
theorem blankComments_append (h : Enclosed quote body) (tail : List Char) :
    blankComments (.literal quote) (body ++ tail) = body ++ blankComments (.literal quote) tail := by
  induction h with
  | nil => rfl
  | plain hquote hslash _ ih =>
    rw [List.cons_append, blankComments, if_neg hquote, ih]
    · rfl
    · exact fun _ _ h => absurd h hslash
  | pair c _ ih => rw [List.cons_append, List.cons_append, blankComments, ih]; rfl

/-- Behind the closing quote it is in code again. -/
theorem blankComments_close (h : Enclosed quote body) (hslash : quote ≠ '\\') (tail : List Char) :
    blankComments (.literal quote) (body ++ quote :: tail) = body ++ quote :: blankComments .code tail := by
  rw [h.blankComments_append, blankComments, if_pos rfl]
  exact fun _ _ h => absurd h hslash

end Enclosed

theorem IsBody.enclosed {quote : Char} {body : List Char} (h : IsBody quote body) : Enclosed quote body := by
  induction h with
  | nil => exact .nil
  | plain hquote hslash _ ih => exact .plain hquote hslash ih
  | escaped _ _ ih => exact .pair _ ih

theorem not_layout_escape (text : List Char) : (escape text).any isLayout = false := by
  refine List.any_eq_false.mpr fun x hx => ?_
  obtain ⟨y, -, hy⟩ := List.mem_flatMap.mp hx
  rcases escapeChar_cases y with ⟨hone, -, -, hlayout⟩ | ⟨z, htwo, hlayout⟩
  · rw [hone, List.mem_singleton] at hy
    rw [hy, hlayout]
    exact Bool.false_ne_true
  · rw [htwo] at hy
    obtain rfl | rfl : x = '\\' ∨ x = z := by simpa using hy
    · decide
    · rw [hlayout]
      exact Bool.false_ne_true

/-- A string literal as it is written. -/
theorem Clear.literal (text : List Char) : Clear ('"' :: (escape text ++ ['"'])) where
  not_layout := by
    rw [List.any_cons, List.any_append, not_layout_escape]
    rfl
  blankComments_eq tail := by
    rw [List.cons_append, List.append_assoc, blankComments, if_pos (.inl rfl), List.singleton_append,
      (isBody_escape text).enclosed.blankComments_close (by decide), List.cons_append, List.append_assoc, List.singleton_append]

end Syntax

namespace Content

open Syntax

theorem clear_digits (n : Nat) : Clear (Nat.toDigits 10 n) := by
  refine .of_not_mark (List.any_eq_false.mpr fun x hx hmark => ?_)
  have hdigit : x.isDigit = true := Syntax.isDigit_of_mem_toDigits hx
  simp only [isMark, isLayout, Bool.or_eq_true, beq_iff_eq] at hmark
  rcases hmark with ((((rfl | rfl) | rfl) | rfl) | rfl) | rfl <;> exact absurd hdigit (by decide)

mutual

theorem clear_text : ∀ c : Content, Clear c.text
  | nil => .of_not_mark (by decide)
  | bool true => .of_not_mark (by decide)
  | bool false => .of_not_mark (by decide)
  | int (.ofNat n) => by
    rw [text_ofNat]
    exact clear_digits n
  | int (.negSucc n) => by
    rw [text_negSucc]
    exact .cons (by decide) (clear_digits (n + 1))
  | str s => .literal s.toList
  | array items => by
    have hend : Clear [']'] := .of_not_mark (by decide)
    exact .cons (by decide) ((Clear.separated (clear_itemTexts items)).append hend)
  | hash entries => by
    have hend : Clear ['\x7d'] := .of_not_mark (by decide)
    exact .cons (by decide) ((Clear.separated (clear_entryTexts entries)).append hend)

theorem clear_itemTexts : ∀ cs : List Content, ∀ t ∈ itemTexts cs, Clear t
  | [] => fun _ h => absurd h List.not_mem_nil
  | c :: cs => List.forall_mem_cons.mpr ⟨clear_text c, clear_itemTexts cs⟩

theorem clear_entryTexts : ∀ es : List (Content × Content), ∀ t ∈ entryTexts es, Clear t
  | [] => fun _ h => absurd h List.not_mem_nil
  | (k, v) :: es => by
    have harrow : Clear " => ".toList := .of_not_mark (by decide)
    exact List.forall_mem_cons.mpr
      ⟨((clear_text k).append harrow).append (clear_text v), clear_entryTexts es⟩

end

/-- The text of a content is prepared already. -/
theorem prepare_text (c : Content) : prepare c.text = c.text := (clear_text c).prepare_eq

end Content

/-! ## Statements -/

namespace Syntax

open MinRuby.Syntax.Parser

variable {nested : Phrase → Parser Term} {t : Term} {c c' : Cursor} {x : Char} {rest : List Char}

theorem compoundOperator_of_fail (h : ∀ o ∈ compoundOperators, symbol o.1 c = .fail) : compoundOperator c = .fail := by
  simp only [compoundOperators, List.forall_mem_cons] at h
  obtain ⟨h₁, h₂, h₃, h₄, h₅, h₆, -⟩ := h
  refine (orElse_of_fail (bind_of_fail h₁)).trans ?_
  refine (orElse_of_fail (bind_of_fail h₂)).trans ?_
  refine (orElse_of_fail (bind_of_fail h₃)).trans ?_
  refine (orElse_of_fail (bind_of_fail h₄)).trans ?_
  refine (orElse_of_fail (bind_of_fail h₅)).trans ?_
  exact orElse_of_fail (bind_of_fail h₆)

/-- No value is assigned at the end. -/
theorem assigned_of_end (h : c.skipBlanks.rest = []) :
    (assignment nested t <|> compoundAssignment nested t : Parser Term) c = .fail := by
  have hequals : symbol "=" c = .fail := symbol_of_end h (by decide)
  have hoperator : compoundOperator c = .fail := compoundOperator_of_fail fun o ho =>
    symbol_of_end h ((by decide : ∀ o ∈ compoundOperators, o.1.toList.isEmpty = false) o ho)
  exact (orElse_of_fail (bind_of_fail hequals)).trans (bind_of_fail hoperator)

theorem modifier_of_end (h : c.skipBlanks.rest = []) : modifier nested c = .fail := by
  have hword (w : String) (hw : w ∈ ["if", "unless", "while"]) : keyword w c = .fail :=
    keyword_of_end h ((by decide : ∀ w ∈ ["if", "unless", "while"], w.toList.isEmpty = false) w hw)
  refine bind_of_fail ?_
  refine (orElse_of_fail (bind_of_fail (hword "if" (by decide)))).trans ?_
  refine (orElse_of_fail (bind_of_fail (hword "unless" (by decide)))).trans ?_
  exact bind_of_fail (hword "while" (by decide))

theorem separator_of_end (h : c.skipBlanks.rest = []) : separator c = .fail :=
  (orElse_of_fail (symbol_of_end h (by decide))).trans (symbol_of_end h (by decide))

theorem separator_of_ne (h : c.skipBlanks.rest = x :: rest) (hx : x ≠ '\n' ∧ x ≠ ';') : separator c = .fail :=
  (orElse_of_fail (symbol_of_ne h (by simpa using Ne.symm hx.1))).trans
    (symbol_of_ne h (by simpa using Ne.symm hx.2))

theorem separators_of_fail (h : separator c = .fail) : separators c = .done () c := by
  rw [separators, bind_of_done (many_of_fail h)]
  rfl

/-- The only operand up to the end, which starts as no name does, is the whole value. -/
theorem value_of_primary (hp : primary nested c = .done t c') (hend : c'.rest = []) (hname : identifier c = .fail) :
    value nested c = .done t c' := by
  have hcloses : Closes c'.rest := hend ▸ .done
  have hcommand : commandCall nested c = .fail := bind_of_fail hname
  have hpure : (Parser.pure t : Parser Term) c' = .done t c' := rfl
  rw [value, indexed_of_done hp (hcloses.head_ne (by decide))]
  simp only [assigned_of_end (Cursor.rest_skipBlanks_of_end hend), hcommand]
  exact expressionFrom_of_done (power_of_done hpure hcloses) hcloses

/-- The only signed operand up to the end is the whole value. -/
theorem value_of_minus (hm : minus nested c = .done t c') (hend : c'.rest = []) (h : c.skipBlanks.rest = '-' :: rest) :
    value nested c = .done t c' := by
  have hindexed : indexed nested c = .fail := bind_of_fail (primary_of_idle h (by decide))
  rw [value, hindexed]
  simp only
  exact expressionFrom_of_done (orElse_of_done hm) (hend ▸ .done)

/-- The only value up to the end is the only statement. -/
theorem block_of_value (hv : value nested c = .done t c') (hend : c'.rest = []) (h : separator c = .fail) :
    block nested c = .done (.block [t]) c' := by
  have hskip := Cursor.rest_skipBlanks_of_end hend
  have hstatement : statement nested c = .done t c' := by
    rw [statement, bind_of_done hv, bind_of_done (many_of_fail (modifier_of_end hskip))]
    rfl
  have hseparator : separator c' = .fail := separator_of_end hskip
  have hmore : (do let _ ← separators1; statement nested : Parser Term) c' = .fail :=
    bind_of_fail (bind_of_fail hseparator)
  have hstatements : sepBy1 (statement nested) separators1 c = .done [t] c' := by
    rw [sepBy1, bind_of_done hstatement, bind_of_done (many_of_fail hmore)]
    rfl
  rw [block, bind_of_done (separators_of_fail h), bind_of_done (optional_of_done hstatements),
    bind_of_done (separators_of_fail hseparator)]
  rfl

/-- Where a reserved word stands, no name does. -/
theorem identifier_of_keyword {word : String} (hword : word ∈ keywords) (h : keyword word c = .done () c') :
    identifier c = .fail := by
  suffices hany : ∀ words : List String, word ∈ words →
      ∃ c'', words.foldr (fun w p => keyword w <|> p) Parser.fail c = .done () c'' by
    obtain ⟨c'', hread⟩ := hany keywords hword
    exact bind_of_fail (notAhead_of_done hread)
  intro words hmem
  induction words with
  | nil => exact absurd hmem List.not_mem_nil
  | cons w words ih =>
    rw [List.foldr_cons]
    rcases List.mem_cons.mp hmem with rfl | hmem
    · exact ⟨c', orElse_of_done h⟩
    · obtain ⟨c'', hread⟩ := ih hmem
      by_cases hw : keyword w c = .fail
      · exact ⟨c'', (orElse_of_fail hw).trans hread⟩
      · rw [keyword_eq] at hw
        split at hw
        · next hcond => exact ⟨_, orElse_of_done (by rw [keyword_eq, if_pos hcond])⟩
        · exact absurd rfl hw

end Syntax

namespace Content

open Syntax
open MinRuby.Text (expandTabs)

/-- No name starts where the text of a content without sign stands. -/
theorem identifier_of_text {c : Content} {cursor : Cursor} (hc : c.isSigned = false) (hat : cursor.At c.text) :
    Parser.identifier cursor = .fail := by
  have hat' : cursor.At (c.text ++ []) := by rwa [List.append_nil]
  have word (w : String) (hw : w ∈ keywords) (htext : c.text = w.toList) : Parser.identifier cursor = .fail := by
    rw [htext] at hat'
    obtain ⟨c', hread, -⟩ := keyword_of_rest hat'.rest_eq hat'.before_eq (Closes.done.head_ne (by decide))
    exact identifier_of_keyword hw hread
  cases c with
  | nil => exact word "nil" (by decide) rfl
  | bool b => cases b with
    | true => exact word "true" (by decide) rfl
    | false => exact word "false" (by decide) rfl
  | int n => cases n with
    | ofNat n =>
      obtain ⟨x, rest, hx⟩ := List.exists_cons_of_ne_nil (Nat.toDigits_ne_nil (n := n) (b := 10))
      have hdigit : x.isDigit = true := isDigit_of_mem_toDigits (by rw [hx]; exact List.mem_cons_self)
      exact identifier_of_head (by rw [hat.rest_eq, text_ofNat, hx]; exact not_letter_of_isDigit hdigit)
    | negSucc n => cases hc
  | str s => exact identifier_of_head (by rw [hat.rest_eq]; rfl)
  | array items => exact identifier_of_head (by rw [hat.rest_eq]; rfl)
  | hash entries => exact identifier_of_head (by rw [hat.rest_eq]; rfl)

/-- The text of a content is read as one value. -/
theorem value_of_text {c : Content} {cursor : Cursor} {d : Nat} (hc : c.Readable) (hd : c.text.length ≤ d + 1)
    (hat : cursor.At c.text) : ∃ c', Syntax.value (phrase (d + 1)) cursor = .done c.term c' ∧ c'.rest = [] := by
  have hat' : cursor.At (c.text ++ []) := by rwa [List.append_nil]
  cases hsign : c.isSigned with
  | false =>
    obtain ⟨c', hread, hend⟩ := reads_primary (d := d + 1) hc hsign (by omega) cursor [] hat' .done
    exact ⟨c', value_of_primary hread hend (identifier_of_text hsign hat), hend⟩
  | true =>
    obtain ⟨n, rfl⟩ := eq_negSucc_of_isSigned hsign
    obtain ⟨c', hread, hend⟩ := reads_minus (d := d) hc cursor [] hat' .done
    have hrest : cursor.skipBlanks.rest = '-' :: Nat.toDigits 10 (n + 1) := by rw [hat.rest_eq, text_negSucc]
    exact ⟨c', value_of_minus hread hend hrest, hend⟩

/-- The program that consists of the text of a content. -/
theorem readProgram_text {c : Content} (hc : c.Readable) (filename : String) :
    readProgram (String.ofList c.text) filename = .ok (.block [c.term]) := by
  obtain ⟨x, rest, htext, hx⟩ := text_eq_cons c
  have hfirst : x ≠ ' ' ∧ x ≠ '\n' ∧ x ≠ ';' := by
    rcases hx with h | h | ⟨-, rfl⟩
    · exact ⟨ne_of_opens (.inl h) (by decide), ne_of_opens (.inl h) (by decide), ne_of_opens (.inl h) (by decide)⟩
    · exact ⟨ne_of_opens (.inr h) (by decide), ne_of_opens (.inr h) (by decide), ne_of_opens (.inr h) (by decide)⟩
    · decide
  have hskip : (Cursor.start c.text).skipBlanks = Cursor.start c.text := Cursor.skipBlanks_of_ne htext hfirst.1
  have hat : (Cursor.start c.text).At c.text := ⟨by rw [hskip]; rfl, by rw [hskip]; rfl⟩
  obtain ⟨d, hd⟩ : ∃ d, c.text.length = d + 1 := ⟨rest.length, by rw [htext, List.length_cons]⟩
  obtain ⟨c', hvalue, hend⟩ := value_of_text (d := d) hc (by omega) hat
  have hseparator : Parser.separator (Cursor.start c.text) = .fail :=
    separator_of_ne (hat.rest_eq.trans htext) hfirst.2
  have hread : parsePhrase .block c.text = .done (.block [c.term]) c' := by
    rw [parsePhrase, hd]
    exact block_of_value hvalue hend hseparator
  have htabs : expandTabs c.text = c.text :=
    expandTabs_of_not_mem ((clear_text c).not_mem (by decide))
  have hbehind := Cursor.rest_skipBlanks_of_end hend
  rw [readProgram, String.toList_ofList, prepare_text, readWhole, htabs]
  simp only [hread, hbehind]

end Content

end MinRuby
