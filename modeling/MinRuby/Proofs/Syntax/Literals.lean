import MinRuby.Proofs.Syntax.Parsing
import MinRuby.Proofs.Value.Content
import MinRuby.Syntax.Program

/-!
# Reading literals

The text of a content is read as one term, whatever closing text stands behind it. A parser that does so
satisfies `ReadsAs`; the rules for lists carry it from the elements to the literal, and the depth that the
grammar needs is bounded by the length of the text.

* `IsBody` — the texts that can stand between two quotes.
* `Content.reads_primary` — the text of a content without sign is an operand.
* `Content.reads_expression` — the text of any content is an expression.
-/

namespace MinRuby.Syntax

open MinRuby.Text (digitValue? isDecimalDigit)
open MinRuby.Numeric (digitsValue)
open MinRuby.Syntax.Parser

/-! ## Numerals -/

theorem digitValue?_of_isDigit {x : Char} (h : x.isDigit = true) : digitValue? x = some (x.toNat - '0'.toNat) := by
  have hrange : 0x30 ≤ x.toNat ∧ x.toNat < 0x30 + 10 := by
    simp only [Char.isDigit, Bool.and_eq_true, decide_eq_true_eq, ge_iff_le, UInt32.le_iff_toNat_le] at h
    exact ⟨h.1, Nat.lt_succ_of_le h.2⟩
  unfold digitValue? MinRuby.Text.digitZeros
  rw [List.find?_cons_of_pos (by simpa using hrange)]
  rfl

theorem isDecimalDigit_of_isDigit {x : Char} (h : x.isDigit = true) : isDecimalDigit x = true := by
  rw [isDecimalDigit, digitValue?_of_isDigit h]
  rfl

/-- Letters and the underscore stand between `A` and `z`. -/
theorem bounds_of_letter {x : Char} (h : (x.isAlpha || x == '_') = true) : 65 ≤ x.toNat ∧ x.toNat ≤ 122 := by
  have hcases : (x.isUpper || x.isLower || x == '_') = true := h
  rw [Bool.or_eq_true, Bool.or_eq_true, beq_iff_eq] at hcases
  rcases hcases with (hupper | hlower) | rfl
  · obtain ⟨hlow, hhigh⟩ : 'A'.val ≤ x.val ∧ x.val ≤ 'Z'.val := of_decide_eq_true hupper
    exact ⟨UInt32.le_iff_toNat_le.mp hlow, Nat.le_trans (UInt32.le_iff_toNat_le.mp hhigh) (by decide)⟩
  · obtain ⟨hlow, hhigh⟩ := Bool.and_eq_true_iff.mp hlower
    exact ⟨Nat.le_trans (by decide) (UInt32.le_iff_toNat_le.mp (of_decide_eq_true hlow)),
      UInt32.le_iff_toNat_le.mp (of_decide_eq_true hhigh)⟩
  · decide

theorem not_letter_of_isDigit {x : Char} (h : x.isDigit = true) : (x.isAlpha || x == '_') = false := by
  refine Bool.eq_false_iff.mpr fun hletter => ?_
  have hhigh : x.toNat ≤ 57 := UInt32.le_iff_toNat_le.mp (of_decide_eq_true (Bool.and_eq_true_iff.mp h).2)
  exact absurd (Nat.le_trans (bounds_of_letter hletter).1 hhigh) (by decide)

theorem isDigit_of_mem_toDigits {x : Char} {n : Nat} (h : x ∈ Nat.toDigits 10 n) : x.isDigit = true :=
  Nat.isDigit_of_mem_toDigits (by decide) (by decide) h

theorem foldl_digits : ∀ {digits : List Char} (n : Nat), (∀ x ∈ digits, x.isDigit = true) →
    digits.foldl (fun n c => 10 * n + (digitValue? c).getD 0) n = Nat.ofDigitChars 10 digits n
  | [], _, _ => Nat.ofDigitChars_nil.symm
  | x :: rest, n, h => by
    rw [List.foldl_cons, Nat.ofDigitChars_cons, digitValue?_of_isDigit (h x List.mem_cons_self), Option.getD_some]
    exact foldl_digits _ fun y hy => h y (List.mem_cons_of_mem x hy)

theorem digitsValue_toDigits (n : Nat) : digitsValue (Nat.toDigits 10 n) = n := by
  rw [digitsValue, foldl_digits 0 fun _ => isDigit_of_mem_toDigits, Nat.ofDigitChars_ten_toDigits]

variable {c : Cursor} {tail rest : List Char} {x : Char}

/-- Whether a numeral goes on with the character. -/
def continuesNumeral (x : Char) : Bool := isDecimalDigit x || x == '_' || x == '.' || x == 'e' || x == 'E'

/-- A digit, then digits and underscores, as far as the end of the numeral: it is an integer, if it is not too long. -/
theorem numeral_of_digits {first : Char} {more : List Char} (h : c.skipBlanks.rest = first :: more ++ tail)
    (hfirst : isDecimalDigit first = true) (hmore : ∀ x ∈ more, (isDecimalDigit x || x == '_') = true)
    (ht : tail.head?.any continuesNumeral = false) :
    ∃ c', c'.rest = tail ∧ numeral c =
      if maxDigits < ((first :: more).filter (· ≠ '_')).length then .giveUp .numeral
      else .done (.int (digitsValue ((first :: more).filter (· ≠ '_')))) c' := by
  have hnot {p : Char → Bool} (hp : ∀ x, p x = true → continuesNumeral x = true) : tail.head?.any p = false := by
    cases tail with
    | nil => rfl
    | cons y rest =>
      refine Bool.eq_false_iff.mpr fun hy => ?_
      exact Bool.false_ne_true (ht.symm.trans (hp y hy))
  have hdigit : satisfying isDecimalDigit c.skipBlanks = .done first ⟨some first, more ++ tail⟩ := satisfying_of_rest h hfirst
  obtain ⟨c', hdigits, rfl⟩ : ∃ c', takeWhile (fun c => isDecimalDigit c || c == '_') ⟨some first, more ++ tail⟩ =
      .done more c' ∧ c'.rest = tail :=
    takeWhile_of_rest rfl hmore (hnot fun x hx => by simp only [continuesNumeral, hx, Bool.true_or])
  have hfraction : fraction c' = .fail :=
    bind_of_fail (adjacent_of_head (hnot fun x hx => by simp only [continuesNumeral, hx, Bool.or_true, Bool.true_or]))
  have hexponent : exponent c' = .fail := bind_of_fail (satisfying_of_head (hnot fun x hx => by
    simp only [continuesNumeral, Bool.or_assoc, hx, Bool.or_true]))
  refine ⟨c', rfl, ?_⟩
  rw [numeral, bind_of_done (blanks_eq c), bind_of_done hdigit, bind_of_done hdigits, bind_of_done (optional_of_fail hfraction),
    bind_of_done (optional_of_fail hexponent)]
  simp only [Option.isNone_none, Bool.and_self, if_true]
  split <;> rfl

/-- The digits of a number, with a closing text behind them. -/
theorem numeral_of_rest {n : Nat} (h : c.skipBlanks.rest = Nat.toDigits 10 n ++ tail) (ht : Closes tail)
    (hn : (Nat.toDigits 10 n).length ≤ maxDigits) : ∃ c', numeral c = .done (.int n) c' ∧ c'.rest = tail := by
  have hdigit (x : Char) (hx : x ∈ Nat.toDigits 10 n) : isDecimalDigit x = true :=
    isDecimalDigit_of_isDigit (isDigit_of_mem_toDigits hx)
  obtain ⟨y, more, hdigits⟩ : ∃ y more, Nat.toDigits 10 n = y :: more :=
    List.exists_cons_of_ne_nil Nat.toDigits_ne_nil
  have hmore (x : Char) (hx : x ∈ more) : (isDecimalDigit x || x == '_') = true := by
    rw [hdigit x (by rw [hdigits]; exact List.mem_cons_of_mem y hx), Bool.true_or]
  have hwhole : (y :: more).filter (· ≠ '_') = Nat.toDigits 10 n := by
    rw [← hdigits]
    refine List.filter_eq_self.mpr fun x hx => decide_eq_true ?_
    rintro rfl
    exact Nat.underscore_not_in_toDigits hx
  rw [hdigits] at h
  obtain ⟨c', hrest, hread⟩ := numeral_of_digits h (hdigit y (by rw [hdigits]; exact List.mem_cons_self)) hmore
    (ht.head_ne (by decide))
  rw [hwhole, if_neg (Nat.not_lt_of_le hn), digitsValue_toDigits] at hread
  exact ⟨c', hread, hrest⟩

theorem numeral_of_head (h : c.skipBlanks.rest.head?.any isDecimalDigit = false) : numeral c = .fail := by
  rw [numeral, bind_of_done (blanks_eq c)]
  exact bind_of_fail (satisfying_of_head h)

/-! ## String literals -/

/-- The characters that the preparation of source text looks for everywhere. -/
def isLayout (x : Char) : Bool := x == '\r' || x == '\n' || x == '\t'

/-- What is written for a character: the character itself, or a backslash and a character behind it. -/
theorem escapeChar_cases (x : Char) :
    (escapeChar x = [x] ∧ x ≠ '\\' ∧ x ≠ '"' ∧ isLayout x = false) ∨
      ∃ y, escapeChar x = ['\\', y] ∧ isLayout y = false := by
  unfold escapeChar
  split
  case h_12 hslash hquote hline htab hreturn _ _ _ _ _ _ =>
    refine .inl ⟨rfl, hslash, hquote, ?_⟩
    simp only [isLayout, Bool.or_eq_false_iff, beq_eq_false_iff_ne]
    exact ⟨⟨hreturn, hline⟩, htab⟩
  all_goals exact .inr ⟨_, rfl, rfl⟩

/-- A string literal stands between two of these. -/
def IsQuote (quote : Char) : Prop := quote = '"' ∨ quote = '\''

/-- A text that can stand between the quotes of a literal: characters other than the quote and the backslash, and
backslashes with any character but a line feed behind them. -/
inductive IsBody (quote : Char) : List Char → Prop where
  | nil : IsBody quote []
  | plain {c : Char} {rest : List Char} (hquote : c ≠ quote) (hslash : c ≠ '\\') (h : IsBody quote rest) :
    IsBody quote (c :: rest)
  | escaped {c : Char} {rest : List Char} (hc : c ≠ '\n') (h : IsBody quote rest) : IsBody quote ('\\' :: c :: rest)

/-- What is written for a text is a body. -/
theorem isBody_escape (text : List Char) : IsBody '"' (escape text) := by
  induction text with
  | nil => exact .nil
  | cons x text ih =>
    rw [escape, List.flatMap_cons, ← escape]
    rcases escapeChar_cases x with ⟨hx, hslash, hquote, -⟩ | ⟨y, hx, hlayout⟩
    · rw [hx]
      exact .plain hquote hslash ih
    · have hline : y ≠ '\n' := by
        rintro rfl
        exact absurd hlayout (by decide)
      rw [hx]
      exact .escaped hline ih

/-- The body is read up to the quote. -/
theorem IsBody.literalBody_eq {quote : Char} {body : List Char} (h : IsBody quote body) (hquote : IsQuote quote)
    (tail : List Char) : literalBody quote (body ++ quote :: tail) = some body := by
  induction h with
  | nil =>
    rw [List.nil_append, literalBody, if_pos rfl]
    rintro _ _ rfl
    rcases hquote with h | h <;> exact absurd h (by decide)
  | plain hc hslash _ ih =>
    rw [List.cons_append, literalBody, if_neg hc, if_neg hslash, ih]
    · rfl
    · exact fun _ _ h => absurd h hslash
  | escaped hc _ ih => rw [List.cons_append, List.cons_append, literalBody, if_neg hc, ih]; rfl

theorem IsBody.quotedLiteral_eq {quote : Char} {body : List Char} (h : IsBody quote body) (hquote : IsQuote quote)
    (hat : c.skipBlanks.rest = quote :: (body ++ quote :: tail)) :
    ∃ next, quotedLiteral quote c = .done body next ∧ next.rest = tail := by
  let opened : Cursor := ⟨some quote, body ++ quote :: tail⟩
  refine ⟨opened.skip (body.length + 1), ?_, by rw [Cursor.skip_of_rest rfl]⟩
  rw [quotedLiteral, bind_of_done (blanks_eq c)]
  refine (bind_of_done (adjacent_of_rest hat)).trans ?_
  simp only [h.literalBody_eq hquote, opened]

theorem stringLiteral_of_rest {t : String} (h : c.skipBlanks.rest = '"' :: (escape t.toList ++ '"' :: tail)) :
    ∃ c', stringLiteral c = .done (.str t) c' ∧ c'.rest = tail := by
  obtain ⟨c', hquoted, hrest⟩ := (isBody_escape t.toList).quotedLiteral_eq (.inl rfl) h
  refine ⟨c', ?_, hrest⟩
  rw [stringLiteral]
  refine orElse_of_done ?_
  rw [bind_of_done hquoted, unescapeDouble_escape, String.ofList_toList]
  rfl

theorem quotedLiteral_of_head {quote : Char} (h : c.skipBlanks.rest.head?.any (· == quote) = false) :
    quotedLiteral quote c = .fail := by
  rw [quotedLiteral, bind_of_done (blanks_eq c)]
  exact bind_of_fail (adjacent_of_head h)

theorem stringLiteral_of_ne (h : c.skipBlanks.rest = x :: rest) (hx : (x == '"') = false ∧ (x == '\'') = false) :
    stringLiteral c = .fail := by
  rw [stringLiteral, orElse_of_fail (bind_of_fail (quotedLiteral_of_head (by rw [h]; exact hx.1)))]
  exact bind_of_fail (quotedLiteral_of_head (by rw [h]; exact hx.2))

/-! ## Where no operand starts -/

/-- Characters that start no operand. -/
def idle : List Char := ['-', ']', '\x7d']

theorem mem_idle (hx : x ∈ idle) : x = '-' ∨ x = ']' ∨ x = '\x7d' := by simpa [idle] using hx

section

variable {nested : Phrase → Parser Term}

/-- No reserved word starts where no letter stands. -/
theorem keyword_of_head {word : String} (h : c.skipBlanks.rest.head?.any (fun x => x.isAlpha || x == '_') = false)
    (hword : word ∈ keywords) : keyword word c = .fail := by
  have hletter : word.toList.head?.any Char.isAlpha = true :=
    (by decide : ∀ w ∈ keywords, w.toList.head?.any Char.isAlpha = true) word hword
  cases hrest : c.skipBlanks.rest with
  | nil =>
    refine keyword_of_end hrest ?_
    cases htext : word.toList with
    | nil =>
      rw [htext] at hletter
      cases hletter
    | cons y more => rfl
  | cons x rest =>
    refine keyword_of_ne hrest ?_
    rw [hrest] at h
    cases hy : word.toList.head? with
    | none => rwa [hy] at hletter
    | some y =>
      rw [hy] at hletter
      have hne : y ≠ x := by
        rintro rfl
        exact Bool.false_ne_true ((Bool.or_eq_false_iff.mp h).1.symm.trans hletter)
      simpa using hne

theorem anyKeyword_of_fail : ∀ {words : List String}, (∀ w ∈ words, keyword w c = .fail) →
    words.foldr (fun w p => keyword w <|> p) Parser.fail c = .fail
  | [], _ => rfl
  | w :: rest, h => by
    rw [List.foldr_cons, orElse_of_fail (h w List.mem_cons_self)]
    exact anyKeyword_of_fail fun w' hw => h w' (List.mem_cons_of_mem w hw)

theorem identifier_of_head (h : c.skipBlanks.rest.head?.any (fun x => x.isAlpha || x == '_') = false) :
    identifier c = .fail := by
  have hwords : anyKeyword c = .fail := anyKeyword_of_fail fun _ hw => keyword_of_head h hw
  rw [identifier, bind_of_done (notAhead_of_fail hwords), bind_of_done (blanks_eq c)]
  exact bind_of_fail (satisfying_of_head h)

/-- Whether an operand without sign can start with the character. -/
def startsOperand (x : Char) : Bool :=
  isDecimalDigit x || x == '"' || x == '\'' || (x.isAlpha || x == '_') || x == '[' || x == '\x7b' || x == '('

/-- Where neither a literal nor a bracket nor a reserved word starts, only a name is left. -/
theorem primary_of_no_opening (hnumeral : numeral c = .fail) (hstring : stringLiteral c = .fail)
    (hsymbol : ∀ o ∈ ["[", "\x7b", "("], symbol o c = .fail) (hword : ∀ w ∈ keywords, keyword w c = .fail) :
    primary nested c = (callWithParentheses nested <|> (Term.name <$> identifier)) c := by
  refine (orElse_of_fail (map_of_fail hnumeral)).trans ?_
  refine (orElse_of_fail (map_of_fail hstring)).trans ?_
  refine (orElse_of_fail (bind_of_fail (hword "true" (by decide)))).trans ?_
  refine (orElse_of_fail (bind_of_fail (hword "false" (by decide)))).trans ?_
  refine (orElse_of_fail (bind_of_fail (hword "nil" (by decide)))).trans ?_
  refine (orElse_of_fail (bind_of_fail (hsymbol "[" (by decide)))).trans ?_
  refine (orElse_of_fail (bind_of_fail (hsymbol "\x7b" (by decide)))).trans ?_
  refine (orElse_of_fail (bind_of_fail (hsymbol "(" (by decide)))).trans ?_
  refine (orElse_of_fail (bind_of_fail (bind_of_fail (hword "if" (by decide))))).trans ?_
  refine (orElse_of_fail (bind_of_fail (bind_of_fail (hword "unless" (by decide))))).trans ?_
  refine (orElse_of_fail (bind_of_fail (hword "while" (by decide)))).trans ?_
  refine (orElse_of_fail (bind_of_fail (hword "case" (by decide)))).trans ?_
  refine (orElse_of_fail (bind_of_fail (hword "def" (by decide)))).trans ?_
  exact orElse_of_fail (bind_of_fail (hword "begin" (by decide)))

/-- No operand starts at the end of the text or where no character that an operand can start with stands. -/
theorem primary_of_head (h : c.skipBlanks.rest.head?.any startsOperand = false) : primary nested c = .fail := by
  have hhead {p : Char → Bool} (hp : ∀ x, p x = true → startsOperand x = true) : c.skipBlanks.rest.head?.any p = false := by
    cases hrest : c.skipBlanks.rest with
    | nil => rfl
    | cons y rest =>
      rw [hrest] at h
      exact Bool.eq_false_iff.mpr fun hy => Bool.false_ne_true (h.symm.trans (hp y hy))
  have hchar {x : Char} (hx : startsOperand x = true) : c.skipBlanks.rest.head?.any (· == x) = false :=
    hhead fun y hy => by rwa [eq_of_beq hy]
  have hnumeral : numeral c = .fail := numeral_of_head (hhead fun x hx => by simp only [startsOperand, hx, Bool.true_or])
  have hstring : stringLiteral c = .fail :=
    (orElse_of_fail (bind_of_fail (quotedLiteral_of_head (hchar (by decide))))).trans
      (bind_of_fail (quotedLiteral_of_head (hchar (by decide))))
  have hsymbol : ∀ o ∈ ["[", "\x7b", "("], symbol o c = .fail := by
    simp only [List.forall_mem_cons]
    exact ⟨symbol_of_head rfl (hchar (by decide)), symbol_of_head rfl (hchar (by decide)),
      symbol_of_head rfl (hchar (by decide)), fun _ hmem => absurd hmem List.not_mem_nil⟩
  have hletter := hhead (p := fun x => x.isAlpha || x == '_')
    fun x hx => by simp only [startsOperand, hx, Bool.or_true, Bool.true_or]
  have hname : identifier c = .fail := identifier_of_head hletter
  rw [primary_of_no_opening hnumeral hstring hsymbol fun w hw => keyword_of_head hletter hw]
  exact (orElse_of_fail (bind_of_fail hname)).trans (map_of_fail hname)

theorem primary_of_idle (h : c.skipBlanks.rest = x :: rest) (hx : x ∈ idle) : primary nested c = .fail := by
  refine primary_of_head ?_
  rw [h, List.head?_cons, Option.any_some]
  rcases mem_idle hx with rfl | rfl | rfl <;> decide

theorem negation_of_ne (h : c.skipBlanks.rest = x :: rest) (hx : (x == '!') = false) : negation nested c = .fail :=
  bind_of_fail (symbol_of_ne h (by rw [BEq.comm] at hx; simp [bne, hx]))

theorem minus_of_ne (h : c.skipBlanks.rest = x :: rest) (hx : (x == '-') = false) : minus nested c = .fail :=
  bind_of_fail (symbol_of_ne h (by rw [BEq.comm] at hx; simp [bne, hx]))

theorem chain_of_fail {operand first : Parser Term} (h : first c = .fail) : ∀ ls : List Level,
    chain operand ls first c = .fail
  | [] => h
  | _ :: tighter => bind_of_fail (chain_of_fail h tighter)

/-- No expression starts with a closing bracket or brace. -/
theorem expression_of_closing (h : c.skipBlanks.rest = x :: rest) (hx : x ∈ idle) (hminus : (x == '-') = false) :
    expression nested c = .fail := by
  have hnegated : negated nested c = .fail := by
    have hmark : (x == '!') = false := by rcases mem_idle hx with rfl | rfl | rfl <;> decide
    rw [negated, orElse_of_fail (negation_of_ne h hmark), indexed]
    exact bind_of_fail (primary_of_idle h hx)
  have hsigned : signed nested c = .fail := by
    rw [signed, orElse_of_fail (minus_of_ne h hminus), power]
    exact bind_of_fail hnegated
  exact bind_of_fail (chain_of_fail hsigned levels)

end

/-! ## Lists -/

/-- After blanks the text goes on with the given one, and no letter stands right before it. -/
structure Cursor.At (c : Cursor) (text : List Char) : Prop where
  rest_eq : c.skipBlanks.rest = text
  before_eq : c.skipBlanks.before.any joinsKeyword = false

/-- The text has a first character, which is neither a blank nor a line feed. -/
def Starts (text : List Char) : Prop := ∃ x rest, text = x :: rest ∧ x ≠ ' ' ∧ x ≠ '\n'

/-- The parser reads the text as the given value wherever a text of the given kind follows. -/
def ReadsBefore {α : Type} (follows : List Char → Prop) (p : Parser α) (text : List Char) (a : α) : Prop :=
  ∀ c tail, c.At (text ++ tail) → follows tail → ∃ c', p c = .done a c' ∧ c'.rest = tail

/-- The parser reads the text as the given value if a closing text follows. -/
abbrev ReadsAs {α : Type} (p : Parser α) (text : List Char) (a : α) : Prop := ReadsBefore Closes p text a

namespace Starts

variable {text : List Char}

theorem append (h : Starts text) (tail : List Char) : Starts (text ++ tail) := by
  obtain ⟨y, rest, rfl, hy⟩ := h
  exact ⟨y, rest ++ tail, rfl, hy⟩

/-- Right behind a character. -/
theorem at_behind (h : Starts text) (hx : joinsKeyword x = false) : Cursor.At ⟨some x, text⟩ text := by
  obtain ⟨y, rest, rfl, hy, -⟩ := h
  have hskip : (⟨some x, y :: rest⟩ : Cursor).skipBlanks = ⟨some x, y :: rest⟩ := Cursor.skipBlanks_of_ne rfl hy
  exact ⟨by rw [hskip], by rw [hskip]; exact hx⟩

/-- Behind a character and a blank. -/
theorem at_behind_blank (h : Starts text) : Cursor.At ⟨some x, ' ' :: text⟩ text := by
  have hblank := at_behind h (by decide : joinsKeyword ' ' = false)
  exact ⟨hblank.rest_eq, hblank.before_eq⟩

theorem newlines (h : Starts text) (hc : c.At text) : Parser.newlines c = .done () c := by
  obtain ⟨y, rest, rfl, -, hy⟩ := h
  exact newlines_of_ne hc.rest_eq hy

end Starts

/-- The texts with a comma and a blank before each. -/
def continued {α : Type} (items : List (List Char × α)) : List Char := items.flatMap fun p => ',' :: ' ' :: p.1

/-- The brackets that end a list. -/
def listEnds : List Char := [']', '\x7d']

theorem mem_listEnds (hx : x ∈ listEnds) : x = ']' ∨ x = '\x7d' := by simpa [listEnds] using hx

theorem closes_of_listEnd (hx : x ∈ listEnds) : Closes (x :: rest) := by
  rcases mem_listEnds hx with rfl | rfl
  · exact .bracket rest
  · exact .brace rest

theorem ne_of_listEnd (hx : x ∈ listEnds) : x ≠ ' ' ∧ x ≠ '\n' ∧ (',' != x) = true := by
  rcases mem_listEnds hx with rfl | rfl <;> decide

/-- No comma stands before the end of a list. -/
theorem comma_of_listEnd (hx : x ∈ listEnds) (hc : c.rest = x :: rest) : symbol "," c = .fail := by
  obtain ⟨hblank, -, hcomma⟩ := ne_of_listEnd hx
  exact symbol_of_ne (by rw [Cursor.skipBlanks_of_ne hc hblank, hc]) hcomma

section

variable {α : Type} {item : Parser α}

theorem closes_continued {items : List (List Char × α)} (ht : Closes tail) : Closes (continued items ++ tail) := by
  cases items with
  | nil => exact ht
  | cons p rest => exact .comma _

/-- A comma and an item behind it. -/
theorem comma_item {text : List Char} {a : α} (hstart : Starts text) (hread : ReadsAs item text a)
    (hc : c.rest = ',' :: ' ' :: (text ++ tail)) (ht : Closes tail) :
    ∃ c', (do comma; item) c = .done a c' ∧ c'.rest = tail := by
  have hskip : c.skipBlanks.rest = ",".toList ++ ' ' :: (text ++ tail) := by
    rw [Cursor.skipBlanks_of_ne hc (by decide)]
    exact hc
  have hcomma : symbol "," c = .done () ⟨some ',', ' ' :: (text ++ tail)⟩ := symbol_of_rest (w := []) rfl hskip
  have hat : Cursor.At ⟨some ',', ' ' :: (text ++ tail)⟩ (text ++ tail) := (hstart.append tail).at_behind_blank
  obtain ⟨c', hitem, hrest⟩ := hread _ tail hat ht
  refine ⟨c', ?_, hrest⟩
  have hboth : comma c = .done () ⟨some ',', ' ' :: (text ++ tail)⟩ := by
    rw [comma, bind_of_done hcomma]
    exact (hstart.append tail).newlines hat
  rw [bind_of_done hboth, hitem]

theorem upTo_items (hx : x ∈ listEnds) : ∀ {items : List (List Char × α)} {n : Nat} {c : Cursor},
    (∀ p ∈ items, Starts p.1 ∧ ReadsAs item p.1 p.2) → items.length ≤ n →
    c.rest = continued items ++ x :: rest →
    ∃ c', upTo (do comma; item) n c = .done (items.map (·.2)) c' ∧ c'.rest = x :: rest
  | [], n, c, _, _, hc => by
    have hfail : comma c = .fail := bind_of_fail (comma_of_listEnd hx hc)
    exact ⟨c, upTo_of_fail (bind_of_fail hfail) n, hc⟩
  | p :: items, n + 1, c, hitems, hn, hc => by
    obtain ⟨hstart, hread⟩ := hitems p List.mem_cons_self
    have hclosed : Closes (continued items ++ x :: rest) := closes_continued (closes_of_listEnd hx)
    obtain ⟨c₁, hfirst, hrest₁⟩ := comma_item hstart hread (by simpa [continued] using hc) hclosed
    obtain ⟨c₂, hmore, hrest₂⟩ := upTo_items hx (fun q hq => hitems q (List.mem_cons_of_mem p hq))
      (Nat.le_of_succ_le_succ hn) hrest₁
    refine ⟨c₂, ?_, hrest₂⟩
    simp only [upTo, hfirst, hmore]
    rfl

theorem length_le_continued (items : List (List Char × α)) : items.length ≤ (continued items).length := by
  induction items with
  | nil => exact Nat.le_refl 0
  | cons p rest ih =>
    have hcons : continued (p :: rest) = ',' :: ' ' :: p.1 ++ continued rest := List.flatMap_cons
    rw [hcons, List.length_append, List.length_cons, List.length_cons, List.length_cons]
    omega

/-- Items with commas between them, up to the end of a list. -/
theorem sepBy1_items (hx : x ∈ listEnds) {p : List Char × α} {items : List (List Char × α)}
    (hitems : ∀ q ∈ p :: items, Starts q.1 ∧ ReadsAs item q.1 q.2)
    (hc : c.At (p.1 ++ (continued items ++ x :: rest))) :
    ∃ c', sepBy1 item comma c = .done (p.2 :: items.map (·.2)) c' ∧ c'.rest = x :: rest := by
  obtain ⟨c₁, hfirst, hrest₁⟩ := (hitems p List.mem_cons_self).2 c _ hc (closes_continued (closes_of_listEnd hx))
  have hlength : items.length ≤ c₁.rest.length := by
    rw [hrest₁, List.length_append]
    exact Nat.le_trans (length_le_continued items) (Nat.le_add_right _ _)
  obtain ⟨c₂, hmore, hrest₂⟩ := upTo_items hx (fun q hq => hitems q (List.mem_cons_of_mem p hq)) hlength hrest₁
  refine ⟨c₂, ?_, hrest₂⟩
  have hmany : many (do let _ ← comma; item) c₁ = .done (items.map (·.2)) c₂ := hmore
  rw [sepBy1, bind_of_done hfirst, bind_of_done hmany]
  rfl

theorem separated_eq (p : List Char × α) (items : List (List Char × α)) :
    Content.separated ((p :: items).map (·.1)) = p.1 ++ continued items := by
  induction items generalizing p with
  | nil => simp [Content.separated, continued]
  | cons q rest ih =>
    have hcons : continued (q :: rest) = ',' :: ' ' :: q.1 ++ continued rest := List.flatMap_cons
    have hrest := ih q
    rw [Content.separated, List.map_cons] at hrest
    rw [Content.separated, List.map_cons, List.map_cons, List.intercalate_cons_cons, hrest, hcons]
    simp

theorem starts_or_end (rest : List Char) (hx : x ∈ listEnds) {items : List (List Char × α)} (hitems : ∀ p ∈ items, Starts p.1) :
    Starts (Content.separated (items.map (·.1)) ++ x :: rest) := by
  cases items with
  | nil =>
    obtain ⟨hblank, hline, -⟩ := ne_of_listEnd hx
    exact ⟨x, rest, rfl, hblank, hline⟩
  | cons p items =>
    obtain ⟨y, more, hy, hne⟩ := hitems p List.mem_cons_self
    rw [separated_eq, hy]
    exact ⟨y, _, rfl, hne⟩

/-- The items between the brackets of a literal. -/
theorem optional_items (f : List α → List Term) (hf : f [] = []) (hx : x ∈ listEnds) {items : List (List Char × α)}
    (hitems : ∀ p ∈ items, Starts p.1 ∧ ReadsAs item p.1 p.2)
    (hnone : ∀ c, c.skipBlanks.rest = x :: rest → item c = .fail)
    (hc : c.At (Content.separated (items.map (·.1)) ++ x :: rest)) :
    ∃ found c', optional (do
        let read ← sepBy1 item comma
        let _ ← optional (symbol ",")
        return f read) c = .done found c' ∧
      found.getD [] = f (items.map (·.2)) ∧ c'.skipBlanks.rest = x :: rest := by
  obtain ⟨hblank, -, -⟩ := ne_of_listEnd hx
  cases items with
  | nil =>
    have hfail : sepBy1 item comma c = .fail := bind_of_fail (hnone c hc.rest_eq)
    exact ⟨none, c, optional_of_fail (bind_of_fail hfail), hf.symm, hc.rest_eq⟩
  | cons p items =>
    rw [separated_eq, List.append_assoc] at hc
    obtain ⟨c', hread, hrest⟩ := sepBy1_items hx hitems hc
    have hcomma : optional (symbol ",") c' = .done none c' := optional_of_fail (comma_of_listEnd hx hrest)
    refine ⟨some (f (p.2 :: items.map (·.2))), c', optional_of_done ?_, rfl, ?_⟩
    · rw [bind_of_done hread, bind_of_done hcomma]
      rfl
    · rw [Cursor.skipBlanks_of_ne hrest hblank, hrest]

end

/-! ## Operands -/

section

variable {nested : Phrase → Parser Term} {t : Term} {c' : Cursor}

/-- An operand that no sign or negation precedes. -/
theorem signed_of_primary (hp : primary nested c = .done t c') (h : c.skipBlanks.rest = x :: rest)
    (hx : x ≠ '!' ∧ x ≠ '-') (hc : Closes c'.rest) : signed nested c = .done t c' := by
  have hnegation : negation nested c = .fail := bind_of_fail (symbol_of_ne h (by simpa using Ne.symm hx.1))
  have hminus : minus nested c = .fail := bind_of_fail (symbol_of_ne h (by simpa using Ne.symm hx.2))
  have hnegated : negated nested c = .done t c' :=
    (orElse_of_fail hnegation).trans (indexed_of_done hp (hc.head_ne (by decide)))
  exact (orElse_of_fail hminus).trans (power_of_done hnegated hc)

theorem primary_of_numeral {n : Nat} (h : c.skipBlanks.rest = Nat.toDigits 10 n ++ tail) (ht : Closes tail)
    (hn : (Nat.toDigits 10 n).length ≤ maxDigits) :
    ∃ c', primary nested c = .done (.lit (.int n)) c' ∧ c'.rest = tail := by
  obtain ⟨c', hread, hrest⟩ := numeral_of_rest h ht hn
  exact ⟨c', orElse_of_done (map_of_done hread), hrest⟩

theorem primary_of_string {s : String} (h : c.skipBlanks.rest = '"' :: (escape s.toList ++ '"' :: tail)) :
    ∃ c', primary nested c = .done (.lit (.str s)) c' ∧ c'.rest = tail := by
  have hnumeral : numeral c = .fail := numeral_of_head (by rw [h]; exact (by decide : isDecimalDigit '"' = false))
  obtain ⟨c', hread, hrest⟩ := stringLiteral_of_rest h
  exact ⟨c', (orElse_of_fail (map_of_fail hnumeral)).trans (orElse_of_done (map_of_done hread)), hrest⟩

theorem literalWord_of_rest {word : String} {value : Literal} (h : c.At (word.toList ++ tail))
    (ht : tail.head?.any joinsKeyword = false) :
    ∃ c', literalWord word value c = .done (.lit value) c' ∧ c'.rest = tail := by
  obtain ⟨c', hread, hrest⟩ := keyword_of_rest h.rest_eq h.before_eq ht
  exact ⟨c', bind_of_done hread, hrest⟩

/-- What comes behind numerals and string literals. -/
theorem primary_of_ne (h : c.skipBlanks.rest = x :: rest)
    (hx : isDecimalDigit x = false ∧ (x == '"') = false ∧ (x == '\'') = false) :
    primary nested c = (literalWord "true" (.bool true) <|> literalWord "false" (.bool false) <|>
      literalWord "nil" .nil <|> arrayLiteral nested <|> hashLiteral nested <|> parenthesized nested <|>
      ifExpression nested <|> unlessExpression nested <|> whileExpression nested <|> caseExpression nested <|>
      definition nested <|> beginExpression nested <|> callWithParentheses nested <|>
      (Term.name <$> identifier)) c := by
  have hnumeral : numeral c = .fail := numeral_of_head (by rw [h]; exact hx.1)
  exact (orElse_of_fail (map_of_fail hnumeral)).trans
    (orElse_of_fail (map_of_fail (stringLiteral_of_ne h hx.2)))

/-- The reserved words for literals. -/
def literalWords : List (String × Literal) := [("true", .bool true), ("false", .bool false), ("nil", .nil)]

/-- What comes behind the words for literals. -/
theorem primary_of_mark (h : c.skipBlanks.rest = x :: rest)
    (hx : isDecimalDigit x = false ∧ (x == '"') = false ∧ (x == '\'') = false)
    (hwords : ∀ w ∈ literalWords.map (·.1), w.toList.head?.any (· != x) = true) :
    primary nested c = (arrayLiteral nested <|> hashLiteral nested <|> parenthesized nested <|> ifExpression nested <|>
      unlessExpression nested <|> whileExpression nested <|> caseExpression nested <|> definition nested <|>
      beginExpression nested <|> callWithParentheses nested <|> (Term.name <$> identifier)) c := by
  refine (primary_of_ne h hx).trans ?_
  refine (orElse_of_fail (bind_of_fail (keyword_of_ne h (hwords "true" (by decide))))).trans ?_
  refine (orElse_of_fail (bind_of_fail (keyword_of_ne h (hwords "false" (by decide))))).trans ?_
  exact orElse_of_fail (bind_of_fail (keyword_of_ne h (hwords "nil" (by decide))))

/-- The word for a literal, where no letter or digit is next to it. -/
theorem primary_of_literalWord {word : String} {value : Literal} (hword : (word, value) ∈ literalWords)
    (h : c.At (word.toList ++ tail)) (ht : tail.head?.any joinsKeyword = false) :
    ∃ c', primary nested c = .done (.lit value) c' ∧ c'.rest = tail := by
  obtain ⟨c', hread, hrest⟩ : ∃ c', literalWord word value c = .done (.lit value) c' ∧ c'.rest = tail :=
    literalWord_of_rest h ht
  refine ⟨c', ?_, hrest⟩
  simp only [literalWords, List.mem_cons, Prod.mk.injEq, List.not_mem_nil, or_false] at hword
  rcases hword with ⟨rfl, rfl⟩ | ⟨rfl, rfl⟩ | ⟨rfl, rfl⟩
  · exact (primary_of_ne h.rest_eq (by decide)).trans (orElse_of_done hread)
  · refine (primary_of_ne h.rest_eq (by decide)).trans ?_
    exact (orElse_of_fail (bind_of_fail (keyword_of_ne h.rest_eq (by decide)))).trans (orElse_of_done hread)
  · refine (primary_of_ne h.rest_eq (by decide)).trans ?_
    refine (orElse_of_fail (bind_of_fail (keyword_of_ne h.rest_eq (by decide)))).trans ?_
    exact (orElse_of_fail (bind_of_fail (keyword_of_ne h.rest_eq (by decide)))).trans (orElse_of_done hread)

end

/-! ## Containers -/

section

variable {nested : Phrase → Parser Term}

theorem arrayLiteral_of_items {items : List (List Char × Term)}
    (hitems : ∀ p ∈ items, Starts p.1 ∧ ReadsAs (nested .expression) p.1 p.2)
    (hnone : ∀ c, c.skipBlanks.rest = ']' :: tail → nested .expression c = .fail)
    (hc : c.skipBlanks.rest = '[' :: (Content.separated (items.map (·.1)) ++ ']' :: tail)) :
    ∃ c', arrayLiteral nested c = .done (.array (items.map (·.2))) c' ∧ c'.rest = tail := by
  have hend : ']' ∈ listEnds := by decide
  have hstart := starts_or_end tail hend fun p hp => (hitems p hp).1
  have hat := hstart.at_behind (by decide : joinsKeyword '[' = false)
  have hopen : symbol "[" c = .done () ⟨some '[', Content.separated (items.map (·.1)) ++ ']' :: tail⟩ :=
    symbol_of_rest (w := []) rfl hc
  obtain ⟨found, c₁, hread, hfound, hrest⟩ := optional_items id rfl hend hitems hnone hat
  have hlines : newlines c₁ = .done () c₁ := newlines_of_ne hrest (by decide)
  have hclose : symbol "]" c₁ = .done () ⟨some ']', tail⟩ := symbol_of_rest (w := []) rfl hrest
  refine ⟨⟨some ']', tail⟩, ?_, rfl⟩
  rw [arrayLiteral, bind_of_done hopen, bind_of_done (hstart.newlines hat)]
  refine (bind_of_done hread).trans ?_
  rw [bind_of_done hlines, bind_of_done hclose, hfound]
  rfl

/-- A key and its value. -/
theorem keyAndValue_of_texts {k v : List Char} {key value : Term} (hk : ReadsAs (nested .expression) k key)
    (hstart : Starts v) (hv : ReadsAs (nested .expression) v value) :
    ReadsAs (keyAndValue nested) (k ++ " => ".toList ++ v) [key, value] := by
  intro c tail hc ht
  have htext : k ++ " => ".toList ++ v ++ tail = k ++ (' ' :: '=' :: '>' :: ' ' :: (v ++ tail)) := by
    rw [List.append_assoc, List.append_assoc]
    rfl
  rw [htext] at hc
  obtain ⟨c₁, hkey, hrest₁⟩ := hk c _ hc (.arrow _)
  have hskip : c₁.skipBlanks.rest = "=>".toList ++ ' ' :: (v ++ tail) := by
    rw [Cursor.rest_skipBlanks, hrest₁]
    rfl
  have harrow : symbol "=>" c₁ = .done () ⟨some '>', ' ' :: (v ++ tail)⟩ := symbol_of_rest (w := ['=']) rfl hskip
  have hat : Cursor.At ⟨some '>', ' ' :: (v ++ tail)⟩ (v ++ tail) := (hstart.append tail).at_behind_blank
  obtain ⟨c₂, hvalue, hrest₂⟩ := hv _ tail hat ht
  refine ⟨c₂, ?_, hrest₂⟩
  rw [keyAndValue, bind_of_done hkey, bind_of_done harrow, bind_of_done ((hstart.append tail).newlines hat),
    bind_of_done hvalue]
  rfl

theorem hashLiteral_of_items {items : List (List Char × List Term)}
    (hitems : ∀ p ∈ items, Starts p.1 ∧ ReadsAs (keyAndValue nested) p.1 p.2)
    (hnone : ∀ c, c.skipBlanks.rest = '\x7d' :: tail → nested .expression c = .fail)
    (hc : c.skipBlanks.rest = '\x7b' :: (Content.separated (items.map (·.1)) ++ '\x7d' :: tail)) :
    ∃ c', hashLiteral nested c = .done (.hash (items.map (·.2)).flatten) c' ∧ c'.rest = tail := by
  have hend : '\x7d' ∈ listEnds := by decide
  have hstart := starts_or_end tail hend fun p hp => (hitems p hp).1
  have hat := hstart.at_behind (by decide : joinsKeyword '\x7b' = false)
  have hopen : symbol "\x7b" c = .done () ⟨some '\x7b', Content.separated (items.map (·.1)) ++ '\x7d' :: tail⟩ :=
    symbol_of_rest (w := []) rfl hc
  obtain ⟨found, c₁, hread, hfound, hrest⟩ := optional_items List.flatten rfl hend hitems
    (fun c h => bind_of_fail (hnone c h)) hat
  have hlines : newlines c₁ = .done () c₁ := newlines_of_ne hrest (by decide)
  have hclose : symbol "\x7d" c₁ = .done () ⟨some '\x7d', tail⟩ := symbol_of_rest (w := []) rfl hrest
  refine ⟨⟨some '\x7d', tail⟩, ?_, rfl⟩
  rw [hashLiteral, bind_of_done hopen, bind_of_done (hstart.newlines hat)]
  refine (bind_of_done hread).trans ?_
  rw [bind_of_done hlines, bind_of_done hclose, hfound]
  rfl

end

end MinRuby.Syntax

namespace MinRuby

open Syntax (Term ReadsAs Starts)

namespace Content

mutual

/-- The term that the text of a content is read as. -/
def term : Content → Term
  | nil => .lit .nil
  | bool b => .lit (.bool b)
  | int (.ofNat n) => .lit (.int n)
  | int (.negSucc n) => .minus (.lit (.int (n + 1 : Nat)))
  | str s => .lit (.str s)
  | array items => .array (itemTerms items)
  | hash entries => .hash (entryTerms entries)
termination_by structural c => c

/-- The terms of the elements of an array. -/
def itemTerms : List Content → List Term
  | [] => []
  | c :: rest => c.term :: itemTerms rest
termination_by structural l => l

/-- The terms of the keys and values of a hash in turn. -/
def entryTerms : List (Content × Content) → List Term
  | [] => []
  | (k, v) :: rest => k.term :: v.term :: entryTerms rest
termination_by structural l => l

end

/-- Whether the text starts with a sign. -/
def isSigned : Content → Bool
  | int (.negSucc _) => true
  | _ => false

theorem itemTexts_eq (cs : List Content) : itemTexts cs = cs.map text := by
  induction cs with
  | nil => rfl
  | cons c rest ih => exact congrArg (c.text :: ·) ih

theorem itemTerms_eq (cs : List Content) : itemTerms cs = cs.map term := by
  induction cs with
  | nil => rfl
  | cons c rest ih => exact congrArg (c.term :: ·) ih

theorem entryTexts_eq (es : List (Content × Content)) :
    entryTexts es = es.map fun e => e.1.text ++ " => ".toList ++ e.2.text := by
  induction es with
  | nil => rfl
  | cons e rest ih => exact congrArg ((e.1.text ++ " => ".toList ++ e.2.text) :: ·) ih

theorem entryTerms_eq (es : List (Content × Content)) :
    entryTerms es = (es.map fun e => [e.1.term, e.2.term]).flatten := by
  induction es with
  | nil => rfl
  | cons e rest ih => exact congrArg (e.1.term :: e.2.term :: ·) ih

theorem eq_negSucc_of_isSigned {c : Content} (h : c.isSigned = true) : ∃ n, c = int (.negSucc n) := by
  cases c with
  | int n => cases n with
    | ofNat n => cases h
    | negSucc n => exact ⟨n, rfl⟩
  | _ => cases h

theorem text_ofNat (n : Nat) : (int (.ofNat n)).text = Nat.toDigits 10 n := Nat.toList_repr

theorem text_negSucc (n : Nat) : (int (.negSucc n)).text = '-' :: Nat.toDigits 10 (n + 1) := by
  have hrepr : toString (Int.negSucc n) = "-" ++ (n + 1).repr := rfl
  rw [text, hrepr, String.toList_append, Nat.toList_repr]
  rfl

theorem length_toDigits_le {n k : Nat} (hk : 0 < k) (h : n < Nat.pow 10 k) : (Nat.toDigits 10 n).length ≤ k :=
  (Nat.length_toDigits_le_iff (by decide) hk).mpr h

theorem length_digits {n : Int} (h : (int n).Readable) : (Nat.toDigits 10 n.natAbs).length ≤ maxDigits := by
  have hshort : isLongNumeral n = false := h
  have hlt : n.natAbs < numeralBound := Nat.lt_of_not_le (of_decide_eq_false hshort)
  delta numeralBound at hlt
  exact length_toDigits_le (by decide) hlt

/-- The first characters of texts without sign that are no digits. -/
def openers : List Char := ['n', 't', 'f', '"', '[', '\x7b']

/-- The first character of the text of a content. -/
theorem text_eq_cons (c : Content) :
    ∃ x rest, c.text = x :: rest ∧ (x.isDigit = true ∨ x ∈ openers ∨ (c.isSigned = true ∧ x = '-')) := by
  cases c with
  | nil => exact ⟨'n', _, rfl, .inr (.inl (by decide))⟩
  | bool b => cases b with
    | true => exact ⟨'t', _, rfl, .inr (.inl (by decide))⟩
    | false => exact ⟨'f', _, rfl, .inr (.inl (by decide))⟩
  | int n => cases n with
    | ofNat n =>
      obtain ⟨x, rest, hx⟩ := List.exists_cons_of_ne_nil (Nat.toDigits_ne_nil (n := n) (b := 10))
      exact ⟨x, rest, by rw [text_ofNat, hx], .inl (Syntax.isDigit_of_mem_toDigits (by rw [hx]; exact List.mem_cons_self))⟩
    | negSucc n => exact ⟨'-', _, text_negSucc n, .inr (.inr ⟨rfl, rfl⟩)⟩
  | str s => exact ⟨'"', _, rfl, .inr (.inl (by decide))⟩
  | array items => exact ⟨'[', _, rfl, .inr (.inl (by decide))⟩
  | hash entries => exact ⟨'\x7b', _, rfl, .inr (.inl (by decide))⟩

theorem ne_of_opens {x y : Char} (hx : x.isDigit = true ∨ x ∈ openers) (hy : y.isDigit = false ∧ y ∉ openers) :
    x ≠ y := by
  rintro rfl
  rcases hx with h | h
  · exact Bool.false_ne_true (hy.1.symm.trans h)
  · exact hy.2 h

theorem text_eq_cons_of_unsigned {c : Content} (hc : c.isSigned = false) :
    ∃ x rest, c.text = x :: rest ∧ (x.isDigit = true ∨ x ∈ openers) := by
  obtain ⟨x, rest, htext, h | h | ⟨h, -⟩⟩ := text_eq_cons c
  · exact ⟨x, rest, htext, .inl h⟩
  · exact ⟨x, rest, htext, .inr h⟩
  · exact absurd (hc.symm.trans h) Bool.false_ne_true

theorem starts_text (c : Content) : Starts c.text := by
  obtain ⟨x, rest, htext, h | h | ⟨-, rfl⟩⟩ := text_eq_cons c
  · exact ⟨x, rest, htext, ne_of_opens (.inl h) (by decide), ne_of_opens (.inl h) (by decide)⟩
  · exact ⟨x, rest, htext, ne_of_opens (.inr h) (by decide), ne_of_opens (.inr h) (by decide)⟩
  · exact ⟨'-', rest, htext, by decide, by decide⟩

open Syntax
open Syntax.Parser

section

variable {nested : Phrase → Parser Term} {d : Nat}

theorem reads_nil : ReadsAs (primary nested) nil.text nil.term := fun _ _ hc ht =>
  primary_of_literalWord (by simp [literalWords] : ("nil", Literal.nil) ∈ literalWords) hc (ht.head_ne (by decide))

theorem reads_bool (b : Bool) : ReadsAs (primary nested) (bool b).text (bool b).term := by
  intro c tail hc ht
  cases b with
  | true =>
    exact primary_of_literalWord (by simp [literalWords] : ("true", Literal.bool true) ∈ literalWords) hc (ht.head_ne (by decide))
  | false =>
    exact primary_of_literalWord (by simp [literalWords] : ("false", Literal.bool false) ∈ literalWords) hc (ht.head_ne (by decide))

theorem reads_array {items : List Content}
    (hitems : ∀ c ∈ items, ReadsAs (nested .expression) c.text c.term)
    (hnone : ∀ c rest, c.skipBlanks.rest = ']' :: rest → nested .expression c = .fail) :
    ReadsAs (primary nested) (array items).text (array items).term := by
  intro c tail hc ht
  let read := items.map fun c => (c.text, c.term)
  have hread : ∀ p ∈ read, Starts p.1 ∧ ReadsAs (nested .expression) p.1 p.2 := by
    intro p hp
    obtain ⟨c, hmem, rfl⟩ := List.mem_map.mp hp
    exact ⟨starts_text c, hitems c hmem⟩
  have hrest : c.skipBlanks.rest = '[' :: (separated (read.map (·.1)) ++ ']' :: tail) := by
    rw [hc.rest_eq, text, itemTexts_eq, List.map_map, List.cons_append, List.append_assoc]
    rfl
  obtain ⟨c', hliteral, hc'⟩ := arrayLiteral_of_items hread (fun c => hnone c tail) hrest
  have hterm : (array items).term = .array (read.map (·.2)) := by
    rw [term, itemTerms_eq, List.map_map]
    rfl
  refine ⟨c', (primary_of_mark hrest (by decide) (by decide)).trans ?_, hc'⟩
  rw [hterm]
  exact orElse_of_done hliteral

theorem reads_hash {entries : List (Content × Content)}
    (hentries : ∀ e ∈ entries, ReadsAs (nested .expression) e.1.text e.1.term ∧
      ReadsAs (nested .expression) e.2.text e.2.term)
    (hnone : ∀ c rest, c.skipBlanks.rest = '\x7d' :: rest → nested .expression c = .fail) :
    ReadsAs (primary nested) (hash entries).text (hash entries).term := by
  intro c tail hc ht
  let read := entries.map fun e => (e.1.text ++ " => ".toList ++ e.2.text, [e.1.term, e.2.term])
  have hread : ∀ p ∈ read, Starts p.1 ∧ ReadsAs (keyAndValue nested) p.1 p.2 := by
    intro p hp
    obtain ⟨e, hmem, rfl⟩ := List.mem_map.mp hp
    refine ⟨((starts_text e.1).append _).append _, ?_⟩
    exact keyAndValue_of_texts (hentries e hmem).1 (starts_text e.2) (hentries e hmem).2
  have hrest : c.skipBlanks.rest = '\x7b' :: (separated (read.map (·.1)) ++ '\x7d' :: tail) := by
    rw [hc.rest_eq, text, entryTexts_eq, List.map_map, List.cons_append, List.append_assoc]
    rfl
  obtain ⟨c', hliteral, hc'⟩ := hashLiteral_of_items hread (fun c => hnone c tail) hrest
  have hterm : (hash entries).term = .hash (read.map (·.2)).flatten := by
    rw [term, entryTerms_eq, List.map_map]
    rfl
  refine ⟨c', (primary_of_mark hrest (by decide) (by decide)).trans ?_, hc'⟩
  refine (orElse_of_fail (bind_of_fail (symbol_of_ne hrest (by decide)))).trans ?_
  rw [hterm]
  exact orElse_of_done hliteral

/-- A sign and the digits behind it. -/
theorem reads_minus {n : Nat} (hc : (int (.negSucc n)).Readable) :
    ReadsAs (minus (phrase (d + 1))) (int (.negSucc n)).text (int (.negSucc n)).term := by
  intro c tail hat ht
  let digits := Nat.toDigits 10 (n + 1) ++ tail
  have hrest : c.skipBlanks.rest = '-' :: digits := by
    rw [hat.rest_eq, text_negSucc, List.cons_append]
  have hminus : symbol "-" c = .done () ⟨some '-', digits⟩ := symbol_of_rest (w := []) rfl hrest
  obtain ⟨x, more, hdigits⟩ := List.exists_cons_of_ne_nil (Nat.toDigits_ne_nil (n := n + 1) (b := 10))
  have hx : x.isDigit = true := isDigit_of_mem_toDigits (by rw [hdigits]; exact List.mem_cons_self)
  have hfirst : digits = x :: (more ++ tail) := by rw [show digits = Nat.toDigits 10 (n + 1) ++ tail from rfl, hdigits]; rfl
  have hstart : Starts digits := ⟨x, _, hfirst, ne_of_opens (.inl hx) (by decide), ne_of_opens (.inl hx) (by decide)⟩
  have hskip := (hstart.at_behind (by decide : joinsKeyword '-' = false)).rest_eq
  obtain ⟨c', hread, hrest'⟩ : ∃ c', primary (phrase d) ⟨some '-', digits⟩ = .done (.lit (.int (n + 1 : Nat))) c' ∧
      c'.rest = tail := primary_of_numeral hskip ht (length_digits hc)
  have hsigned : phrase (d + 1) .signed ⟨some '-', digits⟩ = .done (.lit (.int (n + 1 : Nat))) c' :=
    signed_of_primary hread (hskip.trans hfirst)
      ⟨ne_of_opens (.inl hx) (by decide), ne_of_opens (.inl hx) (by decide)⟩ (hrest' ▸ ht)
  refine ⟨c', ?_, hrest'⟩
  rw [minus, bind_of_done hminus, bind_of_done hsigned]
  rfl

/-- The operand is the whole expression. -/
theorem reads_expression {c : Content} (hc : c.Readable) (hd : c.text.length ≤ d + 1)
    (h : c.isSigned = false → ReadsAs (primary (phrase d)) c.text c.term) :
    ReadsAs (phrase (d + 1) .expression) c.text c.term := by
  intro cursor tail hat ht
  have hsigned : ∃ c', signed (phrase d) cursor = .done c.term c' ∧ c'.rest = tail := by
    cases hsign : c.isSigned with
    | false =>
      obtain ⟨x, rest, htext, hx⟩ := text_eq_cons_of_unsigned hsign
      obtain ⟨c', hread, hrest⟩ := h hsign cursor tail hat ht
      have hcursor : cursor.skipBlanks.rest = x :: (rest ++ tail) := by rw [hat.rest_eq, htext]; rfl
      exact ⟨c', signed_of_primary hread hcursor ⟨ne_of_opens hx (by decide), ne_of_opens hx (by decide)⟩
        (hrest ▸ ht), hrest⟩
    | true =>
      obtain ⟨n, rfl⟩ := eq_negSucc_of_isSigned hsign
      obtain ⟨e, rfl⟩ : ∃ e, d = e + 1 := by
        have hpos := List.length_pos_iff.mpr (Nat.toDigits_ne_nil (n := n + 1) (b := 10))
        rw [text_negSucc, List.length_cons] at hd
        exact ⟨d - 1, by omega⟩
      obtain ⟨c', hread, hrest⟩ := reads_minus (d := e) hc cursor tail hat ht
      exact ⟨c', orElse_of_done hread, hrest⟩
  obtain ⟨c', hread, hrest⟩ := hsigned
  exact ⟨c', expressionFrom_of_done hread (hrest ▸ ht), hrest⟩

theorem length_le_separated {t : List Char} : ∀ {texts : List (List Char)}, t ∈ texts →
    t.length ≤ (separated texts).length
  | [u], ht => by
    have hsame : separated [u] = u := List.intercalate_singleton
    exact Nat.le_of_eq (by rw [List.mem_singleton.mp ht, hsame])
  | u :: w :: texts, ht => by
    rw [separated, List.intercalate_cons_cons, List.length_append, List.length_append]
    rcases List.mem_cons.mp ht with rfl | ht
    · omega
    · have hrest := length_le_separated ht
      rw [separated] at hrest
      omega

mutual

/-- The text of a content without sign is read as an operand. -/
theorem reads_primary : ∀ {c : Content} {d : Nat}, c.Readable → c.isSigned = false → c.text.length ≤ d + 1 →
    ReadsAs (primary (phrase d)) c.text c.term
  | nil, _, _, _, _ => reads_nil
  | bool b, _, _, _, _ => reads_bool b
  | int (.ofNat n), d, hc, _, _ => by
    intro c tail hat ht
    exact primary_of_numeral (by rw [hat.rest_eq, text_ofNat]) ht (length_digits hc)
  | int (.negSucc _), _, _, hsign, _ => (Bool.false_ne_true hsign.symm).elim
  | str s, d, _, _, _ => by
    intro c tail hat _
    exact primary_of_string (by rw [hat.rest_eq, text, List.cons_append, List.append_assoc]; rfl)
  | array items, d, hc, _, hd => by
    rw [text, List.length_cons, List.length_append, List.length_singleton] at hd
    obtain ⟨e, rfl⟩ : ∃ e, d = e + 1 := ⟨d - 1, by omega⟩
    have hitems := reads_items (e := e) hc fun t ht => by
      have hle := length_le_separated ht
      omega
    exact reads_array hitems fun c rest h => expression_of_closing h (by decide) (by decide)
  | hash entries, d, hc, _, hd => by
    rw [text, List.length_cons, List.length_append, List.length_singleton] at hd
    obtain ⟨e, rfl⟩ : ∃ e, d = e + 1 := ⟨d - 1, by omega⟩
    have hentries := reads_entries (e := e) hc.2 fun t ht => by
      have hle := length_le_separated ht
      omega
    exact reads_hash hentries fun c rest h => expression_of_closing h (by decide) (by decide)

theorem reads_items : ∀ {cs : List Content} {e : Nat}, ReadableAll cs → (∀ t ∈ itemTexts cs, t.length ≤ e + 1) →
    ∀ c ∈ cs, ReadsAs (phrase (e + 1) .expression) c.text c.term
  | [], _, _, _ => fun _ h => absurd h List.not_mem_nil
  | c :: cs, e, hc, hlen => by
    have hlength : c.text.length ≤ e + 1 := hlen c.text List.mem_cons_self
    have hothers := reads_items hc.2 fun t ht => hlen t (List.mem_cons_of_mem _ ht)
    exact List.forall_mem_cons.mpr
      ⟨reads_expression hc.1 hlength fun hsign => reads_primary hc.1 hsign hlength, hothers⟩

theorem reads_entries : ∀ {es : List (Content × Content)} {e : Nat}, ReadableEntries es →
    (∀ t ∈ entryTexts es, t.length ≤ e + 1) → ∀ p ∈ es, ReadsAs (phrase (e + 1) .expression) p.1.text p.1.term ∧
      ReadsAs (phrase (e + 1) .expression) p.2.text p.2.term
  | [], _, _, _ => fun _ h => absurd h List.not_mem_nil
  | (k, v) :: es, e, hc, hlen => by
    have hlength : (k.text ++ " => ".toList ++ v.text).length ≤ e + 1 := hlen _ List.mem_cons_self
    rw [List.length_append, List.length_append] at hlength
    have hk : k.text.length ≤ e + 1 := by omega
    have hv : v.text.length ≤ e + 1 := by omega
    have hothers := reads_entries hc.2.2 fun t ht => hlen t (List.mem_cons_of_mem _ ht)
    exact List.forall_mem_cons.mpr
      ⟨⟨reads_expression hc.1 hk fun hsign => reads_primary hc.1 hsign hk,
        reads_expression hc.2.1 hv fun hsign => reads_primary hc.2.1 hsign hv⟩, hothers⟩

end

end

end Content

end MinRuby
