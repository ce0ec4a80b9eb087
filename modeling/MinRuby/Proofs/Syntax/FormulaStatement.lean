import MinRuby.Proofs.Syntax.Precedence

/-!
# Formulas as statements

A statement first looks for an assignment, a compound assignment and a command. What stands first in a formula is
a sign, a negation or an operand; nothing is assigned to the operand, and a name in front is no command, since what
follows it is no argument. So the statement is the expression, and no modifier follows it.

* `understands_phrase` — every phrase that can be nested reads the formulas that are written at its place.
* `Formula.parseStatement_text` — the text of a formula is parsed to the tree of the formula.
-/

namespace MinRuby.Syntax

open MinRuby.Text (isAsciiWord isBlank isDecimalDigit)
open MinRuby.Syntax.Parser

variable {nested : Phrase → Parser Term}

/-! ## Values that are expressions -/

section

variable {c c' : Cursor} {target : Term}

theorem chain_congr {operand first first' : Parser Term} (h : first c = first' c') :
    ∀ ls : List Level, chain operand ls first c = chain operand ls first' c'
  | [] => h
  | _ :: tighter => bind_congr (chain_congr h tighter)

theorem expressionFrom_congr {first first' : Parser Term} (h : first c = first' c') :
    expressionFrom nested first c = expressionFrom nested first' c' :=
  bind_congr (chain_congr h levels)

/-- A value that starts with an operand, but is neither assigned to nor a command, is an expression. -/
theorem value_of_operand (hindexed : indexed nested c = .done target c')
    (hassigned : (assignment nested target <|> compoundAssignment nested target : Parser Term) c' = .fail)
    (hcommand : commandCall nested c = .fail) (hsign : minus nested c = .fail) (hmark : negation nested c = .fail) :
    value nested c = expression nested c := by
  have hnegated : negated nested c = .done target c' := (orElse_of_fail hmark).trans hindexed
  have hpower : power nested (Parser.pure target) c' = power nested (negated nested) c := by
    have hpure : (Parser.pure target : Parser Term) c' = .done target c' := rfl
    rw [power, power, bind_of_done hnegated, bind_of_done hpure]
  rw [value, hindexed]
  simp only [hassigned, hcommand]
  exact expressionFrom_congr (hpower.trans (orElse_of_fail hsign).symm)

/-- A value that starts with a sign or a negation is an expression. -/
theorem value_of_no_operand (hindexed : indexed nested c = .fail) : value nested c = expression nested c := by
  have hnegated : negation nested c = negated nested c := by
    show _ = (negation nested <|> indexed nested : Parser Term) c
    cases hmark : negation nested c with
    | done t c' => exact (orElse_of_done hmark).symm
    | fail => exact ((orElse_of_fail hmark).trans hindexed).symm
    | giveUp r => exact (orElse_of_giveUp hmark).symm
  rw [value, hindexed]
  exact expressionFrom_congr (orElse_congr (bind_congr hnegated))

/-- Nothing is assigned to an operand of a formula. -/
theorem assigned_fails (h : Ends 10 c.rest) :
    (assignment nested target <|> compoundAssignment nested target : Parser Term) c = .fail := by
  have hoperator : compoundOperator c = .fail := by
    have hfail : ∀ o ∈ compoundOperators, symbol o.1 c = .fail := fun o ho =>
      have hapart := (by decide : ∀ o ∈ compoundOperators, o.1.toList.isEmpty = false ∧
        ∀ w ∈ endings 10, apart o.1.toList w = true) o ho
      h.symbol_fails hapart.1 hapart.2
    exact compoundOperator_of_fail hfail
  have hassignment : assignment nested target c = .fail := by
    rcases h.dropWhile_cases with hend | ⟨w, hw, rest, hrest⟩
    · exact bind_of_fail (symbol_of_end ((Cursor.rest_skipBlanks c).trans hend) (by decide))
    · -- the comparison is the one operator that starts with an equals sign
      rcases (by decide +kernel : ∀ w ∈ endings 10, apart ['='] w = true ∨ w = ['=', '=', ' ']) w hw with hapart | rfl
      · refine bind_of_fail ?_
        refine symbol_of_not_prefix ?_
        rw [Cursor.rest_skipBlanks, hrest]
        exact not_prefix_of_apart hapart rest
      · have hequals : symbol "=" c = .done () ⟨some '=', '=' :: ' ' :: rest⟩ :=
          symbol_of_rest (w := []) rfl ((Cursor.rest_skipBlanks c).trans hrest)
        rw [assignment, bind_of_done hequals]
        exact bind_of_fail (notAhead_of_done (satisfying_of_rest rfl (by decide)))
  exact (orElse_of_fail hassignment).trans (bind_of_fail hoperator)

/-- No value starts at the end or with an unequal sign. -/
theorem value_of_noValue (h : NoValue c) : value nested c = .fail := by
  have hhead {p : Char → Bool} (hp : p '!' = false) : c.skipBlanks.rest.head?.any p = false := by
    rcases h with hend | ⟨rest, hrest⟩
    · rw [hend]
      rfl
    · rw [hrest]
      exact hp
  have hminus : minus nested c = .fail := bind_of_fail (symbol_of_head rfl (hhead (by decide)))
  have hnegation : negation nested c = .fail := by
    rcases h with hend | ⟨rest, hrest⟩
    · exact bind_of_fail (symbol_of_end hend (by decide))
    · have hmark : symbol "!" c = .done () ⟨some '!', '=' :: rest⟩ := symbol_of_rest (w := []) rfl hrest
      rw [negation, bind_of_done hmark]
      exact bind_of_fail (notAhead_of_done (adjacent_of_rest rfl))
  have hindexed : indexed nested c = .fail := bind_of_fail (primary_of_head (hhead (by decide)))
  have hsigned : signed nested c = .fail :=
    (orElse_of_fail hminus).trans (bind_of_fail ((orElse_of_fail hnegation).trans hindexed))
  rw [value_of_no_operand hindexed]
  exact bind_of_fail (chain_of_fail hsigned levels)

/-- What follows a name in a formula is no argument, or no value starts there. -/
theorem noArgument_or_noValue (h : Ends 10 c.rest) : (∃ c', noArgument c = .done () c') ∨
    (noArgument c = .fail ∧ NoValue c) := by
  rw [noArgument, bind_of_done (blanks_eq c)]
  rcases h.dropWhile_cases with hend | ⟨w, hw, rest, hrest⟩
  · rw [← Cursor.rest_skipBlanks] at hend
    have hnone (p : Char → Bool) : satisfying p c.skipBlanks = .fail := satisfying_of_head (by rw [hend]; rfl)
    exact .inr ⟨(orElse_of_fail (bind_of_fail (hnone _))).trans (bind_of_fail (hnone _)), .inl hend⟩
  · rw [← Cursor.rest_skipBlanks] at hrest
    rcases (by decide : ∀ w ∈ endings 10,
        w.head?.any (fun x => "*/%<>=&|?:,.)]\x7d".toList.contains x) = true ∨
        (w.head?.any (fun x => !"*/%<>=&|?:,.)]\x7d".toList.contains x && (x == '-' || x == '+' || x == '!')) = true ∧
          w.tail = [' ']) ∨ w = ['!', '=', ' ']) w hw with hx | ⟨hx, hbehind⟩ | rfl
    · obtain ⟨x, tail, rfl⟩ : ∃ x tail, w = x :: tail := List.exists_cons_of_ne_nil (by rintro rfl; cases hx)
      have hmark := satisfying_of_rest (p := fun c => "*/%<>=&|?:,.)]\x7d".toList.contains c) hrest hx
      refine .inl ⟨⟨some x, tail ++ rest⟩, orElse_of_done ?_⟩
      rw [bind_of_done hmark]
      rfl
    · obtain ⟨x, tail, rfl⟩ : ∃ x tail, w = x :: tail := List.exists_cons_of_ne_nil (by rintro rfl; cases hx)
      obtain rfl : tail = [' '] := hbehind
      obtain ⟨hmark, hsign⟩ := Bool.and_eq_true_iff.mp hx
      have hfail : satisfying (fun c => "*/%<>=&|?:,.)]\x7d".toList.contains c) c.skipBlanks = .fail :=
        satisfying_of_head (by rw [hrest]; exact (Bool.not_eq_true' _).mp hmark)
      have hfirst := satisfying_of_rest (p := fun c => c == '-' || c == '+' || c == '!') hrest hsign
      have hblank := satisfying_of_rest (c := ⟨some x, ' ' :: rest⟩) (p := isBlank) rfl (by decide)
      refine .inl ⟨⟨some ' ', rest⟩, (orElse_of_fail (bind_of_fail hfail)).trans ?_⟩
      rw [bind_of_done hfirst]
      refine (bind_of_done hblank).trans ?_
      rfl
    · have hfail : satisfying (fun c => "*/%<>=&|?:,.)]\x7d".toList.contains c) c.skipBlanks = .fail :=
        satisfying_of_head (by rw [hrest]; rfl)
      have hfirst := satisfying_of_rest (p := fun c => c == '-' || c == '+' || c == '!') hrest (by decide)
      refine .inr ⟨(orElse_of_fail (bind_of_fail hfail)).trans ?_, .inr ⟨' ' :: rest, hrest⟩⟩
      rw [bind_of_done hfirst]
      exact bind_of_fail (satisfying_of_head (show isBlank '=' = false by decide))

/-- A name in a formula is no command. -/
theorem commandCall_of_name {n : Nat} (hn : Understands nested n) (hpos : 0 < n) {x : String}
    (hname : identifier c = .done x c') (h : Ends 10 c'.rest) : commandCall nested c = .fail := by
  have hopen : adjacent ['('] c' = .fail := adjacent_of_head (h.head_ne (by decide))
  have hbracket : adjacent ['['] c' = .fail := adjacent_of_head (h.head_ne (by decide))
  rw [commandCall, bind_of_done hname, bind_of_done (notAhead_of_fail hopen), bind_of_done (notAhead_of_fail hbracket)]
  rcases noArgument_or_noValue h with ⟨c'', hnone⟩ | ⟨hsome, hvalue⟩
  · exact bind_of_fail (notAhead_of_done hnone)
  · have hword : (keyword "if" <|> keyword "unless" <|> keyword "while" : Parser Unit) c' = .fail :=
      (orElse_of_fail (h.keyword_fails (by decide))).trans
        ((orElse_of_fail (h.keyword_fails (by decide))).trans (h.keyword_fails (by decide)))
    have hargument : commandArgument nested c' = .fail := by
      rw [commandArgument, bind_of_done (notAhead_of_fail hword)]
      exact hn.value_fails hpos c' hvalue
    rw [bind_of_done (notAhead_of_fail hsome)]
    exact bind_of_fail (bind_of_fail hargument)

end

namespace Formula

variable {f : Formula} {n : Nat} {c : Cursor} {tail : List Char}

/-- The text starts with a formula that is written as at the tightest places, and goes on with operators or not at all. -/
def StartsWith (f g : Formula) : Prop :=
  (f.Short → g.Short) ∧ ∃ rest, f.text = g.textAt 10 ++ rest ∧ ∀ tail, Ends 10 tail → Ends 10 (rest ++ tail)

theorem startsWith_self (h : f.rank = 10) : ∃ g, f.StartsWith g :=
  ⟨f, id, [], by rw [textAt_of_le (Nat.le_of_eq h.symm), List.append_nil], fun _ ht => ht⟩

/-- What a formula starts with, if its left operand starts so. -/
theorem startsWith_of_left {left : Formula} {place : Nat} {behind : List Char} (hplace : place ≤ 10)
    (htext : f.text = left.textAt place ++ behind) (hshort : f.Short → left.Short)
    (hends : ∀ tail, Ends 10 (behind ++ tail))
    (h : left.text.head? = some '-' ∨ left.text.head? = some '!' ∨ ∃ g, left.StartsWith g) :
    f.text.head? = some '-' ∨ f.text.head? = some '!' ∨ ∃ g, f.StartsWith g := by
  by_cases hrank : place ≤ left.rank
  · rw [textAt_of_le hrank] at htext
    rcases h with hsign | hmark | ⟨g, hg, rest, hleft, hrest⟩
    · exact .inl (by rw [htext, head_append_of_inked left.inked_text, hsign])
    · exact .inr (.inl (by rw [htext, head_append_of_inked left.inked_text, hmark]))
    · refine .inr (.inr ⟨g, hg ∘ hshort, rest ++ behind, by rw [htext, hleft, List.append_assoc], fun tail _ => ?_⟩)
      rw [List.append_assoc]
      exact hrest _ (hends tail)
  · have hlt : left.rank < place := Nat.lt_of_not_le hrank
    rw [textAt_of_lt hlt, ← textAt_of_lt (Nat.lt_of_lt_of_le hlt hplace)] at htext
    exact .inr (.inr ⟨left, hshort, behind, htext, fun tail _ => hends tail⟩)

/-- A formula starts with a sign, with a negation or with an operand that has neither. -/
theorem exists_startsWith : ∀ f : Formula, f.text.head? = some '-' ∨ f.text.head? = some '!' ∨ ∃ g, f.StartsWith g
  | name x => .inr (.inr (startsWith_self rfl))
  | numeral n => .inr (.inr (startsWith_self rfl))
  | truth b => .inr (.inr (startsWith_self rfl))
  | nil => .inr (.inr (startsWith_self rfl))
  | negation _ => .inr (.inl rfl)
  | minus _ => .inl rfl
  | binary op left right => by
    refine startsWith_of_left (Nat.le_trans op.leftRank_le (Nat.succ_le_succ (Nat.le_trans op.rank_le (by decide)))) rfl
      And.left (fun tail => ?_) left.exists_startsWith
    have hoperator := Ends.operator op (right.textAt op.rightRank ++ tail) (Nat.lt_of_le_of_lt op.rank_le (by decide : 8 < 10))
    simpa [textAt] using hoperator
  | choice test yes no => by
    refine startsWith_of_left (by decide : 1 ≤ 10) rfl And.left (fun tail => ?_) test.exists_startsWith
    have hquestion : Ends 10 _ := Ends.question (yes.text ++ ' ' :: ':' :: ' ' :: (no.text ++ tail)) (by decide)
    simpa using hquestion

/-- What a formula starts with is no command. -/
theorem commandCall_of_startsWith {g : Formula} (hn : Understands nested n) (hpos : 0 < n) (hc : c.At (g.textAt 10 ++ tail))
    (ht : Ends 10 tail) : commandCall nested c = .fail := by
  by_cases hrank : g.rank < 10
  · rw [textAt_of_lt hrank] at hc
    exact bind_of_fail (identifier_of_head (by rw [hc.rest_eq]; rfl))
  · rw [textAt_of_le (Nat.le_of_not_lt hrank)] at hc
    have word {w : String} (hw : w ∈ keywords) (htext : g.text = w.toList) : commandCall nested c = .fail := by
      rw [htext] at hc
      obtain ⟨c', hread, -⟩ := keyword_of_rest hc.rest_eq hc.before_eq (ht.head_ne (by decide))
      exact bind_of_fail (identifier_of_keyword hw hread)
    cases g with
    | name x =>
      obtain ⟨c', hread, hrest⟩ := x.reads_identifier c tail hc ht.detached
      exact commandCall_of_name hn hpos hread (hrest ▸ ht)
    | numeral n =>
      exact bind_of_fail (identifier_of_head (by rw [hc.rest_eq]; exact not_letter_of_isDecimalDigit n.isDigit_first))
    | truth b => cases b with
      | true => exact word (w := "true") (by decide) rfl
      | false => exact word (w := "false") (by decide) rfl
    | nil => exact word (w := "nil") (by decide) rfl
    | negation operand => exact absurd (by decide : 9 < 10) hrank
    | minus operand => exact absurd (by decide : 7 < 10) hrank
    | binary op left right => exact absurd (Nat.lt_of_le_of_lt op.rank_le (by decide)) hrank
    | choice test yes no => exact absurd (by decide : 0 < 10) hrank

/-! ## Statements -/

/-- As a value, a formula is read as the expression that it is. -/
theorem reads_value (hn : Understands nested n) (hf : f.Short) (hlen : f.text.length ≤ n) :
    ReadsBefore (Ends 0) (value nested) f.text f.term := by
  intro c tail hc ht
  suffices hsame : value nested c = expression nested c by
    rw [hsame]
    have hread : ReadsBefore (Ends 0) (expression nested) (f.textAt 0) f.term :=
      (readsOwn hn hf hlen).textAt hn hf (by decide) (by rwa [textAt_of_le (Nat.zero_le _)])
    rw [textAt_of_le (Nat.zero_le _)] at hread
    exact hread c tail hc ht
  have hrest := hc.rest_eq
  have hpos : 0 < n := by
    obtain ⟨x, more, htext, -⟩ := f.inked_text.first
    rw [htext, List.length_cons] at hlen
    omega
  rcases f.exists_startsWith with hsign | hmark | ⟨g, hshort, rest, htext, hends⟩
  · exact value_of_no_operand (bind_of_fail (primary_of_head (by
      rw [hrest, head_append_of_inked f.inked_text, hsign]; rfl)))
  · exact value_of_no_operand (bind_of_fail (primary_of_head (by
      rw [hrest, head_append_of_inked f.inked_text, hmark]; rfl)))
  · have hgtext : (g.textAt 10).length ≤ n := by
      rw [htext, List.length_append] at hlen
      omega
    have hown := readsOwn hn (hshort hf) (Nat.le_trans (g.length_text_le 10) hgtext)
    rw [htext, List.append_assoc] at hc
    have htail : Ends 10 (rest ++ tail) := hends tail (ht.mono (Nat.zero_le 10))
    obtain ⟨c', hread, hrest'⟩ := hown.textAt hn (hshort hf) (Nat.le_refl 10) hgtext c _ hc htail
    have hhead {x : Char} (hx : (g.textAt 10).head? ≠ some x) : c.skipBlanks.rest.head?.any (· == x) = false := by
      obtain ⟨y, more, hy, -⟩ := (g.inked_textAt 10).first
      rw [hc.rest_eq, hy]
      exact beq_eq_false_iff_ne.mpr fun heq => hx (by rw [hy, List.head?_cons, heq])
    refine value_of_operand hread (assigned_fails (hrest' ▸ htail)) (commandCall_of_startsWith hn hpos hc htail) ?_ ?_
    · exact bind_of_fail (symbol_of_head rfl (hhead (head_enclosed_ne (by decide) 10 fun h =>
        head_text_ne_minus (Nat.le_trans (by decide) h))))
    · exact bind_of_fail (symbol_of_head rfl (hhead (head_enclosed_ne (by decide) 10 head_text_ne_mark)))

/-- No modifier follows a formula. -/
theorem reads_statement (hn : Understands nested n) (hf : f.Short) (hlen : f.text.length ≤ n) :
    ReadsBefore (Ends 0) (statement nested) f.text f.term := by
  intro c tail hc ht
  obtain ⟨c', hread, hrest⟩ := reads_value hn hf hlen c tail hc ht
  have hends : Ends 0 c'.rest := hrest ▸ ht
  have hmodifier : modifier nested c' = .fail :=
    bind_of_fail ((orElse_of_fail (bind_of_fail (hends.keyword_fails (by decide)))).trans
      ((orElse_of_fail (bind_of_fail (hends.keyword_fails (by decide)))).trans
        (bind_of_fail (hends.keyword_fails (by decide)))))
  refine ⟨c', ?_, hrest⟩
  rw [statement, bind_of_done hread, bind_of_done (many_of_fail hmodifier)]
  rfl

end Formula

/-- What the phrases understand at one depth they understand of longer formulas one level deeper. -/
theorem understands_rule {n : Nat} (hn : Understands nested n) : Understands (rule nested) (n + 1) where
  negated f hf hlen :=
    (Formula.readsOwn hn hf (Nat.le_trans (f.length_text_le 9) (Nat.le_of_lt_succ hlen))).textAt hn hf (by decide)
      (Nat.le_of_lt_succ hlen)
  signed f hf hlen :=
    (Formula.readsOwn hn hf (Nat.le_trans (f.length_text_le 7) (Nat.le_of_lt_succ hlen))).textAt hn hf (by decide)
      (Nat.le_of_lt_succ hlen)
  expression f hf hlen := by
    have hread : ReadsBefore (Ends 0) (expression nested) (f.textAt 0) f.term :=
      (Formula.readsOwn hn hf (Nat.le_of_lt_succ hlen)).textAt hn hf (by decide)
      (by rw [Formula.textAt_of_le (Nat.zero_le _)]; exact Nat.le_of_lt_succ hlen)
    rwa [Formula.textAt_of_le (Nat.zero_le _)] at hread
  statement f hf hlen := Formula.reads_statement hn hf (Nat.le_of_lt_succ hlen)
  value_fails _ _ h := value_of_noValue h

/-- Every phrase that can be nested understands the formulas that are shorter than its depth. -/
theorem understands_phrase : ∀ n : Nat, Understands (phrase n) n
  | 0 => ⟨fun _ _ h => absurd h (Nat.not_lt_zero _), fun _ _ h => absurd h (Nat.not_lt_zero _),
      fun _ _ h => absurd h (Nat.not_lt_zero _), fun _ _ h => absurd h (Nat.not_lt_zero _), fun h => absurd h (Nat.lt_irrefl 0)⟩
  | n + 1 => understands_rule (understands_phrase n)

namespace Formula

open MinRuby.Text (strip expandTabs)

/-- The whole text is read as one statement. -/
theorem parsePhrase_text {f : Formula} (hf : f.Short) :
    ∃ c, parsePhrase .statement f.text = .done f.term c ∧ c.rest = [] := by
  obtain ⟨x, rest, htext, hx⟩ := f.inked_text.first
  have hblank : x ≠ ' ' := fun h => absurd hx.not_blank (by rw [h]; decide)
  have hskip : (Cursor.start f.text).skipBlanks = Cursor.start f.text := Cursor.skipBlanks_of_ne htext hblank
  have hat : (Cursor.start f.text).At (f.text ++ []) := by
    rw [List.append_nil]
    exact ⟨by rw [hskip]; rfl, by rw [hskip]; rfl⟩
  exact (understands_phrase (f.text.length + 1)).statement f hf (Nat.lt_succ_self _) _ [] hat .done

/-- A formula with all kinds of operators: `x ? !done? : -y ** -2 != a - (b - 10) && nil || true`. -/
def mixed : Formula :=
  let name (first : Char) (h : startsName first = true ∧ String.ofList [first] ∉ keywords) : Formula :=
    .name ⟨first, [], none, h.1, fun _ hx => absurd hx List.not_mem_nil, fun _ hx => absurd hx (by simp), h.2⟩
  let done : Formula := .name ⟨'d', "one".toList, some '?', by decide, List.all_eq_true.mp (by decide),
    fun _ hx => .inl (Option.some.inj hx).symm, by decide⟩
  let difference := binary (.core .sub) (name 'a' (by decide))
    (binary (.core .sub) (name 'b' (by decide)) (numeral ⟨'1', ['0'], by decide, List.all_eq_true.mp (by decide)⟩))
  let power := minus (binary (.core .pow) (name 'y' (by decide))
    (minus (numeral ⟨'2', [], by decide, fun _ hx => absurd hx List.not_mem_nil⟩)))
  choice (name 'x' (by decide)) (negation done)
    (binary .either (binary .both (binary .notEqual power difference) nil) (truth true))

/-- An integer with too many digits ends the parse, whatever its value. -/
theorem parseStatement_of_long (n : Numeral) (h : maxDigits < n.digits.length) (filename : String) :
    parseStatement (String.ofList (numeral n).text) filename = .error (.limit .numeral) := by
  have hblank : n.first ≠ ' ' := fun heq => absurd n.isDigit_first (by rw [heq]; decide)
  have hskip : (Cursor.start (numeral n).text).skipBlanks.rest = n.first :: n.more ++ [] := by
    rw [Cursor.skipBlanks_of_ne rfl hblank, List.append_nil]
    rfl
  obtain ⟨c, -, hread⟩ := numeral_of_digits hskip n.isDigit_first n.isDigit_more rfl
  have hnumeral : Parser.numeral (Cursor.start (numeral n).text) = .giveUp .numeral := hread.trans (if_pos h)
  have hindexed (nested : Phrase → Parser Term) : indexed nested (Cursor.start (numeral n).text) = .giveUp .numeral :=
    bind_of_giveUp (orElse_of_giveUp (map_of_giveUp hnumeral))
  have hgiveUp : parsePhrase .statement (numeral n).text = .giveUp .numeral :=
    bind_of_giveUp (by rw [value, hindexed])
  have htabs : expandTabs (numeral n).text = (numeral n).text :=
    expandTabs_of_not_mem ((clear_of_inked (numeral n).inked_text).not_mem (by decide))
  rw [parseStatement, String.toList_ofList, prepare_text, strip_text, readWhole, htabs]
  simp only [hgiveUp]
  rfl

/-- The numeral of 4301 zeros. -/
def zeros : Numeral where
  first := '0'
  more := List.replicate 4300 '0'
  isDigit_first := by decide
  isDigit_more x hx := by rw [List.eq_of_mem_replicate hx]; decide

theorem length_digits_zeros : zeros.digits.length = 4301 := by
  have hdigits : zeros.digits = List.replicate 4301 '0' :=
    List.filter_eq_self.mpr fun x hx => by rw [List.eq_of_mem_replicate (n := 4301) hx]; decide
  rw [hdigits, List.length_replicate]

end Formula

end MinRuby.Syntax
