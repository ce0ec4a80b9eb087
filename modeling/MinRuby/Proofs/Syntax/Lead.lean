import MinRuby.Proofs.Syntax.FormulaStatement
import MinRuby.Proofs.Syntax.Nesting

/-!
# What a text starts with

The lead of a text is the reserved word that stands at its start or the kind of its first character. A parser that is
led by certain leads fails wherever the text has another one, so where the leads of two parsers differ, one of them
fails.

* `LedBy.bind`, `LedBy.orElse` — what leads parsers that are put together.
* `ledBy_primary`, `ledBy_read` — what operands and statements start with.
-/

namespace MinRuby.Syntax

open MinRuby.Text (isDecimalDigit)
open MinRuby.Syntax.Parser

/-- What a text starts with, blanks apart. -/
inductive Lead where
  | finish
  | word (w : String)
  | digit
  | letter
  | mark (x : Char)
deriving DecidableEq, Repr

/-- The kind of a character that starts no reserved word. -/
def Lead.ofChar (x : Char) : Lead :=
  if x.isAlpha || x == '_' then letter else if isDecimalDigit x then digit else mark x

/-- Whether a parser has succeeded. -/
def Reply.isDone {α : Type} : Reply α → Bool
  | .done _ _ => true
  | .fail | .giveUp _ => false

/-- What the text at a cursor starts with. -/
def Cursor.lead (c : Cursor) : Lead :=
  match keywords.find? fun w => (keyword w c).isDone with
  | some w => .word w
  | none => match c.skipBlanks.rest with
    | [] => .finish
    | x :: _ => .ofChar x

section

variable {c : Cursor} {x : Char} {rest : List Char}

theorem keyword_ne_fail_iff {word : String} : keyword word c ≠ .fail ↔ (keyword word c).isDone = true := by
  rw [keyword_eq]
  split <;> simp [Reply.isDone]

/-- Of two reserved words at the same place, the shorter one goes on with a letter of the longer one. -/
theorem keyword_eq_of_length_le {w w' : String} (hw' : w' ∈ keywords) (h : keyword w c ≠ .fail)
    (h' : keyword w' c ≠ .fail) (hle : w.toList.length ≤ w'.toList.length) : w = w' := by
  have hstands {w : String} (h : keyword w c ≠ .fail) : w.toList <+: c.skipBlanks.rest ∧
      (c.skipBlanks.rest.drop w.toList.length).head?.any joinsKeyword = false := by
    rw [keyword_eq] at h
    split at h
    · next hcond =>
      simp only [Bool.and_eq_true, Bool.not_eq_true'] at hcond
      exact ⟨List.isPrefixOf_iff_prefix.mp hcond.1.1, hcond.2⟩
    · exact absurd rfl h
  obtain ⟨hword, hnext⟩ := hstands h
  obtain ⟨⟨tail, hrest⟩, -⟩ := hstands h'
  obtain ⟨more, hmore⟩ := List.prefix_of_prefix_length_le hword ⟨tail, hrest⟩ hle
  rw [← hrest, ← hmore, List.append_assoc, List.drop_left] at hnext
  cases more with
  | nil => exact String.toList_inj.mp (by rw [← hmore, List.append_nil])
  | cons y more =>
    have hjoins : y ∈ w'.toList → joinsKeyword y = true :=
      List.all_eq_true.mp ((by decide : ∀ w ∈ keywords, w.toList.all joinsKeyword = true) w' hw') y
    rw [List.cons_append, List.head?_cons, Option.any_some, hjoins (by rw [← hmore]; simp)] at hnext
    cases hnext

/-- Two reserved words do not stand at the same place. -/
theorem keyword_unique {w w' : String} (hw : w ∈ keywords) (hw' : w' ∈ keywords) (h : keyword w c ≠ .fail)
    (h' : keyword w' c ≠ .fail) : w = w' := by
  rcases Nat.le_total w.toList.length w'.toList.length with hle | hle
  · exact keyword_eq_of_length_le hw' h h' hle
  · exact (keyword_eq_of_length_le hw h' h hle).symm

theorem lead_of_keyword {word : String} (hword : word ∈ keywords) (h : keyword word c ≠ .fail) : c.lead = .word word := by
  unfold Cursor.lead
  cases hfind : keywords.find? fun w => (keyword w c).isDone with
  | none => exact absurd (keyword_ne_fail_iff.mp h) (List.find?_eq_none.mp hfind word hword)
  | some w =>
    have hdone : keyword w c ≠ .fail := keyword_ne_fail_iff.mpr (List.find?_some (p := fun w => (keyword w c).isDone) hfind)
    exact congrArg Lead.word (keyword_unique (List.mem_of_find?_eq_some hfind) hword hdone h)

theorem lead_of_no_keyword (h : ∀ w ∈ keywords, keyword w c = .fail) : c.lead =
    match c.skipBlanks.rest with
      | [] => .finish
      | x :: _ => .ofChar x := by
  unfold Cursor.lead
  have hnone : (keywords.find? fun w => (keyword w c).isDone) = none :=
    List.find?_eq_none.mpr fun w hw hdone => keyword_ne_fail_iff.mpr hdone (h w hw)
  rw [hnone]

/-- No reserved word starts with another character than a letter. -/
theorem lead_of_char (h : c.skipBlanks.rest = x :: rest) (hx : (x.isAlpha || x == '_') = false) :
    c.lead = .ofChar x := by
  rw [lead_of_no_keyword fun w hw => keyword_of_head (by rw [h]; exact hx) hw, h]

theorem lead_of_end (h : c.skipBlanks.rest = []) : c.lead = .finish := by
  rw [lead_of_no_keyword fun w hw => keyword_of_head (by rw [h]; rfl) hw, h]

theorem lead_eq_finish_iff : c.lead = .finish ↔ c.skipBlanks.rest = [] := by
  refine ⟨fun h => ?_, lead_of_end⟩
  unfold Cursor.lead at h
  split at h
  · cases h
  · split at h
    · next hend => exact hend
    · unfold Lead.ofChar at h
      split at h
      · cases h
      · split at h <;> cases h

/-- Where a reserved word leads it can be read. -/
theorem keyword_of_lead {word : String} (h : c.lead = .word word) : keyword word c ≠ .fail := by
  unfold Cursor.lead at h
  split at h
  · next w hfind =>
    obtain rfl := Lead.word.inj h
    exact keyword_ne_fail_iff.mpr (List.find?_some (p := fun w => (keyword w c).isDone) hfind)
  · split at h
    · cases h
    · unfold Lead.ofChar at h
      split at h
      · cases h
      · split at h <;> cases h

/-- The character that a mark is. -/
theorem rest_of_lead (h : c.lead = .mark x) : ∃ rest, c.skipBlanks.rest = x :: rest := by
  unfold Cursor.lead at h
  split at h
  · cases h
  · split at h
    · cases h
    · next y rest hrest =>
      unfold Lead.ofChar at h
      split at h
      · cases h
      · split at h
        · cases h
        · exact ⟨rest, by rw [hrest, Lead.mark.inj h]⟩

end

namespace Parser

variable {α β : Type} {p q : Parser α} {f : α → Parser β} {K K' : List Lead} {c c' : Cursor} {x : Char}

/-! ## Leads of parsers -/

/-- Wherever the parser does not fail, one of the leads stands. -/
def LedBy (p : Parser α) (K : List Lead) : Prop := ∀ c, p c ≠ .fail → c.lead ∈ K

namespace LedBy

theorem fails (h : LedBy p K) (hc : c.lead ∉ K) : p c = .fail := by
  cases hp : p c with
  | done a c' => exact absurd (h c (by rw [hp]; exact nofun)) hc
  | fail => rfl
  | giveUp r => exact absurd (h c (by rw [hp]; exact nofun)) hc

theorem mono (h : LedBy p K) (hK : ∀ l ∈ K, l ∈ K') : LedBy p K' := fun c hc => hK _ (h c hc)

theorem fail : LedBy (Parser.fail : Parser α) K := fun _ h => absurd rfl h

theorem bind (h : LedBy p K) : LedBy (p >>= f) K :=
  fun c hc => h c fun hfail => hc (bind_of_fail hfail)

theorem map {f : α → β} (h : LedBy p K) : LedBy (f <$> p) K :=
  fun c hc => h c fun hfail => hc (map_of_fail hfail)

theorem orElse (hp : LedBy p K) (hq : LedBy q K') : LedBy (p <|> q) (K ++ K') := by
  intro c hc
  rw [List.mem_append]
  by_cases hfail : p c = .fail
  · exact .inr (hq c fun hq => hc ((orElse_of_fail hfail).trans hq))
  · exact .inl (hp c hfail)

/-- What follows something that is not there is read at the same place. -/
theorem notAhead {f : Unit → Parser β} (hp : ∀ c r, p c ≠ .giveUp r) (h : LedBy (f ()) K) :
    LedBy (Parser.notAhead p >>= f) K := by
  intro c hc
  cases hread : p c with
  | done a c' => exact absurd (bind_of_fail (notAhead_of_done hread)) hc
  | fail => exact h c fun hfail => hc ((bind_of_done (notAhead_of_fail hread)).trans hfail)
  | giveUp r => exact absurd hread (hp c r)

/-- What follows something that may be missing stands in its place if it is. -/
theorem optional {f : Option α → Parser β} (hp : LedBy p K) (hf : LedBy (f none) K') :
    LedBy (Parser.optional p >>= f) (K ++ K') := by
  intro c hc
  rw [List.mem_append]
  by_cases hfail : p c = .fail
  · exact .inr (hf c fun hf => hc ((bind_of_done (optional_of_fail hfail)).trans hf))
  · exact .inl (hp c hfail)

theorem many {f : List α → Parser β} (hp : LedBy p K) (hf : LedBy (f []) K') :
    LedBy (Parser.many p >>= f) (K ++ K') := by
  intro c hc
  rw [List.mem_append]
  by_cases hfail : p c = .fail
  · exact .inr (hf c fun hf => hc ((bind_of_done (many_of_fail hfail)).trans hf))
  · exact .inl (hp c hfail)

/-- What follows a parser that reads nothing but at certain leads. -/
theorem after {s : Parser Unit} {q : Parser β} (hs : ∀ c, c.lead ∉ K → s c = .done () c) (hq : LedBy q K') :
    LedBy (s >>= fun _ => q) (K ++ K') := by
  intro c hc
  rw [List.mem_append]
  by_cases hlead : c.lead ∈ K
  · exact .inl hlead
  · exact .inr (hq c fun hfail => hc ((bind_of_done (hs c hlead)).trans hfail))

end LedBy

/-! ## Tokens -/

/-- The character in front of a text at which a parser does not fail. -/
theorem exists_head {r : Char → Bool} (h : c.skipBlanks.rest.head?.any r = false → p c = .fail) (hc : p c ≠ .fail) :
    ∃ x rest, c.skipBlanks.rest = x :: rest ∧ r x = true := by
  cases hrest : c.skipBlanks.rest with
  | nil => exact absurd (h (by rw [hrest]; rfl)) hc
  | cons x rest =>
    cases hx : r x with
    | true => exact ⟨x, rest, rfl, hx⟩
    | false => exact absurd (h (by rw [hrest]; exact hx)) hc

theorem lead_of_mark {rest : List Char} (h : c.skipBlanks.rest = x :: rest) (hx : Lead.ofChar x = .mark x) :
    c.lead = .mark x := by
  have hother : (x.isAlpha || x == '_') = false := by
    unfold Lead.ofChar at hx
    split at hx
    · cases hx
    · next h => exact Bool.eq_false_iff.mpr h
  rw [lead_of_char h hother, hx]

theorem ledBy_symbol {o : String} {more : List Char} (ho : o.toList = x :: more) (hx : Lead.ofChar x = .mark x) :
    LedBy (symbol o) [.mark x] := by
  intro c hc
  obtain ⟨y, rest, hrest, hy⟩ := exists_head (symbol_of_head ho) hc
  obtain rfl := eq_of_beq hy
  rw [lead_of_mark hrest hx]
  exact List.mem_singleton_self _

theorem ledBy_keyword {word : String} (hword : word ∈ keywords) : LedBy (keyword word) [.word word] :=
  fun _ hc => List.mem_singleton.mpr (lead_of_keyword hword hc)

theorem ledBy_identifier : LedBy identifier [.letter] := by
  intro c hc
  obtain ⟨x, rest, hrest, hx⟩ := exists_head identifier_of_head hc
  have hwords : ∀ w ∈ keywords, keyword w c = .fail := by
    intro w hw
    cases hread : keyword w c with
    | done u c' => exact absurd (identifier_of_keyword hw hread) hc
    | fail => rfl
    | giveUp r =>
      rw [keyword_eq] at hread
      split at hread <;> cases hread
  have hletter : Lead.ofChar x = .letter := by
    unfold Lead.ofChar
    rw [hx]
    rfl
  rw [lead_of_no_keyword hwords, hrest]
  exact List.mem_singleton.mpr hletter

theorem ledBy_numeral : LedBy numeral [.digit] := by
  intro c hc
  obtain ⟨x, rest, hrest, hx⟩ := exists_head numeral_of_head hc
  have hother := not_letter_of_isDecimalDigit hx
  have hdigit : Lead.ofChar x = .digit := by
    unfold Lead.ofChar
    rw [hother, hx]
    rfl
  rw [lead_of_char hrest hother, hdigit]
  exact List.mem_singleton_self _

theorem ledBy_quotedLiteral (hx : Lead.ofChar x = .mark x) : LedBy (quotedLiteral x) [.mark x] := by
  intro c hc
  obtain ⟨y, rest, hrest, hy⟩ := exists_head quotedLiteral_of_head hc
  obtain rfl := eq_of_beq hy
  rw [lead_of_mark hrest hx]
  exact List.mem_singleton_self _

theorem newlines_of_lead (h : c.lead ∉ [.mark '\n']) : newlines c = .done () c := by
  have hfail : symbol "\n" c = .fail := (ledBy_symbol rfl (by decide)).fails h
  rw [newlines, bind_of_done (many_of_fail hfail)]
  rfl

theorem ledBy_separator : LedBy separator [.mark '\n', .mark ';'] :=
  (ledBy_symbol rfl (by decide)).orElse (ledBy_symbol rfl (by decide))

theorem separators_of_lead (h : c.lead ∉ [.mark '\n', .mark ';']) : separators c = .done () c :=
  separators_of_fail (ledBy_separator.fails h)

end Parser

/-! ## Phrases -/

/-- What operands start with. -/
def operandLeads : List Lead :=
  [.digit, .mark '"', .mark '\'', .word "true", .word "false", .word "nil", .mark '[', .mark '\x7b', .mark '(',
    .word "if", .word "unless", .word "while", .word "case", .word "def", .word "begin", .letter]

/-- What expressions, values and statements start with. -/
def valueLeads : List Lead := .mark '-' :: .mark '!' :: operandLeads

section

variable {nested : Phrase → Parser Term}

theorem ledBy_stringLiteral : LedBy stringLiteral [.mark '"', .mark '\''] :=
  (ledBy_quotedLiteral (by decide)).bind.orElse (ledBy_quotedLiteral (by decide)).bind

theorem ledBy_literalWord {word : String} {value : Literal} (hword : word ∈ keywords) :
    LedBy (literalWord word value) [.word word] := (ledBy_keyword hword).bind

theorem ledBy_arrayLiteral : LedBy (arrayLiteral nested) [.mark '['] := (ledBy_symbol rfl (by decide)).bind

theorem ledBy_hashLiteral : LedBy (hashLiteral nested) [.mark '\x7b'] := (ledBy_symbol rfl (by decide)).bind

theorem ledBy_parenthesized : LedBy (parenthesized nested) [.mark '('] := (ledBy_symbol rfl (by decide)).bind

theorem ledBy_clause {word : String} (hword : word ∈ keywords) : LedBy (clause nested word) [.word word] :=
  (ledBy_keyword hword).bind

theorem ledBy_ifExpression : LedBy (ifExpression nested) [.word "if"] := (ledBy_clause (by decide)).bind

theorem ledBy_unlessExpression : LedBy (unlessExpression nested) [.word "unless"] := (ledBy_clause (by decide)).bind

theorem ledBy_whileExpression : LedBy (whileExpression nested) [.word "while"] := (ledBy_keyword (by decide)).bind

theorem ledBy_caseExpression : LedBy (caseExpression nested) [.word "case"] := (ledBy_keyword (by decide)).bind

theorem ledBy_definition : LedBy (definition nested) [.word "def"] := (ledBy_keyword (by decide)).bind

theorem ledBy_beginExpression : LedBy (beginExpression nested) [.word "begin"] := (ledBy_keyword (by decide)).bind

theorem ledBy_callOrName : LedBy (callWithParentheses nested <|> Term.name <$> identifier) [.letter] :=
  (ledBy_identifier.bind.orElse ledBy_identifier.map).mono (by simp)

/-- The alternatives of an operand but calls and names, each with what it starts with. -/
def alternatives (nested : Phrase → Parser Term) : List (List Lead × Parser Term) :=
  [([.digit], Term.lit <$> numeral), ([.mark '"', .mark '\''], Term.lit <$> stringLiteral),
    ([.word "true"], literalWord "true" (.bool true)), ([.word "false"], literalWord "false" (.bool false)),
    ([.word "nil"], literalWord "nil" .nil), ([.mark '['], arrayLiteral nested), ([.mark '\x7b'], hashLiteral nested),
    ([.mark '('], parenthesized nested), ([.word "if"], ifExpression nested), ([.word "unless"], unlessExpression nested),
    ([.word "while"], whileExpression nested), ([.word "case"], caseExpression nested), ([.word "def"], definition nested),
    ([.word "begin"], beginExpression nested)]

theorem ledBy_alternatives : ∀ a ∈ alternatives nested, LedBy a.2 a.1 := by
  simp only [alternatives, List.forall_mem_cons]
  exact ⟨ledBy_numeral.map, ledBy_stringLiteral.map, ledBy_literalWord (by decide), ledBy_literalWord (by decide),
    ledBy_literalWord (by decide), ledBy_arrayLiteral, ledBy_hashLiteral, ledBy_parenthesized, ledBy_ifExpression,
    ledBy_unlessExpression, ledBy_whileExpression, ledBy_caseExpression, ledBy_definition, ledBy_beginExpression,
      List.forall_mem_nil _⟩

theorem ledBy_foldr {alts : List (List Lead × Parser Term)} {last : Parser Term} {K : List Lead}
    (halts : ∀ a ∈ alts, LedBy a.2 a.1) (hlast : LedBy last K) :
    LedBy (alts.foldr (fun a p => a.2 <|> p) last) (alts.flatMap Prod.fst ++ K) := by
  induction alts with
  | nil => exact hlast
  | cons a alts ih =>
    rw [List.flatMap_cons, List.append_assoc]
    exact (halts a List.mem_cons_self).orElse (ih fun a' ha' => halts a' (List.mem_cons_of_mem a ha'))

theorem ledBy_primary : LedBy (primary nested) operandLeads := ledBy_foldr ledBy_alternatives ledBy_callOrName

/-- Of alternatives that start differently the lead picks one. -/
theorem foldr_of_lead {alts : List (List Lead × Parser Term)} {last : Parser Term} {K : List Lead}
    (halts : ∀ a ∈ alts, LedBy a.2 a.1) (hlast : LedBy last K) (hnodup : (alts.flatMap Prod.fst ++ K).Nodup)
    {a : List Lead × Parser Term} (ha : a ∈ alts) {c : Cursor} (hlead : c.lead ∈ a.1) :
    alts.foldr (fun a p => a.2 <|> p) last c = a.2 c := by
  induction alts with
  | nil => exact absurd ha List.not_mem_nil
  | cons b alts ih =>
    have hmore : ∀ a ∈ alts, LedBy a.2 a.1 := fun a' ha' => halts a' (List.mem_cons_of_mem b ha')
    rw [List.flatMap_cons, List.append_assoc, List.nodup_append] at hnodup
    obtain ⟨-, hnodup, hapart⟩ := hnodup
    rcases List.mem_cons.mp ha with rfl | ha
    · have hrest := (ledBy_foldr hmore hlast).fails fun hmem => hapart _ hlead _ hmem rfl
      cases hread : a.2 c with
      | done t c' => exact orElse_of_done hread
      | fail => exact (orElse_of_fail hread).trans hrest
      | giveUp r => exact orElse_of_giveUp hread
    · have hmem : c.lead ∈ alts.flatMap Prod.fst ++ K :=
        List.mem_append_left _ (List.mem_flatMap.mpr ⟨a, ha, hlead⟩)
      have hfail := (halts b List.mem_cons_self).fails fun hb => hapart _ hb _ hmem rfl
      exact (orElse_of_fail hfail).trans (ih hmore hnodup ha)

theorem primary_of_lead {a : List Lead × Parser Term} (ha : a ∈ alternatives nested) {c : Cursor} (hlead : c.lead ∈ a.1) :
    primary nested c = a.2 c :=
  foldr_of_lead ledBy_alternatives ledBy_callOrName (by decide : operandLeads.Nodup) ha hlead

theorem ledBy_indexed : LedBy (indexed nested) operandLeads := ledBy_primary.bind

theorem ledBy_negation : LedBy (negation nested) [.mark '!'] := (ledBy_symbol rfl (by decide)).bind

theorem ledBy_minus : LedBy (minus nested) [.mark '-'] := (ledBy_symbol rfl (by decide)).bind

theorem ledBy_negated : LedBy (negated nested) (.mark '!' :: operandLeads) := ledBy_negation.orElse ledBy_indexed

theorem ledBy_signed : LedBy (signed nested) valueLeads := ledBy_minus.orElse ledBy_negated.bind

theorem ledBy_chain {operand first : Parser Term} {K : List Lead} (h : LedBy first K) :
    ∀ ls : List Level, LedBy (chain operand ls first) K
  | [] => h
  | _ :: tighter => (ledBy_chain h tighter).bind

theorem ledBy_expressionFrom {first : Parser Term} {K : List Lead} (h : LedBy first K) :
    LedBy (expressionFrom nested first) K := (ledBy_chain h levels).bind

theorem ledBy_value : LedBy (value nested) valueLeads := by
  intro c hc
  by_cases hindexed : indexed nested c = .fail
  · rw [value_of_no_operand hindexed] at hc
    exact ledBy_expressionFrom ledBy_signed c hc
  · exact List.mem_cons_of_mem _ (List.mem_cons_of_mem _ (ledBy_indexed c hindexed))

theorem ledBy_modifier : LedBy (modifier nested) [.word "if", .word "unless", .word "while"] :=
  ((ledBy_keyword (by decide)).bind.orElse <| (ledBy_keyword (by decide)).bind.orElse <|
    (ledBy_keyword (by decide)).bind).bind

theorem ledBy_statement : LedBy (statement nested) valueLeads := ledBy_value.bind

end

/-- A phrase other than a block starts as a value does. -/
theorem ledBy_read : ∀ {p : Phrase}, p ≠ .block → LedBy (read p) valueLeads
  | .expression, _ => read_eq .expression ▸ ledBy_expressionFrom ledBy_signed
  | .negated, _ => read_eq .negated ▸ ledBy_negated.mono (fun _ => List.mem_cons_of_mem _)
  | .signed, _ => read_eq .signed ▸ ledBy_signed
  | .value, _ => read_eq .value ▸ ledBy_value
  | .statement, _ => read_eq .statement ▸ ledBy_statement
  | .block, h => absurd rfl h

/-! ## Operators -/

/-- What the operators between two operands start with. -/
def operatorLeads : List Lead :=
  [.mark '|', .mark '&', .mark '=', .mark '!', .mark '<', .mark '>', .mark '-', .mark '+', .mark '*', .mark '/', .mark '%']

/-- The characters at which a line may break off: a blank, a line feed, and the backslash that joins lines. -/
def atBreak (a : Char) : Bool := a == '\\' || a == '\n' || a == ' '

/-- Whether the spelling starts with one of the marks. -/
def startsOperator (o : String) : Bool :=
  o.toList.head?.any fun z => Lead.ofChar z == .mark z && operatorLeads.contains (.mark z)

/-- Whether the spelling is one of an operator between two operands: it starts with one of the marks, with a star only
if that is all of it, and no line breaks off in it. -/
def isOperator (o : String) : Bool :=
  startsOperator o && (o == "*" || o.toList.head? != some '*') && !o.toList.any atBreak

theorem isOperator_of_mem_levels : ∀ level ∈ levels, ∀ o ∈ level, isOperator o.1 = true := by decide +kernel

section

variable {o : String} {level : Level} {c : Cursor}

theorem exists_of_startsOperator (h : startsOperator o = true) : ∃ z more, o.toList = z :: more ∧
    Lead.ofChar z = .mark z ∧ .mark z ∈ operatorLeads := by
  unfold startsOperator at h
  cases hchars : o.toList with
  | nil =>
    rw [hchars] at h
    cases h
  | cons z more =>
    rw [hchars] at h
    obtain ⟨hmark, hlead⟩ := Bool.and_eq_true_iff.mp h
    exact ⟨z, more, rfl, eq_of_beq hmark, List.contains_iff_mem.mp hlead⟩

theorem ledBy_symbol_of_startsOperator (h : startsOperator o = true) : LedBy (symbol o) operatorLeads := by
  obtain ⟨z, more, hchars, hmark, hlead⟩ := exists_of_startsOperator h
  exact (ledBy_symbol hchars hmark).mono fun l hl => List.mem_singleton.mp hl ▸ hlead

theorem startsOperator_of_isOperator (h : isOperator o = true) : startsOperator o = true :=
  (Bool.and_eq_true_iff.mp (Bool.and_eq_true_iff.mp h).1).1

theorem not_atBreak_of_isOperator (h : isOperator o = true) : o.toList.any atBreak = false :=
  (Bool.not_eq_true' _).mp (Bool.and_eq_true_iff.mp h).2

theorem ledBy_spelling (h : isOperator o = true) : LedBy (spelling o) operatorLeads := by
  have hsymbol := ledBy_symbol_of_startsOperator (startsOperator_of_isOperator h)
  unfold spelling
  split
  · next ho =>
    subst ho
    exact hsymbol.bind
  · exact hsymbol

theorem ledBy_operator (h : ∀ o ∈ level, isOperator o.1 = true) : LedBy level.operator operatorLeads := by
  induction level with
  | nil => exact .fail
  | cons o level ih =>
    refine ((ledBy_spelling (h o List.mem_cons_self)).bind.orElse (ih fun o' ho' => h o' (List.mem_cons_of_mem o ho'))).mono ?_
    exact fun l hl => (List.mem_append.mp hl).elim id id

end

theorem adjacent_of_head_ne {c : Cursor} {z : Char} (h : c.rest.head? ≠ some z) : adjacent [z] c = .fail := by
  refine adjacent_of_head ?_
  cases hhead : c.rest.head? with
  | none => rfl
  | some a => exact beq_eq_false_iff_ne.mpr fun ha => h (by rw [hhead, ha])

/-- A text does not start with a mark that is not its lead. -/
theorem head_ne_of_lead {c : Cursor} {z : Char} {K : List Lead} (h : c.lead ∈ K) (hz : Lead.ofChar z = .mark z)
    (hblank : z ≠ ' ') (hK : .mark z ∉ K) :
    c.rest.head? ≠ some z := by
  intro hhead
  obtain ⟨rest, hrest⟩ : ∃ rest, c.rest = z :: rest := List.head?_eq_some_iff.mp hhead
  have hskip := c.skipBlanks_of_ne hrest hblank
  rw [lead_of_mark (by rw [hskip, hrest]) hz] at h
  exact hK h

/-! ## Operands that are values -/

section

variable {nested : Phrase → Parser Term} {operand first : Parser Term} {t : Term} {c c' : Cursor}

/-- An operand that no operator follows is the whole chain. -/
theorem chain_of_no_operator (h : first c = .done t c') :
    ∀ {ls : List Level}, (∀ level ∈ ls, level.operator c' = .fail) → chain operand ls first c = .done t c'
  | [], _ => h
  | level :: tighter, ho => by
    have htighter := chain_of_no_operator h fun l hl => ho l (List.mem_cons_of_mem level hl)
    rw [chain]
    exact (bind_of_done htighter).trans (leftChain_of_fail (ho level List.mem_cons_self) _)

/-- An operand with neither an operator nor a question mark behind it is a whole expression. -/
theorem expressionFrom_of_no_operator (h : first c = .done t c') (ho : ∀ level ∈ levels, level.operator c' = .fail)
    (hquestion : symbol "?" c' = .fail) : expressionFrom nested first c = .done t c' := by
  have hquestion : (do symbol "?"; newlines : Parser Unit) c' = .fail := bind_of_fail hquestion
  rw [expressionFrom, bind_of_done (chain_of_no_operator h ho), bind_of_done (optional_of_fail hquestion)]
  rfl

theorem expressionFrom_of_lead (h : first c = .done t c') (hlead : c'.lead ∉ .mark '?' :: operatorLeads) :
    expressionFrom nested first c = .done t c' := by
  rw [List.mem_cons, not_or] at hlead
  refine expressionFrom_of_no_operator h (fun level hlevel => ?_) ?_
  · exact (ledBy_operator (isOperator_of_mem_levels level hlevel)).fails hlead.2
  · exact (ledBy_symbol (x := '?') rfl (by decide)).fails fun h => hlead.1 (List.mem_singleton.mp h)

theorem power_of_no_stars (h : first c = .done t c') (hstars : symbol "**" c' = .fail) : power nested first c = .done t c' := by
  have hexponent : (do symbol "**"; newlines; nested .signed : Parser Term) c' = .fail := bind_of_fail hstars
  rw [power, bind_of_done h, bind_of_done (optional_of_fail hexponent)]
  rfl

theorem power_of_lead (h : first c = .done t c') (hlead : c'.lead ∉ operatorLeads) : power nested first c = .done t c' :=
  power_of_no_stars h (((ledBy_symbol (x := '*') rfl (by decide)).mono (by decide)).fails hlead)

/-- What the operators that are joined with an assignment start with. -/
def compoundLeads : List Lead := [.mark '*', .mark '-', .mark '+', .mark '*', .mark '/', .mark '%']

theorem ledBy_compoundOperator : LedBy compoundOperator compoundLeads :=
  ((ledBy_symbol (x := '*') rfl (by decide)).bind.orElse <| (ledBy_symbol (x := '-') rfl (by decide)).bind.orElse <|
    (ledBy_symbol (x := '+') rfl (by decide)).bind.orElse <| (ledBy_symbol (x := '*') rfl (by decide)).bind.orElse <|
    (ledBy_symbol (x := '/') rfl (by decide)).bind.orElse <|
    (ledBy_symbol (x := '%') rfl (by decide)).bind.orElse (K := [_]) (LedBy.fail (K := []))).mono (by decide)

theorem assigned_of_lead (hlead : c.lead ∉ operatorLeads) :
    (assignment nested t <|> compoundAssignment nested t : Parser Term) c = .fail := by
  have hassignment : LedBy (assignment nested t) operatorLeads :=
    ((ledBy_symbol (x := '=') rfl (by decide)).mono (by decide)).bind
  exact (orElse_of_fail (hassignment.fails hlead)).trans ((ledBy_compoundOperator.mono (by decide)).bind.fails hlead)

/-- An operand behind which nothing goes on, and that is no command, is a whole value. -/
theorem value_of_lead (h : indexed nested c = .done t c') (hlead : c'.lead ∉ .mark '?' :: operatorLeads)
    (hcommand : commandCall nested c = .fail) : value nested c = .done t c' := by
  have hoperators : c'.lead ∉ operatorLeads := fun h => hlead (List.mem_cons_of_mem _ h)
  have hpure : (Parser.pure t : Parser Term) c' = .done t c' := rfl
  rw [value, h]
  simp only [assigned_of_lead hoperators, hcommand]
  exact expressionFrom_of_lead (power_of_lead hpure hoperators) hlead

/-- A value starts with an operand, a sign or a negation. -/
theorem value_of_fail (hindexed : indexed nested c = .fail) (hminus : minus nested c = .fail)
    (hnegation : negation nested c = .fail) : value nested c = .fail := by
  have hsigned : signed nested c = .fail :=
    (orElse_of_fail hminus).trans (bind_of_fail ((orElse_of_fail hnegation).trans hindexed))
  rw [value_of_no_operand hindexed]
  exact bind_of_fail (chain_of_fail hsigned levels)

/-- A name that no arguments in parentheses follow. -/
theorem primary_of_name {x : String} (h : identifier c = .done x c') (hhead : c'.rest.head? ≠ some '(') :
    primary nested c = .done (.name x) c' := by
  have hlead : c.lead = .letter := List.mem_singleton.mp (ledBy_identifier c (by rw [h]; exact nofun))
  have hnone {α : Type} {p : Parser α} {K : List Lead} (hp : LedBy p K) (hK : .letter ∉ K) : p c = .fail :=
    hp.fails (hlead ▸ hK)
  have hcall : callWithParentheses nested c = .fail := by
    rw [callWithParentheses, bind_of_done h]
    exact bind_of_fail (adjacent_of_head_ne hhead)
  rw [primary_of_no_opening (hnone ledBy_numeral (by simp)) (hnone ledBy_stringLiteral (by simp)), orElse_of_fail hcall,
    map_of_done h]
  · simp only [List.forall_mem_cons]
    exact ⟨hnone (ledBy_symbol rfl (by decide)) (by simp), hnone (ledBy_symbol rfl (by decide)) (by simp),
      hnone (ledBy_symbol rfl (by decide)) (by simp), nofun⟩
  · exact fun w hw => hnone (ledBy_keyword hw) (by simp)

theorem indexed_of_name {x : String} (h : identifier c = .done x c') (hcall : c'.rest.head? ≠ some '(')
    (hindex : c'.rest.head? ≠ some '[') : indexed nested c = .done (.name x) c' := by
  have hnone : indexing nested c' = .fail := bind_of_fail (adjacent_of_head_ne hindex)
  rw [indexed, bind_of_done (primary_of_name h hcall), bind_of_done (many_of_fail hnone)]
  rfl

theorem persists_noArgument : Persists noArgument := fun c => Persists.orElse ((Persists.satisfying _).bind fun _ => .pure ())
  ((Persists.satisfying _).bind fun _ => (Persists.satisfying _).bind fun _ => .pure ()) c.skipBlanks

/-- What fails does so whatever must not stand there. -/
theorem notAhead_bind_of_fail {α β : Type} {p : Parser α} {q : Parser β} (hp : Persists p) (hq : q c = .fail) :
    (do notAhead p; q) c = .fail := by
  cases hread : p c with
  | done a c' => exact bind_of_fail (notAhead_of_done hread)
  | fail => exact (bind_of_done (notAhead_of_fail hread)).trans hq
  | giveUp r => exact absurd hread (hp c r)

/-- A name is no command if no value starts behind it. -/
theorem commandCall_of_no_argument {x : String} (h : identifier c = .done x c') (hargument : commandArgument nested c' = .fail) :
    commandCall nested c = .fail := by
  rw [commandCall, bind_of_done h]
  exact notAhead_bind_of_fail (.adjacent _) (notAhead_bind_of_fail (.adjacent _)
    (notAhead_bind_of_fail persists_noArgument (bind_of_fail (bind_of_fail hargument))))

end

theorem ledBy_commandArgument : LedBy (commandArgument read) valueLeads :=
  .notAhead ((Persists.keyword _).orElse ((Persists.keyword _).orElse (.keyword _))) (ledBy_read nofun)

/-- What follows a name that is a whole statement. -/
def nameEnds : List Lead := [.finish, .mark '\n', .mark ',', .mark '\\']

/-- A name at the end of a line or before a comma is a whole statement, and so is one before a backslash. -/
theorem statement_of_name {x : String} {c c' : Cursor} (h : identifier c = .done x c') (hlead : c'.lead ∈ nameEnds) :
    statement read c = .done (.name x) c' := by
  have hindexed : indexed read c = .done (.name x) c' :=
    indexed_of_name h (head_ne_of_lead hlead (by decide) (by decide) (by decide))
      (head_ne_of_lead hlead (by decide) (by decide) (by decide))
  have hargument : commandArgument read c' = .fail :=
    ledBy_commandArgument.fails ((by decide : ∀ l ∈ nameEnds, l ∉ valueLeads) _ hlead)
  have hvalue := value_of_lead hindexed ((by decide : ∀ l ∈ nameEnds, l ∉ .mark '?' :: operatorLeads) _ hlead)
    (commandCall_of_no_argument h hargument)
  have hmodifier : modifier read c' = .fail := by
    refine ledBy_modifier.fails ((by decide : ∀ l ∈ nameEnds, l ∉ [Lead.word "if", .word "unless", .word "while"]) _ hlead)
  rw [statement, bind_of_done hvalue, bind_of_done (many_of_fail hmodifier)]
  rfl

end MinRuby.Syntax
