import MinRuby.Proofs.Syntax.TextEnd

/-!
# Properties of every phrase

A property of parsers that the tokens have, and that passes from parts to what is put together from them, is one of
every phrase of the grammar. It need not pass to rounds that may read nothing, and of the look-ahead in front of the
arguments of a command it need only say what matters there.

* `Hereditary` — what such a property has to satisfy.
* `Hereditary.phrase` — it holds of all phrases.
-/

namespace MinRuby.Syntax

open MinRuby.Syntax.Parser

/-- The characters with a meaning for string literals. -/
def literalMarks : List Char := ['"', '\'', '\\']

/-- Whether none of the characters is a blank or has a meaning for string literals. -/
def plain (text : List Char) : Bool := text.all fun x => x != ' ' && !literalMarks.contains x

theorem not_mem_of_plain {text : List Char} (h : plain text = true) : ∀ x ∈ text, x ∉ literalMarks := fun x hx => by
  simpa using (Bool.and_eq_true_iff.mp (List.all_eq_true.mp h x hx)).2

theorem not_blank_of_plain {text : List Char} (h : plain text = true) : ' ' ∉ text := fun hx =>
  absurd (Bool.and_eq_true_iff.mp (List.all_eq_true.mp h _ hx)).1 (by decide)

/-- Whether the class has neither the blank nor a character with a meaning for string literals. -/
def spares (r : Char → Bool) : Bool := !r ' ' && literalMarks.all fun x => !r x

theorem eq_false_of_spares {r : Char → Bool} (h : spares r = true) : ∀ x ∈ literalMarks, r x = false := fun x hx => by
  simpa using List.all_eq_true.mp (Bool.and_eq_true_iff.mp h).2 x hx

theorem blank_of_spares {r : Char → Bool} (h : spares r = true) : r ' ' = false := by
  simpa using (Bool.and_eq_true_iff.mp h).1

/-- Reads with `p`, and goes on behind it with what `q` gives; where that fails, `r` starts anew, and after it `s` goes
on. Where `p` fails, `e` reads in its place. -/
def Parser.fork {α β : Type} (p : Parser α) (q : α → Parser β) (r : Parser β) (s : α → Parser β) (e : Parser β) : Parser β :=
  fun c =>
    match p c with
    | .done a c' =>
      match q a c' with
      | .done b c'' => .done b c''
      | .giveUp reason => .giveUp reason
      | .fail =>
        match r c with
        | .done b c'' => .done b c''
        | .giveUp reason => .giveUp reason
        | .fail => s a c'
    | .fail => e c
    | .giveUp reason => .giveUp reason

/-- A property that the tokens have, and whatever is put together from parsers that have it. -/
structure Hereditary (P : ∀ {α : Type}, Parser α → Prop) : Prop where
  pure {α : Type} (a : α) : P (Pure.pure a : Parser α)
  fail {α : Type} : P (Parser.fail : Parser α)
  giveUp {α : Type} (r : Surrender) : P (Parser.giveUp r : Parser α)
  bind {α β : Type} {p : Parser α} {f : α → Parser β} : P p → (∀ a, P (f a)) → P (p >>= f)
  orElse {α : Type} {p q : Parser α} : P p → P q → P (p <|> q)
  optional {α : Type} {p : Parser α} : P p → P (optional p)
  notAhead {α : Type} {p : Parser α} : P p → P (notAhead p)
  many {α : Type} {p : Parser α} : P p → Advances p → P (many p)
  leftChain {operator : Parser Connective} {operand : Parser Term} : P operator → Advances operator → P operand →
    ReadsPrefix operand → ∀ left, P fun c => leftChain operator operand c.rest.length left c
  fork {α β : Type} {p : Parser α} {q s : α → Parser β} {r e : Parser β} : P p → (∀ a, P (q a)) → P r → (∀ a, P (s a)) →
    P e → P (fork p q r s e)
  blanks : P blanks
  adjacent {text : List Char} : plain text → P (adjacent text)
  satisfying {r : Char → Bool} : spares r → P (satisfying r)
  takeWhile {r : Char → Bool} : spares r → P (takeWhile r)
  keyword {word : String} : word ∈ keywords → P (keyword word)
  quotedLiteral {quote : Char} : quote ∈ ['"', '\''] → P (quotedLiteral quote)
  /-- Whether a blank stands behind a sign does not matter where the text ends behind it. -/
  unsigned {α : Type} {p : Parser α} : P p → (∀ c, c.AtSign → (p c).Idle) → P (do Parser.notAhead noArgument; p)

/-- Nested phrases that have a property: each reads a prefix of its text, and a sign alone is no value. -/
structure Nests (P : ∀ {α : Type}, Parser α → Prop) (nested : Phrase → Parser Term) : Prop where
  holds (p : Phrase) : P (nested p)
  reads (p : Phrase) : ReadsPrefix (nested p)
  sign (c : Cursor) : c.AtSign → (nested .value c).Idle

namespace Nests

variable {P : ∀ {α : Type}, Parser α → Prop} {nested : Phrase → Parser Term} (hn : Nests P nested)
include hn

theorem agree (p : Phrase) : AgreeBelow 0 (nested p) (nested p) := .refl (hn.reads p)

theorem advances_clause {word : String} (hword : word.toList.isEmpty = false) : Advances (clause nested word) :=
  (Advances.keyword hword).bind fun _ => readsPrefix_bind (hn.reads .expression) fun _ =>
    readsPrefix_bind (reads_bodyStart _) fun _ => readsPrefix_bind (hn.reads .block) fun _ => Reads.pure trivial

theorem advances_whenClause : Advances (whenClause nested) :=
  (Advances.keyword (by decide)).bind fun _ => readsPrefix_bind (agree_expressions hn.agree).reads fun _ =>
    readsPrefix_bind (reads_bodyStart _) fun _ => readsPrefix_bind (hn.reads .block) fun _ => Reads.pure trivial

theorem advances_indexing : Advances (indexing nested) :=
  (Advances.adjacent '[').bind fun _ => readsPrefix_bind reads_newlines fun _ => readsPrefix_bind (hn.reads .expression) fun _ =>
    readsPrefix_bind reads_newlines fun _ => readsPrefix_bind (reads_symbol _) fun _ => Reads.pure trivial

theorem advances_modifier : Advances (modifier nested) := by
  have hword {word : String} {kind : Modifier} (hword : word.toList.isEmpty = false) :
      Advances (do keyword word; return kind : Parser Modifier) := (Advances.keyword hword).bind fun _ => Reads.pure trivial
  exact ((hword (by decide)).orElse ((hword (by decide)).orElse (hword (by decide)))).bind fun _ =>
    readsPrefix_bind (hn.reads .expression) fun _ => Reads.pure trivial

end Nests

theorem value_eq_fork (nested : Phrase → Parser Term) : value nested =
    Parser.fork (indexed nested) (fun target => assignment nested target <|> compoundAssignment nested target)
      (commandCall nested) (fun target => expressionFrom nested (power nested (Parser.pure target)))
      (expressionFrom nested (minus nested <|> power nested (negation nested))) := by
  funext c
  rw [value, Parser.fork]
  cases indexed nested c with
  | done target c' =>
    simp only
    cases (assignment nested target <|> compoundAssignment nested target : Parser Term) c' with
    | done t c'' => rfl
    | fail => cases commandCall nested c <;> rfl
    | giveUp r => rfl
  | fail => rfl
  | giveUp r => rfl

namespace Hereditary

variable {P : ∀ {α : Type}, Parser α → Prop} (h : Hereditary P) {α β : Type} {p : Parser α}
include h

/-! ## Tokens -/

theorem map {f : α → β} (hp : P p) : P (f <$> p) := h.bind hp fun _ => h.pure _

theorem many1 (hp : P p) (ha : Advances p) : P (many1 p) := h.bind hp fun _ => h.bind (h.many hp ha) fun _ => h.pure _

theorem sepBy1 {s : Parser β} (hp : P p) (hr : ReadsPrefix p) (hs : P s) (ha : Advances s) : P (sepBy1 p s) :=
  h.bind hp fun _ => h.bind (h.many (h.bind hs fun _ => hp) (ha.bind fun _ => hr)) fun _ => h.pure _

theorem ofOption (a? : Option α) : P (ofOption a?) := by
  cases a? with
  | none => exact h.fail
  | some a => exact h.pure a

theorem symbol {o : String} (ho : plain o.toList) : P (symbol o) := h.bind h.blanks fun _ => h.adjacent ho

theorem identifier : P identifier := by
  have hany : ∀ words : List String, (∀ w ∈ words, w ∈ keywords) →
      P (words.foldr (fun w p => Parser.keyword w <|> p) Parser.fail) := by
    intro words hwords
    induction words with
    | nil => exact h.fail
    | cons w words ih =>
      exact h.orElse (h.keyword (hwords w List.mem_cons_self)) (ih fun w' hw' => hwords w' (List.mem_cons_of_mem w hw'))
  have hmark : P nameMark :=
    h.bind (h.satisfying (by decide)) fun _ => h.bind (h.notAhead (h.adjacent (by decide))) fun _ => h.pure _
  exact h.bind (h.notAhead (hany keywords fun _ => id)) fun _ => h.bind h.blanks fun _ =>
    h.bind (h.satisfying (by decide)) fun _ =>
    h.bind (h.takeWhile (by decide)) fun _ => h.bind (h.optional hmark) fun _ => h.pure _

theorem numeral : P numeral := by
  have hfraction : P fraction := h.bind (h.adjacent (by decide)) fun _ => h.bind (h.satisfying (by decide)) fun _ =>
    h.bind (h.takeWhile (by decide)) fun _ => h.pure _
  have hexponent : P exponent := h.bind (h.satisfying (by decide)) fun _ =>
    h.bind (h.optional (h.satisfying (by decide))) fun _ =>
    h.bind (h.satisfying (by decide)) fun _ => h.bind (h.takeWhile (by decide)) fun _ => h.pure _
  refine h.bind h.blanks fun _ => h.bind (h.satisfying (by decide)) fun _ => h.bind (h.takeWhile (by decide)) fun _ =>
    h.bind (h.optional hfraction) fun fraction? => h.bind (h.optional hexponent) fun exponent? => ?_
  split
  · split
    · exact h.giveUp _
    · exact h.pure _
  · exact h.pure _

theorem stringLiteral : P stringLiteral :=
  h.orElse (h.bind (h.quotedLiteral (by decide)) fun _ => h.pure _) (h.bind (h.quotedLiteral (by decide)) fun _ => h.pure _)

theorem newlines : P newlines := h.bind (h.many (h.symbol (by decide)) (.symbol (by decide))) fun _ => h.pure _

theorem separator : P separator := h.orElse (h.symbol (by decide)) (h.symbol (by decide))

theorem separators : P separators := h.bind (h.many h.separator .separator) fun _ => h.pure _

theorem separators1 : P separators1 := h.bind h.separator fun _ => h.separators

theorem bodyStart {word : String} (hword : word ∈ keywords) : P (bodyStart word) :=
  h.orElse (h.bind h.separators fun _ => h.keyword hword) h.separators1

theorem comma : P comma := h.bind (h.symbol (by decide)) fun _ => h.newlines

/-! ## Operators -/

theorem operator {level : Level} (hlevel : ∀ o ∈ level, plain o.1.toList = true ∧ o.1.toList.isEmpty = false) :
    P level.operator := by
  induction level with
  | nil => exact h.fail
  | cons o level ih =>
    refine h.orElse (h.bind ?_ fun _ => h.bind h.newlines fun _ => h.pure _)
      (ih fun o' ho' => hlevel o' (List.mem_cons_of_mem o ho'))
    have hsymbol := h.symbol (hlevel o List.mem_cons_self).1
    unfold spelling
    split
    · next heq => exact heq ▸ h.bind (heq ▸ hsymbol) fun _ => h.notAhead (h.adjacent (by decide))
    · exact hsymbol

theorem chain {operand : Parser Term} (ho : P operand) (hr : ReadsPrefix operand) : ∀ {ls : List Level},
    (∀ level ∈ ls, ∀ o ∈ level, plain o.1.toList = true ∧ o.1.toList.isEmpty = false) → ∀ {first : Parser Term}, P first →
      P (chain operand ls first)
  | [], _, _, hfirst => hfirst
  | level :: tighter, hls, first, hfirst => by
    have htighter {first : Parser Term} (hfirst : P first) := chain ho hr
      (fun l hl => hls l (List.mem_cons_of_mem level hl)) hfirst
    have hlevel := hls level List.mem_cons_self
    have hreads : ReadsPrefix (Syntax.chain operand tighter operand) :=
      (agree_chain (n := 0) (.refl hr) tighter (.refl hr)).reads
    exact h.bind (htighter hfirst) (h.leftChain (h.operator hlevel) (.operator fun o ho => (hlevel o ho).2) (htighter ho) hreads)

theorem compoundOperator : P compoundOperator := by
  have hall : ∀ os : List (String × BinaryOp), (∀ o ∈ os, plain o.1.toList) →
      P (os.foldr (fun o p => (do Parser.symbol o.1; return o.2) <|> p) Parser.fail) := by
    intro os hos
    induction os with
    | nil => exact h.fail
    | cons o os ih =>
      exact h.orElse (h.bind (h.symbol (hos o List.mem_cons_self)) fun _ => h.pure _)
        (ih fun o' ho' => hos o' (List.mem_cons_of_mem o ho'))
  exact hall compoundOperators (by decide)

/-! ## Phrases -/

section

variable {nested : Phrase → Parser Term} (hn : Nests P nested)
include hn

theorem expressions : P (expressions nested) := h.sepBy1 (hn.holds .expression) (hn.reads .expression) h.comma .comma

theorem callWithParentheses : P (callWithParentheses nested) :=
  h.bind h.identifier fun _ => h.bind (h.adjacent (by decide)) fun _ => h.bind h.newlines fun _ =>
    h.bind (h.optional (h.expressions hn)) fun _ => h.bind h.newlines fun _ => h.bind (h.symbol (by decide)) fun _ => h.pure _

theorem arrayLiteral : P (arrayLiteral nested) :=
  h.bind (h.symbol (by decide)) fun _ => h.bind h.newlines fun _ => h.bind (h.optional (h.bind (h.expressions hn) fun _ =>
    h.bind (h.optional (h.symbol (by decide))) fun _ => h.pure _)) fun _ => h.bind h.newlines fun _ =>
      h.bind (h.symbol (by decide)) fun _ => h.pure _

theorem keyAndValue : P (keyAndValue nested) :=
  h.bind (hn.holds .expression) fun _ => h.bind (h.symbol (by decide)) fun _ => h.bind h.newlines fun _ =>
    h.bind (hn.holds .expression) fun _ => h.pure _

theorem hashLiteral : P (hashLiteral nested) :=
  have hentries := h.sepBy1 (h.keyAndValue hn) (agree_keyAndValue hn.agree).reads h.comma .comma
  h.bind (h.symbol (by decide)) fun _ => h.bind h.newlines fun _ => h.bind (h.optional (h.bind hentries fun _ =>
    h.bind (h.optional (h.symbol (by decide))) fun _ => h.pure _)) fun _ => h.bind h.newlines fun _ =>
      h.bind (h.symbol (by decide)) fun _ => h.pure _

theorem parenthesized : P (parenthesized nested) :=
  h.bind (h.symbol (by decide)) fun _ => h.bind h.newlines fun _ => h.bind (hn.holds .statement) fun _ =>
    h.bind h.newlines fun _ =>
    h.bind (h.symbol (by decide)) fun _ => h.pure _

theorem elseBranch : P (elseBranch nested) := h.bind (h.keyword (by decide)) fun _ => hn.holds .block

theorem clause {word : String} (hword : word ∈ keywords) : P (clause nested word) :=
  h.bind (h.keyword hword) fun _ => h.bind (hn.holds .expression) fun _ => h.bind (h.bodyStart (by decide)) fun _ =>
    h.bind (hn.holds .block) fun _ => h.pure _

theorem ifExpression : P (ifExpression nested) :=
  h.bind (h.clause hn (by decide)) fun _ => h.bind (h.many (h.clause hn (by decide)) (hn.advances_clause (by decide))) fun _ =>
    h.bind (h.optional (h.elseBranch hn)) fun _ => h.bind (h.keyword (by decide)) fun _ => h.pure _

theorem unlessExpression : P (unlessExpression nested) :=
  h.bind (h.clause hn (by decide)) fun _ => h.bind (h.optional (h.elseBranch hn)) fun _ =>
    h.bind (h.keyword (by decide)) fun _ => h.pure _

theorem whileExpression : P (whileExpression nested) :=
  h.bind (h.keyword (by decide)) fun _ => h.bind (hn.holds .expression) fun _ => h.bind (h.bodyStart (by decide)) fun _ =>
    h.bind (hn.holds .block) fun _ => h.bind (h.keyword (by decide)) fun _ => h.pure _

theorem whenClause : P (whenClause nested) :=
  h.bind (h.keyword (by decide)) fun _ => h.bind (h.expressions hn) fun _ => h.bind (h.bodyStart (by decide)) fun _ =>
    h.bind (hn.holds .block) fun _ => h.pure _

theorem caseExpression : P (caseExpression nested) :=
  h.bind (h.keyword (by decide)) fun _ => h.bind (hn.holds .expression) fun _ => h.bind h.separators fun _ =>
    h.bind (h.many1 (h.whenClause hn) hn.advances_whenClause) fun _ => h.bind (h.optional (h.elseBranch hn)) fun _ =>
      h.bind (h.keyword (by decide)) fun _ => h.pure _

omit hn in
theorem parameters : P parameters :=
  h.orElse (h.bind (h.symbol (by decide)) fun _ => h.bind h.newlines fun _ => h.bind (h.optional (h.sepBy1 h.identifier
    spells_identifier.readsPrefix h.comma .comma)) fun _ =>
    h.bind h.newlines fun _ => h.bind (h.symbol (by decide)) fun _ => h.pure _)
    (h.bind (h.optional (h.sepBy1 h.identifier spells_identifier.readsPrefix (h.symbol (by decide))
      (.symbol (by decide)))) fun _ =>
      h.pure _)

theorem definition : P (definition nested) :=
  h.bind (h.keyword (by decide)) fun _ => h.bind h.identifier fun _ => h.bind h.parameters fun _ =>
    h.bind (hn.holds .block) fun _ =>
    h.bind (h.keyword (by decide)) fun _ => h.pure _

theorem beginExpression : P (beginExpression nested) :=
  h.bind (h.keyword (by decide)) fun _ => h.bind (hn.holds .block) fun _ => h.bind (h.keyword (by decide)) fun _ => h.pure _

omit hn in
theorem literalWord {word : String} {value : Literal} (hword : word ∈ keywords) : P (literalWord word value) :=
  h.bind (h.keyword hword) fun _ => h.pure _

theorem primary : P (primary nested) :=
  h.orElse (h.map h.numeral) <| h.orElse (h.map h.stringLiteral) <| h.orElse (h.literalWord (by decide)) <|
  h.orElse (h.literalWord (by decide)) <| h.orElse (h.literalWord (by decide)) <| h.orElse (h.arrayLiteral hn) <|
  h.orElse (h.hashLiteral hn) <| h.orElse (h.parenthesized hn) <| h.orElse (h.ifExpression hn) <|
  h.orElse (h.unlessExpression hn) <| h.orElse (h.whileExpression hn) <| h.orElse (h.caseExpression hn) <|
  h.orElse (h.definition hn) <| h.orElse (h.beginExpression hn) <| h.orElse (h.callWithParentheses hn) <| h.map h.identifier

theorem indexed : P (indexed nested) := by
  have hindexing : P (indexing nested) := h.bind (h.adjacent (by decide)) fun _ => h.bind h.newlines fun _ =>
    h.bind (hn.holds .expression) fun _ => h.bind h.newlines fun _ => h.bind (h.symbol (by decide)) fun _ => h.pure _
  exact h.bind (h.primary hn) fun _ => h.bind (h.many hindexing hn.advances_indexing) fun _ => h.pure _

theorem negation : P (negation nested) :=
  h.bind (h.symbol (by decide)) fun _ => h.bind (h.notAhead (h.adjacent (by decide))) fun _ =>
    h.bind (hn.holds .negated) fun _ => h.pure _

theorem negated : P (negated nested) := h.orElse (h.negation hn) (h.indexed hn)

theorem power {base : Parser Term} (hbase : P base) : P (power nested base) :=
  h.bind hbase fun _ => h.bind (h.optional (h.bind (h.symbol (by decide)) fun _ => h.bind h.newlines fun _ =>
    hn.holds .signed)) fun _ =>
    h.pure _

theorem minus : P (minus nested) := h.bind (h.symbol (by decide)) fun _ => h.bind (hn.holds .signed) fun _ => h.pure _

theorem signed : P (signed nested) := h.orElse (h.minus hn) (h.power hn (h.negated hn))

theorem expressionFrom {first : Parser Term} (hfirst : P first) : P (expressionFrom nested first) := by
  refine h.bind (h.chain (h.signed hn) (agree_signed hn.agree).reads (by decide) hfirst) fun test =>
    h.bind (h.optional (h.bind (h.symbol (by decide)) fun _ => h.newlines)) fun question? => ?_
  cases question? with
  | none => exact h.pure test
  | some _ =>
    exact h.bind (hn.holds .expression) fun _ => h.bind (h.symbol (by decide)) fun _ => h.bind h.newlines fun _ =>
      h.bind (hn.holds .expression) fun _ => h.pure _

theorem assignment (target : Term) : P (assignment nested target) :=
  h.bind (h.symbol (by decide)) fun _ => h.bind (h.notAhead (h.satisfying (by decide))) fun _ => h.bind h.newlines fun _ =>
    h.bind (hn.holds .value) fun _ => h.ofOption _

theorem compoundAssignment (target : Term) : P (compoundAssignment nested target) :=
  h.bind h.compoundOperator fun _ => h.bind h.newlines fun _ => h.bind (hn.holds .value) fun _ => h.ofOption _

theorem commandCall : P (commandCall nested) := by
  have hargument : P (commandArgument nested) := h.bind (h.notAhead (h.orElse (h.keyword (by decide))
    (h.orElse (h.keyword (by decide)) (h.keyword (by decide))))) fun _ => hn.holds .value
  have hreads : ReadsPrefix (commandArgument nested) := readsPrefix_bind reads_notAhead fun _ => hn.reads .value
  have hsign (c : Cursor) (hc : c.AtSign) : (commandArgument nested c).Idle := by
    have hword (w : String) (hw : w ∈ keywords) : Parser.keyword w c = .fail := (ledBy_keyword hw).fails fun hlead =>
      (by decide : ∀ l ∈ signs.map Lead.mark, l ∉ keywords.map Lead.word) _ hc.lead
        (List.mem_singleton.mp hlead ▸ List.mem_map_of_mem hw)
    have hwords : (Parser.keyword "if" <|> Parser.keyword "unless" <|> Parser.keyword "while" : Parser Unit) c = .fail :=
      (orElse_of_fail (hword _ (by decide))).trans ((orElse_of_fail (hword _ (by decide))).trans (hword _ (by decide)))
    rw [commandArgument, bind_of_done (notAhead_of_fail hwords)]
    exact hn.sign c hc
  exact h.bind h.identifier fun _ => h.bind (h.notAhead (h.adjacent (by decide))) fun _ =>
    h.bind (h.notAhead (h.adjacent (by decide))) fun _ =>
      h.unsigned (h.bind (h.sepBy1 hargument hreads h.comma .comma) fun _ => h.pure _)
        fun c hc => idle_bind (idle_bind (hsign c hc))

theorem value : P (value nested) := by
  rw [value_eq_fork]
  exact h.fork (h.indexed hn) (fun _ => h.orElse (h.assignment hn _) (h.compoundAssignment hn _)) (h.commandCall hn)
    (fun _ => h.expressionFrom hn (h.power hn (h.pure _)))
    (h.expressionFrom hn (h.orElse (h.minus hn) (h.power hn (h.negation hn))))

theorem modifier : P (modifier nested) :=
  h.bind (h.orElse (h.bind (h.keyword (by decide)) fun _ => h.pure _)
    (h.orElse (h.bind (h.keyword (by decide)) fun _ => h.pure _)
    (h.bind (h.keyword (by decide)) fun _ => h.pure _))) fun _ => h.bind (hn.holds .expression) fun _ => h.pure _

theorem statement : P (statement nested) :=
  h.bind (h.value hn) fun _ => h.bind (h.many (h.modifier hn) hn.advances_modifier) fun _ => h.pure _

theorem statements : P (Parser.sepBy1 (Syntax.statement nested) Parser.separators1) :=
  h.sepBy1 (h.statement hn) (agree_statement hn.agree).reads h.separators1 .separators1

theorem block : P (block nested) :=
  h.bind h.separators fun _ => h.bind (h.optional (h.statements hn)) fun _ => h.bind h.separators fun _ => h.pure _

theorem rule : ∀ p, P (rule nested p)
  | .expression => h.expressionFrom hn (h.signed hn)
  | .negated => h.negated hn
  | .signed => h.signed hn
  | .value => h.value hn
  | .statement => h.statement hn
  | .block => h.block hn

end

/-- The property holds of every phrase. -/
theorem phrase : ∀ n p, P (phrase n p)
  | 0, _ => h.giveUp _
  | n + 1, p => h.rule ⟨phrase n, fun p => (spells_phrase n p).readsPrefix, fun _ => idle_value_of_sign⟩ p

end Hereditary

end MinRuby.Syntax
